import Liberty.Compiler.InspectStatement
import Mathlib.Algebra.Order.Ring.Int
import Mathlib.Tactic.Linarith
import Mathlib.Tactic.Push

/-!
# The merge of similar when clauses

The clauses before `i1` keep their compounds while the loops go down, so that a clause is merged exactly when
its compound is the one of an earlier clause.
-/

namespace Liberty

variable {ε ι σ ρ : Type} [DecidableEq ι]

namespace InspectStatement

/-- The clause at `j` has the compound of an earlier one. -/
def Repeats (compiler : Simplifier ε ι) (wl : List (WhenClause ι)) (j : ℕ) : Prop :=
  ∃ k < j, ∃ wc1 wc2, wl[j]? = some wc1 ∧ wl[k]? = some wc2 ∧
    sameCompound compiler wc1.compound wc2.compound = true

/-- A clause has the value, and its compound behaves so. -/
def Selects (meaning : Interpretation ε ι σ ρ) (wl : List (WhenClause ι)) (v : Int) (effect : σ → Outcome σ ρ) :
    Prop :=
  ∃ wc ∈ wl, wc.has v = true ∧ meaning.run wc.compound = effect

/-- What the outer loop keeps: what the values select, and which clauses after `i1` are still there. -/
structure Merging (compiler : Simplifier ε ι) (meaning : Interpretation ε ι σ ρ) (wl : List (WhenClause ι)) (i1 : ℕ)
    (merged : List (WhenClause ι)) : Prop where
  selects : ∀ v effect, Selects meaning merged v effect ↔ Selects meaning wl v effect
  low : i1 < merged.length
  kept : ∀ j ≤ i1, merged[j]?.map WhenClause.compound = wl[j]?.map WhenClause.compound
  count : merged.length = i1 + 1 ↔ ∀ j, i1 < j → j < wl.length → Repeats compiler wl j

omit [DecidableEq ι] in
theorem has_createMergedWith (whenClause other : WhenClause ι) (v : Int) :
    (whenClause.createMergedWith other).has v = (whenClause.has v || other.has v) := by
  simp only [WhenClause.has, WhenClause.createMergedWith, List.any_append]

variable {compiler : Simplifier ε ι} {meaning : Interpretation ε ι σ ρ} {wl merged : List (WhenClause ι)} {i1 : ℕ}

omit [DecidableEq ι] in
/-- Moving the clause at `i1` into the one at `k`, which behaves alike, changes nothing that is selected. -/
theorem selects_move {wc1 wc2 : WhenClause ι} {k : ℕ} (before : k < i1) (at1 : merged[i1]? = some wc1)
    (at2 : merged[k]? = some wc2) (alike : meaning.run wc1.compound = meaning.run wc2.compound) (v : Int)
    (effect : σ → Outcome σ ρ) :
    Selects meaning ((merged.set k (wc2.createMergedWith wc1)).eraseIdx i1) v effect ↔
      Selects meaning merged v effect := by
  have k_lt : k < merged.length := by
    have := (List.getElem?_eq_some_iff.mp at1).1
    omega
  have moved : (merged.set k (wc2.createMergedWith wc1))[k]? = some (wc2.createMergedWith wc1) := by
    rw [List.getElem?_set_self k_lt]
  constructor
  · intro ⟨wc, mem, has, same⟩
    obtain ⟨j, other, at_j⟩ := List.mem_eraseIdx_iff_getElem?.mp mem
    by_cases here : j = k
    · subst here
      obtain rfl : wc2.createMergedWith wc1 = wc := Option.some.inj (moved.symm.trans at_j)
      rw [has_createMergedWith, Bool.or_eq_true] at has
      rcases has with has | has
      · exact ⟨wc2, List.mem_of_getElem? at2, has, same⟩
      · exact ⟨wc1, List.mem_of_getElem? at1, has, alike.trans same⟩
    · rw [List.getElem?_set_ne (Ne.symm here)] at at_j
      exact ⟨wc, List.mem_of_getElem? at_j, has, same⟩
  · intro ⟨wc, mem, has, same⟩
    obtain ⟨j, at_j⟩ := List.mem_iff_getElem?.mp mem
    have into : ∀ (has' : (wc2.createMergedWith wc1).has v = true), meaning.run wc2.compound = effect →
        Selects meaning ((merged.set k (wc2.createMergedWith wc1)).eraseIdx i1) v effect := fun has' same' =>
      ⟨wc2.createMergedWith wc1, List.mem_eraseIdx_iff_getElem?.mpr ⟨k, Nat.ne_of_lt before, moved⟩, has', same'⟩
    by_cases here : j = k
    · subst here
      obtain rfl : wc2 = wc := Option.some.inj (at2.symm.trans at_j)
      exact into (by rw [has_createMergedWith, has, Bool.true_or]) same
    · by_cases last : j = i1
      · subst last
        obtain rfl : wc1 = wc := Option.some.inj (at1.symm.trans at_j)
        exact into (by rw [has_createMergedWith, has, Bool.or_true]) (alike.symm.trans same)
      · refine ⟨wc, List.mem_eraseIdx_iff_getElem?.mpr ⟨j, last, ?_⟩, has, same⟩
        rw [List.getElem?_set_ne (Ne.symm here)]
        exact at_j

theorem compound_of_kept {compound : Option ι} {j : ℕ} (h : Merging compiler meaning wl i1 merged) (le : j ≤ i1)
    {wc : WhenClause ι} (at_j : merged[j]? = some wc) (same : wc.compound = compound) :
    ∃ wc', wl[j]? = some wc' ∧ wc'.compound = compound := by
  have kept := h.kept j le
  rw [at_j, Option.map_some] at kept
  obtain ⟨wc', at_j', same'⟩ := Option.map_eq_some_iff.mp kept.symm
  exact ⟨wc', at_j', same'.trans same⟩

/-- The step of the inner loop that merges. -/
theorem Merging.move (respects : meaning.Respects compiler) (h : Merging compiler meaning wl i1 merged)
    {wc1 wc2 : WhenClause ι} {k : ℕ} (before : k < i1) (at1 : merged[i1]? = some wc1) (at2 : merged[k]? = some wc2)
    (same : sameCompound compiler wc1.compound wc2.compound = true) :
    Merging compiler meaning wl (i1 - 1) ((merged.set k (wc2.createMergedWith wc1)).eraseIdx i1) := by
  have low := h.low
  have length : ((merged.set k (wc2.createMergedWith wc1)).eraseIdx i1).length = merged.length - 1 := by
    rw [List.length_eraseIdx, List.length_set, if_pos low]
  have repeats : Repeats compiler wl i1 := by
    obtain ⟨wc1', at1', same1⟩ := compound_of_kept h (Nat.le_refl _) at1 rfl
    obtain ⟨wc2', at2', same2⟩ := compound_of_kept h (Nat.le_of_lt before) at2 rfl
    exact ⟨k, before, wc1', wc2', at1', at2', by rw [same1, same2]; exact same⟩
  refine ⟨fun v effect => ?_, ?_, fun j le => ?_, ?_⟩
  · rw [selects_move before at1 at2 (respects.same _ _ same) v effect]
    exact h.selects v effect
  · rw [length]
    omega
  · rw [List.getElem?_eraseIdx_of_lt (by omega), ← h.kept j (by omega)]
    by_cases here : k = j
    · subst here
      rw [List.getElem?_set_self (by omega), at2]
      rfl
    · rw [List.getElem?_set_ne here]
  · rw [length]
    have shorter : merged.length - 1 = i1 - 1 + 1 ↔ merged.length = i1 + 1 := by omega
    rw [shorter, h.count]
    constructor
    · intro all j above inside
      by_cases here : j = i1
      · exact here ▸ repeats
      · exact all j (by omega) inside
    · exact fun all j above inside => all j (by omega) inside

/-- The step of the outer loop, from a clause that has been compared with all those before it. -/
theorem Merging.down (h : Merging compiler meaning wl i1 merged) (new : ¬ Repeats compiler wl i1) :
    Merging compiler meaning wl (i1 - 1) merged := by
  have low := h.low
  by_cases first : i1 = 0
  · subst first
    exact h
  · refine ⟨h.selects, by omega, fun j le => h.kept j (by omega), ?_⟩
    constructor
    · intro same
      omega
    · intro all
      obtain ⟨wc, at1⟩ : ∃ wc, merged[i1]? = some wc := ⟨_, List.getElem?_eq_getElem low⟩
      obtain ⟨wc', at1', -⟩ := compound_of_kept h (Nat.le_refl _) at1 rfl
      exact absurd (all i1 (by omega) (List.getElem?_eq_some_iff.mp at1').1) new

/-! ## The loops -/

omit [DecidableEq ι] in
theorem item_natCast (wl : List (WhenClause ι)) (i : ℕ) : item wl (i : Int) = wl[i]? := by
  unfold item
  rw [if_pos (Int.natCast_nonneg i), Int.toNat_natCast]

end InspectStatement

end Liberty
