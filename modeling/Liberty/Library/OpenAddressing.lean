import Mathlib.RingTheory.ZMod.UnitsCyclic
import Mathlib.Tactic.LinearCombination
import Mathlib.Algebra.BigOperators.Group.Finset.Basic
import Mathlib.Algebra.Order.BigOperators.Group.Finset
import Mathlib.Data.Setoid.Basic
import Mathlib.Order.Lattice.Nat

/-!
# The full cycle of `x ↦ 5 x + 1`

Modulo a power of two the sequence `x, 5 x + 1, …` comes to every residue before it comes
back to the first: `4 x + 1` is multiplied by 5 in each step, and 5 has order `2 ^ b`
modulo `2 ^ (b + 2)`.
-/

namespace FullCycle

/-- The `n`-th iterate of `x ↦ 5 x + 1`. -/
def cycle (x : ℤ) (n : ℕ) : ℤ :=
  (fun y => 5 * y + 1)^[n] x

@[simp] theorem cycle_zero (x : ℤ) : cycle x 0 = x := rfl

theorem cycle_succ (x : ℤ) (n : ℕ) : cycle x (n + 1) = 5 * cycle x n + 1 :=
  Function.iterate_succ_apply' _ _ _

theorem cycle_eq (x : ℤ) (n : ℕ) : 4 * cycle x n + 1 = 5 ^ n * (4 * x + 1) := by
  induction n with
  | zero => simp
  | succ n ih =>
    rw [cycle_succ, pow_succ]
    linear_combination 5 * ih

theorem isUnit_four_mul_add_one (b : ℕ) (x : ℤ) : IsUnit ((4 * x + 1 : ℤ) : ZMod (2 ^ b)) := by
  rw [ZMod.coe_int_isUnit_iff_isCoprime]
  have odd : IsCoprime (2 : ℤ) (4 * x + 1) := ⟨-2 * x, 1, by ring⟩
  have := odd.pow_left (m := b)
  exact_mod_cast this

/-- No residue comes twice among the first `2 ^ b`. -/
theorem cycle_inj {b : ℕ} {x : ℤ} {m n : ℕ} (hm : m < 2 ^ b) (hn : n < 2 ^ b)
    (same : (cycle x m : ZMod (2 ^ b)) = cycle x n) : m = n := by
  have congruent : cycle x m ≡ cycle x n [ZMOD (2 ^ b : ℕ)] :=
    (ZMod.intCast_eq_intCast_iff _ _ _).mp same
  have scaled : 4 * cycle x m + 1 ≡ 4 * cycle x n + 1 [ZMOD (2 ^ (b + 2) : ℕ)] := by
    rw [Int.modEq_iff_dvd] at congruent ⊢
    obtain ⟨c, hc⟩ := congruent
    refine ⟨c, ?_⟩
    push_cast at hc ⊢
    linear_combination 4 * hc
  have inRing := (ZMod.intCast_eq_intCast_iff _ _ _).mpr scaled
  rw [cycle_eq, cycle_eq, Int.cast_mul, Int.cast_mul] at inRing
  have powers := (isUnit_four_mul_add_one (b + 2) x).mul_right_cancel inRing
  push_cast at powers
  refine pow_injOn_Iio_orderOf ?_ ?_ powers
  · rw [ZMod.orderOf_five]
    exact hm
  · rw [ZMod.orderOf_five]
    exact hn

/-- **The cycle is full.** -/
theorem exists_cycle_emod_eq (b : ℕ) (x : ℤ) {i : ℤ} (low : 0 ≤ i) (high : i < 2 ^ b) :
    ∃ n < 2 ^ b, cycle x n % 2 ^ b = i := by
  have injective : Function.Injective fun n : Fin (2 ^ b) => (cycle x n : ZMod (2 ^ b)) :=
    fun m n same => Fin.ext (cycle_inj m.isLt n.isLt same)
  have card : Fintype.card (Fin (2 ^ b)) = Fintype.card (ZMod (2 ^ b)) := by
    rw [Fintype.card_fin, ZMod.card]
  obtain ⟨n, hn⟩ := ((Fintype.bijective_iff_injective_and_card _).mpr ⟨injective, card⟩).2
    (i : ZMod (2 ^ b))
  have congruent : cycle x n % (2 ^ b : ℕ) = i % (2 ^ b : ℕ) :=
    (ZMod.intCast_eq_intCast_iff _ _ _).mp hn
  push_cast at congruent
  rw [Int.emod_eq_of_lt low high] at congruent
  exact ⟨n, n.isLt, congruent⟩

end FullCycle

/-!
## Open addressing

A table holds at most one entry in each slot.  Every key has a walk, a sequence of slots
in which its entry is looked for: the search goes on over the entries of other keys and
stops at a free slot or at the entry of the key.  A table is reachable when the search of
every entry's key stops at that entry.
-/

namespace OpenAddressing

/-- The entries of a table, their keys and the walk of each key. -/
structure Probing (ε κ σ : Type) [Setoid κ] where
  key : ε → κ
  probe : κ → ℕ → σ
  probe_congr : ∀ {a b : κ}, a ≈ b → probe a = probe b

variable {ε κ σ : Type} [Setoid κ] (p : Probing ε κ σ)

/-- The first `n` slots of the walk of `k` hold entries of other keys. -/
def Passes (t : σ → Option ε) (k : κ) (n : ℕ) : Prop :=
  ∀ m < n, ∃ e, t (p.probe k m) = some e ∧ ¬p.key e ≈ k

/-- The search of `k` stops at the `n`-th slot of its walk. -/
structure Stops (t : σ → Option ε) (k : κ) (n : ℕ) : Prop where
  passes : Passes p t k n
  stop : ∀ e, t (p.probe k n) = some e → p.key e ≈ k

/-- The search of `k` comes to the slot `i`. -/
def Leads (t : σ → Option ε) (k : κ) (i : σ) : Prop :=
  ∃ n, Passes p t k n ∧ p.probe k n = i

/-- Every entry is where the search of its key stops. -/
def Reachable (t : σ → Option ε) : Prop :=
  ∀ i e, t i = some e → Leads p t (p.key e) i

/-- Every key has one entry at most. -/
def Distinct (t : σ → Option ε) : Prop :=
  ∀ i j a b, t i = some a → t j = some b → p.key a ≈ p.key b → i = j

variable {p} {t t' : σ → Option ε} {k k' : κ} {m n : ℕ} {i j : σ} {e : ε}

/-! ## The search -/

theorem Passes.zero : Passes p t k 0 :=
  fun _ low => absurd low (Nat.not_lt_zero _)

theorem Passes.succ (h : Passes p t k n) (occupied : t (p.probe k n) = some e)
    (other : ¬p.key e ≈ k) : Passes p t k (n + 1) := by
  intro m low
  rcases Nat.lt_succ_iff_lt_or_eq.mp low with before | last
  · exact h m before
  · rw [last]
    exact ⟨e, occupied, other⟩

theorem Passes.congr (h : Passes p t k n) (same : k ≈ k') : Passes p t k' n := by
  intro m low
  obtain ⟨e, occupied, other⟩ := h m low
  rw [← p.probe_congr same]
  exact ⟨e, occupied, fun eq => other (Setoid.trans eq (Setoid.symm same))⟩

theorem Stops.congr (h : Stops p t k n) (same : k ≈ k') : Stops p t k' n := by
  refine ⟨h.passes.congr same, fun e occupied => ?_⟩
  rw [← p.probe_congr same] at occupied
  exact Setoid.trans (h.stop e occupied) same

/-- A search that passes over a slot does not stop there. -/
theorem Stops.not_lt (h : Stops p t k n) (passes : Passes p t k m) : ¬n < m := by
  intro low
  obtain ⟨e, occupied, other⟩ := passes n low
  exact other (h.stop e occupied)

theorem Stops.unique (h : Stops p t k m) (h' : Stops p t k n) : m = n :=
  Nat.le_antisymm (Nat.not_lt.mp (h'.not_lt h.passes)) (Nat.not_lt.mp (h.not_lt h'.passes))

/-- A walk that comes to a free slot stops there at the latest. -/
theorem exists_stops_of_free (free : t (p.probe k n) = none) : ∃ m ≤ n, Stops p t k m := by
  classical
  let Stop (m : ℕ) : Prop := ∀ e, t (p.probe k m) = some e → p.key e ≈ k
  have some_stop : ∃ m, Stop m := ⟨n, fun e occupied => by rw [free] at occupied; cases occupied⟩
  refine ⟨Nat.find some_stop, Nat.find_min' some_stop ?_, ?_, Nat.find_spec some_stop⟩
  · intro e occupied
    rw [free] at occupied
    cases occupied
  · intro m before
    have := Nat.find_min some_stop before
    rw [not_forall] at this
    obtain ⟨e, he⟩ := this
    rw [Classical.not_imp] at he
    exact ⟨e, he⟩

/-- The search of a present key stops at its entry. -/
theorem Reachable.stops_at (h : Reachable p t)
    (stops : Stops p t k n) (occupied : t i = some e) (same : p.key e ≈ k) :
    p.probe k n = i := by
  obtain ⟨m, passes, at_i⟩ := h i e occupied
  have here : Stops p t (p.key e) m := by
    refine ⟨passes, fun e' found => ?_⟩
    rw [at_i, occupied] at found
    cases found
    exact Setoid.refl _
  rw [stops.unique (here.congr same), ← p.probe_congr same]
  exact at_i

/-- A search that stops at a free slot before it comes to the entry of its key. -/
theorem Stops.lt_of_free (h : Stops p t (p.key e) n) (free : t (p.probe (p.key e) n) = none)
    (occupied : t i = some e) (at_i : p.probe (p.key e) m = i) : n < m := by
  rcases Nat.lt_trichotomy n m with before | same | after
  · exact before
  · rw [same, at_i, occupied] at free
    cases free
  · obtain ⟨a, found, other⟩ := h.passes m after
    rw [at_i, occupied] at found
    cases found
    exact absurd (Setoid.refl _) other

/-! ## Changes of the table -/

/-- A table that holds an entry of the same key wherever the former held one. -/
theorem Passes.grow (h : Passes p t k n)
    (kept : ∀ i e, t i = some e → ∃ e', t' i = some e' ∧ p.key e' ≈ p.key e) :
    Passes p t' k n := by
  intro m low
  obtain ⟨e, occupied, other⟩ := h m low
  obtain ⟨e', occupied', same⟩ := kept _ e occupied
  exact ⟨e', occupied', fun eq => other (Setoid.trans (Setoid.symm same) eq)⟩

theorem Reachable.grow (h : Reachable p t)
    (kept : ∀ i e, t i = some e → ∃ e', t' i = some e' ∧ p.key e' ≈ p.key e)
    (fresh : ∀ i e', t' i = some e' →
      (∃ e, t i = some e ∧ p.key e ≈ p.key e') ∨ Leads p t (p.key e') i) :
    Reachable p t' := by
  intro i e' occupied'
  have leads : Leads p t (p.key e') i := by
    rcases fresh i e' occupied' with ⟨e, occupied, same⟩ | leads
    · obtain ⟨n, passes, at_i⟩ := h i e occupied
      exact ⟨n, passes.congr same, by rw [← p.probe_congr same]; exact at_i⟩
    · exact leads
  obtain ⟨n, passes, at_i⟩ := leads
  exact ⟨n, passes.grow kept, at_i⟩

/-! ## The ranks of the entries -/

/-- How far the slot `i` is on the walk of `k`. -/
noncomputable def rank (p : Probing ε κ σ) (k : κ) (i : σ) : ℕ :=
  sInf {n | p.probe k n = i}

/-- The sum of the ranks of the entries in the slots `s`. -/
noncomputable def potential (p : Probing ε κ σ) (s : Finset σ) (t : σ → Option ε) : ℕ :=
  ∑ i ∈ s, (t i).elim 0 fun e => rank p (p.key e) i

theorem rank_le (at_i : p.probe k n = i) : rank p k i ≤ n :=
  Nat.sInf_le at_i

theorem probe_rank (at_i : p.probe k n = i) : p.probe k (rank p k i) = i :=
  Nat.sInf_mem (s := {n | p.probe k n = i}) ⟨n, at_i⟩

theorem potential_le {s : Finset σ} {bound : ℕ}
    (on_walk : ∀ i ∈ s, ∀ k, ∃ n ≤ bound, p.probe k n = i) :
    potential p s t ≤ s.card * bound := by
  refine Finset.sum_le_card_nsmul _ _ _ fun i inside => ?_
  cases t i with
  | none => exact Nat.zero_le _
  | some e =>
    obtain ⟨n, le, at_i⟩ := on_walk i inside (p.key e)
    exact (rank_le at_i).trans le

/-! ## Single slots -/

variable [DecidableEq σ]

/-- A new entry at the free slot where the search of its key stops. -/
theorem Reachable.insert (h : Reachable p t) (leads : Leads p t (p.key e) i) (free : t i = none) :
    Reachable p (Function.update t i (some e)) := by
  refine h.grow (fun j a occupied => ?_) (fun j a occupied => ?_)
  · have other : j ≠ i := by
      intro eq
      rw [eq, free] at occupied
      cases occupied
    exact ⟨a, by rw [Function.update_of_ne other]; exact occupied, Setoid.refl _⟩
  · by_cases here : j = i
    · rw [here, Function.update_self] at occupied
      cases occupied
      rw [here]
      exact Or.inr leads
    · rw [Function.update_of_ne here] at occupied
      exact Or.inl ⟨a, occupied, Setoid.refl _⟩

theorem Distinct.insert (h : Distinct p t)
    (absent : ∀ j a, t j = some a → ¬p.key a ≈ p.key e) :
    Distinct p (Function.update t i (some e)) := by
  intro x y a b hx hy same
  rw [Function.update_apply] at hx hy
  split at hx <;> split at hy
  · rename_i hx' hy'
    rw [hx', hy']
  · cases hx
    exact absurd (Setoid.symm same) (absent y b hy)
  · cases hy
    exact absurd same (absent x a hx)
  · exact h x y a b hx hy same

/-- Another entry of the key in the slot `i`. -/
theorem Reachable.replace {e' : ε} (h : Reachable p t) (occupied : t i = some e)
    (same : p.key e' ≈ p.key e) : Reachable p (Function.update t i (some e')) := by
  refine h.grow (fun j a found => ?_) (fun j a found => ?_)
  · by_cases here : j = i
    · rw [here, occupied] at found
      cases found
      exact ⟨e', by rw [here, Function.update_self], same⟩
    · exact ⟨a, by rw [Function.update_of_ne here]; exact found, Setoid.refl _⟩
  · by_cases here : j = i
    · rw [here, Function.update_self] at found
      cases found
      exact Or.inl ⟨e, by rw [here]; exact occupied, Setoid.symm same⟩
    · rw [Function.update_of_ne here] at found
      exact Or.inl ⟨a, found, Setoid.refl _⟩

theorem Distinct.replace {e' : ε} (h : Distinct p t) (occupied : t i = some e)
    (same : p.key e' ≈ p.key e) : Distinct p (Function.update t i (some e')) := by
  have origin : ∀ x a, Function.update t i (some e') x = some a →
      ∃ b, t x = some b ∧ p.key a ≈ p.key b := by
    intro x a found
    by_cases here : x = i
    · rw [here, Function.update_self] at found
      cases found
      exact ⟨e, by rw [here]; exact occupied, same⟩
    · rw [Function.update_of_ne here] at found
      exact ⟨a, found, Setoid.refl _⟩
  intro x y a b hx hy eq
  obtain ⟨a', hx', sameA⟩ := origin x a hx
  obtain ⟨b', hy', sameB⟩ := origin y b hy
  exact h x y a' b' hx' hy' (Setoid.trans (Setoid.symm sameA) (Setoid.trans eq sameB))

theorem Distinct.erase (h : Distinct p t) : Distinct p (Function.update t i none) := by
  intro x y a b hx hy same
  rw [Function.update_apply] at hx hy
  split at hx
  · cases hx
  split at hy
  · cases hy
  exact h x y a b hx hy same

/-- A slot that no search of another entry passes over can be freed. -/
theorem Reachable.erase (h : Reachable p t)
    (apart : ∀ j e, t j = some e → j ≠ i → ∀ n, Passes p t (p.key e) n →
      p.probe (p.key e) n = j → ∀ m < n, p.probe (p.key e) m ≠ i) :
    Reachable p (Function.update t i none) := by
  intro j e occupied
  have other : j ≠ i := by
    intro eq
    rw [eq, Function.update_self] at occupied
    cases occupied
  rw [Function.update_of_ne other] at occupied
  obtain ⟨n, passes, at_j⟩ := h j e occupied
  refine ⟨n, fun m low => ?_, at_j⟩
  rw [Function.update_of_ne (apart j e occupied other n passes at_j m low)]
  exact passes m low

/-! ## Moving an entry back on its walk -/

/-- The entry `e` of the slot `i` moved to the slot `j`. -/
def move (t : σ → Option ε) (e : ε) (i j : σ) : σ → Option ε :=
  Function.update (Function.update t j (some e)) i none

theorem move_eq_some {x : σ} {a : ε} (occupied : t i = some e) (free : t j = none) :
    move t e i j x = some a ↔ (x = j ∧ a = e) ∨ (x ≠ i ∧ x ≠ j ∧ t x = some a) := by
  have apart : i ≠ j := by
    intro eq
    rw [eq, free] at occupied
    cases occupied
  unfold move
  rw [Function.update_apply, Function.update_apply]
  split
  · rename_i at_i
    constructor
    · intro h
      cases h
    · rintro (⟨at_j, -⟩ | ⟨not_i, -⟩)
      · exact absurd (at_i.symm.trans at_j) apart
      · exact absurd at_i not_i
  · split
    · rename_i not_i at_j
      constructor
      · intro h
        cases h
        exact Or.inl ⟨at_j, rfl⟩
      · rintro (⟨-, rfl⟩ | ⟨-, not_j, -⟩)
        · rfl
        · exact absurd at_j not_j
    · rename_i not_i not_j
      constructor
      · intro h
        exact Or.inr ⟨not_i, not_j, h⟩
      · rintro (⟨at_j, -⟩ | ⟨-, -, h⟩)
        · exact absurd at_j not_j
        · exact h

theorem Distinct.move (h : Distinct p t) (occupied : t i = some e) (free : t j = none) :
    Distinct p (move t e i j) := by
  intro x y a b hx hy same
  rw [move_eq_some occupied free] at hx hy
  rcases hx with ⟨rfl, rfl⟩ | ⟨not_i, -, hx⟩ <;> rcases hy with ⟨rfl, rfl⟩ | ⟨not_i', -, hy⟩
  · rfl
  · exact absurd (h i y a b occupied hy same).symm not_i'
  · exact absurd (h x i a b hx occupied same) not_i
  · exact h x y a b hx hy same

/-- Moving an entry to the free slot where its search stops makes the potential smaller. -/
theorem potential_move_lt {s : Finset σ} (inside : i ∈ s) (inside' : p.probe (p.key e) n ∈ s)
    (h : Stops p t (p.key e) n) (free : t (p.probe (p.key e) n) = none)
    (occupied : t i = some e) (at_i : p.probe (p.key e) m = i) :
    potential p s (move t e i (p.probe (p.key e) n)) < potential p s t := by
  set j := p.probe (p.key e) n with at_j
  have apart : i ≠ j := by
    intro eq
    rw [← eq, occupied] at free
    cases free
  have smaller : rank p (p.key e) j < rank p (p.key e) i :=
    lt_of_le_of_lt (rank_le at_j.symm) (h.lt_of_free free occupied (probe_rank at_i))
  have other : i ∈ s.erase j := Finset.mem_erase.mpr ⟨apart, inside⟩
  unfold potential
  rw [← Finset.add_sum_erase s _ inside', ← Finset.add_sum_erase s _ inside',
    ← Finset.add_sum_erase (s.erase j) _ other, ← Finset.add_sum_erase (s.erase j) _ other]
  have rest : ∀ x ∈ (s.erase j).erase i, move t e i j x = t x := by
    intro x member
    rw [Finset.mem_erase, Finset.mem_erase] at member
    unfold move
    rw [Function.update_of_ne member.1, Function.update_of_ne member.2.1]
  have restSum : (∑ x ∈ (s.erase j).erase i,
      (move t e i j x).elim 0 fun e => rank p (p.key e) x) =
      ∑ x ∈ (s.erase j).erase i, (t x).elim 0 fun e => rank p (p.key e) x :=
    Finset.sum_congr rfl fun x member => by rw [rest x member]
  have to_j : move t e i j j = some e := by
    unfold move
    rw [Function.update_of_ne apart.symm, Function.update_self]
  have from_i : move t e i j i = none := Function.update_self _ _ _
  rw [restSum, to_j, from_i, free, occupied]
  dsimp only [Option.elim]
  omega

end OpenAddressing
