import Liberty.Library.LinkedNodes
import Mathlib.Data.Int.Notation
import Mathlib.Data.List.InsertIdx
import Mathlib.Data.List.Basic

/-!
# Sequences kept in linked nodes

The nodes of a chain carry the items of a sequence; a cursor is a position in the chain,
counted from 1, with the node that stands there.
-/

namespace LinkedNodes

variable {E : Type}

/-- The nodes `l`, from `first` to `last`, carry the items `xs`. -/
structure Carries (next : ℕ → Option ℕ) (item : ℕ → Option E) (first last : Option ℕ)
    (l : List ℕ) (xs : List E) : Prop where
  chain : Chain next first l
  items : l.map item = xs.map some
  last_eq : last = l.getLast?

/-- The cursor is nowhere in an empty list, and else on the node at its position. -/
def Cursor (l : List ℕ) (index : Int) (node : Option ℕ) : Prop :=
  (l = [] ∧ index = 0 ∧ node = none) ∨ ∃ k : ℕ, k < l.length ∧ index = k + 1 ∧ node = l[k]?

variable {next next' : ℕ → Option ℕ} {item item' : ℕ → Option E} {first last last' : Option ℕ}
  {l l' : List ℕ} {xs : List E} {a b : ℕ} {x : E}

/-! ## Lists -/

/-- Two nodes that stand one after the other. -/
theorem exists_pair {k : ℕ} (less : k + 1 < l.length) :
    ∃ l₁ b c l₂, l = l₁ ++ b :: c :: l₂ ∧ l₁.length = k := by
  refine ⟨l.take k, l[k], l[k + 1], l.drop (k + 2), ?_, List.length_take_of_le (by omega)⟩
  rw [List.getElem_cons_drop, List.getElem_cons_drop, List.take_append_drop]

theorem getElem?_middle (l : List ℕ) (b : ℕ) (l' : List ℕ) : (l ++ b :: l')[l.length]? = some b := by
  rw [List.getElem?_append_right (Nat.le_refl _), Nat.sub_self]
  rfl

theorem Cursor.middle {l : List ℕ} {k : ℕ} (before : l.length + 1 = k) (b : ℕ) (l' : List ℕ) :
    Cursor (l ++ b :: l') ((k : Int) + 1 - 1) (some b) := by
  refine Or.inr ⟨l.length, ?_, by omega, (getElem?_middle l b l').symm⟩
  rw [List.length_append, List.length_cons]
  omega

theorem insertIdx_after (l : List ℕ) (b a : ℕ) (l' : List ℕ) :
    (l ++ b :: l').insertIdx (l.length + 1) a = l ++ b :: a :: l' := by
  induction l with
  | nil => rfl
  | cons c l ih => exact congrArg (List.cons c) ih

theorem eraseIdx_after (l : List ℕ) (b a : ℕ) (l' : List ℕ) :
    (l ++ b :: a :: l').eraseIdx (l.length + 1) = l ++ b :: l' := by
  induction l with
  | nil => rfl
  | cons c l ih => exact congrArg (List.cons c) ih

/-! ## Changes of a sequence -/

theorem Carries.nil : Carries next item none none [] ([] : List E) :=
  ⟨rfl, rfl, rfl⟩

theorem Carries.single (alone : next a = none) (written : item a = some x) :
    Carries next item (some a) (some a) [a] [x] :=
  ⟨⟨rfl, alone⟩, congrArg (fun o => [o]) written, rfl⟩

theorem Carries.length_eq (h : Carries next item first last l xs) : l.length = xs.length := by
  have lengths := congrArg List.length h.items
  rwa [List.length_map, List.length_map] at lengths

theorem Carries.item_eq (h : Carries next item first last l xs) {k : ℕ} (at_k : l[k]? = some a) :
    item a = xs[k]? := by
  have less : k < xs.length := by
    rw [← h.length_eq]
    exact (List.getElem?_eq_some_iff.mp at_k).1
  have cells := congrArg (fun l => l[k]?) h.items
  simp only [List.getElem?_map, at_k, Option.map_some, List.getElem?_eq_getElem less,
    Option.some.injEq] at cells
  rw [cells, List.getElem?_eq_getElem less]

/-- The head of a sequence that is not empty. -/
theorem Carries.exists_head (h : Carries next item first last l xs) (head : first = some a) :
    ∃ l', l = a :: l' := by
  have chain := h.chain
  rw [head] at chain
  cases l with
  | nil => cases chain
  | cons b l' =>
    cases chain.1
    exact ⟨l', rfl⟩

theorem Carries.congr (h : Carries next item first last l xs)
    (same : ∀ b ∈ l, next' b = next b) (kept : ∀ b ∈ l, item' b = item b) :
    Carries next' item' first last l xs := by
  refine ⟨h.chain.congr same, ?_, h.last_eq⟩
  rw [List.map_congr_left kept]
  exact h.items

theorem Carries.push (h : Carries next item first last l xs)
    (same : ∀ b ∈ l, next' b = next b) (kept : ∀ b ∈ l, item' b = item b)
    (linked : next' a = first) (written : item' a = some x)
    (ends : last' = (a :: l).getLast?) : Carries next' item' (some a) last' (a :: l) (x :: xs) := by
  refine ⟨h.chain.push same linked, ?_, ends⟩
  rw [List.map_cons, List.map_cons, written, List.map_congr_left kept, h.items]

theorem Carries.pop (h : Carries next item first last (a :: l) xs)
    (same : ∀ b ∈ l, next' b = next b) (kept : ∀ b ∈ l, item' b = item b)
    (ends : last' = l.getLast?) : Carries next' item' (next a) last' l xs.tail := by
  refine ⟨h.chain.2.congr same, ?_, ends⟩
  have items := congrArg List.tail h.items
  rw [List.map_congr_left kept, List.map_tail]
  exact items

theorem Carries.insertAfter (h : Carries next item first last (l ++ b :: l') xs)
    (same : ∀ c ∈ l ++ l', next' c = next c) (kept : ∀ c ∈ l ++ b :: l', item' c = item c)
    (linked : next' b = some a) (before : next' a = next b) (written : item' a = some x)
    (ends : last' = (l ++ b :: a :: l').getLast?) :
    Carries next' item' first last' (l ++ b :: a :: l') (xs.insertIdx (l.length + 1) x) := by
  refine ⟨h.chain.insertAfter same linked before, ?_, ends⟩
  rw [← insertIdx_after, List.map_insertIdx, List.map_congr_left kept, h.items, written,
    List.map_insertIdx]

theorem Carries.unlinkAfter (h : Carries next item first last (l ++ b :: a :: l') xs)
    (same : ∀ c ∈ l ++ l', next' c = next c) (kept : ∀ c ∈ l ++ b :: l', item' c = item c)
    (linked : next' b = next a) (ends : last' = (l ++ b :: l').getLast?) :
    Carries next' item' first last' (l ++ b :: l') (xs.eraseIdx (l.length + 1)) := by
  refine ⟨h.chain.unlink same linked, ?_, ends⟩
  rw [List.map_congr_left kept, ← eraseIdx_after l b a l', ← List.eraseIdx_map, h.items,
    List.eraseIdx_map]

theorem Carries.set (h : Carries next item first last l xs) {k : ℕ} (at_k : l[k]? = some a)
    (same : ∀ b ∈ l, next' b = next b) (kept : ∀ b ∈ l, b ≠ a → item' b = item b)
    (written : item' a = some x) : Carries next' item' first last l (xs.set k x) := by
  refine ⟨h.chain.congr same, ?_, h.last_eq⟩
  obtain ⟨less, rfl⟩ := List.getElem?_eq_some_iff.mp at_k
  rw [List.map_set, ← h.items]
  apply List.ext_getElem?
  intro j
  rw [List.getElem?_map, List.getElem?_set]
  by_cases here : k = j
  · subst here
    rw [if_pos rfl, if_pos (by rw [List.length_map]; exact less), at_k, Option.map_some, written]
  · rw [if_neg here, List.getElem?_map]
    cases at_j : l[j]? with
    | none => rfl
    | some b =>
      refine congrArg some (kept b (List.mem_of_getElem? at_j) ?_)
      rintro rfl
      exact here ((List.getElem?_inj less h.chain.nodup).mp (at_k.trans at_j.symm))

/-! ## The cursor -/

/-- A cursor with the node at its position in another list. -/
theorem Cursor.congr {index : Int} {node : Option ℕ} (h : Cursor l index node) (some : l ≠ [])
    (same : ∀ k : ℕ, k < l.length → index = k + 1 → l'[k]? = l[k]?) : Cursor l' index node := by
  rcases h with ⟨empty, -⟩ | ⟨k, less, at_k, at_node⟩
  · exact absurd empty some
  · have there := same k less at_k
    refine Or.inr ⟨k, ?_, at_k, at_node.trans there.symm⟩
    rw [List.getElem?_eq_getElem less] at there
    exact (List.getElem?_eq_some_iff.mp there).1

/-- `from until i = mem_idx loop mem_lnk := mem_lnk.next; mem_idx := mem_idx + 1 end`, and its
mirror for the other link. -/
def stepsTo {α : Type} (link : Link α) (node : Memory α) (delta i : Int) (fuel : ℕ)
    (cursor : Int × Option ℕ) : Option (Int × Option ℕ) :=
  untilLoop (fun s => some (decide (i = s.1)))
    (fun s => do return (s.1 + delta, link.get (← node (← s.2)))) fuel cursor

variable {α : Type} {link : Link α} {node : Memory α}

theorem stepsTo_eq {delta i : Int} {fuel n : ℕ} (visit : ℕ → ℕ)
    (allocated : ∀ m < n, ∃ y, node (visit m) = some y)
    (links : ∀ m < n, nextOf link node (visit m) = some (visit (m + 1)))
    (ahead : delta = 1 ∨ delta = -1) (enough : n ≤ fuel) :
    stepsTo link node delta i fuel (i - delta * n, some (visit 0)) = some (i, some (visit n)) := by
  induction n generalizing fuel visit with
  | zero =>
    have here : i - delta * ((0 : ℕ) : Int) = i := by omega
    rw [here]
    exact untilLoop_stopped (congrArg some (decide_eq_true rfl))
  | succ n ih =>
    obtain ⟨fuel, rfl⟩ : ∃ f, fuel = f + 1 := ⟨fuel - 1, by omega⟩
    obtain ⟨y, at_0⟩ := allocated 0 (by omega)
    have other : i ≠ i - delta * ((n + 1 : ℕ) : Int) := by
      rcases ahead with rfl | rfl <;> omega
    have moved : i - delta * ((n + 1 : ℕ) : Int) + delta = i - delta * n := by
      rcases ahead with rfl | rfl <;> omega
    have linked := links 0 (by omega)
    rw [nextOf_eq at_0] at linked
    have rest := ih (fun m => visit (m + 1)) (fun m less => allocated (m + 1) (by omega))
      (fun m less => links (m + 1) (by omega)) (show n ≤ fuel by omega)
    unfold stepsTo at rest ⊢
    rw [untilLoop]
    simp only [Option.bind_eq_bind, Option.bind_some, decide_eq_false other, at_0, linked,
      Option.pure_def, Bool.false_eq_true, if_false, moved]
    exact rest

theorem Chain.stepsTo_eq (h : Chain (nextOf link node) first l)
    (allocated : ∀ a ∈ l, ∃ y, node a = some y) {j k fuel : ℕ} (order : j ≤ k)
    (less : k < l.length) (enough : k - j ≤ fuel) :
    stepsTo link node 1 ((k : Int) + 1) fuel ((j : Int) + 1, l[j]?) =
      some ((k : Int) + 1, l[k]?) := by
  have inside : ∀ m ≤ k - j, j + m < l.length := fun m le => by omega
  have visits : ∀ m ≤ k - j, l[j + m]? = some (l[j + m]?.getD 0) := by
    intro m le
    rw [List.getElem?_eq_getElem (inside m le)]
    rfl
  have member : ∀ m ≤ k - j, l[j + m]?.getD 0 ∈ l := fun m le =>
    List.mem_of_getElem? (visits m le)
  have walked := @LinkedNodes.stepsTo_eq α link node 1 (k + 1) fuel (k - j)
    (fun m => l[j + m]?.getD 0)
    (fun m low => allocated _ (member m (by omega)))
    (fun m low => by
      rw [h.next_getElem? (visits m (by omega))]
      exact visits (m + 1) (by omega)) (Or.inl rfl) enough
  rw [show (k : Int) + 1 - 1 * ((k - j : ℕ) : Int) = j + 1 by omega] at walked
  rw [← visits 0 (by omega), ← visits (k - j) (by omega), Nat.add_zero,
    Nat.add_sub_cancel' order] at walked
  exact walked

/-- The walk to an earlier position, through the links of the reversed chain. -/
theorem Chain.stepsTo_back_eq (h : Chain (nextOf link node) last l.reverse)
    (allocated : ∀ a ∈ l, ∃ y, node a = some y) {j k fuel : ℕ} (order : k ≤ j)
    (less : j < l.length) (enough : j - k ≤ fuel) :
    stepsTo link node (-1) ((k : Int) + 1) fuel ((j : Int) + 1, l[j]?) =
      some ((k : Int) + 1, l[k]?) := by
  have inside : ∀ m ≤ j - k, j - m < l.length := fun m le => by omega
  have visits : ∀ m ≤ j - k, l[j - m]? = some (l[j - m]?.getD 0) := by
    intro m le
    rw [List.getElem?_eq_getElem (inside m le)]
    rfl
  have member : ∀ m ≤ j - k, l[j - m]?.getD 0 ∈ l := fun m le =>
    List.mem_of_getElem? (visits m le)
  have mirrored : ∀ m ≤ j - k, l.reverse[l.length - 1 - (j - m)]? = l[j - m]? := by
    intro m le
    rw [List.getElem?_reverse (by omega)]
    congr 1
    omega
  have walked := @LinkedNodes.stepsTo_eq α link node (-1) (k + 1) fuel (j - k)
    (fun m => l[j - m]?.getD 0)
    (fun m low => allocated _ (member m (by omega)))
    (fun m low => by
      have here := (mirrored m (by omega)).trans (visits m (by omega))
      rw [h.next_getElem? here, ← visits (m + 1) (by omega), ← mirrored (m + 1) (by omega)]
      congr 1
      omega) (Or.inr rfl) enough
  rw [show (k : Int) + 1 - -1 * ((j - k : ℕ) : Int) = j + 1 by omega] at walked
  rw [← visits 0 (by omega), ← visits (j - k) (by omega), Nat.sub_zero,
    show j - (j - k) = k by omega] at walked
  exact walked

end LinkedNodes
