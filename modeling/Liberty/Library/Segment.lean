import Mathlib.Data.Int.Notation
import Mathlib.Data.Nat.Notation
import Mathlib.Data.List.Basic
import Mathlib.Tactic.Basic

/-!
# Segments of a memory

A memory is a function of its addresses; a segment of it holds the items of a list, one after
the other.
-/

/-- The memory `cell` holds the items of `xs` from the address `start` on. -/
def Segment {α : Type} (cell : Int → α) (start : Int) (xs : List α) : Prop :=
  ∀ (k : ℕ) (x : α), xs[k]? = some x → cell (start + k) = x

section Segments

variable {α : Type} {cell cell' : Int → α} {start start' : Int} {xs ys : List α} {x : α}

theorem segment_nil : Segment cell start [] := by
  intro k x found
  cases found

theorem segment_append : Segment cell start (xs ++ ys) ↔
    Segment cell start xs ∧ Segment cell (start + xs.length) ys := by
  constructor
  · intro h
    constructor
    · intro k x found
      apply h k x
      rw [List.getElem?_append_left (List.getElem?_eq_some_iff.mp found).1]
      exact found
    · intro k x found
      rw [Int.add_assoc, ← Int.natCast_add]
      apply h (xs.length + k) x
      rw [List.getElem?_append_right (Nat.le_add_right _ _), Nat.add_sub_cancel_left]
      exact found
  · rintro ⟨left, right⟩ k x found
    by_cases here : k < xs.length
    · rw [List.getElem?_append_left here] at found
      exact left k x found
    · rw [List.getElem?_append_right (Nat.le_of_not_lt here)] at found
      have last := right (k - xs.length) x found
      rwa [show start + xs.length + ((k - xs.length : ℕ) : Int) = start + k by omega] at last

theorem segment_singleton : Segment cell start [x] ↔ cell start = x := by
  constructor
  · intro h
    have first := h 0 x rfl
    rwa [Int.natCast_zero, Int.add_zero] at first
  · intro h k y found
    have bound := (List.getElem?_eq_some_iff.mp found).1
    rw [List.length_singleton] at bound
    have zero : k = 0 := by omega
    subst zero
    cases found
    rw [Int.natCast_zero, Int.add_zero]
    exact h

theorem segment_cons : Segment cell start (x :: xs) ↔
    cell start = x ∧ Segment cell (start + 1) xs := by
  rw [← List.singleton_append, segment_append, segment_singleton]
  rfl

theorem segment_replicate {n : ℕ} (same : ∀ i, start ≤ i → i < start + n → cell i = x) :
    Segment cell start (List.replicate n x) := by
  intro k y found
  obtain ⟨bound, equal⟩ := List.getElem?_eq_some_iff.mp found
  rw [List.length_replicate] at bound
  rw [List.getElem_replicate] at equal
  rw [← equal]
  exact same _ (by omega) (by omega)

/-- The segment depends on its own cells only. -/
theorem Segment.congr (h : Segment cell start xs)
    (same : ∀ i, start ≤ i → i < start + xs.length → cell' i = cell i) :
    Segment cell' start xs := by
  intro k x found
  have bound := (List.getElem?_eq_some_iff.mp found).1
  rw [same _ (by omega) (by omega)]
  exact h k x found

theorem Segment.copied (h : Segment cell start xs)
    (same : ∀ i, 0 ≤ i → i < (xs.length : Int) → cell' (start' + i) = cell (start + i)) :
    Segment cell' start' xs := by
  intro k x found
  have bound := (List.getElem?_eq_some_iff.mp found).1
  rw [same _ (by omega) (by omega)]
  exact h k x found

theorem Segment.take (h : Segment cell start xs) (n : ℕ) : Segment cell start (xs.take n) := by
  rw [← List.take_append_drop n xs, segment_append] at h
  exact h.1

theorem Segment.drop (h : Segment cell start xs) {n : ℕ} (le : n ≤ xs.length) :
    Segment cell (start + n) (xs.drop n) := by
  rw [← List.take_append_drop n xs, segment_append, List.length_take, Nat.min_eq_left le] at h
  exact h.2

theorem Segment.unique (h : Segment cell start xs) (h' : Segment cell start ys)
    (length : xs.length = ys.length) : xs = ys := by
  apply List.ext_getElem length
  intro k less less'
  rw [← h k _ (List.getElem?_eq_getElem less), ← h' k _ (List.getElem?_eq_getElem less')]

end Segments

/-!
## Occurrences

The places where a list occurs in another, and the list where the occurrences are replaced, one after the
other from the left and without overlaps.
-/

section Occurrences

variable {α : Type} {p xs ys : List α} {n : ℕ}

/-- The list `p` stands in `xs` behind `n` items. -/
def OccursAt (p xs : List α) (n : ℕ) : Prop :=
  p <+: xs.drop n

theorem occursAt_iff : OccursAt p xs n ↔ ∀ k < p.length, p[k]? = xs[n + k]? := by
  unfold OccursAt
  rw [List.prefix_iff_getElem?]
  constructor
  · intro same k less
    rw [List.getElem?_eq_getElem less, ← List.getElem?_drop]
    exact (same k less).symm
  · intro same k less
    rw [List.getElem?_drop, ← same k less, List.getElem?_eq_getElem less]

theorem OccursAt.add_length_le (h : OccursAt p xs n) (nonempty : p ≠ []) : n + p.length ≤ xs.length := by
  have le := h.length_le
  rw [List.length_drop] at le
  have pos := List.length_pos_iff.mpr nonempty
  omega

theorem OccursAt.drop_eq (h : OccursAt p xs n) : xs.drop n = p ++ xs.drop (n + p.length) := by
  obtain ⟨rest, parts⟩ := h
  rw [← List.drop_drop, ← parts, List.drop_left]

theorem occursAt_drop {m : ℕ} : OccursAt p (xs.drop m) n ↔ OccursAt p xs (m + n) := by
  unfold OccursAt
  rw [List.drop_drop]

end Occurrences

section Replacing

variable {α : Type} [DecidableEq α] {p r xs ys : List α}

/-- `xs` with the occurrences of `p` replaced by `r`, where the first items belong to one that is passed. -/
def replacedFrom (p r : List α) : ℕ → List α → List α
  | _, [] => []
  | passed + 1, _ :: xs => replacedFrom p r passed xs
  | 0, x :: xs =>
    if p.isPrefixOf (x :: xs) then r ++ replacedFrom p r (p.length - 1) xs else x :: replacedFrom p r 0 xs

/-- `xs` with the successive occurrences of `p`, from the left and without overlaps, replaced by `r`. -/
def replaced (p r xs : List α) : List α :=
  replacedFrom p r 0 xs

example : replaced [1, 1] [2] [1, 1, 1, 3, 1, 1] = [2, 1, 3, 2] := by decide

theorem replacedFrom_append (passed xs : List α) :
    replacedFrom p r passed.length (passed ++ xs) = replaced p r xs := by
  induction passed with
  | nil => rfl
  | cons y passed ih => exact ih

theorem replaced_nil : replaced p r [] = [] :=
  rfl

theorem replaced_occurrence (nonempty : p ≠ []) (xs : List α) :
    replaced p r (p ++ xs) = r ++ replaced p r xs := by
  cases p with
  | nil => exact absurd rfl nonempty
  | cons y p =>
    have here : (y :: p).isPrefixOf (y :: (p ++ xs)) = true :=
      List.isPrefixOf_iff_prefix.mpr (List.prefix_append (y :: p) xs)
    change replacedFrom (y :: p) r 0 (y :: (p ++ xs)) = _
    rw [replacedFrom, if_pos here]
    exact congrArg (r ++ ·) (replacedFrom_append p xs)

theorem replaced_cons {x : α} (absent : ¬OccursAt p (x :: xs) 0) :
    replaced p r (x :: xs) = x :: replaced p r xs := by
  have notHere : ¬p.isPrefixOf (x :: xs) = true := fun here => absent (List.isPrefixOf_iff_prefix.mp here)
  unfold replaced
  rw [replacedFrom, if_neg notHere]

/-- What stands before the first occurrence stays. -/
theorem replaced_of_no_occurrence (absent : ∀ n < ys.length, ¬OccursAt p (ys ++ xs) n) :
    replaced p r (ys ++ xs) = ys ++ replaced p r xs := by
  induction ys with
  | nil => rfl
  | cons y ys ih =>
    have first := absent 0 (Nat.succ_pos _)
    rw [List.cons_append] at first ⊢
    rw [replaced_cons first, List.cons_append]
    refine congrArg (y :: ·) (ih fun n less => ?_)
    exact absent (n + 1) (Nat.succ_lt_succ less)

/-- The text up to the first occurrence, the replacement, and what follows. -/
theorem replaced_drop {m n : ℕ} (nonempty : p ≠ []) (le : m ≤ n) (occurs : OccursAt p xs n)
    (absent : ∀ k, m ≤ k → k < n → ¬OccursAt p xs k) :
    replaced p r (xs.drop m) = (xs.drop m).take (n - m) ++ (r ++ replaced p r (xs.drop (n + p.length))) := by
  have rest : (xs.drop m).drop (n - m) = xs.drop n := by
    rw [List.drop_drop, Nat.add_sub_cancel' le]
  have parts : xs.drop m = (xs.drop m).take (n - m) ++ xs.drop n := by
    rw [← rest, List.take_append_drop]
  have before : replaced p r ((xs.drop m).take (n - m) ++ xs.drop n) =
      (xs.drop m).take (n - m) ++ replaced p r (xs.drop n) := by
    refine replaced_of_no_occurrence fun k less here => ?_
    rw [← parts, occursAt_drop] at here
    rw [List.length_take] at less
    exact absent (m + k) (by omega) (by omega) here
  rw [← parts] at before
  rw [before, occurs.drop_eq, replaced_occurrence nonempty]

theorem replaced_drop_of_absent {m : ℕ} (absent : ∀ k, m ≤ k → ¬OccursAt p xs k) :
    replaced p r (xs.drop m) = xs.drop m := by
  have all : replaced p r (xs.drop m ++ []) = xs.drop m ++ replaced p r [] := by
    refine replaced_of_no_occurrence fun k _ here => ?_
    rw [List.append_nil, occursAt_drop] at here
    exact absent (m + k) (Nat.le_add_right _ _) here
  rwa [List.append_nil, replaced_nil, List.append_nil] at all

end Replacing
