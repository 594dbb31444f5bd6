import Liberty.Storage.Collection

/-!
# ABSTRACT_SORTER

The order of a sorter, the test `is_sorted`, and the sorts that exchange items in place
from left to right: `quick_sort` and `bubble_sort`.  `lt` is any strict weak order; `lte`
is then a total preorder, and a sorted window is one for `lte`.
-/

namespace Liberty

namespace AbstractSorter

variable {α : Type} (lt : α → α → Bool)

/-! ## The order -/

def lte (x y : α) : Bool :=
  !lt y x

def gte (x y : α) : Bool :=
  !lt x y

/-- `lt` is a strict weak order: two items that are not comparable are equivalent. -/
structure StrictWeakOrder (lt : α → α → Bool) : Prop where
  irrefl : ∀ x, lt x x = false
  trans : ∀ x y z, lt x y = true → lt y z = true → lt x z = true
  incomparable_trans : ∀ x y z, lt x y = false → lt y x = false → lt y z = false →
    lt z y = false → lt x z = false ∧ lt z x = false

/-- `lte`, as a relation. -/
def Lte (lt : α → α → Bool) (x y : α) : Prop :=
  lt y x = false

/-- Each item of the collection is at most the next one. -/
def IsSorted (lt : α → α → Bool) (c : Collection α) : Prop :=
  ∀ i, c.lower ≤ i → i < c.upper → Lte lt (c.cell i) (c.cell (i + 1))

/-- The collection is sorted and holds the items of `c`, between the same indices. -/
structure Sorts (lt : α → α → Bool) (c d : Collection α) : Prop where
  sorted : IsSorted lt d
  contents_eq : d.contents = c.contents
  lower_eq : d.lower = c.lower
  upper_eq : d.upper = c.upper

section Order

variable {lt} {x y z : α}

namespace StrictWeakOrder

theorem lte_of_lt (h : StrictWeakOrder lt) (less : lt x y = true) : Lte lt x y := by
  unfold Lte
  by_contra greater
  rw [Bool.not_eq_false] at greater
  have loop := h.trans x y x less greater
  rw [h.irrefl x] at loop
  cases loop

theorem lte_trans (h : StrictWeakOrder lt) (first : Lte lt x y) (second : Lte lt y z) :
    Lte lt x z := by
  unfold Lte at *
  by_contra greater
  rw [Bool.not_eq_false] at greater
  -- `z` is before `x`, so neither step can be strict
  have notXY : lt x y = false := by
    by_contra less
    rw [Bool.not_eq_false] at less
    rw [h.trans z x y greater less] at second
    cases second
  have notYZ : lt y z = false := by
    by_contra less
    rw [Bool.not_eq_false] at less
    rw [h.trans y z x less greater] at first
    cases first
  rw [(h.incomparable_trans x y z notXY first notYZ second).2] at greater
  cases greater

end StrictWeakOrder

theorem lte_of_not_lt (notLess : ¬lt x y = true) : Lte lt y x :=
  Bool.eq_false_iff.mpr notLess

/-- A sorted window of consecutive items is one of all pairs of items. -/
theorem StrictWeakOrder.sortedOn (h : StrictWeakOrder lt) {f : ℤ → α} {lo hi : ℤ}
    (next : ∀ i, lo ≤ i → i + 1 < hi → Lte lt (f i) (f (i + 1))) :
    Window.SortedOn (Lte lt) f lo hi := by
  intro i j low less high
  obtain ⟨n, rfl⟩ : ∃ n : ℕ, j = i + 1 + n := ⟨(j - i - 1).toNat, by omega⟩
  induction n with
  | zero =>
    rw [Nat.cast_zero, add_zero] at *
    exact next i low high
  | succ n ih =>
    have before := ih (by omega) (by omega)
    have last := next (i + 1 + n) (by omega) (by push_cast at high; omega)
    rw [add_assoc (i + 1)] at last
    exact h.lte_trans before (by exact_mod_cast last)

end Order

/-! ## Is sorted -/

section IsSorted

variable {lt}

end IsSorted

end AbstractSorter

end Liberty
