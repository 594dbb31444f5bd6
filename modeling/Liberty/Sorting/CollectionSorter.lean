import Liberty.Sorting.QuickSort
import Liberty.Sorting.BubbleSort
import Liberty.Sorting.HeapSort
import Liberty.Sorting.VonNeumanSort

/-!
# Sorters

All the algorithms of an ABSTRACT_SORTER, and the orders of COLLECTION_SORTER and
REVERSE_COLLECTION_SORTER.
-/

namespace Liberty

namespace AbstractSorter

variable {α : Type} {lt : α → α → Bool}

theorem StrictWeakOrder.reverse (order : StrictWeakOrder lt) :
    StrictWeakOrder fun x y => lt y x where
  irrefl := order.irrefl
  trans x y z first second := order.trans z y x second first
  incomparable_trans x y z notXY notYX notYZ notZY :=
    order.incomparable_trans x y z notYX notXY notZY notYZ |>.symm

end AbstractSorter

/-- The order of COLLECTION_SORTER, from the `<` of its items. -/
def CollectionSorter.lt {α : Type} (less : α → α → Bool) (x y : α) : Bool :=
  less x y

/-- The order of REVERSE_COLLECTION_SORTER, from the `<` of its items. -/
def ReverseCollectionSorter.lt {α : Type} (less : α → α → Bool) (x y : α) : Bool :=
  less y x

namespace AbstractSorter

variable {α : Type} {less : α → α → Bool} {c d e : Collection α} {i lo hi : ℤ}

/-- Two windows hold the same items, and those of `S` in the first one are not after `x`.  Where
fewer items of the second one are not after `y`, `x` is not before `y`. -/
theorem StrictWeakOrder.not_lt_of_card (order : StrictWeakOrder less) {f g : ℤ → α} {x y : α}
    (same : Window.window f lo hi = Window.window g lo hi) {S T : Finset ℤ}
    (inside : ∀ k ∈ S, (lo ≤ k ∧ k < hi) ∧ less x (f k) = false)
    (outside : ∀ k, lo ≤ k → k < hi → k ∉ T → less (g k) y = false) (fewer : T.card < S.card) :
    less x y = false := by
  by_contra before
  have counts := congrArg (Multiset.countP fun z => less x z = false) same
  unfold Window.window at counts
  rw [Multiset.countP_map, Multiset.countP_map] at counts
  have few : S.card ≤ T.card := by
    calc S.card ≤ ((Finset.Ico lo hi).filter fun k => less x (f k) = false).card :=
          Finset.card_le_card fun k member => Finset.mem_filter.mpr
            ⟨Finset.mem_Ico.mpr (inside k member).1, (inside k member).2⟩
      _ = ((Finset.Ico lo hi).filter fun k => less x (g k) = false).card := counts
      _ ≤ T.card := Finset.card_le_card fun k member => by
          rw [Finset.mem_filter, Finset.mem_Ico] at member
          by_contra out
          exact before (order.lte_trans (outside k member.1.1 member.1.2 out) member.2)
  omega

theorem Sorts.not_lt_of_le (order : StrictWeakOrder less) (up : Sorts less c d) (k l : ℤ)
    (low : c.lower ≤ k) (le : k ≤ l) (high : l ≤ c.upper) : less (d.cell l) (d.cell k) = false := by
  rcases le.lt_or_eq with before | rfl
  · exact order.sortedOn (fun m low high => up.sorted m (by rw [up.lower_eq]; exact low)
      (by rw [up.upper_eq]; omega)) k l low before (Int.lt_add_one_of_le high)
  · exact order.irrefl _

/-- An item and the one at the mirrored index are equivalent. -/
theorem Sorts.mirrored (order : StrictWeakOrder less) (up : Sorts less c d)
    (down : Sorts (fun x y => less y x) c e) (low : c.lower ≤ i) (high : i ≤ c.upper) :
    less (d.cell i) (e.cell (c.lower + c.upper - i)) = false ∧
      less (e.cell (c.lower + c.upper - i)) (d.cell i) = false := by
  have same := up.contents_eq.trans down.contents_eq.symm
  unfold Collection.contents at same
  rw [up.lower_eq, up.upper_eq, down.lower_eq, down.upper_eq] at same
  have ordered := up.not_lt_of_le order
  have ordered' := down.not_lt_of_le order.reverse
  constructor
  · refine order.not_lt_of_card same (S := Finset.Icc c.lower i)
      (T := Finset.Icc (c.lower + c.upper - i + 1) c.upper) (fun k member => ?_)
      (fun k low' high' out => ordered' k _ low' ?_ (by omega)) ?_
    · rw [Finset.mem_Icc] at member
      exact ⟨by omega, ordered k i member.1 member.2 high⟩
    · rw [Finset.mem_Icc] at out
      omega
    · rw [Int.card_Icc, Int.card_Icc]
      omega
  · refine order.not_lt_of_card same.symm (S := Finset.Icc (c.lower + c.upper - i) c.upper)
      (T := Finset.Icc c.lower (i - 1)) (fun k member => ?_)
      (fun k low' high' out => ordered i k low ?_ (by omega)) ?_
    · rw [Finset.mem_Icc] at member
      exact ⟨by omega, ordered' _ k (by omega) member.1 member.2⟩
    · rw [Finset.mem_Icc] at out
      omega
    · rw [Int.card_Icc, Int.card_Icc]
      omega

end AbstractSorter

end Liberty
