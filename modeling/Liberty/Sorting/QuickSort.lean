import Liberty.Sorting.AbstractSorter

/-!
# Quick sort

`quick_sort_region` takes the item in the middle as the pivot, gathers the items that are
less at the left end, and sorts both sides.
-/

namespace Liberty

namespace AbstractSorter

variable {α : Type} (lt : α → α → Bool)

/-! ## The source -/

/-- One round of the partition, on the collection, `middle` and `i`. -/
def partitionRound (left : Int) (s : Collection α × Int × Int) :
    Option (Collection α × Int × Int) := do
  let (c, middle, i) := s
  if lt (← c.item i) (← c.item left) then
    let middle := middle + 1
    let c ← c.swap middle i
    return (c, middle, i + 1)
  else
    return (c, middle, i + 1)

section Partition

variable {lt} {c : Collection α} {left right : Int}

/-- The items after `left` up to `middle` are less than the pivot; those that follow,
before `i`, are not. -/
structure Partitioned (lt : α → α → Bool) (c : Collection α) (left right middle i : Int)
    (d : Collection α) : Prop where
  rearranged : Collection.Rearranged left (right + 1) c d
  pivot : d.cell left = c.cell left
  low : left ≤ middle
  high : middle < i
  inside : i ≤ right + 1
  less : ∀ k, left < k → k ≤ middle → lt (d.cell k) (c.cell left) = true
  notLess : ∀ k, middle < k → k < i → Lte lt (c.cell left) (d.cell k)

theorem Partitioned.returns_round {middle i : Int} {d : Collection α}
    (inv : Partitioned lt c left right middle i d) (low : c.lower ≤ left)
    (high : right ≤ c.upper) (going : i ≤ right) :
    Returns (partitionRound lt left (d, middle, i)) fun (d', middle', i') =>
      Partitioned lt c left right middle' i' d' ∧ i' = i + 1 := by
  have lower := inv.rearranged.lower_eq
  have upper := inv.rearranged.upper_eq
  have leftLe := inv.low
  have less := inv.high
  unfold partitionRound
  simp only [Returns.bind_iff, Collection.returns_item]
  refine ⟨by omega, by omega, ?_⟩
  rw [inv.pivot]
  split
  · rename_i smaller
    rw [Returns.bind_iff]
    apply Collection.returns_swap (show d.lower ≤ left by omega)
      (show right + 1 ≤ d.upper + 1 by omega) (by omega) (by omega)
    intro e swapped atMiddle atI elsewhere
    rw [Returns.pure_iff]
    dsimp only
    refine ⟨⟨inv.rearranged.trans swapped, ?_, by omega, by omega, by omega, ?_, ?_⟩, rfl⟩
    · rw [elsewhere left (by omega) (by omega)]
      exact inv.pivot
    · intro k lowK highK
      by_cases last : k = middle + 1
      · rw [last, atMiddle]
        exact smaller
      · rw [elsewhere k last (by omega)]
        exact inv.less k lowK (by omega)
    · intro k lowK highK
      by_cases last : k = i
      · rw [last, atI]
        exact inv.notLess (middle + 1) (by omega) (by omega)
      · rw [elsewhere k (by omega) last]
        exact inv.notLess k (by omega) (by omega)
  · rename_i notSmaller
    rw [Returns.pure_iff]
    dsimp only
    refine ⟨⟨inv.rearranged, inv.pivot, leftLe, by omega, by omega, inv.less, ?_⟩, rfl⟩
    intro k lowK highK
    by_cases last : k = i
    · rw [last]
      exact lte_of_not_lt notSmaller
    · exact inv.notLess k lowK (by omega)

end Partition

/-! ## Recursion -/

section QuickSort

variable {lt} {c : Collection α} {left right : Int}

end QuickSort

end AbstractSorter

end Liberty
