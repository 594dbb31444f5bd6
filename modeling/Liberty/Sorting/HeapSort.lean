import Liberty.Sorting.AbstractSorter

/-!
# Heap sort

The node `k` of the heap has the children `2 k + 1` and `2 k + 2`, counted from the lower
index of the collection.  `heap_repair` lets an item sink until no child is greater.
-/

namespace Liberty

namespace AbstractSorter

variable {α : Type} (lt : α → α → Bool)

/-! ## The source -/

section HeapSort

variable {lt} {f g : ℤ → α} {c d e : Collection α} {lower m first last : ℤ}

/-! ## Heaps -/

/-- The node `child` is a child of the node `k`. -/
def Child (lower k child : ℤ) : Prop :=
  child = 1 - lower + 2 * k ∨ child = 2 - lower + 2 * k

theorem Child.below {k child : ℤ} (h : Child lower k child) (low : lower ≤ k) : k < child := by
  unfold Child at h
  omega

theorem Child.unique {k k' child : ℤ} (h : Child lower k child) (h' : Child lower k' child) :
    k = k' := by
  unfold Child at h h'
  omega

/-- From the node `m` on, no child up to `last` is greater than its parent. -/
def Heap (lt : α → α → Bool) (lower m last : ℤ) (f : ℤ → α) : Prop :=
  ∀ k child, m ≤ k → Child lower k child → child ≤ last → Lte lt (f child) (f k)

/-- A heap but for the children of `first`, which the parent of `first` still bounds. -/
structure NearHeap (lt : α → α → Bool) (lower m first last : ℤ) (f : ℤ → α) : Prop where
  edge : ∀ k child, m ≤ k → k ≠ first → Child lower k child → child ≤ last →
    Lte lt (f child) (f k)
  across : ∀ k child, m ≤ k → Child lower k first → Child lower first child →
    child ≤ last → Lte lt (f child) (f k)

theorem NearHeap.heap (h : NearHeap lt lower m first last f)
    (top : ∀ child, Child lower first child → child ≤ last → Lte lt (f child) (f first)) :
    Heap lt lower m last f := by
  intro k child low isChild high
  by_cases here : k = first
  · subst here
    exact top child isChild high
  · exact h.edge k child low here isChild high

end HeapSort

end AbstractSorter

end Liberty
