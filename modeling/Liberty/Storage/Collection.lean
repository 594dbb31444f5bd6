import Liberty.Library.Returns
import Liberty.Library.Window

/-!
# COLLECTION

Items indexed from `lower` to `upper`.  Reading or writing elsewhere does not return.
-/

namespace Liberty

/-- The items at valid indices; what `cell` says elsewhere is never read. -/
structure Collection (α : Type) where
  lower : Int
  upper : Int
  cell : Int → α
  valid_bounds : lower ≤ upper + 1

namespace Collection

variable {α : Type}

def ValidIndex (c : Collection α) (i : Int) : Prop :=
  c.lower ≤ i ∧ i ≤ c.upper

instance (c : Collection α) (i : Int) : Decidable (c.ValidIndex i) :=
  inferInstanceAs (Decidable (_ ∧ _))

def count (c : Collection α) : Int :=
  c.upper - c.lower + 1

def item (c : Collection α) (i : Int) : Option α :=
  if c.ValidIndex i then some (c.cell i) else none

/-- The collection after a write at one index. -/
def set (c : Collection α) (element : α) (i : Int) : Collection α :=
  { c with cell := fun k => if k = i then element else c.cell k }

def put (c : Collection α) (element : α) (i : Int) : Option (Collection α) :=
  if c.ValidIndex i then some (c.set element i) else none

def swap (c : Collection α) (i1 i2 : Int) : Option (Collection α) := do
  let tmp ← c.item i1
  let c ← c.put (← c.item i2) i1
  c.put tmp i2

/-- The items of a collection, in some order. -/
noncomputable def contents (c : Collection α) : Multiset α :=
  Window.window c.cell c.lower (c.upper + 1)

@[simp] theorem returns_item {c : Collection α} {i : Int} {Q : α → Prop} :
    Returns (c.item i) Q ↔ (c.lower ≤ i ∧ i ≤ c.upper) ∧ Q (c.cell i) := by
  change _ ↔ c.ValidIndex i ∧ _
  by_cases h : c.ValidIndex i <;> simp [item, h]

@[simp] theorem returns_put {c : Collection α} {element : α} {i : Int}
    {Q : Collection α → Prop} :
    Returns (c.put element i) Q ↔ (c.lower ≤ i ∧ i ≤ c.upper) ∧ Q (c.set element i) := by
  change _ ↔ c.ValidIndex i ∧ _
  by_cases h : c.ValidIndex i <;> simp [put, h]

/-- `d` is `c` with the items from `lo` on, before `hi`, in some order. -/
structure Rearranged (lo hi : Int) (c d : Collection α) : Prop extends
    Window.Rearranges lo hi c.cell d.cell where
  lower_eq : d.lower = c.lower
  upper_eq : d.upper = c.upper

namespace Rearranged

variable {c d e : Collection α} {lo hi lo' hi' : Int}

theorem refl (lo hi : Int) (c : Collection α) : Rearranged lo hi c c :=
  ⟨.refl lo hi c.cell, rfl, rfl⟩

theorem trans (first : Rearranged lo hi c d) (second : Rearranged lo hi d e) :
    Rearranged lo hi c e :=
  ⟨first.toRearranges.trans second.toRearranges, second.lower_eq.trans first.lower_eq,
    second.upper_eq.trans first.upper_eq⟩

theorem mono (r : Rearranged lo hi c d) (le : lo' ≤ lo) (le' : hi ≤ hi') :
    Rearranged lo' hi' c d :=
  ⟨r.toRearranges.mono le le', r.lower_eq, r.upper_eq⟩

/-- Once the window is the whole collection, the contents are the same. -/
theorem contents_eq (r : Rearranged c.lower (c.upper + 1) c d) :
    d.contents = c.contents := by
  unfold contents
  rw [r.lower_eq, r.upper_eq, r.window_eq]

end Rearranged

/-- What `swap` does, with the cells of the result. -/
theorem returns_swap {c : Collection α} {lo hi i1 i2 : Int} {Q : Collection α → Prop}
    (low : c.lower ≤ lo) (high : hi ≤ c.upper + 1) (inside1 : lo ≤ i1 ∧ i1 < hi)
    (inside2 : lo ≤ i2 ∧ i2 < hi)
    (next : ∀ d, Rearranged lo hi c d → d.cell i1 = c.cell i2 → d.cell i2 = c.cell i1 →
      (∀ k, k ≠ i1 → k ≠ i2 → d.cell k = c.cell k) → Q d) :
    Returns (c.swap i1 i2) Q := by
  unfold swap
  simp only [Returns.bind_iff, returns_item, returns_put]
  refine ⟨by omega, by omega, by omega, by simp only [set]; omega, ?_⟩
  have cells : ((c.set (c.cell i2) i1).set (c.cell i1) i2).cell =
      c.cell ∘ Equiv.swap i1 i2 := by
    funext k
    rw [Function.comp_apply, Equiv.swap_apply_def]
    simp only [set]
    by_cases at2 : k = i2
    · subst at2
      by_cases at1 : k = i1
      · simp [at1]
      · simp [at1]
    · by_cases at1 : k = i1
      · subst at1
        simp [at2]
      · simp [at1, at2]
  refine next _ ⟨?_, rfl, rfl⟩ ?_ ?_ ?_
  · rw [cells]
    exact Window.rearranges_swap c.cell inside1 inside2
  · rw [cells, Function.comp_apply, Equiv.swap_apply_left]
  · rw [cells, Function.comp_apply, Equiv.swap_apply_right]
  · intro k not1 not2
    rw [cells, Function.comp_apply, Equiv.swap_apply_of_ne_of_ne not1 not2]

end Collection

end Liberty
