import Mathlib.Order.Interval.Finset.Basic
import Mathlib.Order.Interval.Finset.SuccPred
import Mathlib.Data.Int.ConditionallyCompleteOrder
import Mathlib.Data.Int.Interval
import Mathlib.Data.Finset.Image

/-!
# Windows of a sequence

What a sequence `f` of items holds between two indices, as a multiset, and the
rearrangements of one window.  A program that sorts in place rearranges a window, and so
do its parts; a bound on every item of a window survives each of them.
-/

namespace Window

variable {α : Type}

/-- The items of `f` from `lo` on, before `hi`. -/
noncomputable def window (f : ℤ → α) (lo hi : ℤ) : Multiset α :=
  (Finset.Ico lo hi).val.map f

/-- `g` holds the items of `f` from `lo` on, before `hi`, in some order. -/
structure Rearranges (lo hi : ℤ) (f g : ℤ → α) : Prop where
  frame : ∀ i, ¬(lo ≤ i ∧ i < hi) → g i = f i
  window_eq : window g lo hi = window f lo hi

theorem mem_window {f : ℤ → α} {lo hi : ℤ} {a : α} :
    a ∈ window f lo hi ↔ ∃ i, (lo ≤ i ∧ i < hi) ∧ f i = a := by
  simp [window]

theorem window_congr {f g : ℤ → α} {lo hi : ℤ} (same : ∀ i, lo ≤ i → i < hi → g i = f i) :
    window g lo hi = window f lo hi := by
  refine Multiset.map_congr rfl fun i hi' => ?_
  rw [Finset.mem_val, Finset.mem_Ico] at hi'
  exact same i hi'.1 hi'.2

theorem window_of_le (f : ℤ → α) {lo hi : ℤ} (le : hi ≤ lo) : window f lo hi = 0 := by
  rw [window, Finset.Ico_eq_empty (by omega)]
  rfl

theorem window_add (f : ℤ → α) {lo mid hi : ℤ} (le : lo ≤ mid) (le' : mid ≤ hi) :
    window f lo mid + window f mid hi = window f lo hi := by
  rw [window, window, window, ← Multiset.map_add]
  congr 1
  rw [← Finset.Ico_union_Ico_eq_Ico le le', ← Finset.disjUnion_eq_union _ _
    (Finset.Ico_disjoint_Ico_consecutive lo mid hi)]
  rfl

theorem window_one (f : ℤ → α) (i : ℤ) : window f i (i + 1) = {f i} := by
  rw [window, show Finset.Ico i (i + 1) = {i} by
    ext j
    rw [Finset.mem_Ico, Finset.mem_singleton]
    omega]
  rfl

theorem window_succ (f : ℤ → α) {lo hi : ℤ} (le : lo ≤ hi) :
    window f lo (hi + 1) = window f lo hi + {f hi} := by
  rw [← window_one, window_add f le (by omega)]

namespace Rearranges

variable {f g h : ℤ → α} {lo hi lo' hi' : ℤ}

theorem refl (lo hi : ℤ) (f : ℤ → α) : Rearranges lo hi f f :=
  ⟨fun _ _ => rfl, rfl⟩

theorem trans (first : Rearranges lo hi f g) (second : Rearranges lo hi g h) :
    Rearranges lo hi f h :=
  ⟨fun i outside => (second.frame i outside).trans (first.frame i outside),
    second.window_eq.trans first.window_eq⟩

/-- A rearrangement of a window is one of every larger window. -/
theorem mono (r : Rearranges lo hi f g) (le : lo' ≤ lo) (le' : hi ≤ hi') :
    Rearranges lo' hi' f g := by
  refine ⟨fun i outside => r.frame i (by omega), ?_⟩
  by_cases empty : hi ≤ lo
  · exact window_congr fun i _ _ => r.frame i (by omega)
  · rw [← window_add g le (show lo ≤ hi' by omega), ← window_add f le (show lo ≤ hi' by omega),
      ← window_add g (show lo ≤ hi by omega) le', ← window_add f (show lo ≤ hi by omega) le',
      r.window_eq, window_congr fun i _ _ => r.frame i (by omega),
      @window_congr _ f g hi hi' fun i _ _ => r.frame i (by omega)]

/-- Every item of a rearranged window was in the window. -/
theorem exists_eq (r : Rearranges lo hi f g) {i : ℤ} (inside : lo ≤ i ∧ i < hi) :
    ∃ j, (lo ≤ j ∧ j < hi) ∧ f j = g i := by
  rw [← mem_window, ← r.window_eq, mem_window]
  exact ⟨i, inside, rfl⟩

/-- What holds of every item of a window holds of every item of a rearranged one. -/
theorem forall_of (r : Rearranges lo hi f g) {P : α → Prop}
    (all : ∀ i, lo ≤ i → i < hi → P (f i)) : ∀ i, lo ≤ i → i < hi → P (g i) := by
  intro i low high
  obtain ⟨j, inside, eq⟩ := r.exists_eq ⟨low, high⟩
  rw [← eq]
  exact all j inside.1 inside.2

end Rearranges

theorem rearranges_swap (f : ℤ → α) {lo hi i j : ℤ} (insideI : lo ≤ i ∧ i < hi)
    (insideJ : lo ≤ j ∧ j < hi) : Rearranges lo hi f (f ∘ Equiv.swap i j) := by
  refine ⟨fun k outside => ?_, ?_⟩
  · have notI : k ≠ i := fun eq => outside (eq ▸ insideI)
    have notJ : k ≠ j := fun eq => outside (eq ▸ insideJ)
    rw [Function.comp_apply, Equiv.swap_apply_of_ne_of_ne notI notJ]
  · have kept : (Finset.Ico lo hi).map (Equiv.swap i j : ℤ ↪ ℤ) = Finset.Ico lo hi := by
      refine Finset.map_perm fun k moved => ?_
      rw [Finset.coe_Ico, Set.mem_Ico]
      rcases Equiv.swap_apply_ne_self_iff.mp moved with ⟨-, rfl | rfl⟩
      · exact insideI
      · exact insideJ
    have vals := congrArg Finset.val kept
    rw [window, window, ← Multiset.map_map]
    exact congrArg (Multiset.map f) vals

/-! ## Sorted windows -/

section Sorted

variable {le : α → α → Prop} {f g : ℤ → α} {lo mid hi : ℤ}

/-- The items from `lo` on, before `hi`, stand in the order `le`. -/
def SortedOn (le : α → α → Prop) (f : ℤ → α) (lo hi : ℤ) : Prop :=
  ∀ i j, lo ≤ i → i < j → j < hi → le (f i) (f j)

theorem SortedOn.mono (h : SortedOn le f lo hi) {lo' hi' : ℤ} (low : lo ≤ lo')
    (high : hi' ≤ hi) : SortedOn le f lo' hi' :=
  fun i j hi hij hj => h i j (by omega) hij (by omega)

theorem SortedOn.congr (h : SortedOn le f lo hi)
    (same : ∀ i, lo ≤ i → i < hi → g i = f i) : SortedOn le g lo hi := by
  intro i j low lt high
  rw [same i low (by omega), same j (by omega) high]
  exact h i j low lt high

theorem sortedOn_of_le (f : ℤ → α) (small : hi ≤ lo + 1) : SortedOn le f lo hi :=
  fun i j low lt high => by omega

/-- Two sorted windows, of which every item of the first is before every item of the
second. -/
theorem SortedOn.append (left : SortedOn le f lo mid) (right : SortedOn le f mid hi)
    (across : ∀ i j, lo ≤ i → i < mid → mid ≤ j → j < hi → le (f i) (f j)) :
    SortedOn le f lo hi := by
  intro i j low lt high
  by_cases leftI : i < mid
  · by_cases leftJ : j < mid
    · exact left i j low lt leftJ
    · exact across i j low leftI (by omega) high
  · exact right i j (by omega) lt high

end Sorted

/-! ## The items of a window in their order -/

section Items

variable {f g : ℤ → α} {lo mid hi : ℤ} {a : α}

/-- The items of `f` from `lo` on, before `hi`, in the order of their indices. -/
def items (f : ℤ → α) (lo hi : ℤ) : List α :=
  (List.range (hi - lo).toNat).map fun k : ℕ => f (lo + k)

theorem items_of_le (f : ℤ → α) (le : hi ≤ lo) : items f lo hi = [] := by
  unfold items
  rw [Int.toNat_of_nonpos (by omega)]
  rfl

theorem mem_items : a ∈ items f lo hi ↔ ∃ i, (lo ≤ i ∧ i < hi) ∧ f i = a := by
  unfold items
  rw [List.mem_map]
  constructor
  · intro found
    obtain ⟨k, inside, rfl⟩ := found
    rw [List.mem_range] at inside
    exact ⟨lo + k, by omega, rfl⟩
  · intro found
    obtain ⟨i, inside, rfl⟩ := found
    refine ⟨(i - lo).toNat, List.mem_range.mpr (by omega), ?_⟩
    rw [Int.toNat_of_nonneg (by omega), add_sub_cancel]

theorem items_congr {lo' hi' : ℤ} (length : hi' - lo' = hi - lo)
    (same : ∀ k, 0 ≤ k → k < hi - lo → g (lo' + k) = f (lo + k)) : items g lo' hi' = items f lo hi := by
  unfold items
  rw [length]
  refine List.map_congr_left fun k inside => ?_
  rw [List.mem_range] at inside
  exact same k (by omega) (by omega)

theorem items_append (f : ℤ → α) (le : lo ≤ mid) (le' : mid ≤ hi) :
    items f lo mid ++ items f mid hi = items f lo hi := by
  have split : (hi - lo).toNat = (mid - lo).toNat + (hi - mid).toNat := by omega
  unfold items
  rw [split, List.range_add, List.map_append, List.map_map]
  refine congrArg _ (List.map_congr_left fun k _ => ?_)
  rw [Function.comp_apply, Nat.cast_add, Int.toNat_of_nonneg (by omega)]
  congr 1
  omega

theorem items_one (f : ℤ → α) (i : ℤ) : items f i (i + 1) = [f i] := by
  unfold items
  rw [add_sub_cancel_left]
  change [f (i + 0)] = _
  rw [add_zero]

theorem items_succ (f : ℤ → α) (le : lo ≤ hi) : items f lo (hi + 1) = items f lo hi ++ [f hi] := by
  rw [← items_one, items_append f le (by omega)]

end Items

end Window
