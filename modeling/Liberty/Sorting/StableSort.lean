import Liberty.Sorting.VonNeumanSort

/-!
# The stability of the von Neuman sort

A merge takes the item of the left block when the two items are equivalent, and an item of the right
block only when it is before all that remain in the left one.
-/

namespace Liberty

/-- The items of a collection in their order. -/
def Collection.items {α : Type} (c : Collection α) : List α :=
  Window.items c.cell c.lower (c.upper + 1)

namespace AbstractSorter

variable {α : Type} (lt : α → α → Bool)

/-- Neither item is before the other one. -/
def equivalent (x y : α) : Bool :=
  !lt x y && !lt y x

/-- The items of a window that are equivalent to `x`, in their order. -/
def alike (x : α) (f : ℤ → α) (lo hi : ℤ) : List α :=
  (Window.items f lo hi).filter (equivalent lt x)

section Alike

variable {lt} {x y z : α} {f g : ℤ → α} {lo mid hi : ℤ}

/-- An item is not equivalent to one that is before an equivalent item. -/
theorem StrictWeakOrder.not_equivalent_of_lt (order : StrictWeakOrder lt) (less : lt y z = true)
    (same : equivalent lt x y = true) : equivalent lt x z = false := by
  by_contra other
  rw [Bool.not_eq_false] at other
  unfold equivalent at same other
  rw [Bool.and_eq_true, Bool.not_eq_true', Bool.not_eq_true'] at same other
  have apart := (order.incomparable_trans y x z same.2 same.1 other.1 other.2).1
  rw [less] at apart
  cases apart

theorem alike_of_le (le : hi ≤ lo) : alike lt x f lo hi = [] := by
  unfold alike
  rw [Window.items_of_le f le]
  rfl

theorem alike_append (le : lo ≤ mid) (le' : mid ≤ hi) :
    alike lt x f lo mid ++ alike lt x f mid hi = alike lt x f lo hi := by
  unfold alike
  rw [← List.filter_append, Window.items_append f le le']

theorem alike_succ (le : lo ≤ hi) :
    alike lt x f lo (hi + 1) = alike lt x f lo hi ++ [f hi].filter (equivalent lt x) := by
  unfold alike
  rw [Window.items_succ f le, List.filter_append]

theorem alike_congr (same : ∀ i, lo ≤ i → i < hi → g i = f i) : alike lt x g lo hi = alike lt x f lo hi := by
  unfold alike
  rw [Window.items_congr rfl fun k low high => same (lo + k) (by omega) (by omega)]

theorem alike_eq_nil (none : ∀ i, lo ≤ i → i < hi → equivalent lt x (f i) = false) : alike lt x f lo hi = [] := by
  unfold alike
  rw [List.filter_eq_nil_iff]
  intro a member
  obtain ⟨i, inside, rfl⟩ := Window.mem_items.mp member
  rw [none i inside.1 inside.2]
  exact Bool.false_ne_true

/-- Where the items of one window are before those of the other, equivalent items are in one of them only. -/
theorem StrictWeakOrder.alike_comm (order : StrictWeakOrder lt) {lo' hi' : ℤ}
    (before : ∀ k l, lo ≤ k → k < hi → lo' ≤ l → l < hi' → lt (f k) (f l) = true) :
    alike lt x f lo hi ++ alike lt x f lo' hi' = alike lt x f lo' hi' ++ alike lt x f lo hi := by
  by_cases found : ∃ k, lo ≤ k ∧ k < hi ∧ equivalent lt x (f k) = true
  · obtain ⟨k, low, high, same⟩ := found
    have nothing : alike lt x f lo' hi' = [] :=
      alike_eq_nil fun l low' high' => order.not_equivalent_of_lt (before k l low high low' high') same
    rw [nothing, List.nil_append, List.append_nil]
  · have nothing : alike lt x f lo hi = [] :=
      alike_eq_nil fun k low high => Bool.eq_false_iff.mpr fun same => found ⟨k, low, high, same⟩
    rw [nothing, List.nil_append, List.append_nil]

end Alike

/-! ## Merges -/

section Merges

variable {lt} {x : α} {src dest₀ dest : Collection α} {a mid m e i1 i2 i j jmax : ℤ}

theorem alike_set (d : Collection α) (v : α) (le : a ≤ i) :
    alike lt x (d.set v i).cell a (i + 1) = alike lt x d.cell a i ++ [v].filter (equivalent lt x) := by
  have written : (d.set v i).cell i = v := if_pos rfl
  rw [alike_succ le, written, alike_congr fun k _ high => cell_set_of_lt high]

/-- The items equivalent to `x` have been merged in their order, and those that have been taken from the right
block are before those that remain in the left one. -/
structure MergedStably (lt : α → α → Bool) (x : α) (src : Collection α) (a mid m i1 i2 i : ℤ)
    (dest : Collection α) : Prop where
  alike_eq : alike lt x dest.cell a i = alike lt x src.cell a i1 ++ alike lt x src.cell mid i2
  ahead : ∀ k l, mid ≤ k → k < i2 → i1 ≤ l → l < m → lt (src.cell k) (src.cell l) = true

theorem MergedStably.start : MergedStably lt x src a mid m a mid a dest where
  alike_eq := by
    rw [alike_of_le le_rfl, alike_of_le le_rfl, alike_of_le le_rfl]
    rfl
  ahead k l _ _ := by omega

theorem MergedStably.takeLeft (order : StrictWeakOrder lt) (h : MergedStably lt x src a mid m i1 i2 i dest)
    (merged : Merged lt src dest₀ a mid m e i1 i2 i dest) (inside : i1 < m) :
    MergedStably lt x src a mid m (i1 + 1) i2 (i + 1) (dest.set (src.cell i1) i) := by
  have index := merged.i_eq
  have low1 := merged.low1
  have low2 := merged.low2
  refine ⟨?_, fun k l low high low' high' => h.ahead k l low high (by omega) high'⟩
  have swap := @StrictWeakOrder.alike_comm α lt x src.cell mid i2 order i1 (i1 + 1)
    fun k l low high low' high' => h.ahead k l low high low' (by omega)
  have one : alike lt x src.cell i1 (i1 + 1) = [src.cell i1].filter (equivalent lt x) := by
    unfold alike
    rw [Window.items_one]
  rw [one] at swap
  rw [alike_set dest _ (by omega), h.alike_eq, alike_succ low1, List.append_assoc, swap, List.append_assoc]

theorem MergedStably.takeRight (h : MergedStably lt x src a mid m i1 i2 i dest)
    (merged : Merged lt src dest₀ a mid m e i1 i2 i dest)
    (before : ∀ l, i1 ≤ l → l < m → lt (src.cell i2) (src.cell l) = true) :
    MergedStably lt x src a mid m i1 (i2 + 1) (i + 1) (dest.set (src.cell i2) i) := by
  have index := merged.i_eq
  have low1 := merged.low1
  have low2 := merged.low2
  refine ⟨?_, fun k l low high low' high' => ?_⟩
  · rw [alike_set dest _ (by omega), h.alike_eq, alike_succ low2, List.append_assoc]
  · by_cases last : k = i2
    · rw [last]
      exact before l low' high'
    · exact h.ahead k l low (by omega) low' high'

/-- Nothing is before an item and not before one that is at least as great. -/
theorem StrictWeakOrder.lt_of_lt_of_lte (order : StrictWeakOrder lt) {y z w : α} (less : lt y z = true)
    (le : Lte lt z w) : lt y w = true := by
  by_contra notLess
  have greater := order.lte_trans le (lte_of_not_lt notLess)
  unfold Lte at greater
  rw [less] at greater
  cases greater

theorem MergedStably.returns_round (order : StrictWeakOrder lt) (h : MergedStably lt x src a mid m i1 i2 i dest)
    (merged : Merged lt src dest₀ a mid m e i1 i2 i dest) (blocks : Blocks lt src dest₀ a mid m e)
    (inside1 : i1 < m) (inside2 : i2 < e) :
    Returns (mergeRound lt src (i1, i2, i, dest)) fun (j1, j2, j, dest) =>
      MergedStably lt x src a mid m j1 j2 j dest := by
  obtain ⟨hl, hu, low, a_le, mid_le, m_le, e_le, left, right⟩ := blocks
  have index := merged.i_eq
  have low1 := merged.low1
  have low2 := merged.low2
  have lower := merged.lower_eq
  have upper := merged.upper_eq
  unfold mergeRound
  simp only [Returns.bind_iff, Collection.returns_item]
  refine ⟨by omega, by omega, ?_⟩
  split
  · simp only [Returns.bind_iff, Collection.returns_item, Collection.returns_put, Returns.pure_iff]
    exact ⟨by omega, by omega, h.takeLeft order merged inside1⟩
  · rename_i second
    rw [lte, Bool.not_eq_true', Bool.not_eq_false] at second
    simp only [Returns.bind_iff, Collection.returns_item, Collection.returns_put, Returns.pure_iff]
    refine ⟨by omega, by omega, h.takeRight merged fun l lowL highL => ?_⟩
    by_cases here : l = i1
    · rw [here]
      exact second
    · exact order.lt_of_lt_of_lte second (left i1 l low1 (by omega) highL)

/-- What `copyRest` writes. -/
structure Copied (src : Collection α) (j jmax i : ℤ) (dest d : Collection α) : Prop where
  lower_eq : d.lower = dest.lower
  upper_eq : d.upper = dest.upper
  frame : ∀ k, k < i → d.cell k = dest.cell k
  copied : ∀ k, j ≤ k → k < jmax → d.cell (i + (k - j)) = src.cell k

theorem Copied.alike_eq {d : Collection α} (h : Copied src j jmax i dest d) (le : a ≤ i) (more : j ≤ jmax) :
    alike lt x d.cell a (i + (jmax - j)) = alike lt x dest.cell a i ++ alike lt x src.cell j jmax := by
  rw [← alike_append (show a ≤ i from le) (show i ≤ i + (jmax - j) by omega),
    alike_congr fun k _ before => h.frame k before]
  refine congrArg _ ?_
  unfold alike
  rw [Window.items_congr (show i + (jmax - j) - i = jmax - j by omega) fun k low high => ?_]
  have copied := h.copied (j + k) (by omega) (by omega)
  rw [show i + (j + k - j) = i + k by omega] at copied
  exact copied

end Merges

/-! ## Lines -/

section Stability

variable {lt} {x : α} {src dest c : Collection α} {count : ℤ}

end Stability

end AbstractSorter

end Liberty
