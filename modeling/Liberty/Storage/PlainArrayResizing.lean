import Liberty.Storage.PlainArray

/-!
# Resizing an ARRAY

`resize` moves the items and clears the cells that they leave.  The cells behind the items are not
cleared: what was removed at the end of the array is there, and comes back.
-/

namespace Liberty

namespace PlainArray

variable {α : Type} [Inhabited α]

/-! ## Resizing -/

/-- The first cell that `resize` does not fill: it stands behind the items, which go further where
the array grows downwards. -/
def firstUnused (a : PlainArray α) (minIndex maxIndex : Int) : Int :=
  if max minIndex a.lower ≤ min maxIndex a.upper ∧ minIndex < a.lower then
    a.count + (a.lower - minIndex)
  else
    a.count

variable {a : PlainArray α}

omit [Inhabited α] in
theorem count_eq (a : PlainArray α) : a.count = a.upper - a.lower + 1 := rfl

theorem valid_enlarged (h : Valid a) {needed : Int} (positive : 0 < needed) :
    Valid (a.enlarged needed) ∧ needed ≤ (a.enlarged needed).capacity ∧
      a.capacity ≤ (a.enlarged needed).capacity := by
  obtain ⟨size, room, nonneg, le⟩ := h
  rw [count_eq] at nonneg le
  unfold enlarged
  split
  · rename_i more
    split
    · refine ⟨⟨rfl, by change 0 ≤ needed; omega, nonneg, ?_⟩, Int.le_refl _,
        by change _ ≤ needed; omega⟩
      change a.upper - a.lower + 1 ≤ needed
      omega
    · refine ⟨⟨rfl, by change 0 ≤ needed; omega, nonneg, ?_⟩, Int.le_refl _,
        by change _ ≤ needed; omega⟩
      change a.upper - a.lower + 1 ≤ needed
      omega
  · exact ⟨⟨size, room, nonneg, le⟩, by omega, Int.le_refl _⟩

@[simp] theorem lower_enlarged (a : PlainArray α) (needed : Int) :
    (a.enlarged needed).lower = a.lower := by
  unfold enlarged
  split
  · split <;> rfl
  · rfl

@[simp] theorem upper_enlarged (a : PlainArray α) (needed : Int) :
    (a.enlarged needed).upper = a.upper := by
  unfold enlarged
  split
  · split <;> rfl
  · rfl

theorem cell_enlarged (h : Valid a) (needed : Int) {k : Int} (low : 0 ≤ k)
    (high : k < (a.enlarged needed).capacity) :
    (a.enlarged needed).storage.cell k = if k < a.capacity then a.storage.cell k else default := by
  unfold enlarged at high ⊢
  split at high
  · split at high
    · rw [if_pos ‹_›, if_pos ‹_›, if_neg (by omega)]
      rfl
    · rw [if_pos ‹_›, if_neg ‹_›]
      change (if 0 ≤ k ∧ k < a.capacity then a.storage.cell k else default) = _
      by_cases old : k < a.capacity
      · rw [if_pos ⟨low, old⟩, if_pos old]
      · rw [if_neg (fun inside => old inside.2), if_neg old]
  · rw [if_neg ‹_›, if_pos high]

omit [Inhabited α] in
/-- The cells after a move: the range stands `offset` cells further. -/
theorem returns_move {s : NativeArray α} {lo hi offset : Int} (low : 0 ≤ lo)
    (low' : 0 ≤ lo + offset) (high : hi < s.size) (high' : hi + offset < s.size) :
    Returns (s.move lo hi offset) fun s' => s'.size = s.size ∧ ∀ k, s'.cell k =
      if lo + offset ≤ k ∧ k ≤ hi + offset then s.cell (k - offset) else s.cell k := by
  unfold NativeArray.move
  refine NativeArray.returns_sliceCopy (fun _ => by omega) fun s' size moved kept => ⟨size, fun k => ?_⟩
  split
  · rename_i inside
    rw [moved k inside.1 (by omega)]
    congr 1
    omega
  · exact kept k (by omega)

theorem returns_clear {s : NativeArray α} {lo hi : Int} (low : 0 ≤ lo) (high : hi < s.size) :
    Returns (s.clear lo hi) fun s' => s'.size = s.size ∧ ∀ k, s'.cell k =
      if lo ≤ k ∧ k ≤ hi then default else s.cell k := by
  exact NativeArray.returns_setSliceWith (fun _ => ⟨low, high⟩) ⟨rfl, fun _ => rfl⟩

/-- What a cell of the new range holds after `resize`. -/
def resizedCell (a : PlainArray α) (minIndex maxIndex k : Int) : α :=
  if a.ValidIndex (minIndex + k) then a.storage.cell (minIndex + k - a.lower)
  else if k < a.firstUnused minIndex maxIndex then default
  else a.storage.cell k

theorem eq_resizedCell {minIndex maxIndex k : Int} {x : α}
    (kept : a.lower ≤ minIndex + k ∧ minIndex + k ≤ a.upper →
      x = a.storage.cell (minIndex + k - a.lower))
    (cleared : ¬(a.lower ≤ minIndex + k ∧ minIndex + k ≤ a.upper) →
      k < a.firstUnused minIndex maxIndex → x = default)
    (unused : ¬(a.lower ≤ minIndex + k ∧ minIndex + k ≤ a.upper) →
      a.firstUnused minIndex maxIndex ≤ k → x = a.storage.cell k) :
    x = a.resizedCell minIndex maxIndex k := by
  unfold resizedCell
  split
  · exact kept ‹_›
  · split
    · exact cleared ‹_› ‹_›
    · exact unused ‹_› (Int.not_lt.mp ‹_›)

theorem returns_shifted (h : Valid a) {minIndex maxIndex : Int}
    (fits : maxIndex - minIndex + 1 ≤ a.capacity) :
    Returns (a.shifted minIndex maxIndex) fun s => s.size = a.capacity ∧
      ∀ k, 0 ≤ k → k ≤ maxIndex - minIndex → s.cell k = a.resizedCell minIndex maxIndex k := by
  obtain ⟨size, room, nonneg, le⟩ := h
  rw [count_eq] at nonneg le
  have unused : a.firstUnused minIndex maxIndex =
      if max minIndex a.lower ≤ min maxIndex a.upper ∧ minIndex < a.lower then
        a.upper - a.lower + 1 + (a.lower - minIndex)
      else a.upper - a.lower + 1 := rfl
  unfold shifted
  obtain ⟨hi, hiEq, hiLe, hiLe', hiOr⟩ : ∃ hi, min maxIndex a.upper = hi ∧ hi ≤ maxIndex ∧
      hi ≤ a.upper ∧ (hi = maxIndex ∨ hi = a.upper) := ⟨_, rfl, by omega, by omega, by omega⟩
  obtain ⟨lo, loEq, loLe, loLe', loOr⟩ : ∃ lo, max minIndex a.lower = lo ∧ minIndex ≤ lo ∧
      a.lower ≤ lo ∧ (lo = minIndex ∨ lo = a.lower) := ⟨_, rfl, by omega, by omega, by omega⟩
  rw [hiEq, loEq] at unused ⊢
  by_cases meets : lo ≤ hi
  · rw [if_pos (show hi - lo + 1 > 0 by omega)]
    by_cases same : a.lower - minIndex = 0
    · rw [if_neg (show ¬(lo ≤ hi ∧ minIndex < a.lower) by omega)] at unused
      rw [if_pos same]
      by_cases less : hi - lo + 1 ≤ a.upper - a.lower
      · rw [if_pos less]
        refine (returns_clear (by omega) (by omega)).mono fun s cleared =>
          ⟨by omega, fun k low high => ?_⟩
        rw [cleared.2 k, if_neg (by omega)]
        refine eq_resizedCell (fun _ => congrArg _ (by omega)) (fun _ _ => ?_) (fun _ _ => rfl)
        omega
      · rw [if_neg less]
        refine Returns.some_iff.mpr ⟨size, fun k low high => ?_⟩
        refine eq_resizedCell (fun _ => congrArg _ (by omega)) (fun _ _ => ?_) (fun _ _ => rfl)
        omega
    · rw [if_neg same]
      by_cases up : a.lower - minIndex < 0
      · rw [if_neg (show ¬(lo ≤ hi ∧ minIndex < a.lower) by omega)] at unused
        rw [if_pos up]
        refine (returns_move (by omega) (by omega) (by omega) (by omega)).bind fun s moved => ?_
        refine (returns_clear (by omega) (by omega)).mono fun s' cleared =>
          ⟨by omega, fun k low high => ?_⟩
        rw [cleared.2 k, moved.2 k]
        refine eq_resizedCell (fun inside => ?_) (fun outside inside => ?_) (fun outside behind => ?_)
        · rw [if_neg (by omega), if_pos (by omega)]
          exact congrArg _ (by omega)
        · exact if_pos (by omega)
        · rw [if_neg (by omega), if_neg (by omega)]
      · rw [if_pos (show lo ≤ hi ∧ minIndex < a.lower by omega)] at unused
        rw [if_neg up]
        refine (returns_move (by omega) (by omega) (by omega) (by omega)).bind fun s moved => ?_
        refine (returns_clear (by omega) (by omega)).bind fun s' cleared => ?_
        have cells : ∀ k, 0 ≤ k → k ≤ maxIndex - minIndex →
            s'.cell k = a.resizedCell minIndex maxIndex k := by
          intro k low high
          rw [cleared.2 k, moved.2 k]
          refine eq_resizedCell (fun inside => ?_) (fun outside inside => ?_)
            (fun outside behind => ?_)
          · rw [if_neg (by omega), if_pos (by omega)]
            exact congrArg _ (by omega)
          · exact if_pos (by omega)
          · rw [if_neg (by omega), if_neg (by omega)]
        by_cases left : hi - lo + 1 + (a.lower - minIndex) ≤ a.upper - a.lower
        · rw [if_pos left]
          refine (returns_clear (by omega) (by omega)).mono fun s'' cleared' =>
            ⟨by omega, fun k low high => ?_⟩
          rw [cleared'.2 k, if_neg (by omega)]
          exact cells k low high
        · rw [if_neg left]
          exact Returns.pure_iff.mpr ⟨by omega, cells⟩
  · rw [if_neg (show ¬hi - lo + 1 > 0 by omega)]
    refine (returns_clear (by omega) (by omega)).mono fun s cleared =>
      ⟨by omega, fun k low high => ?_⟩
    rw [cleared.2 k]
    refine eq_resizedCell (fun inside => ?_) (fun outside inside => ?_) (fun outside behind => ?_)
    · omega
    · exact if_pos (by omega)
    · exact if_neg (by omega)

/-- What a cell of the new range holds after `resize`, in terms of the old storage. -/
theorem resizedCell_enlarged (h : Valid a) (minIndex maxIndex needed : Int) {k : Int} (low : 0 ≤ k)
    (high : k < (a.enlarged needed).capacity) :
    (a.enlarged needed).resizedCell minIndex maxIndex k =
      if a.ValidIndex (minIndex + k) then a.storage.cell (minIndex + k - a.lower)
      else if a.firstUnused minIndex maxIndex ≤ k ∧ k < a.capacity then a.storage.cell k
      else default := by
  have le := h.count_le
  rw [count_eq] at le
  have unused : (a.enlarged needed).firstUnused minIndex maxIndex =
      a.firstUnused minIndex maxIndex := by
    unfold firstUnused count
    rw [lower_enlarged, upper_enlarged]
  unfold resizedCell
  rw [unused]
  by_cases inside : a.lower ≤ minIndex + k ∧ minIndex + k ≤ a.upper
  · have here : a.ValidIndex (minIndex + k) := inside
    have there : (a.enlarged needed).ValidIndex (minIndex + k) := by
      unfold ValidIndex
      rw [lower_enlarged, upper_enlarged]
      exact inside
    have room : a.capacity ≤ (a.enlarged needed).capacity := by
      unfold enlarged
      split
      · split
        · change a.capacity ≤ needed
          omega
        · change a.capacity ≤ needed
          omega
      · exact Int.le_refl _
    rw [if_pos here, if_pos there, lower_enlarged, cell_enlarged h needed (by omega) (by omega),
      if_pos (by omega)]
  · have here : ¬a.ValidIndex (minIndex + k) := inside
    have there : ¬(a.enlarged needed).ValidIndex (minIndex + k) := by
      unfold ValidIndex
      rw [lower_enlarged, upper_enlarged]
      exact inside
    rw [if_neg here, if_neg there, cell_enlarged h needed low high]
    by_cases filled : k < a.firstUnused minIndex maxIndex
    · rw [if_pos filled, if_neg (by omega)]
    · rw [if_neg filled]
      by_cases old : k < a.capacity
      · rw [if_pos old, if_pos ⟨by omega, old⟩]
      · rw [if_neg old, if_neg (by omega)]

/-- `resize` returns, and the new range holds the items, default values, and what was left in the
unused cells. -/
theorem returns_resize (h : Valid a) {minIndex maxIndex : Int} (bounds : minIndex ≤ maxIndex + 1) :
    Returns (a.resize minIndex maxIndex) fun a' => Valid a' ∧ a'.lower = minIndex ∧
      a'.upper = maxIndex ∧ ∀ k, 0 ≤ k → k ≤ maxIndex - minIndex → a'.storage.cell k =
        if a.ValidIndex (minIndex + k) then a.storage.cell (minIndex + k - a.lower)
        else if a.firstUnused minIndex maxIndex ≤ k ∧ k < a.capacity then a.storage.cell k
        else default := by
  have nonneg := h.count_nonneg
  have le := h.count_le
  have size := h.size_eq
  have room := h.capacity_nonneg
  rw [count_eq] at nonneg le
  unfold resize
  by_cases positive : maxIndex - minIndex + 1 > 0
  · rw [if_pos positive]
    obtain ⟨valid, enough, -⟩ := valid_enlarged h positive
    refine (returns_shifted valid enough).bind fun s shifted => ?_
    rw [Returns.pure_iff]
    refine ⟨⟨shifted.1, valid.capacity_nonneg, ?_, ?_⟩, rfl, rfl, fun k low high => ?_⟩
    · change 0 ≤ maxIndex - minIndex + 1
      omega
    · change maxIndex - minIndex + 1 ≤ _
      exact enough
    · exact (shifted.2 k low high).trans
        (resizedCell_enlarged h minIndex maxIndex _ low (by omega))
  · rw [if_neg positive]
    have empty : maxIndex - minIndex + 1 = 0 := by omega
    split
    · refine (returns_clear (Int.le_refl 0) (by omega)).bind fun s cleared => ?_
      rw [Returns.pure_iff]
      exact ⟨⟨cleared.1.trans size, room, Int.le_of_eq empty.symm,
        Int.le_trans (Int.le_of_eq empty) room⟩, rfl, rfl, fun k low high => by omega⟩
    · exact Returns.some_iff.mpr ⟨⟨size, room, Int.le_of_eq empty.symm,
        Int.le_trans (Int.le_of_eq empty) room⟩, rfl, rfl, fun k low high => by omega⟩

omit [Inhabited α] in
/-- The cells that `resize` does not fill are those of new indices. -/
theorem not_validIndex_of_unused {minIndex maxIndex k : Int}
    (unused : a.firstUnused minIndex maxIndex ≤ k) (high : k ≤ maxIndex - minIndex) :
    ¬a.ValidIndex (minIndex + k) := by
  intro valid
  have inside : a.lower ≤ minIndex + k ∧ minIndex + k ≤ a.upper := valid
  unfold firstUnused at unused
  rw [count_eq] at unused
  split at unused
  · omega
  · rename_i apart
    exact apart ⟨by omega, by omega⟩

omit [Inhabited α] in
theorem item_of_validIndex (h : Valid a) {i : Int} (valid : a.ValidIndex i) :
    a.item i = some (a.storage.cell (i - a.lower)) := by
  have le := h.count_le
  have size := h.size_eq
  rw [count_eq] at le
  obtain ⟨low, high⟩ := valid
  exact NativeArray.item_of_inBounds ⟨by omega, by omega⟩

omit [Inhabited α] in
theorem returns_put (h : Valid a) (element : α) {i : Int} (valid : a.ValidIndex i) :
    Returns (a.put element i) fun a' => Valid a' ∧ a'.lower = a.lower ∧ a'.upper = a.upper ∧
      ∀ k, a'.storage.cell k = if k = i - a.lower then element else a.storage.cell k := by
  have le := h.count_le
  have size := h.size_eq
  rw [count_eq] at le
  obtain ⟨low, high⟩ := valid
  unfold put
  rw [Returns.bind_iff, NativeArray.returns_put, Returns.pure_iff]
  exact ⟨⟨by omega, by omega⟩, ⟨size, h.capacity_nonneg, h.count_nonneg, h.count_le⟩, rfl, rfl,
    fun k => rfl⟩

theorem returns_addLast (h : Valid a) (element : α) :
    Returns (a.addLast element) fun a' => Valid a' ∧ a'.lower = a.lower ∧
      a'.upper = a.upper + 1 ∧ ∀ k, 0 ≤ k → k ≤ a.count →
        a'.storage.cell k = if k = a.count then element else a.storage.cell k := by
  have nonneg := h.count_nonneg
  have le := h.count_le
  have size := h.size_eq
  have count := count_eq a
  unfold addLast
  generalize grownEq : (if a.capacity < a.count + 1 then
      if a.capacity = 0 then
        { a with storage := .calloc 16, capacity := 16 }
      else
        { a with
          storage := a.storage.realloc a.capacity (a.capacity * 2), capacity := a.capacity * 2 }
    else a) = g
  have shape : g.storage.size = g.capacity ∧ g.lower = a.lower ∧ g.upper = a.upper ∧
      a.count + 1 ≤ g.capacity ∧ ∀ k, 0 ≤ k → k < a.count → g.storage.cell k = a.storage.cell k := by
    rw [← grownEq]
    split
    · split
      · exact ⟨rfl, rfl, rfl, by change a.count + 1 ≤ 16; omega, fun k low high => by omega⟩
      · exact ⟨rfl, rfl, rfl, by change a.count + 1 ≤ a.capacity * 2; omega,
          fun k low high => if_pos ⟨low, by omega⟩⟩
    · exact ⟨size, rfl, rfl, by omega, fun _ _ _ => rfl⟩
  obtain ⟨sizeG, lowerG, upperG, roomG, cells⟩ := shape
  unfold put
  rw [Returns.bind_iff, NativeArray.returns_put, Returns.pure_iff]
  dsimp only
  rw [lowerG, upperG]
  have last : a.upper + 1 - a.lower = a.count := by omega
  rw [last]
  refine ⟨⟨nonneg, by omega⟩, ⟨sizeG, by change 0 ≤ g.capacity; omega, ?_, ?_⟩, rfl, rfl,
    fun k low high => ?_⟩
  · change 0 ≤ a.upper + 1 - a.lower + 1
    omega
  · change a.upper + 1 - a.lower + 1 ≤ g.capacity
    omega
  · rw [NativeArray.cell_set]
    split
    · rfl
    · exact cells k low (by omega)

/-! ## What they promise -/

/-- `force` stores the element, keeps the other items, and fills a gap with default values. -/
def ForcesTo (a : PlainArray α) (element : α) (index : Int) : Prop :=
  ∃ a', a.force element index = some a' ∧ a'.lower = min index a.lower ∧
    a'.upper = max index a.upper ∧ ∀ i, min index a.lower ≤ i → i ≤ max index a.upper →
      a'.item i = if i = index then some element
        else if a.ValidIndex i then a.item i else some default

/-- The unused cells that the new range takes over hold the default value, but for one at
`written`. -/
def UnusedCleared (a : PlainArray α) (minIndex maxIndex : Int) (written : Option Int) : Prop :=
  ∀ k, a.firstUnused minIndex maxIndex ≤ k → k ≤ maxIndex - minIndex → k < a.capacity →
    some (minIndex + k) ≠ written → a.storage.cell k = default

omit [Inhabited α] in
theorem firstUnused_nonneg (h : Valid a) (minIndex maxIndex : Int) :
    0 ≤ a.firstUnused minIndex maxIndex := by
  have nonneg := h.count_nonneg
  unfold firstUnused
  split <;> omega

/-- `force` where the array is resized first. -/
theorem resized_put_iff (h : Valid a) (element : α) {minIndex maxIndex index : Int}
    (low : minIndex ≤ index) (high : index ≤ maxIndex) :
    (∃ b, ((a.resize minIndex maxIndex).bind fun a' => a'.put element index) = some b ∧
      b.lower = minIndex ∧ b.upper = maxIndex ∧ ∀ i, minIndex ≤ i → i ≤ maxIndex →
        b.item i = if i = index then some element
          else if a.ValidIndex i then a.item i else some default) ↔
      a.UnusedCleared minIndex maxIndex (some index) := by
  obtain ⟨a', run, valid, lower, upper, cells⟩ := returns_resize h
    (show minIndex ≤ maxIndex + 1 by omega)
  obtain ⟨b, run', validB, lowerB, upperB, cellsB⟩ := returns_put valid element
    (show a'.ValidIndex index from ⟨by omega, by omega⟩)
  have first := firstUnused_nonneg h minIndex maxIndex
  have whole : ((a.resize minIndex maxIndex).bind fun a' => a'.put element index) = some b := by
    rw [run]
    exact run'
  have item : ∀ i, minIndex ≤ i → i ≤ maxIndex → b.item i =
      some (if i = index then element else a'.storage.cell (i - minIndex)) := by
    intro i low high
    rw [item_of_validIndex validB (show b.lower ≤ i ∧ i ≤ b.upper by omega), cellsB]
    rw [show b.lower = minIndex by omega, show a'.lower = minIndex by omega]
    by_cases here : i = index
    · rw [if_pos here, if_pos (by omega)]
    · rw [if_neg here, if_neg (by omega)]
  constructor
  · intro forces k unused high' old other
    obtain ⟨c, run'', -, -, items⟩ := forces
    cases whole.symm.trans run''
    have notIndex : minIndex + k ≠ index := fun same => other (congrArg some same)
    have new := not_validIndex_of_unused unused high'
    have found := items (minIndex + k) (by omega) (by omega)
    rw [if_neg notIndex, if_neg new, item _ (by omega) (by omega), if_neg notIndex,
      show minIndex + k - minIndex = k by omega, cells k (by omega) high', if_neg new,
      if_pos ⟨unused, old⟩] at found
    exact Option.some.inj found
  · intro cleared
    refine ⟨b, whole, by omega, by omega, fun i low high => ?_⟩
    rw [item i low high]
    by_cases here : i = index
    · rw [if_pos here, if_pos here]
    · rw [if_neg here, if_neg here, cells _ (by omega) (by omega),
        show minIndex + (i - minIndex) = i by omega]
      by_cases valid : a.ValidIndex i
      · rw [if_pos valid, if_pos valid, item_of_validIndex h valid]
      · rw [if_neg valid, if_neg valid]
        split
        · rename_i unused
          have notIndex : some (minIndex + (i - minIndex)) ≠ some index := fun same =>
            here (by rw [Option.some.injEq] at same; omega)
          rw [cleared _ unused.1 (by omega) unused.2 notIndex]
        · rfl

/-- A valid index, or the one after the last, takes over no unused cell but its own. -/
theorem unusedCleared_of_le (a : PlainArray α) {index : Int} (low : a.lower ≤ index)
    (high : index ≤ a.upper + 1) :
    a.UnusedCleared (min index a.lower) (max index a.upper) (some index) := by
  intro k unused last _ other
  have count := count_eq a
  unfold firstUnused at unused
  exact absurd (congrArg some (show min index a.lower + k = index by omega)) other

theorem forcesTo_iff (h : Valid a) (element : α) (index : Int) :
    a.ForcesTo element index ↔
      a.UnusedCleared (min index a.lower) (max index a.upper) (some index) := by
  have nonneg := h.count_nonneg
  rw [count_eq] at nonneg
  unfold ForcesTo force
  by_cases above : a.upper < index
  · rw [if_pos above, Int.max_eq_left (by omega), Int.min_eq_right (by omega)]
    by_cases next : index = a.upper + 1
    · rw [if_pos next]
      have cleared := unusedCleared_of_le a (show a.lower ≤ index by omega) (by omega)
      rw [Int.max_eq_left (by omega), Int.min_eq_right (by omega)] at cleared
      refine iff_of_true ?_ cleared
      obtain ⟨a', run, valid, lower, upper, cells⟩ := returns_addLast h element
      refine ⟨a', run, lower, by omega, fun i low high => ?_⟩
      have count := count_eq a
      rw [item_of_validIndex valid ⟨by omega, by omega⟩, lower, cells _ (by omega) (by omega)]
      by_cases here : i = index
      · rw [if_pos here, if_pos (by omega)]
      · have inside : a.ValidIndex i := ⟨by omega, by omega⟩
        rw [if_neg here, if_neg (by omega), if_pos inside, item_of_validIndex h inside]
    · rw [if_neg next]
      exact resized_put_iff h element (by omega) (Int.le_refl _)
  · rw [if_neg above, Int.max_eq_right (by omega)]
    by_cases below : index < a.lower
    · rw [if_pos below, Int.min_eq_left (by omega)]
      exact resized_put_iff h element (Int.le_refl _) (by omega)
    · rw [if_neg below, Int.min_eq_right (by omega)]
      have cleared := unusedCleared_of_le a (show a.lower ≤ index by omega) (by omega)
      rw [Int.max_eq_right (by omega), Int.min_eq_right (by omega)] at cleared
      refine iff_of_true ?_ cleared
      have inside : a.ValidIndex index := ⟨by omega, by omega⟩
      obtain ⟨a', run, valid, lower, upper, cells⟩ := returns_put h element inside
      refine ⟨a', run, lower, upper, fun i low high => ?_⟩
      have here' : a.ValidIndex i := ⟨low, high⟩
      rw [item_of_validIndex valid ⟨by omega, by omega⟩, lower, cells]
      by_cases here : i = index
      · rw [if_pos here, if_pos (by omega)]
      · rw [if_neg here, if_neg (by omega), if_pos here', item_of_validIndex h here']

/-! ## Runs -/

section Sizes

omit [Inhabited α]

variable {s s' src : NativeArray α}

theorem size_put {element : α} {i : Int} (run : s.put element i = some s') : s'.size = s.size := by
  unfold NativeArray.put at run
  split at run
  · cases run
    rfl
  · cases run

theorem size_sliceCopy {at' lo hi : Int} (run : s.sliceCopy at' src lo hi = some s') :
    s'.size = s.size := by
  unfold NativeArray.sliceCopy at run
  split at run
  · cases run
    rfl
  · cases run

theorem size_setSliceWith {v : α} {lo hi : Int} (run : s.setSliceWith v lo hi = some s') :
    s'.size = s.size := by
  unfold NativeArray.setSliceWith at run
  split at run
  · cases run
    rfl
  · cases run

end Sizes

variable {a' : PlainArray α} {isReference : Bool}

omit [Inhabited α] in
theorem Valid.put (h : Valid a) {element : α} {i : Int} (run : a.put element i = some a') :
    Valid a' := by
  obtain ⟨s, written, run⟩ := Option.bind_eq_some_iff.mp run
  cases run
  exact ⟨(size_put written).trans h.size_eq, h.capacity_nonneg, h.count_nonneg, h.count_le⟩

theorem Valid.resize (h : Valid a) {minIndex maxIndex : Int} (bounds : minIndex ≤ maxIndex + 1)
    (run : a.resize minIndex maxIndex = some a') : Valid a' :=
  ((returns_resize h bounds).unique run).1

theorem Valid.addLast (h : Valid a) {element : α} (run : a.addLast element = some a') :
    Valid a' :=
  ((returns_addLast h element).unique run).1

theorem Valid.force (h : Valid a) {element : α} {index : Int}
    (run : a.force element index = some a') : Valid a' := by
  have nonneg := h.count_nonneg
  rw [count_eq] at nonneg
  unfold PlainArray.force at run
  split at run
  · split at run
    · exact h.addLast run
    · obtain ⟨b, resized, run⟩ := Option.bind_eq_some_iff.mp run
      exact (h.resize (by omega) resized).put run
  · split at run
    · obtain ⟨b, resized, run⟩ := Option.bind_eq_some_iff.mp run
      exact (h.resize (by omega) resized).put run
    · exact h.put run

theorem Valid.move (h : Valid a) {lowerIndex upperIndex distance : Int}
    (run : a.move lowerIndex upperIndex distance = some a') : Valid a' := by
  obtain ⟨⟨b, i⟩, moved, run⟩ := Option.bind_eq_some_iff.mp run
  cases run
  refine (holds_of_untilLoop (fun s : PlainArray α × Int => Valid s.1) ?_ h moved).1
  intro s s' valid _ round
  obtain ⟨x, _, round⟩ := Option.bind_eq_some_iff.mp round
  obtain ⟨b, first, round⟩ := Option.bind_eq_some_iff.mp round
  obtain ⟨c, second, round⟩ := Option.bind_eq_some_iff.mp round
  cases round
  exact (valid.put first).put second

omit [Inhabited α] in
/-- The array after a move in the storage, with fewer items. -/
theorem Valid.fewer (h : Valid a) {lo hi offset lower upper : Int} {s : NativeArray α}
    (run : a.storage.move lo hi offset = some s) (nonneg : 0 ≤ upper - lower + 1)
    (le : upper - lower + 1 ≤ a.count) :
    Valid { a with storage := s, lower := lower, upper := upper } :=
  ⟨(size_sliceCopy run).trans h.size_eq, h.capacity_nonneg, nonneg, Int.le_trans le h.count_le⟩

omit [Inhabited α] in
theorem Valid.setAllWith (h : Valid a) {v : α} (run : a.setAllWith v = some a') : Valid a' := by
  obtain ⟨s, written, run⟩ := Option.bind_eq_some_iff.mp run
  cases run
  exact ⟨(size_setSliceWith written).trans h.size_eq, h.capacity_nonneg, h.count_nonneg, h.count_le⟩

theorem size_purged (size : a.storage.size = a.capacity)
    (run : a.purged isReference = some a') :
    a'.storage.size = a.capacity ∧ a'.capacity = a.capacity := by
  unfold purged at run
  split at run
  · obtain ⟨s, written, run⟩ := Option.bind_eq_some_iff.mp run
    cases run
    exact ⟨(size_setSliceWith written).trans size, rfl⟩
  · cases run
    exact ⟨size, rfl⟩

theorem valid_ensureCapacityAndBounds (size : a.storage.size = a.capacity) (room : 0 ≤ a.capacity)
    {neededCapacity low up : Int} (bounds : low - 1 ≤ up) (enough : up - low + 1 ≤ neededCapacity)
    (run : a.ensureCapacityAndBounds isReference neededCapacity low up = some a') : Valid a' := by
  obtain ⟨b, first, run⟩ := Option.bind_eq_some_iff.mp run
  obtain ⟨sizeB, capacityB⟩ := size_purged size first
  have nonneg : 0 ≤ up - low + 1 := by omega
  dsimp only at run
  split at run
  · split at run
    · cases run
      exact ⟨rfl, by change 0 ≤ neededCapacity; omega, nonneg, enough⟩
    · have valid : Valid { b with lower := low, upper := up } := by
        refine ⟨by change b.storage.size = b.capacity; omega, by change 0 ≤ b.capacity; omega,
          nonneg, ?_⟩
        change up - low + 1 ≤ b.capacity
        omega
      split at run
      · exact valid.setAllWith run
      · cases run
        exact valid
  · cases run
    refine ⟨by change b.storage.size = b.capacity; omega, by change 0 ≤ b.capacity; omega,
      nonneg, ?_⟩
    change up - low + 1 ≤ b.capacity
    omega

theorem Valid.copy (h : Valid a) {other : PlainArray α} (h' : Valid other)
    (run : a.copy other = some a') : Valid a' := by
  have nonneg := h'.count_nonneg
  have room := h.capacity_nonneg
  have size := h.size_eq
  unfold PlainArray.copy at run
  dsimp only at run
  generalize grownEq : (if a.capacity < other.upper - other.lower + 1 then
      { { a with lower := other.lower, upper := other.upper } with
        storage := .calloc (other.upper - other.lower + 1)
        capacity := other.upper - other.lower + 1 }
    else { a with lower := other.lower, upper := other.upper } : PlainArray α) = g at run
  have valid : Valid g := by
    rw [← grownEq]
    split
    · exact ⟨rfl, nonneg, nonneg, Int.le_refl _⟩
    · refine ⟨size, room, nonneg, ?_⟩
      change other.upper - other.lower + 1 ≤ a.capacity
      omega
  split at run
  · obtain ⟨s, written, run⟩ := Option.bind_eq_some_iff.mp run
    cases run
    exact ⟨(size_sliceCopy written).trans valid.size_eq, valid.capacity_nonneg, valid.count_nonneg,
      valid.count_le⟩
  · cases run
    exact valid

theorem Valid.execute (h : Valid a) {command : Command α} (allowed : command.Allowed a)
    (run : a.execute isReference command = some a') : Valid a' := by
  have nonneg := h.count_nonneg
  have le := h.count_le
  have room := h.capacity_nonneg
  have size := h.size_eq
  rw [count_eq] at nonneg le
  cases command with
  | make minIndex maxIndex =>
    have bounds : minIndex ≤ maxIndex + 1 := allowed
    exact valid_ensureCapacityAndBounds size room (by omega) (Int.le_refl _) run
  | withCapacity neededCapacity low =>
    have enough : 0 ≤ neededCapacity := allowed
    exact valid_ensureCapacityAndBounds size room (Int.le_refl _) (by omega) run
  | resize minIndex maxIndex => exact h.resize allowed run
  | reindex newLower =>
    cases run
    refine ⟨size, room, ?_, ?_⟩
    · change 0 ≤ a.upper + (newLower - a.lower) - (a.lower + (newLower - a.lower)) + 1
      omega
    · change a.upper + (newLower - a.lower) - (a.lower + (newLower - a.lower)) + 1 ≤ a.capacity
      omega
  | put element index => exact h.put run
  | force element index => exact h.force run
  | addFirst element =>
    change (if a.upper < a.lower then a.addLast element else do
      let b ← a.addLast element
      let b ← b.move b.lower (b.upper - 1) 1
      b.put element b.lower) = some a' at run
    split at run
    · exact h.addLast run
    · obtain ⟨b, added, run⟩ := Option.bind_eq_some_iff.mp run
      obtain ⟨c, moved, run⟩ := Option.bind_eq_some_iff.mp run
      exact ((h.addLast added).move moved).put run
  | addLast element => exact h.addLast run
  | add element index =>
    change (if index = a.upper + 1 then a.addLast element else do
      let b ← a.addLast element
      let b ← b.move index (b.upper - 1) 1
      b.put element index) = some a' at run
    split at run
    · exact h.addLast run
    · obtain ⟨b, added, run⟩ := Option.bind_eq_some_iff.mp run
      obtain ⟨c, moved, run⟩ := Option.bind_eq_some_iff.mp run
      exact ((h.addLast added).move moved).put run
  | removeFirst =>
    have nonempty : a.lower ≤ a.upper := allowed
    obtain ⟨s, moved, run⟩ := Option.bind_eq_some_iff.mp run
    cases run
    exact h.fewer moved (by omega) (by rw [count_eq]; omega)
  | removeHead n =>
    have inside : 0 < n ∧ n ≤ a.upper - a.lower + 1 := allowed
    obtain ⟨s, moved, run⟩ := Option.bind_eq_some_iff.mp run
    cases run
    exact h.fewer moved (by omega) (by rw [count_eq]; omega)
  | remove index =>
    have inside : a.lower ≤ index ∧ index ≤ a.upper := allowed
    obtain ⟨s, moved, run⟩ := Option.bind_eq_some_iff.mp run
    cases run
    exact h.fewer moved (by omega) (by rw [count_eq]; omega)
  | removeLast =>
    have nonempty : a.lower ≤ a.upper := allowed
    cases run
    refine ⟨size, room, ?_, ?_⟩
    · change 0 ≤ a.upper - 1 - a.lower + 1
      omega
    · change a.upper - 1 - a.lower + 1 ≤ a.capacity
      omega
  | removeTail n =>
    have inside : 0 < n ∧ n ≤ a.upper - a.lower + 1 := allowed
    cases run
    refine ⟨size, room, ?_, ?_⟩
    · change 0 ≤ a.upper - n - a.lower + 1
      omega
    · change a.upper - n - a.lower + 1 ≤ a.capacity
      omega
  | clearCount =>
    cases run
    refine ⟨size, room, ?_, ?_⟩
    · change 0 ≤ a.lower - 1 - a.lower + 1
      omega
    · change a.lower - 1 - a.lower + 1 ≤ a.capacity
      omega
  | clearCountAndCapacity =>
    cases run
    refine ⟨size, room, ?_, ?_⟩
    · change 0 ≤ a.lower - 1 - a.lower + 1
      omega
    · change a.lower - 1 - a.lower + 1 ≤ a.capacity
      omega
  | setAllWith v => exact h.setAllWith run

theorem Reaches.valid (reached : Reaches isReference a) : Valid a := by
  induction reached with
  | make minIndex maxIndex allowed run =>
    exact valid_ensureCapacityAndBounds rfl (Int.le_refl 0) (by omega) (Int.le_refl _) run
  | withCapacity neededCapacity low allowed run =>
    exact valid_ensureCapacityAndBounds rfl (Int.le_refl 0) (Int.le_refl _) (by omega) run
  | step command _ allowed run ih => exact ih.execute allowed run
  | copy _ _ run ih ih' => exact ih.copy ih' run

end PlainArray

end Liberty
