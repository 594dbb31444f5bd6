import Liberty.Storage.RingArrayCommands

/-!
# Resizing a RING_ARRAY

`resize` and `force`, and what they do to the views of the array.  A storage that grows while the
items are wrapped has a bubble at the wrap point, which is squeezed out only where the items that
are kept stand on both sides of it.
-/

namespace Liberty

namespace RingArray

variable {α : Type} [Inhabited α]

/-! ## The source -/

def clearSlice (r : RingArray α) (min max : Int) : Option (RingArray α) :=
  if max ≥ min then
    let sMin := r.storageIndex min
    let sMax := r.storageIndex max
    if sMax ≥ sMin then do
      return { r with storage := ← r.storage.clear sMin sMax }
    else do
      let storage ← r.storage.clear sMin (r.capacity - 1)
      return { r with storage := ← storage.clear 0 sMax }
  else
    some r

def setAllWith (r : RingArray α) (v : α) : Option (RingArray α) :=
  if r.upper < r.lower then
    some r
  else
    let sU := r.storageUpper
    if r.storageLower ≤ sU then do
      return { r with storage := ← r.storage.setSliceWith v r.storageLower sU }
    else do
      let storage ← r.storage.setAllWith v sU
      return { r with storage := ← storage.setSliceWith v r.storageLower (r.capacity - 1) }

/-- `clear_all` -/
def clearAll (r : RingArray α) : Option (RingArray α) :=
  r.setAllWith default

/-- The storage of `resize`, once it has the cells that it needs. -/
def extended (r : RingArray α) (needed : Int) : RingArray α :=
  if needed > r.capacity then
    if r.capacity = 0 then
      { r with storage := .calloc needed, capacity := needed }
    else
      { r with storage := r.storage.realloc r.capacity needed, capacity := needed }
  else
    r

/-- `resize`, where a bubble was created inside the data. -/
def squeezed (r : RingArray α) (interMin interMax oldWrap bubble : Int) : Option (RingArray α) :=
  if (interMin ≤ oldWrap ∧ oldWrap ≤ interMax) ∧ bubble > 0 then
    { r with upper := r.upper + bubble }.squeezeBubble interMin (interMax + bubble) oldWrap bubble
  else
    some r

/-- `resize`, where the bounds are set. -/
def rebound (r : RingArray α) (minIndex maxIndex : Int) : RingArray α :=
  let storageLower := r.storageLower - r.lower + minIndex
  { r with
    storageLower :=
      if storageLower < 0 then storageLower + r.capacity
      else if storageLower ≥ r.capacity then storageLower - r.capacity
      else storageLower
    lower := minIndex
    upper := maxIndex }

def clearedBelow (r : RingArray α) (interMin : Int) : Option (RingArray α) :=
  if interMin > r.lower then r.clearSlice r.lower (interMin - 1) else some r

/-- `resize`, where the new indices are cleared. -/
def clearedOutside (r : RingArray α) (interMin interMax : Int) : Option (RingArray α) := do
  let r ← r.clearedBelow interMin
  if interMax < r.upper then r.clearSlice (interMax + 1) r.upper else some r

def resize (r : RingArray α) (minIndex maxIndex : Int) : Option (RingArray α) :=
  let needed := maxIndex - minIndex + 1
  if needed > 0 then
    let bubble := needed - r.capacity
    let oldWrap := if needed > r.capacity then r.wrapPoint else 0
    let r := r.extended needed
    let interMax := min maxIndex r.upper
    let interMin := max minIndex r.lower
    if interMax ≥ interMin then do
      let r ← r.squeezed interMin interMax oldWrap bubble
      (r.rebound minIndex maxIndex).clearedOutside interMin interMax
    else
      { r with lower := minIndex, upper := maxIndex }.clearAll
  else
    some { r with lower := minIndex, upper := maxIndex }

def force (r : RingArray α) (element : α) (index : Int) : Option (RingArray α) :=
  if r.upper < index then
    if index = r.upper + 1 then
      r.addLast element
    else do
      (← r.resize r.lower index).put element index
  else if index < r.lower then
    if index = r.lower - 1 then do
      let r ← r.addFirst element
      return r.reindex (r.lower - 1)
    else do
      (← r.resize index r.upper).put element index
  else
    r.put element index

/-! ## Clearing -/

section Clearing

variable {r : RingArray α}

theorem returns_clear {s : NativeArray α} {lo hi : Int} (low : 0 ≤ lo) (high : hi < s.size) :
    Returns (s.clear lo hi) fun s' => s'.size = s.size ∧ ∀ k, s'.cell k =
      if lo ≤ k ∧ k ≤ hi then default else s.cell k :=
  NativeArray.returns_setSliceWith (fun _ => ⟨low, high⟩) ⟨rfl, fun _ => rfl⟩

omit [Inhabited α] in
theorem count_eq (r : RingArray α) : r.count = r.upper - r.lower + 1 := rfl

/-- `clear_slice` clears the items of the slice only. -/
theorem returns_clearSlice (h : Valid r) {min max : Int} (low : r.lower ≤ min) (le : min ≤ max)
    (high : max ≤ r.upper) :
    Returns (r.clearSlice min max) fun r' => SameShape r r' ∧
      ∀ k, 0 ≤ k → k < r.capacity → r'.view k =
        if min - r.lower ≤ k ∧ k ≤ max - r.lower then default else r.view k := by
  have count := h.count_le
  have size := h.size_eq
  rw [count_eq] at count
  have first := slot_inside h (show 0 ≤ min - r.lower by omega) (by omega)
  have last := slot_inside h (show 0 ≤ max - r.lower by omega) (by omega)
  have nonneg := h.storageLower_nonneg
  unfold clearSlice
  rw [if_pos (show max ≥ min from le)]
  rw [storageIndex_eq, storageIndex_eq]
  by_cases row : r.slot (max - r.lower) ≥ r.slot (min - r.lower)
  · rw [if_pos row]
    refine (returns_clear first.1 (by omega)).bind fun s cleared => ?_
    rw [Returns.pure_iff]
    refine ⟨⟨⟨cleared.1.trans size, h.count_nonneg, h.count_le, nonneg, h.storageLower_lt,
      h.storageLower_small⟩, rfl, rfl, rfl, rfl⟩, fun k lowK highK => ?_⟩
    change s.cell (r.slot k) = _
    rw [cleared.2]
    congr 1
    rw [eq_iff_iff]
    unfold slot at row ⊢
    split at row <;> split at row <;> split <;> omega
  · rw [if_neg row]
    refine (returns_clear first.1 (by omega)).bind fun s cleared => ?_
    refine (returns_clear (Int.le_refl 0) (by omega)).bind fun s' cleared' => ?_
    rw [Returns.pure_iff]
    refine ⟨⟨⟨(cleared'.1.trans cleared.1).trans size, h.count_nonneg, h.count_le, nonneg,
      h.storageLower_lt, h.storageLower_small⟩, rfl, rfl, rfl, rfl⟩, fun k lowK highK => ?_⟩
    have inside := slot_inside h lowK highK
    change s'.cell (r.slot k) = _
    rw [cleared'.2, cleared.2]
    unfold view
    by_cases within : min - r.lower ≤ k ∧ k ≤ max - r.lower
    · rw [if_pos within]
      by_cases second : 0 ≤ r.slot k ∧ r.slot k ≤ r.slot (max - r.lower)
      · rw [if_pos second]
      · rw [if_neg second, if_pos]
        unfold slot at row second inside ⊢
        split at row <;> split at row <;> split at second <;> omega
    · rw [if_neg within, if_neg, if_neg]
      · unfold slot at row inside ⊢
        split at row <;> split at row <;> split <;> omega
      · unfold slot at row inside ⊢
        split at row <;> split at row <;> split <;> omega

theorem returns_setAllWith (h : Valid r) (v : α) :
    Returns (r.setAllWith v) fun r' => SameShape r r' ∧
      ∀ k, 0 ≤ k → k < r.count → r'.view k = v := by
  have count := h.count_le
  have size := h.size_eq
  rw [count_eq] at count
  unfold setAllWith
  by_cases empty : r.upper < r.lower
  · rw [if_pos empty]
    refine Returns.some_iff.mpr ⟨.refl h, fun k low high => ?_⟩
    rw [count_eq] at high
    omega
  · rw [if_neg empty]
    have last := slot_inside h (show 0 ≤ r.count - 1 by rw [count_eq]; omega)
      (by rw [count_eq]; omega)
    have nonneg := h.storageLower_nonneg
    rw [storageUpper_eq]
    by_cases row : r.storageLower ≤ r.slot (r.count - 1)
    · rw [if_pos row]
      refine (NativeArray.returns_setSliceWith (fun _ => ⟨nonneg, by omega⟩)
        (Q := fun s => s.size = r.capacity ∧ ∀ k, s.cell k =
          if r.storageLower ≤ k ∧ k ≤ r.slot (r.count - 1) then v else r.storage.cell k)
        ⟨size, fun _ => rfl⟩).bind fun s written => ?_
      rw [Returns.pure_iff]
      refine ⟨⟨⟨written.1, h.count_nonneg, h.count_le, nonneg, h.storageLower_lt,
        h.storageLower_small⟩, rfl, rfl, rfl, rfl⟩, fun k low high => ?_⟩
      have here := slot_eq_of_not_wrapped h row low high
      have there := slot_eq_of_not_wrapped h row (show 0 ≤ r.count - 1 by omega) (by omega)
      change s.cell (r.slot k) = v
      rw [written.2, if_pos (by omega)]
    · rw [if_neg row]
      refine (NativeArray.returns_setSliceWith (fun _ => ⟨Int.le_refl 0, by omega⟩)
        (Q := fun s => s.size = r.capacity ∧ ∀ k, s.cell k =
          if 0 ≤ k ∧ k ≤ r.slot (r.count - 1) then v else r.storage.cell k)
        ⟨size, fun _ => rfl⟩).bind fun s written => ?_
      refine (NativeArray.returns_setSliceWith (fun _ => ⟨nonneg, by omega⟩)
        (Q := fun s' => s'.size = r.capacity ∧ ∀ k, s'.cell k =
          if r.storageLower ≤ k ∧ k ≤ r.capacity - 1 then v else s.cell k)
        ⟨written.1, fun _ => rfl⟩).bind fun s' written' => ?_
      rw [Returns.pure_iff]
      refine ⟨⟨⟨written'.1, h.count_nonneg, h.count_le, nonneg, h.storageLower_lt,
        h.storageLower_small⟩, rfl, rfl, rfl, rfl⟩, fun k low high => ?_⟩
      rw [count_eq] at high row
      have inside := slot_inside h low (by omega)
      change s'.cell (r.slot k) = v
      rw [written'.2, written.2]
      by_cases second : r.storageLower ≤ r.slot k ∧ r.slot k ≤ r.capacity - 1
      · rw [if_pos second]
      · rw [if_neg second, if_pos]
        rw [count_eq]
        unfold slot at row second inside ⊢
        split at row <;> split at second <;> omega

end Clearing

/-! ## Extending the storage -/

section Extending

variable {r : RingArray α}

@[simp] theorem lower_extended (r : RingArray α) (needed : Int) :
    (r.extended needed).lower = r.lower := by
  unfold extended
  split
  · split <;> rfl
  · rfl

@[simp] theorem upper_extended (r : RingArray α) (needed : Int) :
    (r.extended needed).upper = r.upper := by
  unfold extended
  split
  · split <;> rfl
  · rfl

@[simp] theorem storageLower_extended (r : RingArray α) (needed : Int) :
    (r.extended needed).storageLower = r.storageLower := by
  unfold extended
  split
  · split <;> rfl
  · rfl

theorem capacity_extended (r : RingArray α) (needed : Int) :
    (r.extended needed).capacity = max needed r.capacity := by
  unfold extended
  split
  · split
    · change needed = _
      omega
    · change needed = _
      omega
  · omega

theorem size_extended (h : Valid r) (needed : Int) :
    (r.extended needed).storage.size = (r.extended needed).capacity := by
  have size := h.size_eq
  unfold extended
  split
  · split <;> rfl
  · exact size

theorem cell_extended (r : RingArray α) (needed : Int) {k : Int} (low : 0 ≤ k) (high : k < r.capacity) :
    (r.extended needed).storage.cell k = r.storage.cell k := by
  unfold extended
  split
  · split
    · omega
    · exact if_pos ⟨low, high⟩
  · rfl

/-- The array with its storage extended, and with `upper` moved. -/
theorem valid_extended (h : Valid r) (needed upper : Int) (room : r.capacity ≠ 0)
    (low : r.upper ≤ upper) (high : upper - r.lower + 1 ≤ max needed r.capacity) :
    Valid { r.extended needed with upper := upper } := by
  have count := h.count_nonneg
  have nonneg := h.storageLower_nonneg
  have less := h.storageLower_lt room
  have capacity := capacity_extended r needed
  have start := storageLower_extended r needed
  have first := lower_extended r needed
  rw [count_eq] at count
  refine ⟨size_extended h needed, ?_, ?_, ?_, fun _ => ?_, fun zero => ?_⟩
  · change 0 ≤ upper - (r.extended needed).lower + 1
    omega
  · change upper - (r.extended needed).lower + 1 ≤ (r.extended needed).capacity
    omega
  · change 0 ≤ (r.extended needed).storageLower
    omega
  · change (r.extended needed).storageLower < (r.extended needed).capacity
    omega
  · have : (r.extended needed).capacity = 0 := zero
    omega

/-- What the extended storage holds where the item at `k` from the lower index is looked for. -/
theorem view_extended (h : Valid r) {needed k : Int} (low : 0 ≤ k) (inside : k + r.storageLower < r.capacity) :
    (r.extended needed).view k = r.view k := by
  have nonneg := h.storageLower_nonneg
  have capacity := capacity_extended r needed
  have start := storageLower_extended r needed
  unfold view slot
  rw [if_neg (by omega), if_neg (by omega), start]
  exact cell_extended r needed (by omega) inside

/-- The items behind the wrap point stand after the bubble. -/
theorem view_extended_wrapped (h : Valid r) {needed k : Int} (upper : Int)
    (room : r.capacity ≠ 0) (more : r.capacity < needed) (low : r.capacity ≤ k + r.storageLower) (high : k < r.capacity) :
    { r.extended needed with upper := upper }.view (k + (needed - r.capacity)) = r.view k := by
  have less := h.storageLower_lt room
  have capacity := capacity_extended r needed
  have start := storageLower_extended r needed
  change (r.extended needed).storage.cell
    (if k + (needed - r.capacity) + (r.extended needed).storageLower ≥ (r.extended needed).capacity
      then k + (needed - r.capacity) + (r.extended needed).storageLower -
        (r.extended needed).capacity
      else k + (needed - r.capacity) + (r.extended needed).storageLower) = _
  unfold view slot
  rw [if_pos (by omega), if_pos (by omega), cell_extended r needed (by omega) (by omega)]
  congr 1
  omega

end Extending

/-! ## Resizing -/

section Resizing

variable {r : RingArray α} {minIndex maxIndex : Int}

/-- The storage grows, and all the items that are kept stand behind the wrap point. -/
def Behind (r : RingArray α) (minIndex maxIndex : Int) : Prop :=
  r.capacity < maxIndex - minIndex + 1 ∧ r.wrapPoint < max minIndex r.lower

instance (r : RingArray α) (minIndex maxIndex : Int) : Decidable (r.Behind minIndex maxIndex) :=
  inferInstanceAs (Decidable (_ ∧ _))

/-- Where `resize` finds the item of a kept index: behind the wrap point it looks in the extended
storage as if nothing had been there to squeeze. -/
def keptItem (r : RingArray α) (minIndex maxIndex i : Int) : α :=
  if r.Behind minIndex maxIndex then
    (r.extended (maxIndex - minIndex + 1)).view (i - r.lower)
  else
    r.view (i - r.lower)

/-- An array whose `storageLower` is in the storage. -/
structure Based (q : RingArray α) : Prop where
  size_eq : q.storage.size = q.capacity
  storageLower_nonneg : 0 ≤ q.storageLower
  storageLower_lt : q.storageLower < q.capacity

omit [Inhabited α] in
theorem Valid.based (h : Valid r) (room : r.capacity ≠ 0) : Based r :=
  ⟨h.size_eq, h.storageLower_nonneg, h.storageLower_lt room⟩

theorem returns_squeezed (h : Valid r) (room : r.capacity ≠ 0)
    (meets : max minIndex r.lower ≤ min maxIndex r.upper) :
    Returns ((r.extended (maxIndex - minIndex + 1)).squeezed (max minIndex r.lower)
      (min maxIndex r.upper) (if maxIndex - minIndex + 1 > r.capacity then r.wrapPoint else 0)
      (maxIndex - minIndex + 1 - r.capacity)) fun q => Based q ∧
        q.capacity = max (maxIndex - minIndex + 1) r.capacity ∧ q.lower = r.lower ∧
        ∀ i, max minIndex r.lower ≤ i → i ≤ min maxIndex r.upper →
          q.view (i - r.lower) = r.keptItem minIndex maxIndex i := by
  have countEq := count_eq r
  have count := h.count_le
  have less := h.storageLower_lt room
  have wrap : r.wrapPoint = r.capacity + r.lower - r.storageLower := rfl
  have capacity := capacity_extended r (maxIndex - minIndex + 1)
  obtain ⟨hi, hiEq, hiLe, hiLe'⟩ : ∃ hi, min maxIndex r.upper = hi ∧ hi ≤ maxIndex ∧
      hi ≤ r.upper := ⟨_, rfl, by omega, by omega⟩
  obtain ⟨lo, loEq, loLe, loLe'⟩ : ∃ lo, max minIndex r.lower = lo ∧ minIndex ≤ lo ∧
      r.lower ≤ lo := ⟨_, rfl, by omega, by omega⟩
  have behind : r.Behind minIndex maxIndex ↔
      r.capacity < maxIndex - minIndex + 1 ∧ r.wrapPoint < lo := by
    rw [← loEq]
    exact Iff.rfl
  unfold keptItem
  rw [hiEq, loEq] at meets ⊢
  unfold squeezed
  by_cases more : maxIndex - minIndex + 1 > r.capacity
  · rw [if_pos more]
    by_cases around : (lo ≤ r.wrapPoint ∧ r.wrapPoint ≤ hi) ∧ maxIndex - minIndex + 1 - r.capacity > 0
    · rw [if_pos around]
      have valid := valid_extended h (maxIndex - minIndex + 1)
        (r.upper + (maxIndex - minIndex + 1 - r.capacity)) room (by omega) (show _ ≤ max (maxIndex - minIndex + 1) r.capacity by omega)
      rw [upper_extended]
      refine (@returns_squeezeBubble_part α _ _ valid lo
        (hi + (maxIndex - minIndex + 1 - r.capacity)) _ _ ?_ around.1.1 (by omega) ?_
        around.2).mono ?_
      · change (r.extended (maxIndex - minIndex + 1)).lower ≤ lo
        rw [lower_extended]
        exact loLe'
      · change hi + _ ≤ r.upper + (maxIndex - minIndex + 1 - r.capacity)
        omega
      · intro q squeezed
        obtain ⟨validQ, capacityQ, lowerQ, -, views⟩ := squeezed
        replace capacityQ : q.capacity = max (maxIndex - minIndex + 1) r.capacity :=
          capacityQ.trans capacity
        replace lowerQ : q.lower = r.lower := lowerQ.trans (lower_extended r _)
        refine ⟨validQ.based (by omega), capacityQ, lowerQ, fun i low high => ?_⟩
        rw [if_neg (fun b => by have := behind.mp b; omega)]
        have found := views i low (by omega)
        rw [lower_extended] at found
        rw [found]
        split
        · exact view_extended h (by omega) (by omega)
        · exact view_extended_wrapped h (r.upper + (maxIndex - minIndex + 1 - r.capacity)) room more (by omega) (by omega)
    · rw [if_neg around, Returns.some_iff]
      have valid := valid_extended h (maxIndex - minIndex + 1) r.upper room (Int.le_refl _)
        (show _ ≤ max (maxIndex - minIndex + 1) r.capacity by omega)
      refine ⟨⟨valid.size_eq, valid.storageLower_nonneg, ?_⟩, capacity, lower_extended r _,
        fun i low high => ?_⟩
      · rw [storageLower_extended]
        omega
      · split
        · rfl
        · rename_i ahead
          rw [behind] at ahead
          exact view_extended h (by omega) (by omega)
  · rw [if_neg more, if_neg (by omega), Returns.some_iff]
    have same : r.extended (maxIndex - minIndex + 1) = r := if_neg more
    rw [same]
    refine ⟨h.based room, by omega, rfl, fun i low high => ?_⟩
    rw [if_neg (fun b => more b.1)]

omit [Inhabited α] in
/-- The new bounds: a kept item stands where it stood. -/
theorem rebound_spec {q : RingArray α} (based : Based q) (positive : minIndex ≤ maxIndex)
    (fits : maxIndex - minIndex + 1 ≤ q.capacity) (below : q.lower - minIndex < q.capacity)
    (above : minIndex - q.lower < q.capacity) :
    Valid (q.rebound minIndex maxIndex) ∧ ∀ i, minIndex ≤ i → i ≤ maxIndex → q.lower ≤ i →
      i - q.lower < q.capacity →
        (q.rebound minIndex maxIndex).view (i - minIndex) = q.view (i - q.lower) := by
  obtain ⟨size, nonneg, less⟩ := based
  obtain ⟨origin, originEq⟩ : ∃ origin, (q.rebound minIndex maxIndex).storageLower = origin :=
    ⟨_, rfl⟩
  have choice := originEq
  unfold rebound at choice
  dsimp only at choice
  have inside : 0 ≤ origin ∧ origin < q.capacity := by
    rw [← choice]
    split
    · omega
    · split <;> omega
  refine ⟨⟨size, ?_, ?_, ?_, fun _ => ?_, fun zero => ?_⟩, fun i low high low' high' => ?_⟩
  · change 0 ≤ maxIndex - minIndex + 1
    omega
  · change maxIndex - minIndex + 1 ≤ q.capacity
    exact fits
  · rw [originEq]
    exact inside.1
  · rw [originEq]
    exact inside.2
  · have : q.capacity = 0 := zero
    omega
  · change q.storage.cell ((q.rebound minIndex maxIndex).slot (i - minIndex)) = _
    unfold view
    congr 1
    change (if i - minIndex + (q.rebound minIndex maxIndex).storageLower ≥ q.capacity
      then i - minIndex + (q.rebound minIndex maxIndex).storageLower - q.capacity
      else i - minIndex + (q.rebound minIndex maxIndex).storageLower) = _
    rw [originEq]
    unfold slot
    rw [← choice]
    split <;> split <;> split <;> omega

theorem returns_clearedOutside {b : RingArray α} (h : Valid b) {lo hi : Int} (low : b.lower ≤ lo)
    (le : lo ≤ hi) (high : hi ≤ b.upper) :
    Returns (b.clearedOutside lo hi) fun r' => SameShape b r' ∧
      ∀ k, 0 ≤ k → k < b.count → r'.view k =
        if lo - b.lower ≤ k ∧ k ≤ hi - b.lower then b.view k else default := by
  have count := h.count_le
  rw [count_eq] at count
  have first : Returns (b.clearedBelow lo) fun r' => SameShape b r' ∧
      ∀ k, 0 ≤ k → k < b.count → r'.view k = if lo - b.lower ≤ k then b.view k else default := by
    unfold clearedBelow
    split
    · refine (returns_clearSlice h (Int.le_refl _) (by omega) (by omega)).mono fun s cleared =>
        ⟨cleared.1, fun k lowK highK => ?_⟩
      rw [count_eq] at highK
      rw [cleared.2 k lowK (by omega)]
      split
      · rw [if_neg (by omega)]
      · rw [if_pos (by omega)]
    · refine Returns.some_iff.mpr ⟨.refl h, fun k lowK highK => ?_⟩
      rw [if_pos (by omega)]
  refine first.bind fun s cleared => ?_
  obtain ⟨shape, views⟩ := cleared
  have capacity := shape.capacity_eq
  have lower := shape.lower_eq
  have upper := shape.upper_eq
  split
  · refine (returns_clearSlice shape.valid (by omega) (by omega) (Int.le_refl _)).mono
      fun s' cleared' => ⟨⟨cleared'.1.valid, cleared'.1.capacity_eq.trans capacity,
        cleared'.1.lower_eq.trans lower, cleared'.1.upper_eq.trans upper,
        cleared'.1.storageLower_eq.trans shape.storageLower_eq⟩, fun k lowK highK => ?_⟩
    have within := highK
    rw [count_eq] at within
    rw [cleared'.2 k lowK (by omega), views k lowK highK]
    by_cases behind : hi + 1 - s.lower ≤ k
    · rw [if_pos (by omega), if_neg (by omega)]
    · rw [if_neg (by omega)]
      by_cases ahead : lo - b.lower ≤ k
      · rw [if_pos ahead, if_pos (by omega)]
      · rw [if_neg ahead, if_neg (by omega)]
  · refine Returns.some_iff.mpr ⟨shape, fun k lowK highK => ?_⟩
    have within := highK
    rw [count_eq] at within
    rw [views k lowK highK]
    by_cases ahead : lo - b.lower ≤ k
    · rw [if_pos ahead, if_pos (by omega)]
    · rw [if_neg ahead, if_neg (by omega)]

/-- What `resize` does to an array that has a storage. -/
theorem returns_resize (h : Valid r) (room : r.capacity ≠ 0) (bounds : minIndex ≤ maxIndex + 1) :
    Returns (r.resize minIndex maxIndex) fun r' => Valid r' ∧ r'.lower = minIndex ∧
      r'.upper = maxIndex ∧ ∀ i, minIndex ≤ i → i ≤ maxIndex → r'.view (i - minIndex) =
        if r.lower ≤ i ∧ i ≤ r.upper then r.keptItem minIndex maxIndex i else default := by
  have countEq := count_eq r
  have count := h.count_le
  have nonneg := h.count_nonneg
  have lower := lower_extended r (maxIndex - minIndex + 1)
  have upper := upper_extended r (maxIndex - minIndex + 1)
  have capacity := capacity_extended r (maxIndex - minIndex + 1)
  unfold resize
  dsimp only
  by_cases positive : maxIndex - minIndex + 1 > 0
  · rw [if_pos positive, lower, upper]
    by_cases meets : min maxIndex r.upper ≥ max minIndex r.lower
    · rw [if_pos meets]
      refine (returns_squeezed h room meets).bind fun q squeezed => ?_
      obtain ⟨based, capacityQ, lowerQ, views⟩ := squeezed
      obtain ⟨valid, kept⟩ := rebound_spec based (show minIndex ≤ maxIndex by omega)
        (show maxIndex - minIndex + 1 ≤ q.capacity by omega) (by omega) (by omega)
      have lowerB : (q.rebound minIndex maxIndex).lower = minIndex := rfl
      have upperB : (q.rebound minIndex maxIndex).upper = maxIndex := rfl
      refine (@returns_clearedOutside α _ _ valid (max minIndex r.lower) (min maxIndex r.upper)
        (by omega) (by omega) (by omega)).mono fun r' cleared => ?_
      obtain ⟨shape, views'⟩ := cleared
      refine ⟨shape.valid, shape.lower_eq, shape.upper_eq, fun i low high => ?_⟩
      rw [views' _ (by omega) (by rw [count_eq]; omega)]
      by_cases inside : r.lower ≤ i ∧ i ≤ r.upper
      · rw [if_pos (by omega), if_pos inside, kept i low high (by omega) (by omega), lowerQ]
        exact views i (by omega) (by omega)
      · rw [if_neg (by omega), if_neg inside]
    · rw [if_neg meets]
      have valid : Valid
          { r.extended (maxIndex - minIndex + 1) with lower := minIndex, upper := maxIndex } := by
        have origin := storageLower_extended r (maxIndex - minIndex + 1)
        have low := h.storageLower_nonneg
        have less := h.storageLower_lt room
        refine ⟨size_extended h _, ?_, ?_, ?_, fun _ => ?_, fun zero => ?_⟩
        · change 0 ≤ maxIndex - minIndex + 1
          omega
        · change maxIndex - minIndex + 1 ≤ (r.extended (maxIndex - minIndex + 1)).capacity
          omega
        · change 0 ≤ (r.extended (maxIndex - minIndex + 1)).storageLower
          omega
        · change (r.extended (maxIndex - minIndex + 1)).storageLower <
            (r.extended (maxIndex - minIndex + 1)).capacity
          omega
        · have : (r.extended (maxIndex - minIndex + 1)).capacity = 0 := zero
          omega
      refine (returns_setAllWith valid default).mono fun r' cleared => ?_
      obtain ⟨shape, views⟩ := cleared
      refine ⟨shape.valid, shape.lower_eq, shape.upper_eq, fun i low high => ?_⟩
      rw [if_neg (by omega)]
      exact views _ (by omega) (by change i - minIndex < maxIndex - minIndex + 1; omega)
  · rw [if_neg positive, Returns.some_iff]
    have empty : maxIndex - minIndex + 1 = 0 := by omega
    refine ⟨⟨h.size_eq, Int.le_of_eq empty.symm, ?_, h.storageLower_nonneg, h.storageLower_lt,
      h.storageLower_small⟩, rfl, rfl, fun i low high => by omega⟩
    change maxIndex - minIndex + 1 ≤ r.capacity
    omega

/-- An array without storage after it has got one. -/
def allocated (r : RingArray α) (minIndex maxIndex : Int) : RingArray α :=
  { r with
    storage := .calloc (maxIndex - minIndex + 1)
    capacity := maxIndex - minIndex + 1
    lower := minIndex
    upper := maxIndex }

theorem resize_blank (h : Valid r) (none : r.capacity = 0) (positive : minIndex ≤ maxIndex) :
    r.resize minIndex maxIndex = (r.allocated minIndex maxIndex).clearAll := by
  have nonneg := h.count_nonneg
  have le := h.count_le
  rw [count_eq] at nonneg le
  unfold resize
  dsimp only
  rw [if_pos (by omega), lower_extended, upper_extended, if_neg (by omega)]
  unfold extended
  rw [if_pos (by omega), if_pos none]
  rfl

theorem storageUpper_allocated (h : Valid r) (positive : minIndex ≤ maxIndex) :
    (r.allocated minIndex maxIndex).storageUpper =
      if r.storageLower = 0 then maxIndex - minIndex else r.storageLower - 1 := by
  have nonneg := h.storageLower_nonneg
  change (if maxIndex - minIndex + r.storageLower ≥ maxIndex - minIndex + 1
    then maxIndex - minIndex + r.storageLower - (maxIndex - minIndex + 1)
    else maxIndex - minIndex + r.storageLower) = _
  split <;> split <;> omega

/-- `resize` of an array without storage, where `storageLower` is not behind the new storage. -/
theorem returns_resize_blank (h : Valid r) (none : r.capacity = 0) (positive : minIndex ≤ maxIndex)
    (fits : r.storageLower ≤ maxIndex - minIndex + 1) :
    Returns (r.resize minIndex maxIndex) fun r' => r'.lower = minIndex ∧ r'.upper = maxIndex ∧
      r'.capacity = maxIndex - minIndex + 1 ∧ r'.storage.size = r'.capacity ∧
      r'.storageLower = r.storageLower ∧ ∀ k, r'.storage.cell k = default := by
  have nonneg := h.storageLower_nonneg
  rw [resize_blank h none positive]
  unfold clearAll setAllWith
  rw [if_neg (show ¬(r.allocated minIndex maxIndex).upper < (r.allocated minIndex maxIndex).lower from
    Int.not_lt.mpr positive), storageUpper_allocated h positive]
  by_cases zero : r.storageLower = 0
  · rw [if_pos zero, if_pos (show (r.allocated minIndex maxIndex).storageLower ≤ _ by
      change r.storageLower ≤ _
      omega)]
    refine (NativeArray.returns_setSliceWith (Q := fun s => s.size = maxIndex - minIndex + 1 ∧
      ∀ k, s.cell k = default) (fun _ => ⟨nonneg, ?_⟩) ⟨rfl, fun k => ?_⟩).bind fun s written => ?_
    · change maxIndex - minIndex < maxIndex - minIndex + 1
      omega
    · exact ite_self _
    · rw [Returns.pure_iff]
      exact ⟨rfl, rfl, rfl, written.1, rfl, written.2⟩
  · rw [if_neg zero, if_neg (show ¬(r.allocated minIndex maxIndex).storageLower ≤ _ by
      change ¬r.storageLower ≤ _
      omega)]
    refine (NativeArray.returns_setSliceWith (Q := fun s => s.size = maxIndex - minIndex + 1 ∧
      ∀ k, s.cell k = default) (fun _ => ⟨Int.le_refl 0, ?_⟩) ⟨rfl, fun k => ?_⟩).bind
      fun s written => ?_
    · change r.storageLower - 1 < maxIndex - minIndex + 1
      omega
    · exact ite_self _
    · refine (NativeArray.returns_setSliceWith (Q := fun s => s.size = maxIndex - minIndex + 1 ∧
        ∀ k, s.cell k = default) (fun _ => ⟨nonneg, ?_⟩) ⟨written.1, fun k => ?_⟩).bind
        fun s' written' => ?_
      · change maxIndex - minIndex + 1 - 1 < s.size
        omega
      · change (if _ then default else s.cell k) = default
        rw [written.2 k]
        exact ite_self _
      · rw [Returns.pure_iff]
        exact ⟨rfl, rfl, rfl, written'.1, rfl, written'.2⟩

theorem resize_blank_eq_none (h : Valid r) (none : r.capacity = 0) (positive : minIndex ≤ maxIndex)
    (behind : maxIndex - minIndex + 1 < r.storageLower) : r.resize minIndex maxIndex = .none := by
  rw [resize_blank h none positive]
  unfold clearAll setAllWith
  rw [if_neg (show ¬(r.allocated minIndex maxIndex).upper < (r.allocated minIndex maxIndex).lower from
    Int.not_lt.mpr positive), storageUpper_allocated h positive]
  rw [if_neg (show ¬r.storageLower = 0 by omega),
    if_neg (show ¬(r.allocated minIndex maxIndex).storageLower ≤ _ by
      change ¬r.storageLower ≤ _
      omega)]
  have outside : (r.allocated minIndex maxIndex).storage.setAllWith default (r.storageLower - 1) =
      .none := by
    refine if_neg fun fits => ?_
    have last := (fits (by omega)).2.2
    change r.storageLower - 1 < maxIndex - minIndex + 1 at last
    omega
  rw [outside]
  rfl

omit [Inhabited α] in
theorem item_of_valid (h : Valid r) {i : Int} (low : r.lower ≤ i) (high : i ≤ r.upper) :
    r.item i = some (r.view (i - r.lower)) := by
  obtain ⟨x, run, rfl⟩ := returns_item (Q := fun x => x = r.view (i - r.lower)) h
    (show r.ValidIndex i from ⟨low, high⟩) rfl
  exact run

/-! ## What they promise -/

/-- `force` stores the element, keeps the other items, and fills a gap with default values. -/
def ForcesTo (r : RingArray α) (element : α) (index : Int) : Prop :=
  ∃ r', r.force element index = some r' ∧ r'.lower = min index r.lower ∧
    r'.upper = max index r.upper ∧ ∀ i, min index r.lower ≤ i → i ≤ max index r.upper →
      r'.item i = if i = index then some element
        else if r.lower ≤ i ∧ i ≤ r.upper then r.item i else some default

/-- The array that `resize` makes of one without storage. -/
theorem item_resized_blank (h : Valid r) (none : r.capacity = 0) (positive : minIndex ≤ maxIndex)
    (fits : r.storageLower ≤ maxIndex - minIndex + 1) :
    Returns (r.resize minIndex maxIndex) fun r' => r'.lower = minIndex ∧ r'.upper = maxIndex ∧
      (∀ i, minIndex ≤ i → i ≤ maxIndex → 0 ≤ r'.storageIndex i ∧
        r'.storageIndex i < r'.storage.size) ∧
      (∀ i j, minIndex ≤ i → i ≤ maxIndex → minIndex ≤ j → j ≤ maxIndex →
        r'.storageIndex i = r'.storageIndex j → i = j) ∧
      ∀ k, r'.storage.cell k = default := by
  have nonneg := h.storageLower_nonneg
  refine (returns_resize_blank h none positive fits).mono fun r' made => ?_
  obtain ⟨lower, upper, capacity, size, origin, cells⟩ := made
  have index : ∀ i, r'.storageIndex i =
      if i - minIndex + r.storageLower ≥ maxIndex - minIndex + 1
      then i - minIndex + r.storageLower - (maxIndex - minIndex + 1)
      else i - minIndex + r.storageLower := by
    intro i
    unfold storageIndex
    rw [lower, origin, capacity]
  refine ⟨lower, upper, fun i low high => ?_, fun i j low high low' high' same => ?_, cells⟩
  · rw [index i, size, capacity]
    split <;> omega
  · rw [index i, index j] at same
    split at same <;> split at same <;> omega

/-- An array without storage that `force` resizes has `storageLower` in the new storage, or just
behind it. -/
def ForceFits (r : RingArray α) (index : Int) : Prop :=
  r.capacity = 0 → index < r.lower - 1 ∨ r.upper + 1 < index →
    r.storageLower ≤ max index r.upper - min index r.lower + 1

/-- The sequence that a valid array holds. -/
def sequence (r : RingArray α) : Sequence α :=
  ⟨r.lower, (List.range r.count.toNat).map fun k : ℕ => r.view k⟩

omit [Inhabited α] in
theorem represents_sequence (h : Valid r) : Represents r r.sequence := by
  have nonneg := h.count_nonneg
  refine ⟨h, rfl, ?_, fun k inside => ?_⟩
  · change r.count = ((List.range r.count.toNat).map fun k : ℕ => r.view k).length
    rw [List.length_map, List.length_range]
    omega
  · change k < ((List.range r.count.toNat).map fun k : ℕ => r.view k).length at inside
    rw [List.length_map, List.length_range] at inside
    change ((List.range r.count.toNat).map fun k : ℕ => r.view k)[k]? = _
    rw [List.getElem?_map, List.getElem?_range inside]
    rfl

omit [Inhabited α] in
theorem length_sequence (h : Valid r) : (r.sequence.items.length : Int) = r.count :=
  (represents_sequence h).count_eq.symm

theorem view_addLast (h : Valid r) (element : α) :
    Returns (r.addLast element) fun r' => Valid r' ∧ r'.lower = r.lower ∧
      r'.upper = r.upper + 1 ∧ ∀ k, 0 ≤ k → k ≤ r.count →
        r'.view k = if k = r.count then element else r.view k := by
  have held := represents_sequence h
  have length := length_sequence h
  have count := count_eq r
  refine (returns_addLast held element).mono fun r' added => ?_
  have lower : r'.lower = r.lower := added.lower_eq
  have total := added.count_eq
  rw [List.length_append, List.length_singleton] at total
  have countEq := count_eq r'
  refine ⟨added.valid, lower, by omega, fun k low high => ?_⟩
  have found := added.view_eq k.toNat (by rw [List.length_append, List.length_singleton]; omega)
  rw [show (k.toNat : Int) = k by omega] at found
  by_cases last : k = r.count
  · rw [if_pos last]
    rw [List.getElem?_append_right (by omega), show k.toNat - r.sequence.items.length = 0 by omega]
      at found
    exact (Option.some.inj found).symm
  · rw [if_neg last]
    rw [List.getElem?_append_left (by omega), held.view_eq _ (by omega),
      show (k.toNat : Int) = k by omega] at found
    exact (Option.some.inj found).symm

theorem view_addFirst (h : Valid r) (element : α) :
    Returns (r.addFirst element) fun r' => Valid r' ∧ r'.lower = r.lower ∧
      r'.upper = r.upper + 1 ∧ ∀ k, 0 ≤ k → k ≤ r.count →
        r'.view k = if k = 0 then element else r.view (k - 1) := by
  have held := represents_sequence h
  have length := length_sequence h
  have count := count_eq r
  refine (returns_addFirst held element).mono fun r' added => ?_
  have lower : r'.lower = r.lower := added.lower_eq
  have total := added.count_eq
  rw [List.length_cons] at total
  have countEq := count_eq r'
  refine ⟨added.valid, lower, by omega, fun k low high => ?_⟩
  have found := added.view_eq k.toNat (by rw [List.length_cons]; omega)
  by_cases first : k = 0
  · rw [if_pos first]
    rw [first] at found
    rw [first]
    exact (Option.some.inj found).symm
  · rw [if_neg first]
    obtain ⟨n, rfl⟩ : ∃ n : ℕ, k = n + 1 := ⟨(k - 1).toNat, by omega⟩
    rw [show ((n : Int) + 1).toNat = n + 1 by omega, List.getElem?_cons_succ,
      held.view_eq n (by omega)] at found
    rw [show (n : Int) + 1 - 1 = n by omega]
    exact (Option.some.inj found).symm

omit [Inhabited α] in
theorem view_put (h : Valid r) (element : α) {i : Int} (low : r.lower ≤ i) (high : i ≤ r.upper) :
    Returns (r.put element i) fun r' => Valid r' ∧ r'.lower = r.lower ∧ r'.upper = r.upper ∧
      ∀ j, r.lower ≤ j → j ≤ r.upper →
        r'.view (j - r.lower) = if j = i then element else r.view (j - r.lower) := by
  have count := h.count_le
  rw [count_eq] at count
  refine returns_put h (show r.ValidIndex i from ⟨low, high⟩) ?_
  refine ⟨setView_valid h element _, rfl, rfl, fun j low' high' => ?_⟩
  rw [view_setView h element (by omega) (by omega) (by omega) (by omega)]
  by_cases same : j = i
  · rw [if_pos same, if_pos (by omega)]
  · rw [if_neg same, if_neg (by omega)]

/-- `force` where an array with a storage is resized first. -/
theorem returns_resize_put (h : Valid r) (room : r.capacity ≠ 0) (element : α) {index : Int}
    (lower : minIndex ≤ r.lower) (low : minIndex ≤ index) (high : index ≤ maxIndex) :
    Returns ((r.resize minIndex maxIndex).bind fun r' => r'.put element index) fun r' =>
      Valid r' ∧ r'.lower = minIndex ∧ r'.upper = maxIndex ∧
        ∀ i, minIndex ≤ i → i ≤ maxIndex → r'.item i = if i = index then some element
          else if r.lower ≤ i ∧ i ≤ r.upper then r.item i else some default := by
  have less := h.storageLower_lt room
  have ahead : ¬r.Behind minIndex maxIndex := by
    intro behind
    have wrap : r.wrapPoint = r.capacity + r.lower - r.storageLower := rfl
    have last := behind.2
    omega
  refine (returns_resize h room (show minIndex ≤ maxIndex + 1 by omega)).bind fun s resized => ?_
  obtain ⟨valid, lowerS, upperS, views⟩ := resized
  refine (view_put valid element (show s.lower ≤ index by omega) (by omega)).mono fun r' written => ?_
  obtain ⟨valid', lower', upper', views'⟩ := written
  refine ⟨valid', by omega, by omega, fun i low high => ?_⟩
  rw [item_of_valid valid' (by omega) (by omega), lower', views' i (by omega) (by omega), lowerS,
    views i low high]
  by_cases here : i = index
  · rw [if_pos here, if_pos here]
  · rw [if_neg here, if_neg here]
    by_cases inside : r.lower ≤ i ∧ i ≤ r.upper
    · rw [if_pos inside, if_pos inside, item_of_valid h inside.1 inside.2]
      exact congrArg some (if_neg ahead)
    · rw [if_neg inside, if_neg inside]

/-- `force` where an array without storage is resized first. -/
theorem resize_put_blank_iff (h : Valid r) (none : r.capacity = 0) (element : α) {index : Int}
    (low : minIndex ≤ index) (high : index ≤ maxIndex) :
    (∃ r', ((r.resize minIndex maxIndex).bind fun r' => r'.put element index) = some r' ∧
      r'.lower = minIndex ∧ r'.upper = maxIndex ∧
        ∀ i, minIndex ≤ i → i ≤ maxIndex → r'.item i = if i = index then some element
          else if r.lower ≤ i ∧ i ≤ r.upper then r.item i else some default) ↔
      r.storageLower ≤ maxIndex - minIndex + 1 := by
  have le := h.count_le
  have countEq := count_eq r
  have positive : minIndex ≤ maxIndex := by omega
  constructor
  · intro forces
    refine Int.not_lt.mp fun behind => ?_
    obtain ⟨r', run, -⟩ := forces
    rw [resize_blank_eq_none h none positive behind] at run
    cases run
  · intro fits
    obtain ⟨s, run, lowerS, upperS, inside, apart, cells⟩ := item_resized_blank h none positive fits
    have put : s.put element index =
        some { s with storage := s.storage.set element (s.storageIndex index) } := by
      unfold RingArray.put NativeArray.put
      rw [if_pos (show s.storage.InBounds (s.storageIndex index) from inside index low high)]
      rfl
    have whole : ((r.resize minIndex maxIndex).bind fun r' => r'.put element index) =
        some { s with storage := s.storage.set element (s.storageIndex index) } := by
      rw [run]
      exact put
    refine ⟨_, whole, lowerS, upperS, fun i low' high' => ?_⟩
    have index_eq : ({ s with storage := s.storage.set element (s.storageIndex index) } :
        RingArray α).storageIndex i = s.storageIndex i := rfl
    unfold item
    have within : 0 ≤ s.storageIndex i ∧
        s.storageIndex i < (s.storage.set element (s.storageIndex index)).size :=
      inside i low' high'
    rw [index_eq, NativeArray.item_of_inBounds within, NativeArray.cell_set, cells]
    by_cases here : i = index
    · rw [if_pos here, if_pos (by rw [here])]
    · rw [if_neg here, if_neg (fun same => here (apart i index low' high' low high same)),
        if_neg (by omega)]

theorem forcesTo_iff (h : Valid r) (element : α) (index : Int) :
    r.ForcesTo element index ↔ r.ForceFits index := by
  have nonneg := h.count_nonneg
  have count := count_eq r
  -- the new bounds of a resized array
  have resized : index < r.lower - 1 ∨ r.upper + 1 < index →
      ((∃ r', ((r.resize (min index r.lower) (max index r.upper)).bind fun r' =>
          r'.put element index) = some r' ∧ r'.lower = min index r.lower ∧
        r'.upper = max index r.upper ∧ ∀ i, min index r.lower ≤ i → i ≤ max index r.upper →
          r'.item i = if i = index then some element
            else if r.lower ≤ i ∧ i ≤ r.upper then r.item i else some default) ↔
        r.ForceFits index) := by
    intro far
    by_cases none : r.capacity = 0
    · rw [resize_put_blank_iff h none element (by omega) (by omega)]
      exact ⟨fun fits _ _ => fits, fun fits => fits none far⟩
    · obtain ⟨r', run, -, lower, upper, items⟩ := returns_resize_put h none element
        (show min index r.lower ≤ r.lower by omega) (show _ ≤ index by omega)
        (show index ≤ max index r.upper by omega)
      exact iff_of_true ⟨r', run, lower, upper, items⟩ fun zero => absurd zero none
  have near : ¬(index < r.lower - 1 ∨ r.upper + 1 < index) → r.ForceFits index :=
    fun near _ far => absurd far near
  unfold ForcesTo force
  by_cases above : r.upper < index
  · rw [if_pos above]
    by_cases next : index = r.upper + 1
    · rw [if_pos next]
      refine iff_of_true ?_ (near (by omega))
      obtain ⟨r', run, valid, lower, upper, views⟩ := view_addLast h element
      refine ⟨r', run, by omega, by omega, fun i low high => ?_⟩
      rw [item_of_valid valid (by omega) (by omega), lower, views _ (by omega) (by omega)]
      by_cases here : i = index
      · rw [if_pos here, if_pos (by omega)]
      · rw [if_neg here, if_neg (by omega), if_pos (by omega),
          item_of_valid h (by omega) (by omega)]
    · rw [if_neg next]
      have whole := resized (.inr (by omega))
      rw [Int.min_eq_right (show r.lower ≤ index by omega), Int.max_eq_left (by omega)] at whole ⊢
      exact whole
  · rw [if_neg above]
    by_cases below : index < r.lower
    · rw [if_pos below]
      by_cases next : index = r.lower - 1
      · rw [if_pos next]
        refine iff_of_true ?_ (near (by omega))
        obtain ⟨r', run, valid, lower, upper, views⟩ := view_addFirst h element
        have whole : (do
            let r ← r.addFirst element
            return r.reindex (r.lower - 1)) = some (r'.reindex (r'.lower - 1)) := by
          rw [run]
          rfl
        have countR := count_eq r'
        have reindexed : Valid (r'.reindex (r'.lower - 1)) := by
          have total : (r'.reindex (r'.lower - 1)).count = r'.count := by
            change r'.upper + (r'.lower - 1) - r'.lower - (r'.lower - 1) + 1 = _
            omega
          exact ⟨valid.size_eq, total ▸ valid.count_nonneg, total ▸ valid.count_le,
            valid.storageLower_nonneg, valid.storageLower_lt, valid.storageLower_small⟩
        have upper' : (r'.reindex (r'.lower - 1)).upper = r.upper := by
          change r'.upper + (r'.lower - 1) - r'.lower = _
          omega
        have lower' : (r'.reindex (r'.lower - 1)).lower = r.lower - 1 := by
          change r'.lower - 1 = _
          omega
        refine ⟨_, whole, by omega, by omega, fun i low high => ?_⟩
        rw [item_of_valid reindexed (by omega) (by omega), lower']
        change some (r'.view (i - (r.lower - 1))) = _
        rw [views _ (by omega) (by omega)]
        by_cases here : i = index
        · rw [if_pos here, if_pos (by omega)]
        · rw [if_neg here, if_neg (by omega), if_pos (by omega),
            item_of_valid h (by omega) (by omega)]
          congr 2
          omega
      · rw [if_neg next]
        have whole := resized (.inl (by omega))
        rw [Int.min_eq_left (show index ≤ r.lower by omega), Int.max_eq_right (by omega)] at whole ⊢
        exact whole
    · rw [if_neg below]
      refine iff_of_true ?_ (near (by omega))
      obtain ⟨r', run, valid, lower, upper, views⟩ := view_put h element
        (show r.lower ≤ index by omega) (by omega)
      refine ⟨r', run, by omega, by omega, fun i low high => ?_⟩
      rw [item_of_valid valid (by omega) (by omega), lower, views _ (by omega) (by omega)]
      by_cases here : i = index
      · rw [if_pos here, if_pos here]
      · rw [if_neg here, if_neg here, if_pos (by omega), item_of_valid h (by omega) (by omega)]

end Resizing

end RingArray

end Liberty
