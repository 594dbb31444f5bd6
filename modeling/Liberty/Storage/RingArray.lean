import Liberty.Storage.NativeArray
import Mathlib.Data.Int.Notation
import Mathlib.Data.Nat.Notation

/-!
# RING_ARRAY

The items from `lower` to `upper` stand in the storage from `storageLower` on, and go on
at its beginning when they reach its end.  `view r k` is the item at distance `k` from the
lower index; each operation is described by what it does to the views.
-/

namespace Liberty

structure RingArray (α : Type) where
  storage : NativeArray α
  capacity : Int
  lower : Int
  upper : Int
  storageLower : Int

namespace RingArray

variable {α : Type} [Inhabited α]

/-! ## The source -/

/-- An object before its creation procedure. -/
def blank : RingArray α where
  storage := .calloc 0
  capacity := 0
  lower := 0
  upper := 0
  storageLower := 0

def count (r : RingArray α) : Int :=
  r.upper - r.lower + 1

def ValidIndex (r : RingArray α) (i : Int) : Prop :=
  r.lower ≤ i ∧ i ≤ r.upper

/-- `storage_index` -/
def storageIndex (r : RingArray α) (i : Int) : Int :=
  let result := i - r.lower + r.storageLower
  if result ≥ r.capacity then result - r.capacity else result

def storageUpper (r : RingArray α) : Int :=
  r.storageIndex r.upper

def wrapPoint (r : RingArray α) : Int :=
  r.capacity + r.lower - r.storageLower

def item (r : RingArray α) (i : Int) : Option α :=
  r.storage.item (r.storageIndex i)

def put (r : RingArray α) (element : α) (i : Int) : Option (RingArray α) := do
  return { r with storage := ← r.storage.put element (r.storageIndex i) }

/-- `move`, for a distance that is not zero. -/
def move (r : RingArray α) (lowerIndex upperIndex distance : Int) : Option (RingArray α) := do
  let step (r : RingArray α) (i : Int) : Option (RingArray α) := do
    let r ← r.put (← r.item i) (i + distance)
    r.put default i
  if distance < 0 then
    let (r, _) ← untilLoop (fun s => some (decide (s.2 > upperIndex)))
      (fun (r, i) => do return (← step r i, i + 1))
      (upperIndex - lowerIndex + 1).toNat (r, lowerIndex)
    return r
  else
    let (r, _) ← untilLoop (fun s => some (decide (s.2 < lowerIndex)))
      (fun (r, i) => do return (← step r i, i - 1))
      (upperIndex - lowerIndex + 1).toNat (r, upperIndex)
    return r

def squeezeBubble (r : RingArray α) (min max pos length : Int) : Option (RingArray α) :=
  if pos - min ≤ max - pos - length then do
    let r ← r.move min (pos - 1) length
    let storageLower := r.storageLower + length
    if storageLower ≥ r.capacity then
      return { r with storageLower := storageLower - r.capacity }
    else
      return { r with storageLower }
  else
    r.move (pos + length) max (-length)

def makeSpaceForOne (r : RingArray α) : Option (RingArray α) :=
  if r.capacity < r.count + 1 then
    if r.capacity = 0 then
      some { r with capacity := 16, storage := .calloc 16 }
    else
      let wp := r.wrapPoint
      let su := r.storageUpper
      let oldCapacity := r.capacity
      let r :=
        { r with
          capacity := 2 * r.capacity
          storage := r.storage.realloc r.capacity (2 * r.capacity) }
      if su < r.storageLower then do
        -- `upper` takes the bubble in for a while
        let r := { r with upper := r.upper + r.capacity - oldCapacity }
        let r ← r.squeezeBubble r.lower r.upper wp (r.capacity - oldCapacity)
        return { r with upper := r.upper - r.capacity + oldCapacity }
      else
        some r
  else
    some r

def addFirst (r : RingArray α) (element : α) : Option (RingArray α) := do
  let r ← r.makeSpaceForOne
  let storageLower := r.storageLower - 1
  let storageLower := if storageLower < 0 then storageLower + r.capacity else storageLower
  return { r with
    upper := r.upper + 1
    storageLower
    storage := ← r.storage.put element storageLower }

def addLast (r : RingArray α) (element : α) : Option (RingArray α) := do
  let r ← r.makeSpaceForOne
  let r := { r with upper := r.upper + 1 }
  r.put element r.upper

def add (r : RingArray α) (element : α) (index : Int) : Option (RingArray α) :=
  if index = r.upper + 1 then
    r.addLast element
  else do
    let r ← r.addLast element
    let r ← r.move index (r.upper - 1) 1
    r.put element index

def removeFirst (r : RingArray α) : RingArray α :=
  let storageLower := r.storageLower + 1
  { r with
    lower := r.lower + 1
    storageLower := if storageLower = r.capacity then 0 else storageLower }

/-- `remove_head`, one `remove_first` for each item. -/
def removeHead (r : RingArray α) : ℕ → RingArray α
  | 0 => r
  | n + 1 => r.removeFirst.removeHead n

def remove (r : RingArray α) (index : Int) : Option (RingArray α) :=
  if index ≠ r.upper then
    if index ≠ r.lower then do
      let r ← r.squeezeBubble r.lower r.upper index 1
      return { r with upper := r.upper - 1 }
    else
      let storageLower := r.storageLower + 1
      some { r with
        storageLower := if storageLower = r.capacity then 0 else storageLower
        upper := r.upper - 1 }
  else
    some { r with upper := r.upper - 1 }

def removeLast (r : RingArray α) : RingArray α :=
  { r with upper := r.upper - 1 }

def removeTail (r : RingArray α) (n : ℕ) : RingArray α :=
  { r with upper := r.upper - n }

def clearCount (r : RingArray α) : RingArray α :=
  { r with upper := r.lower - 1 }

def clearCountAndCapacity (r : RingArray α) : RingArray α :=
  { r with upper := r.lower - 1, storage := .calloc 0, capacity := 0 }

def reindex (r : RingArray α) (newLower : Int) : RingArray α :=
  { r with upper := r.upper + newLower - r.lower, lower := newLower }

/-! ## Creation -/

/-- `make` on a new object. -/
def make (minIndex maxIndex : Int) : RingArray α :=
  let needed := maxIndex - minIndex + 1
  if needed > 0 then
    ⟨.calloc needed, needed, minIndex, maxIndex, 0⟩
  else
    { blank with lower := minIndex, upper := maxIndex }

/-- `with_capacity` on a new object. -/
def withCapacity (neededCapacity low : Int) : RingArray α :=
  if 0 < neededCapacity then
    ⟨.calloc neededCapacity, neededCapacity, low, low - 1, 0⟩
  else
    { blank with lower := low, upper := low - 1 }

def addAll (r : RingArray α) : List α → Option (RingArray α)
  | [] => some r
  | x :: xs => do addAll (← r.addLast x) xs

/-- `from_collection`, of a collection that holds `model` from `lower` on. -/
def fromCollection (lower : Int) (model : List α) : Option (RingArray α) :=
  (withCapacity model.length lower).addAll model

/-- The items of a manifest array, put from the storage index `index` on. -/
def manifestPuts (r : RingArray α) (index : Int) : List α → Option (RingArray α)
  | [] => some r
  | x :: xs => do
      let storage ← r.storage.put x index
      manifestPuts { r with storage } (index + 1) xs

def manifestCreation (initialLower : Int) (items : List α) : Option (RingArray α) :=
  (make initialLower (initialLower + items.length - 1)).manifestPuts 0 items

/-! ## Views -/

/-- The index in the storage of the item at distance `k` from the lower index. -/
def slot (r : RingArray α) (k : Int) : Int :=
  if k + r.storageLower ≥ r.capacity then k + r.storageLower - r.capacity
  else k + r.storageLower

/-- The item at distance `k` from the lower index. -/
def view (r : RingArray α) (k : Int) : α :=
  r.storage.cell (r.slot k)

/-- The class invariant: `storageLower` is in the storage, unless there is none. -/
structure Valid (r : RingArray α) : Prop where
  size_eq : r.storage.size = r.capacity
  count_nonneg : 0 ≤ r.count
  count_le : r.count ≤ r.capacity
  storageLower_nonneg : 0 ≤ r.storageLower
  storageLower_lt : r.capacity ≠ 0 → r.storageLower < r.capacity
  -- a first storage has 16 items
  storageLower_small : r.capacity = 0 → r.storageLower < 16

section Views

omit [Inhabited α]

variable {r : RingArray α}

theorem storageIndex_eq (r : RingArray α) (i : Int) : r.storageIndex i = r.slot (i - r.lower) :=
  rfl

theorem slot_inside (h : Valid r) {k : Int} (low : 0 ≤ k) (high : k < r.capacity) :
    0 ≤ r.slot k ∧ r.slot k < r.capacity := by
  have := h.storageLower_nonneg
  have := h.storageLower_lt (by omega)
  unfold slot
  split <;> omega

theorem slot_inj (h : Valid r) {k k' : Int} (low : 0 ≤ k) (high : k < r.capacity)
    (low' : 0 ≤ k') (high' : k' < r.capacity) (same : r.slot k = r.slot k') : k = k' := by
  unfold slot at same
  split at same <;> split at same <;> omega

/-- The array after a write at distance `k`. -/
def setView (r : RingArray α) (element : α) (k : Int) : RingArray α :=
  { r with storage := r.storage.set element (r.slot k) }

theorem setView_valid (h : Valid r) (element : α) (k : Int) : Valid (r.setView element k) :=
  ⟨h.size_eq, h.count_nonneg, h.count_le, h.storageLower_nonneg, h.storageLower_lt,
    h.storageLower_small⟩

theorem view_setView (h : Valid r) (element : α) {k j : Int} (low : 0 ≤ k)
    (high : k < r.capacity) (low' : 0 ≤ j) (high' : j < r.capacity) :
    (r.setView element k).view j = if j = k then element else r.view j := by
  change (if r.slot j = r.slot k then element else r.storage.cell (r.slot j)) = _
  by_cases same : j = k
  · rw [if_pos (by rw [same]), if_pos same]
  · rw [if_neg fun eq => same (slot_inj h low' high' low high eq), if_neg same]
    rfl

theorem returns_item (h : Valid r) {i : Int} {Q : α → Prop} (valid : r.ValidIndex i)
    (holds : Q (r.view (i - r.lower))) : Returns (r.item i) Q := by
  have le := h.count_le
  unfold count at le
  unfold ValidIndex at valid
  have inside := slot_inside h (show 0 ≤ i - r.lower by omega) (by omega)
  unfold item
  rw [storageIndex_eq, NativeArray.returns_item]
  exact ⟨by rw [h.size_eq]; exact inside, holds⟩

theorem returns_put (h : Valid r) {element : α} {i : Int} {Q : RingArray α → Prop}
    (valid : r.ValidIndex i) (holds : Q (r.setView element (i - r.lower))) :
    Returns (r.put element i) Q := by
  have le := h.count_le
  unfold count at le
  unfold ValidIndex at valid
  have inside := slot_inside h (show 0 ≤ i - r.lower by omega) (by omega)
  unfold put
  rw [storageIndex_eq, Returns.bind_iff, NativeArray.returns_put]
  exact ⟨by rw [h.size_eq]; exact inside, Returns.pure_iff.mpr holds⟩

/-- `r'` is `r` but for its items. -/
structure SameShape (r r' : RingArray α) : Prop where
  valid : Valid r'
  capacity_eq : r'.capacity = r.capacity
  lower_eq : r'.lower = r.lower
  upper_eq : r'.upper = r.upper
  storageLower_eq : r'.storageLower = r.storageLower

theorem SameShape.refl (h : Valid r) : SameShape r r :=
  ⟨h, rfl, rfl, rfl, rfl⟩

end Views

/-! ## Moves -/

section Moves

variable {r : RingArray α} {low high lo hi distance : Int}

/-- The indices from `low` to `high`, valid or not, have cells of their own. -/
structure Spread (r : RingArray α) (low high : Int) : Prop where
  size_eq : r.storage.size = r.capacity
  inside : ∀ i, low ≤ i → i ≤ high → 0 ≤ r.storageIndex i ∧ r.storageIndex i < r.capacity
  apart : ∀ i j, low ≤ i → i ≤ high → low ≤ j → j ≤ high → r.storageIndex i = r.storageIndex j →
    i = j

omit [Inhabited α] in
theorem storageIndex_cases (r : RingArray α) (i : Int) :
    i - r.lower + r.storageLower < r.capacity ∧ r.storageIndex i = i - r.lower + r.storageLower ∨
      r.capacity ≤ i - r.lower + r.storageLower ∧
        r.storageIndex i = i - r.lower + r.storageLower - r.capacity := by
  unfold storageIndex
  dsimp only
  split <;> omega

omit [Inhabited α] in
theorem Spread.of_bounds (size : r.storage.size = r.capacity) (first : 0 ≤ low - r.lower + r.storageLower)
    (last : high - r.lower + r.storageLower < 2 * r.capacity) (length : high - low < r.capacity) :
    Spread r low high := by
  refine ⟨size, fun i from' to' => ?_, fun i j from' to' after before same => ?_⟩
  · have place := r.storageIndex_cases i
    omega
  · have place := r.storageIndex_cases i
    have place' := r.storageIndex_cases j
    omega

theorem Spread.returns_step (h : Spread r low high) {storage : NativeArray α} (size : storage.size = r.storage.size)
    {i : Int} (from' : low ≤ i ∧ i ≤ high) (to' : low ≤ i + distance ∧ i + distance ≤ high) (nonzero : distance ≠ 0) :
    Returns (do
      let r := { r with storage }
      let s ← r.put (← r.item i) (i + distance)
      s.put default i) fun r' => ∃ storage' : NativeArray α, r' = { r with storage := storage' } ∧
        storage'.size = r.storage.size ∧
        storage'.cell (r.storageIndex (i + distance)) = storage.cell (r.storageIndex i) ∧
        ∀ j, low ≤ j → j ≤ high → j ≠ i → j ≠ i + distance →
          storage'.cell (r.storageIndex j) = storage.cell (r.storageIndex j) := by
  have source := h.inside i from'.1 from'.2
  have target := h.inside (i + distance) to'.1 to'.2
  rw [← h.size_eq, ← size] at source target
  dsimp only
  rw [Returns.bind_iff, item, NativeArray.returns_item]
  refine ⟨source, ?_⟩
  rw [Returns.bind_iff, put, Returns.bind_iff, NativeArray.returns_put]
  refine ⟨target, Returns.pure_iff.mpr ?_⟩
  rw [put, Returns.bind_iff, NativeArray.returns_put]
  refine ⟨source, Returns.pure_iff.mpr ⟨_, rfl, size, ?_, fun j first last other notTarget => ?_⟩⟩
  · have differs : r.storageIndex (i + distance) ≠ r.storageIndex i := by
      intro same
      have := h.apart _ _ to'.1 to'.2 from'.1 from'.2 same
      omega
    exact (NativeArray.cell_set_of_ne _ _ differs).trans (NativeArray.cell_set_self _ _ _)
  · have notHere : r.storageIndex j ≠ r.storageIndex i := fun same =>
      other (h.apart _ _ first last from'.1 from'.2 same)
    have notThere : r.storageIndex j ≠ r.storageIndex (i + distance) := fun same =>
      notTarget (h.apart _ _ first last to'.1 to'.2 same)
    exact (NativeArray.cell_set_of_ne _ _ notHere).trans (NativeArray.cell_set_of_ne _ _ notThere)

/-- The order of `move` is such that no item is written over before it has gone. -/
theorem returns_move_spread (nonzero : distance ≠ 0) (h : lo ≤ hi → Spread r low high ∧
      low ≤ min lo (lo + distance) ∧ max hi (hi + distance) ≤ high) :
    Returns (r.move lo hi distance) fun r' => ∃ storage : NativeArray α, r' = { r with storage } ∧
      storage.size = r.storage.size ∧
      (∀ i, lo ≤ i → i ≤ hi →
        storage.cell (r.storageIndex (i + distance)) = r.storage.cell (r.storageIndex i)) ∧
      ∀ j, low ≤ j → j ≤ high → j < min lo (lo + distance) ∨ max hi (hi + distance) < j →
        storage.cell (r.storageIndex j) = r.storage.cell (r.storageIndex j) := by
  unfold move
  split
  · rename_i negative
    rw [Returns.bind_iff]
    refine returns_untilLoop
      (fun s => (lo ≤ s.2 ∧ (lo ≤ hi → s.2 ≤ hi + 1)) ∧ ∃ storage : NativeArray α,
        s.1 = { r with storage } ∧ storage.size = r.storage.size ∧
        (∀ j, lo ≤ j → j < s.2 → j ≤ hi →
          storage.cell (r.storageIndex (j + distance)) = r.storage.cell (r.storageIndex j)) ∧
        ∀ j, low ≤ j → j ≤ high → j < lo + distance ∨ s.2 ≤ j ∨ hi < lo →
          storage.cell (r.storageIndex j) = r.storage.cell (r.storageIndex j))
      (fun s => (hi + 1 - s.2).toNat)
      ⟨by dsimp only; omega, r.storage, rfl, rfl, fun j _ _ => by dsimp only at *; omega, fun _ _ _ _ => rfl⟩
      (by dsimp only; omega) ?_
    intro (s, i) ⟨bounds, storage, same, size, moved, kept⟩
    dsimp only at bounds same moved kept
    rw [Returns.some_iff]
    split
    · rename_i stopped
      rw [decide_eq_true_eq] at stopped
      exact Returns.pure_iff.mpr ⟨storage, same, size, fun j first last => moved j first (by omega) last,
        fun j first last outside => kept j first last (by omega)⟩
    · rename_i going
      rw [decide_eq_true_eq] at going
      obtain ⟨spread, first', last'⟩ := h (by omega)
      rw [same]
      refine (spread.returns_step size (i := i) (by omega) (by omega) nonzero).bind ?_
      intro s' ⟨storage', same', size', arrived, others⟩
      refine Returns.pure_iff.mpr ⟨⟨by dsimp only; omega, storage', same', size', fun j first before last => ?_,
        fun j first last outside => ?_⟩, by dsimp only; omega⟩
      · dsimp only at before
        by_cases here : j = i
        · rw [here, arrived, kept i (by omega) (by omega) (by omega)]
        · rw [others (j + distance) (by omega) (by omega) (by omega) (by omega)]
          exact moved j first (by omega) last
      · dsimp only at outside
        rw [others j first last (by omega) (by omega)]
        exact kept j first last (by omega)
  · rename_i positive
    rw [Returns.bind_iff]
    refine returns_untilLoop
      (fun s => (s.2 ≤ hi ∧ (lo ≤ hi → lo - 1 ≤ s.2)) ∧ ∃ storage : NativeArray α,
        s.1 = { r with storage } ∧ storage.size = r.storage.size ∧
        (∀ j, s.2 < j → lo ≤ j → j ≤ hi →
          storage.cell (r.storageIndex (j + distance)) = r.storage.cell (r.storageIndex j)) ∧
        ∀ j, low ≤ j → j ≤ high → j ≤ s.2 ∨ hi + distance < j ∨ hi < lo →
          storage.cell (r.storageIndex j) = r.storage.cell (r.storageIndex j))
      (fun s => (s.2 + 1 - lo).toNat)
      ⟨by dsimp only; omega, r.storage, rfl, rfl, fun j _ _ => by dsimp only at *; omega, fun _ _ _ _ => rfl⟩
      (by dsimp only; omega) ?_
    intro (s, i) ⟨bounds, storage, same, size, moved, kept⟩
    dsimp only at bounds same moved kept
    rw [Returns.some_iff]
    split
    · rename_i stopped
      rw [decide_eq_true_eq] at stopped
      exact Returns.pure_iff.mpr ⟨storage, same, size, fun j first last => moved j (by omega) first last,
        fun j first last outside => kept j first last (by omega)⟩
    · rename_i going
      rw [decide_eq_true_eq] at going
      obtain ⟨spread, first', last'⟩ := h (by omega)
      rw [same]
      refine (spread.returns_step size (i := i) (by omega) (by omega) nonzero).bind ?_
      intro s' ⟨storage', same', size', arrived, others⟩
      refine Returns.pure_iff.mpr ⟨⟨by dsimp only; omega, storage', same', size', fun j after first last => ?_,
        fun j first last outside => ?_⟩, by dsimp only; omega⟩
      · dsimp only at after
        by_cases here : j = i
        · rw [here, arrived, kept i (by omega) (by omega) (by omega)]
        · rw [others (j + distance) (by omega) (by omega) (by omega) (by omega)]
          exact moved j (by omega) first last
      · dsimp only at outside
        rw [others j first last (by omega) (by omega)]
        exact kept j first last (by omega)

theorem returns_move (h : Valid r) (nonzero : distance ≠ 0)
    (inside : lo ≤ hi → r.lower ≤ min lo (lo + distance) ∧ max hi (hi + distance) ≤ r.upper) :
    Returns (r.move lo hi distance) fun r' => SameShape r r' ∧
      (∀ k, 0 ≤ k → k < r.capacity → k < min lo (lo + distance) - r.lower ∨
        max hi (hi + distance) - r.lower < k → r'.view k = r.view k) ∧
      ∀ k, lo + distance - r.lower ≤ k → k ≤ hi + distance - r.lower → r'.view k = r.view (k - distance) := by
  have count := h.count_le
  unfold RingArray.count at count
  have nonneg := h.storageLower_nonneg
  have spread : lo ≤ hi → Spread r r.lower (r.lower + r.capacity - 1) ∧
      r.lower ≤ min lo (lo + distance) ∧ max hi (hi + distance) ≤ r.lower + r.capacity - 1 := by
    intro nonempty
    have bounds := inside nonempty
    have less := h.storageLower_lt (by omega)
    exact ⟨.of_bounds h.size_eq (by omega) (by omega) (by omega), bounds.1, by omega⟩
  -- the cell at the distance `k`
  have view (s : RingArray α) (k : Int) : s.view k = s.storage.cell (s.storageIndex (k + s.lower)) := by
    rw [storageIndex_eq, Int.add_sub_cancel]
    rfl
  refine (returns_move_spread nonzero spread).mono fun r' ⟨storage, same, size, moved, kept⟩ => ?_
  rw [same]
  refine ⟨⟨⟨size.trans h.size_eq, h.count_nonneg, h.count_le, nonneg, h.storageLower_lt,
    h.storageLower_small⟩, rfl, rfl, rfl, rfl⟩, fun k lowK highK outside => ?_, fun k lowK highK => ?_⟩
  · rw [view, view r]
    exact kept (k + r.lower) (by omega) (by omega) (by omega)
  · rw [view, view r, ← Int.sub_add_cancel k distance, Int.add_right_comm]
    exact (moved (k - distance + r.lower) (by omega) (by omega)).trans (by rw [Int.sub_add_cancel])

/-- The items of `squeeze_bubble` before the bubble, moved over it. -/
theorem returns_move_over (h : Valid r) {min pos length : Int} (low : r.lower ≤ min)
    (le : min ≤ pos) (high : pos + length - 1 ≤ r.upper) (positive : 0 < length) :
    Returns (r.move min (pos - 1) length) fun s => SameShape r s ∧
      ∀ i, min ≤ i → i + length - r.lower < r.capacity → s.view (i - r.lower + length) =
        if i < pos then r.view (i - r.lower) else r.view (i - r.lower + length) := by
  refine (returns_move h (by omega) fun nonempty => by omega).mono ?_
  intro s ⟨shape, kept, moved⟩
  refine ⟨shape, fun i lowI highI => ?_⟩
  split
  · rw [moved _ (by omega) (by omega), Int.add_sub_cancel]
  · exact kept _ (by omega) (by omega) (by omega)

/-- `squeeze_bubble` takes `length` items out of a part of the array from `pos` on: the items from
`min` on stand one after the other. -/
theorem returns_squeezeBubble_part (h : Valid r) {min max pos length : Int} (low : r.lower ≤ min)
    (le : min ≤ pos) (le' : pos + length ≤ max) (high : max ≤ r.upper) (positive : 0 < length) :
    Returns (r.squeezeBubble min max pos length) fun r' => Valid r' ∧
      r'.capacity = r.capacity ∧ r'.lower = r.lower ∧ r'.upper = r.upper ∧
      ∀ i, min ≤ i → i + length ≤ max →
        r'.view (i - r.lower) =
          if i < pos then r.view (i - r.lower) else r.view (i - r.lower + length) := by
  have count := h.count_le
  unfold RingArray.count at count
  have nonneg := h.storageLower_nonneg
  have less := h.storageLower_lt (by omega)
  unfold squeezeBubble
  split
  · refine (returns_move_over h low le (by omega) positive).bind ?_
    intro s ⟨shape, moved⟩
    have capacity := shape.capacity_eq
    have origin := shape.storageLower_eq
    -- the item at `i` was the one at `i + length`
    have finish : ∀ storageLower : Int, 0 ≤ storageLower → storageLower < s.capacity →
        (storageLower = s.storageLower + length ∨
          storageLower = s.storageLower + length - s.capacity) →
        let r' := { s with storageLower }
        Valid r' ∧ r'.capacity = r.capacity ∧ r'.lower = r.lower ∧ r'.upper = r.upper ∧
          ∀ i, min ≤ i → i + length ≤ max → r'.view (i - r.lower) =
            if i < pos then r.view (i - r.lower) else r.view (i - r.lower + length) := by
      intro storageLower low' high' choice r'
      refine ⟨⟨shape.valid.size_eq, shape.valid.count_nonneg, shape.valid.count_le, low',
        fun _ => high', fun zero => ?_⟩, capacity, shape.lower_eq, shape.upper_eq,
        fun i lowI highI => ?_⟩
      · have : s.capacity = 0 := zero
        omega
      · have shifted : r'.slot (i - r.lower) = s.slot (i - r.lower + length) := by
          change (if i - r.lower + storageLower ≥ s.capacity
            then i - r.lower + storageLower - s.capacity else i - r.lower + storageLower) = _
          unfold slot
          split <;> split <;> omega
        have view : r'.view (i - r.lower) = s.view (i - r.lower + length) :=
          congrArg s.storage.cell shifted
        rw [view]
        exact moved i lowI (by omega)
    dsimp only
    split
    · exact Returns.pure_iff.mpr (finish _ (by omega) (by omega) (.inr rfl))
    · exact Returns.pure_iff.mpr (finish _ (by omega) (by omega) (.inl rfl))
  · refine (returns_move h (by omega) fun nonempty => by omega).mono ?_
    intro s ⟨shape, kept, moved⟩
    refine ⟨shape.valid, shape.capacity_eq, shape.lower_eq, shape.upper_eq,
      fun i lowI highI => ?_⟩
    split
    · exact kept _ (by omega) (by omega) (by omega)
    · rw [moved _ (by omega) (by omega), Int.sub_neg]

/-- `squeeze_bubble` of the whole array takes `length` items out from `pos` on.  The
`upper` index is still to be lowered. -/
theorem returns_squeezeBubble (h : Valid r) {pos length : Int} (low : r.lower < pos)
    (high : pos + length ≤ r.upper) (positive : 0 < length) :
    Returns (r.squeezeBubble r.lower r.upper pos length) fun r' => Valid r' ∧
      r'.capacity = r.capacity ∧ r'.lower = r.lower ∧ r'.upper = r.upper ∧
      ∀ k, 0 ≤ k → k + length < r.count →
        r'.view k = if k < pos - r.lower then r.view k else r.view (k + length) := by
  refine (returns_squeezeBubble_part h (Int.le_refl _) (Int.le_of_lt low) high (Int.le_refl _) positive).mono ?_
  intro r' ⟨valid, capacity, lower, upper, view⟩
  refine ⟨valid, capacity, lower, upper, fun k lowK highK => ?_⟩
  unfold RingArray.count at highK
  have here := view (k + r.lower) (by omega) (by omega)
  rw [Int.add_sub_cancel] at here
  rw [here]
  exact if_congr (by omega) rfl rfl

end Moves

/-! ## Growth -/

section Growth

variable {r : RingArray α}

/-- The items of an array whose last slot is not before the first stand in a row. -/
theorem slot_eq_of_not_wrapped (h : Valid r) (row : r.storageLower ≤ r.slot (r.count - 1))
    {k : Int} (low : 0 ≤ k) (high : k < r.count) : r.slot k = k + r.storageLower := by
  have := h.count_le
  unfold slot at row ⊢
  split at row <;> split <;> omega

theorem storageUpper_eq (r : RingArray α) : r.storageUpper = r.slot (r.count - 1) := by
  change r.slot (r.upper - r.lower) = _
  unfold RingArray.count
  congr 1
  omega

/-- The array in a storage twice as big, with `upper` moved. -/
def enlarged (r : RingArray α) (upper : Int) : RingArray α :=
  { r with
    upper
    capacity := 2 * r.capacity
    storage := r.storage.realloc r.capacity (2 * r.capacity) }

theorem enlarged_valid (h : Valid r) (room : r.capacity ≠ 0) {upper : Int}
    (low : r.upper ≤ upper) (high : upper - r.lower + 1 ≤ 2 * r.capacity) :
    Valid (r.enlarged upper) := by
  have nonneg := h.count_nonneg
  have first := h.storageLower_nonneg
  have last := h.storageLower_lt room
  unfold RingArray.count at nonneg
  refine ⟨rfl, ?_, high, first, fun _ => ?_, fun zero => ?_⟩
  · change 0 ≤ upper - r.lower + 1
    omega
  · change r.storageLower < 2 * r.capacity
    omega
  · have : 2 * r.capacity = 0 := zero
    omega

theorem enlarged_cell (r : RingArray α) (upper : Int) {i : Int} (low : 0 ≤ i)
    (high : i < r.capacity) : (r.enlarged upper).storage.cell i = r.storage.cell i :=
  if_pos ⟨low, high⟩

theorem view_enlarged (h : Valid r) (upper : Int) {k k' : Int} (low : 0 ≤ k)
    (high : k < r.capacity) (same : (r.enlarged upper).slot k' = r.slot k) :
    (r.enlarged upper).view k' = r.view k := by
  have inside := slot_inside h low high
  unfold view
  rw [same]
  exact enlarged_cell r upper inside.1 inside.2

theorem slot_enlarged (r : RingArray α) (upper k : Int) :
    (r.enlarged upper).slot k = if k + r.storageLower ≥ 2 * r.capacity
      then k + r.storageLower - 2 * r.capacity else k + r.storageLower := rfl

/-- A storage twice as big, with the bubble that it makes in the items squeezed out. -/
theorem returns_grow (h : Valid r) (full : r.count = r.capacity) (room : r.capacity ≠ 0) :
    Returns (r.makeSpaceForOne) fun r' => Valid r' ∧ r'.count < r'.capacity ∧
      r'.lower = r.lower ∧ r'.upper = r.upper ∧
      ∀ k, 0 ≤ k → k < r.count → r'.view k = r.view k := by
  have nonneg := h.count_nonneg
  have last := h.storageLower_lt room
  have countEq : r.count = r.upper - r.lower + 1 := rfl
  unfold makeSpaceForOne
  rw [if_pos (by omega), if_neg room]
  dsimp only
  rw [storageUpper_eq]
  split
  · rename_i wrapped
    have wrap : r.wrapPoint = r.capacity + r.lower - r.storageLower := rfl
    have positive : 0 < r.storageLower := by
      unfold slot at wrapped
      split at wrapped <;> omega
    let upper' := r.upper + 2 * r.capacity - r.capacity
    have valid : Valid (r.enlarged upper') :=
      enlarged_valid h room (by omega) (by omega)
    have low : (r.enlarged upper').lower < r.wrapPoint := by
      change r.lower < r.wrapPoint
      omega
    have high : r.wrapPoint + (2 * r.capacity - r.capacity) ≤ (r.enlarged upper').upper := by
      change r.wrapPoint + (2 * r.capacity - r.capacity) ≤ upper'
      omega
    refine (returns_squeezeBubble valid low high (by omega)).bind ?_
    intro s ⟨validS, capacity, lower, upper, views⟩
    replace capacity : s.capacity = 2 * r.capacity := capacity
    replace lower : s.lower = r.lower := lower
    replace upper : s.upper = upper' := upper
    rw [Returns.pure_iff]
    have back : s.upper - s.capacity + r.capacity = r.upper := by omega
    rw [back]
    refine ⟨⟨validS.size_eq, ?_, ?_, validS.storageLower_nonneg, validS.storageLower_lt,
      validS.storageLower_small⟩, ?_, lower, rfl, fun k low high => ?_⟩
    · change 0 ≤ r.upper - s.lower + 1
      omega
    · change r.upper - s.lower + 1 ≤ s.capacity
      omega
    · change r.upper - s.lower + 1 < s.capacity
      omega
    · have moved := views k low (by change _ < upper' - r.lower + 1; omega)
      change s.view k = _
      rw [moved]
      -- before the wrap the item has not moved, after it the bubble was squeezed out
      change (if k < r.wrapPoint - r.lower then _ else _) = r.view k
      split
      · apply view_enlarged h upper' low (by omega)
        rw [slot_enlarged]
        unfold slot
        rw [if_neg (by omega), if_neg (by omega)]
      · apply view_enlarged h upper' low (by omega)
        rw [slot_enlarged]
        unfold slot
        omega
  · rename_i row
    rw [Returns.some_iff]
    refine ⟨enlarged_valid h room (Int.le_refl _) (by omega), ?_, rfl, rfl,
      fun k low high => ?_⟩
    · change r.upper - r.lower + 1 < 2 * r.capacity
      omega
    · have old := slot_eq_of_not_wrapped h (by omega) low high
      apply view_enlarged h r.upper low (by omega)
      rw [slot_enlarged, if_neg (by omega), old]

/-- `make_space_for_one` keeps the items and leaves room for one more. -/
theorem returns_makeSpaceForOne (h : Valid r) :
    Returns (r.makeSpaceForOne) fun r' => Valid r' ∧ r'.count < r'.capacity ∧
      r'.lower = r.lower ∧ r'.upper = r.upper ∧
      ∀ k, 0 ≤ k → k < r.count → r'.view k = r.view k := by
  have nonneg := h.count_nonneg
  have le := h.count_le
  by_cases full : r.capacity < r.count + 1
  · by_cases room : r.capacity = 0
    · have small := h.storageLower_small room
      unfold makeSpaceForOne
      rw [if_pos full, if_pos room, Returns.some_iff]
      refine ⟨⟨rfl, nonneg, ?_, h.storageLower_nonneg, fun _ => small, ?_⟩, ?_, rfl, rfl,
        fun k low high => by omega⟩
      · change r.count ≤ 16
        omega
      · intro zero
        cases zero
      · change r.count < 16
        omega
    · exact returns_grow h (by omega) room
  · unfold makeSpaceForOne
    rw [if_neg full, Returns.some_iff]
    exact ⟨h, by omega, rfl, rfl, fun _ _ _ => rfl⟩

end Growth

end RingArray

end Liberty
