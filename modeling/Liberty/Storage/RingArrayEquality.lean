import Liberty.Storage.RingArraySearches

/-!
# Equality and copies of RING_ARRAYs

`is_equal` compares two storages slice by slice, cut at the wrap points of both arrays, and `copy`
writes the items from the start of a storage on.  The arrays of a program are objects whose
storages are blocks of one memory, which two of them might share.
-/

namespace Liberty

namespace NativeArray

variable {α : Type}

/-- `slice_memcmp` and `slice_fast_memcmp`, which differ in how they compare items. -/
def sliceMemcmpWhere (same : α → α → Bool) (s : NativeArray α) (at' : Int)
    (other : NativeArray α) (otherLower otherUpper : Int) : Option Bool := do
  let i ← untilLoop
    (fun i => if i < 0 then some true
      else do return !same (← s.item (at' + i)) (← other.item (otherLower + i)))
    (fun i => some (i - 1)) (otherUpper - otherLower + 1).toNat (otherUpper - otherLower)
  return decide (i < 0)

theorem returns_sliceMemcmpWhere (same : α → α → Bool) {s other : NativeArray α}
    {at' otherLower otherUpper : Int} (inside : ∀ i, 0 ≤ i → i ≤ otherUpper - otherLower →
      s.InBounds (at' + i) ∧ other.InBounds (otherLower + i)) :
    Returns (s.sliceMemcmpWhere same at' other otherLower otherUpper) fun b => b = true ↔
      ∀ i, 0 ≤ i → i ≤ otherUpper - otherLower →
        same (s.cell (at' + i)) (other.cell (otherLower + i)) = true := by
  unfold sliceMemcmpWhere
  rw [Returns.bind_iff]
  refine returns_untilLoop
    (fun i => i ≤ otherUpper - otherLower ∧ ∀ k, i < k → 0 ≤ k → k ≤ otherUpper - otherLower →
      same (s.cell (at' + k)) (other.cell (otherLower + k)) = true)
    (fun i => (i + 1).toNat) ⟨Int.le_refl _, fun k after _ le => by omega⟩ (by omega) ?_
  intro i ⟨le, passed⟩
  rcases Int.lt_or_le i 0 with low | nonneg
  · rw [if_pos low, Returns.some_iff, if_pos rfl, Returns.pure_iff, decide_eq_true_eq]
    exact ⟨fun _ k nonneg => passed k (by omega) nonneg, fun _ => low⟩
  · obtain ⟨here, there⟩ := inside i nonneg le
    rw [if_neg (Int.not_lt.mpr nonneg), item_of_inBounds here, item_of_inBounds there]
    change Returns (some _) _
    rw [Returns.some_iff]
    cases test : same (s.cell (at' + i)) (other.cell (otherLower + i)) with
    | false =>
      rw [if_pos (by decide), Returns.pure_iff, decide_eq_true_eq]
      refine ⟨fun low => absurd low (Int.not_lt.mpr nonneg), fun all => ?_⟩
      rw [all i nonneg le] at test
      cases test
    | true =>
      rw [if_neg (by decide), Returns.some_iff]
      refine ⟨⟨by omega, fun k after nonneg' le' => ?_⟩, by omega⟩
      rcases Int.lt_or_le i k with later | before
      · exact passed k later nonneg' le'
      · obtain rfl : k = i := by omega
        exact test

end NativeArray

namespace RingArray

variable {α : Type}

/-! ## The source -/

/-- `slices_are_equal` and `slices_are_equal_map` -/
def slicesAreEqualWhere (same : α → α → Bool) (r other : RingArray α) (wp owp : Int) :
    Option Bool :=
  let slice := fun at' => r.storage.sliceMemcmpWhere same at' other.storage
  if owp > r.upper then
    slice r.storageLower other.storageLower other.storageUpper
  else if wp > r.upper ∨ wp = owp then do
    if ← slice r.storageLower other.storageLower (other.capacity - 1) then
      slice (r.storageIndex owp) 0 other.storageUpper
    else
      return false
  else do
    let oswp := other.storageIndex wp
    if ← slice r.storageLower other.storageLower (other.capacity - 1) then
      if ← slice (r.storageIndex owp) 0 (oswp - 1) then
        slice 0 oswp other.storageUpper
      else
        return false
    else
      return false

/-- `is_equal` and `fast_is_equal`, of two objects. -/
def isEqualWhere (same : α → α → Bool) (r other : RingArray α) : Option Bool :=
  if r.lower = other.lower ∧ r.upper = other.upper then
    if r.wrapPoint < other.wrapPoint then
      other.slicesAreEqualWhere same r other.wrapPoint r.wrapPoint
    else
      r.slicesAreEqualWhere same other r.wrapPoint other.wrapPoint
  else
    some false

/-! ## Comparing -/

/-- The bounds are the same and the items agree position by position. -/
def Agrees (same : α → α → Bool) (r other : RingArray α) : Prop :=
  r.lower = other.lower ∧ r.upper = other.upper ∧
    ∀ i, r.ValidIndex i → ∃ x y, r.item i = some x ∧ other.item i = some y ∧ same x y = true

/-- A valid array that is left aligned when it has no storage. -/
structure Grounded (r : RingArray α) : Prop where
  valid : Valid r
  aligned : r.capacity = 0 → r.storageLower = 0

section Comparing

variable {r other : RingArray α} {same : α → α → Bool}

theorem returns_andThen {x y : Option Bool} {p q : Prop} (first : Returns x fun b => b = true ↔ p)
    (second : Returns y fun b => b = true ↔ q) :
    Returns (do if ← x then y else return false) fun b => b = true ↔ p ∧ q := by
  refine first.bind fun b told => ?_
  cases b with
  | false =>
    rw [if_neg (by decide), Returns.pure_iff]
    exact ⟨fun passes => (nomatch passes), fun both => told.mpr both.1⟩
  | true =>
    rw [if_pos rfl]
    exact second.mono fun c told' => told'.trans (and_iff_right (told.mp rfl)).symm

/-- A slice of both storages that holds the items from the distance `start` on. -/
theorem returns_slice (h : Valid r) (h' : Valid other) (same : α → α → Bool)
    (counts : other.count = r.count) (start stop at' lower upper : Int) (nonneg : 0 ≤ start)
    (less : stop ≤ r.count) (span : stop - start = upper - lower + 1)
    (places : ∀ k, start ≤ k → k < stop →
      r.slot k = at' + (k - start) ∧ other.slot k = lower + (k - start)) :
    Returns (r.storage.sliceMemcmpWhere same at' other.storage lower upper) fun b => b = true ↔
      ∀ k, start ≤ k → k < stop → same (r.view k) (other.view k) = true := by
  have le := h.count_le
  have le' := h'.count_le
  have moved : ∀ i, 0 ≤ i → i ≤ upper - lower →
      r.slot (start + i) = at' + i ∧ other.slot (start + i) = lower + i := by
    intro i low high
    have place := places (start + i) (by omega) (by omega)
    rwa [show start + i - start = i by omega] at place
  refine (NativeArray.returns_sliceMemcmpWhere same fun i low high => ?_).mono fun b told =>
    told.trans ⟨fun all k after before => ?_, fun all i low high => ?_⟩
  · obtain ⟨here, there⟩ := moved i low high
    rw [← here, ← there, NativeArray.InBounds, NativeArray.InBounds, h.size_eq, h'.size_eq]
    exact ⟨slot_inside h (by omega) (by omega), slot_inside h' (by omega) (by omega)⟩
  · obtain ⟨here, there⟩ := places k after before
    have item := all (k - start) (by omega) (by omega)
    rw [← here, ← there] at item
    exact item
  · obtain ⟨here, there⟩ := moved i low high
    rw [← here, ← there]
    exact all (start + i) (by omega) (by omega)

theorem slot_row {k : Int} (inside : k + r.storageLower < r.capacity) :
    r.slot k = k + r.storageLower :=
  if_neg (by omega)

theorem slot_wrapped {k : Int} (behind : r.capacity ≤ k + r.storageLower) :
    r.slot k = k + r.storageLower - r.capacity :=
  if_pos behind

/-- The slices hold the items up to the wrap point of the other array, from there to the own one,
and from there to the end. -/
theorem returns_slicesAreEqualWhere [Inhabited α] (h : Grounded r) (h' : Grounded other)
    (same : α → α → Bool) (lower : r.lower = other.lower) (upper : r.upper = other.upper)
    (after : other.wrapPoint ≤ r.wrapPoint) :
    Returns (r.slicesAreEqualWhere same other r.wrapPoint other.wrapPoint) fun b => b = true ↔
      ∀ k, 0 ≤ k → k < r.count → same (r.view k) (other.view k) = true := by
  have countEq := count_eq r
  have counts : other.count = r.count := by
    rw [count_eq, count_eq, lower, upper]
  have storageUpper : other.storageUpper = other.slot (r.count - 1) := by
    rw [storageUpper_eq, counts]
  have nonneg := h.valid.count_nonneg
  have le := h.valid.count_le
  have le' := counts ▸ h'.valid.count_le
  have low' := h'.valid.storageLower_nonneg
  have less' := h'.valid.storageLower_lt
  have aligned' := h'.aligned
  have wp : r.wrapPoint = r.lower + (r.capacity - r.storageLower) := by unfold wrapPoint; omega
  have owp : other.wrapPoint = r.lower + (other.capacity - other.storageLower) := by
    unfold wrapPoint; omega
  rw [wp, owp] at after ⊢
  unfold slicesAreEqualWhere
  dsimp only
  rw [storageIndex_eq, storageIndex_eq, storageUpper]
  split
  · have row : other.slot (r.count - 1) = r.count - 1 + other.storageLower := slot_row (by omega)
    rw [row]
    exact returns_slice h.valid h'.valid same counts _ _ _ _ _ (Int.le_refl 0) (Int.le_refl _) (by omega)
      fun k low high => by rw [slot_row (by omega), slot_row (by omega)]; omega
  · rename_i wrapped
    have last : other.slot (r.count - 1) = r.count - 1 + other.storageLower - other.capacity :=
      slot_wrapped (by omega)
    have first := returns_slice h.valid h'.valid same counts 0
      (other.capacity - other.storageLower) r.storageLower
      other.storageLower (other.capacity - 1) (Int.le_refl 0) (by omega)
      (by omega) fun k low high => by rw [slot_row (by omega), slot_row (by omega)]; omega
    rw [last, show r.lower + (other.capacity - other.storageLower) - r.lower =
      other.capacity - other.storageLower by omega]
    split
    · rename_i together
      have second := returns_slice h.valid h'.valid same counts
        (other.capacity - other.storageLower) r.count
        (r.slot (other.capacity - other.storageLower)) 0
        (r.count - 1 + other.storageLower - other.capacity) (by omega) (Int.le_refl _)
        (by omega) fun k low high => by
          rw [slot_wrapped (r := other) (by omega)]
          rcases together with whole | same
          · rw [slot_row (by omega), slot_row (by omega)]
            omega
          · rw [slot_wrapped (by omega), slot_wrapped (by omega)]
            omega
      refine (returns_andThen first second).mono fun b told => told.trans
        ⟨fun both k low high => ?_, fun all => ⟨fun k low high => ?_, fun k low high => ?_⟩⟩
      · rcases Int.lt_or_le k (other.capacity - other.storageLower) with before | behind
        · exact both.1 k low before
        · exact both.2 k behind high
      · exact all k low (by omega)
      · exact all k (by omega) high
    · rw [show r.lower + (r.capacity - r.storageLower) - other.lower =
        r.capacity - r.storageLower by omega, slot_wrapped (r := other) (by omega)]
      have second := returns_slice h.valid h'.valid same counts
        (other.capacity - other.storageLower) (r.capacity - r.storageLower)
        (r.slot (other.capacity - other.storageLower)) 0
        (r.capacity - r.storageLower + other.storageLower - other.capacity - 1)
        (by omega) (by omega) (by omega) fun k low high => by
          rw [slot_wrapped (r := other) (by omega), slot_row (by omega), slot_row (by omega)]
          omega
      have third := returns_slice h.valid h'.valid same counts
        (r.capacity - r.storageLower) r.count 0
        (r.capacity - r.storageLower + other.storageLower - other.capacity)
        (r.count - 1 + other.storageLower - other.capacity) (by omega) (Int.le_refl _)
        (by omega) fun k low high => by
          rw [slot_wrapped (r := other) (by omega), slot_wrapped (by omega)]
          omega
      refine (returns_andThen first (returns_andThen second third)).mono fun b told => told.trans
        ⟨fun both k low high => ?_,
          fun all => ⟨fun k _ _ => ?_, fun k _ _ => ?_, fun k _ _ => ?_⟩⟩
      · rcases Int.lt_or_le k (other.capacity - other.storageLower) with before | behind
        · exact both.1 k low before
        · rcases Int.lt_or_le k (r.capacity - r.storageLower) with between | last
          · exact both.2.1 k behind between
          · exact both.2.2 k last high
      all_goals exact all k (by omega) (by omega)

theorem agrees_iff [Inhabited α] (h : Valid r) (h' : Valid other) (lower : r.lower = other.lower)
    (upper : r.upper = other.upper) : Agrees same r other ↔
      ∀ k, 0 ≤ k → k < r.count → same (r.view k) (other.view k) = true := by
  have countEq := count_eq r
  refine ⟨fun agrees k low high => ?_, fun all => ⟨lower, upper, fun i valid => ?_⟩⟩
  · obtain ⟨x, y, here, there, test⟩ :=
      agrees.2.2 (r.lower + k) ⟨by omega, by omega⟩
    rw [item_of_valid h (by omega) (by omega)] at here
    rw [item_of_valid h' (by omega) (by omega)] at there
    cases here
    cases there
    rwa [show r.lower + k - r.lower = k by omega, show r.lower + k - other.lower = k by omega]
      at test
  · obtain ⟨low, high⟩ := valid
    refine ⟨_, _, item_of_valid h low high, item_of_valid h' (by omega) (by omega), ?_⟩
    rw [← lower]
    exact all _ (by omega) (by omega)

theorem returns_isEqualWhere [Inhabited α] (h : Grounded r) (h' : Grounded other)
    (comm : ∀ x y, same x y = same y x) :
    Returns (r.isEqualWhere same other) fun b => b = true ↔ Agrees same r other := by
  unfold isEqualWhere
  split
  · rename_i bounds
    obtain ⟨lower, upper⟩ := bounds
    rw [agrees_iff h.valid h'.valid lower upper]
    split
    · refine (returns_slicesAreEqualWhere h' h same lower.symm upper.symm (by omega)).mono
        fun b told => told.trans ?_
      rw [show other.count = r.count by rw [count_eq, count_eq, lower, upper]]
      exact forall_congr' fun k => by rw [comm]
    · exact returns_slicesAreEqualWhere h h' same lower upper (by omega)
  · rename_i bounds
    rw [Returns.some_iff]
    exact ⟨fun passes => (nomatch passes), fun agrees => absurd ⟨agrees.1, agrees.2.1⟩ bounds⟩

end Comparing

end RingArray

namespace SafeEqual

/-- What the comparisons of items promise: `=` is an equivalence and `is_equal` is commutative. -/
structure Lawful {α : Type} (E : SafeEqual α) : Prop where
  identical_refl : ∀ e, E.identical e e = true
  identical_comm : ∀ e1 e2, E.identical e1 e2 = E.identical e2 e1
  sameDynamicType_comm : ∀ e1 e2, E.sameDynamicType e1 e2 = E.sameDynamicType e2 e1
  isEqual_comm : ∀ e1 e2, E.sameDynamicType e1 e2 = true → E.isEqual e1 e2 = E.isEqual e2 e1

variable {α : Type} {E : SafeEqual α}

theorem Lawful.test_refl (h : E.Lawful) (e : α) : E.test e e = true :=
  if_pos (h.identical_refl e)

theorem Lawful.test_comm (h : E.Lawful) (e1 e2 : α) : E.test e1 e2 = E.test e2 e1 := by
  unfold test
  rw [h.identical_comm e2 e1, h.sameDynamicType_comm e2 e1]
  cases same : E.sameDynamicType e1 e2 with
  | false => cases E.isVoid e1 <;> cases E.isVoid e2 <;> rfl
  | true =>
    rw [h.isEqual_comm e1 e2 same]
    cases E.isVoid e1 <;> cases E.isVoid e2 <;> rfl

end SafeEqual

/-- The fields of an array object; its storage is a block of the memory. -/
structure RingHeader where
  storage : ℕ
  capacity : Int
  lower : Int
  upper : Int
  storageLower : Int

/-- The array objects of a program and the blocks that have been handed out. -/
structure RingWorld (α : Type) where
  block : ℕ → NativeArray α
  blocks : ℕ
  header : ℕ → RingHeader
  objects : ℕ

namespace RingWorld

variable {α : Type} [Inhabited α]

def empty : RingWorld α where
  block _ := .calloc 0
  blocks := 0
  header _ := ⟨0, 0, 0, 0, 0⟩
  objects := 0

def array (w : RingWorld α) (i : ℕ) : RingArray α :=
  let h := w.header i
  ⟨w.block h.storage, h.capacity, h.lower, h.upper, h.storageLower⟩

/-- The fields of an object and the block of its storage, at `address`. -/
def assign (w : RingWorld α) (i address : ℕ) (r : RingArray α) : RingWorld α where
  block := Function.update w.block address r.storage
  blocks := max w.blocks (address + 1)
  header := Function.update w.header i ⟨address, r.capacity, r.lower, r.upper, r.storageLower⟩
  objects := max w.objects (i + 1)

/-- An object whose storage is where it was. -/
def assignInPlace (w : RingWorld α) (i : ℕ) (r : RingArray α) : RingWorld α :=
  w.assign i (w.header i).storage r

/-- A command of an array: `calloc` and `realloc` come with another capacity. -/
def store (w : RingWorld α) (i : ℕ) (r : RingArray α) : RingWorld α :=
  if r.capacity = (w.header i).capacity then w.assignInPlace i r else w.assign i w.blocks r

def sliceCopy (w : RingWorld α) (i : ℕ) (at' : Int) (other : ℕ) (srcMin srcMax : Int) :
    Option (RingWorld α) := do
  let r := w.array i
  return w.assignInPlace i
    { r with storage := ← r.storage.sliceCopy at' (w.array other).storage srcMin srcMax }

/-- The end of `copy`: the items of the other array, from the start of the storage on. -/
def copyItems (w : RingWorld α) (i other : ℕ) : Option (RingWorld α) :=
  let o := w.array other
  let osu := o.storageUpper
  if osu ≥ o.storageLower then
    w.sliceCopy i 0 other o.storageLower osu
  else do
    let w ← w.sliceCopy i 0 other o.storageLower (o.capacity - 1)
    w.sliceCopy i (o.capacity - o.storageLower) other 0 osu

/-- `copy`: an array may be copied to itself. -/
def copy (w : RingWorld α) (i other : ℕ) : Option (RingWorld α) :=
  let w := w.assignInPlace i { w.array i with storageLower := 0 }
  let w := w.assignInPlace i
    { w.array i with lower := (w.array other).lower, upper := (w.array other).upper }
  let neededCapacity := (w.array i).count
  let w := if (w.array i).capacity < neededCapacity then
      w.assign i w.blocks
        { w.array i with storage := .calloc neededCapacity, capacity := neededCapacity }
    else w
  if neededCapacity > 0 then w.copyItems i other else some w

def isEqual (E : SafeEqual α) (w : RingWorld α) (i other : ℕ) : Option Bool :=
  if i = other then some true else (w.array i).isEqualWhere E.test (w.array other)

/-- What a command does to an array, when each command meets the condition `P`. -/
inductive Changes (P : RingArray α → RingArray.Command α → Prop) (r : RingArray α) :
    RingArray α → Prop
  | command {r' : RingArray α} (command : RingArray.Command α)
      (allowed : r.sequence.Allowed command) (condition : P r command)
      (run : r.execute command = some r') : Changes P r r'
  | resize {r' : RingArray α} (minIndex maxIndex : Int) (bounds : minIndex ≤ maxIndex + 1)
      (run : r.resize minIndex maxIndex = some r') : Changes P r r'
  | force {r' : RingArray α} (element : α) (index : Int)
      (run : r.force element index = some r') : Changes P r r'
  | setAllWith {r' : RingArray α} (v : α) (run : r.setAllWith v = some r') : Changes P r r'
  | replaceWhere {r' : RingArray α} (same : α → Bool) (newValue : α)
      (run : r.replaceWhere same newValue = some r') : Changes P r r'

/-- A step of the program, which updates the array `i`. -/
inductive Step (P : RingArray α → RingArray.Command α → Prop) (w : RingWorld α) :
    ℕ → RingWorld α → Prop
  | create {r : RingArray α} (c : RingArray.Creation α) (allowed : c.Allowed)
      (run : c.run = some r) : Step P w w.objects (w.assign w.objects w.blocks r)
  | change {r : RingArray α} {i : ℕ} (inside : i < w.objects) (changes : Changes P (w.array i) r) :
      Step P w i (w.store i r)
  | copy {w' : RingWorld α} {i other : ℕ} (inside : i < w.objects) (inside' : other < w.objects)
      (run : w.copy i other = some w') : Step P w i w'

/-- The worlds that steps come to, each of which updates an array that `target` tells. -/
inductive Runs (P : RingArray α → RingArray.Command α → Prop) (target : ℕ → Prop)
    (w : RingWorld α) : RingWorld α → Prop
  | start : Runs P target w w
  | step {w' w'' : RingWorld α} {i : ℕ} (before : Runs P target w w') (aimed : target i)
      (step : Step P w' i w'') : Runs P target w w''

/-- `clear_count_and_capacity` finds the items at the start of the storage. -/
def ClearsAtStart (r : RingArray α) : RingArray.Command α → Prop
  | .clearCountAndCapacity => r.storageLower = 0
  | _ => True

/-! ## One array -/

section Arrays

open RingArray

variable {r r' : RingArray α}

omit [Inhabited α] in
theorem grounded_of_count (valid : Valid r) (nonempty : r.count ≠ 0) : Grounded r := by
  have nonneg := valid.count_nonneg
  have le := valid.count_le
  exact ⟨valid, fun zero => absurd zero (by omega)⟩

omit [Inhabited α] in
theorem capacity_removeHead (n : ℕ) : (r.removeHead n).capacity = r.capacity := by
  induction n generalizing r with
  | zero => rfl
  | succ n ih => exact ih

theorem grounded_execute (h : Grounded r) {command : Command α}
    (allowed : r.sequence.Allowed command) (condition : ClearsAtStart r command)
    (run : r.execute command = some r') : Grounded r' := by
  have inside : ClearsInside r command := by
    cases command with
    | clearCountAndCapacity =>
      change r.storageLower < 16
      rw [show r.storageLower = 0 from condition]
      decide
    | _ => trivial
  have represents := ((represents_sequence h.valid).execute allowed inside).unique run
  have length := length_sequence h.valid
  have count := represents.count_eq
  have le := h.valid.count_le
  -- the result has items, or the storage stays as it is
  have filled : ((r.sequence.execute command).items.length ≠ 0) → Grounded r' := fun items =>
    grounded_of_count represents.valid (by omega)
  have shrunk : r.sequence.items ≠ [] → r'.capacity = r.capacity → Grounded r' := by
    intro items same
    have positive := List.length_pos_iff.mpr items
    exact ⟨represents.valid, fun zero => absurd zero (by omega)⟩
  cases command with
  | addFirst element => exact filled (Nat.succ_ne_zero _)
  | addLast element => exact filled (by simp [Sequence.execute])
  | add element index =>
    refine filled (by
      unfold Sequence.execute Sequence.position
      dsimp only
      rw [List.length_insertIdx_of_le_length]
      · exact Nat.succ_ne_zero _
      · have high := allowed.2
        unfold Sequence.upper at high
        omega)
  | removeFirst =>
    cases run
    exact shrunk allowed rfl
  | removeLast =>
    cases run
    exact shrunk allowed rfl
  | remove index =>
    obtain ⟨low, high⟩ := allowed
    unfold Sequence.upper at high
    rcases Decidable.em (index = r.upper) with last | inner
    · have same : r.execute (.remove index) = some { r with upper := r.upper - 1 } :=
        if_neg (not_not_intro last)
      cases same.symm.trans run
      exact shrunk (List.length_pos_iff.mp (by omega)) rfl
    · refine filled ?_
      have upper := (represents_sequence h.valid).upper_eq
      unfold Sequence.upper at upper
      unfold Sequence.execute Sequence.position
      dsimp only
      rw [List.length_eraseIdx_of_lt (by omega)]
      omega
  | removeHead n =>
    cases run
    exact shrunk (List.length_pos_iff.mp (by have := allowed.1; have := allowed.2; omega))
      (capacity_removeHead n)
  | removeTail n =>
    cases run
    exact shrunk (List.length_pos_iff.mp (by have := allowed.1; have := allowed.2; omega)) rfl
  | put element index =>
    obtain ⟨low, high⟩ := allowed
    unfold Sequence.upper at high
    refine filled ?_
    unfold Sequence.execute
    dsimp only
    rw [List.length_set]
    omega
  | clearCount =>
    cases run
    exact ⟨represents.valid, h.aligned⟩
  | clearCountAndCapacity =>
    cases run
    exact ⟨represents.valid, fun _ => condition⟩
  | reindex newLower =>
    cases run
    exact ⟨represents.valid, h.aligned⟩

theorem grounded_resize (h : Grounded r) {minIndex maxIndex : Int}
    (bounds : minIndex ≤ maxIndex + 1) (run : r.resize minIndex maxIndex = some r') :
    Grounded r' := by
  have valid := valid_resize h.valid bounds
    (fun zero positive => by rw [h.aligned zero]; omega) run
  rcases Int.lt_or_le maxIndex minIndex with empty | positive
  · have same : r.resize minIndex maxIndex =
        some { r with lower := minIndex, upper := maxIndex } := if_neg (by omega)
    cases same.symm.trans run
    exact ⟨valid, h.aligned⟩
  · refine grounded_of_count valid ?_
    rw [count_eq]
    rcases Decidable.em (r.capacity = 0) with none | room
    · obtain ⟨lower, upper, -⟩ := (returns_resize_blank h.valid none positive
        (by rw [h.aligned none]; omega)).unique run
      omega
    · obtain ⟨-, lower, upper, -⟩ := (returns_resize h.valid room bounds).unique run
      omega

theorem grounded_force (h : Grounded r) {element : α} {index : Int}
    (run : r.force element index = some r') : Grounded r' := by
  have count := h.valid.count_nonneg
  rw [count_eq] at count
  have fits : r.capacity = 0 → index < r.lower - 1 ∨ r.upper + 1 < index →
      r.storageLower ≤ max index r.upper - min index r.lower := by
    intro zero _
    rw [h.aligned zero]
    omega
  obtain ⟨s, run', lower, upper, -⟩ := (forcesTo_iff h.valid element index).mpr
    fun zero outside => Int.le_add_one (fits zero outside)
  cases run.symm.trans run'
  refine grounded_of_count (valid_force h.valid fits run) ?_
  rw [count_eq]
  omega

theorem Changes.grounded (h : Grounded r) (changes : Changes ClearsAtStart r r') :
    Grounded r' := by
  cases changes with
  | command command allowed condition run => exact grounded_execute h allowed condition run
  | resize minIndex maxIndex bounds run => exact grounded_resize h bounds run
  | force element index run => exact grounded_force h run
  | setAllWith v run =>
    have shape := ((returns_setAllWith h.valid v).unique run).1
    exact ⟨shape.valid, fun zero => by
      rw [shape.storageLower_eq]; exact h.aligned (shape.capacity_eq ▸ zero)⟩
  | replaceWhere same newValue run =>
    have shape := ((returns_replaceWhere h.valid same newValue).unique run).1
    exact ⟨shape.valid, fun zero => by
      rw [shape.storageLower_eq]; exact h.aligned (shape.capacity_eq ▸ zero)⟩

theorem grounded_creation {c : Creation α} (allowed : c.Allowed) (run : c.run = some r) :
    Grounded r := by
  have represents := (c.returns_run allowed).unique run
  have count := represents.count_eq
  cases c with
  | make minIndex maxIndex =>
    cases run
    refine ⟨represents.valid, fun _ => ?_⟩
    unfold make
    dsimp only
    split <;> rfl
  | withCapacity neededCapacity low =>
    cases run
    refine ⟨represents.valid, fun _ => ?_⟩
    unfold withCapacity
    split <;> rfl
  | fromCollection lower model =>
    cases model with
    | nil =>
      cases run
      exact ⟨represents.valid, fun _ => rfl⟩
    | cons x xs => exact grounded_of_count represents.valid (by rw [count]; exact nofun)
  | manifestCreation initialLower items =>
    cases items with
    | nil =>
      cases run
      refine ⟨represents.valid, fun _ => ?_⟩
      unfold make
      dsimp only
      split <;> rfl
    | cons x xs => exact grounded_of_count represents.valid (by rw [count]; exact nofun)

end Arrays

/-! ## The memory -/

/-- The arrays are in order and each has a storage of its own. -/
structure Sound (w : RingWorld α) : Prop where
  grounded : ∀ i < w.objects, (w.array i).Grounded
  apart : ∀ i < w.objects, ∀ j < w.objects, j ≠ i → (w.header i).storage ≠ (w.header j).storage
  allocated : ∀ i < w.objects, (w.header i).storage < w.blocks

/-- Of the arrays, only `i` is another one, and it has a storage of its own. -/
structure Alters (w : RingWorld α) (i : ℕ) (w' : RingWorld α) : Prop where
  objects_eq : w'.objects = max w.objects (i + 1)
  blocks_le : w.blocks ≤ w'.blocks
  storage_eq : ∀ j < w.objects, j ≠ i → (w'.header j).storage = (w.header j).storage
  array_eq : ∀ j < w.objects, j ≠ i → w'.array j = w.array j
  allocated : (w'.header i).storage < w'.blocks
  apart : ∀ j < w.objects, j ≠ i → (w'.header i).storage ≠ (w.header j).storage

section Memory

omit [Inhabited α]

open RingArray

variable {w w' : RingWorld α} {i : ℕ}

@[simp] theorem array_assign_self (w : RingWorld α) (i address : ℕ) (r : RingArray α) :
    (w.assign i address r).array i = r := by
  unfold array assign
  dsimp only
  rw [Function.update_self, Function.update_self]

theorem array_assign_of_ne {address j : ℕ} (r : RingArray α) (other : j ≠ i)
    (apart : address ≠ (w.header j).storage) : (w.assign i address r).array j = w.array j := by
  unfold array assign
  dsimp only
  rw [Function.update_of_ne other, Function.update_of_ne apart.symm]

theorem storage_assign_of_ne {address j : ℕ} (r : RingArray α) (other : j ≠ i) :
    ((w.assign i address r).header j).storage = (w.header j).storage := by
  unfold assign
  dsimp only
  rw [Function.update_of_ne other]

theorem storage_assign_self (address : ℕ) (r : RingArray α) :
    ((w.assign i address r).header i).storage = address := by
  unfold assign
  dsimp only
  rw [Function.update_self]

theorem Sound.alters (h : Sound w) (inside : i < w.objects) : Alters w i w :=
  ⟨by omega, Nat.le_refl _, fun _ _ _ => rfl, fun _ _ _ => rfl, h.allocated i inside,
    fun j there other => h.apart i inside j there other⟩

theorem Alters.assign (h : Alters w i w') {address : ℕ} (r : RingArray α)
    (apart : ∀ j < w.objects, j ≠ i → address ≠ (w.header j).storage) :
    Alters w i (w'.assign i address r) := by
  refine ⟨?_, Nat.le_trans h.blocks_le (Nat.le_max_left _ _), fun j inside other => ?_,
    fun j inside other => ?_, ?_, fun j inside other => ?_⟩
  · change max w'.objects (i + 1) = _
    have := h.objects_eq
    omega
  · rw [storage_assign_of_ne r other]
    exact h.storage_eq j inside other
  · rw [array_assign_of_ne r other (by rw [h.storage_eq j inside other]; exact apart j inside other)]
    exact h.array_eq j inside other
  · rw [storage_assign_self]
    exact Nat.lt_of_lt_of_le (Nat.lt_succ_self _) (Nat.le_max_right _ _)
  · rw [storage_assign_self]
    exact apart j inside other

theorem Alters.assignInPlace (h : Alters w i w') (r : RingArray α) :
    Alters w i (w'.assignInPlace i r) :=
  h.assign r h.apart

theorem Alters.assignFresh (h : Alters w i w') (sound : Sound w) (r : RingArray α) :
    Alters w i (w'.assign i w'.blocks r) :=
  h.assign r fun j inside _ => Nat.ne_of_gt
    (Nat.lt_of_lt_of_le (sound.allocated j inside) h.blocks_le)

theorem Sound.of_alters (h : Sound w) (alters : Alters w i w') (inside : i ≤ w.objects)
    (grounded : Grounded (w'.array i)) : Sound w' := by
  have known : ∀ j < w'.objects, j ≠ i → j < w.objects := by
    have := alters.objects_eq
    omega
  refine ⟨fun j there => ?_, fun j there k there' other => ?_, fun j there => ?_⟩
  · rcases Decidable.em (j = i) with rfl | other
    · exact grounded
    · rw [alters.array_eq j (known j there other) other]
      exact h.grounded j (known j there other)
  · rcases Decidable.em (j = i) with rfl | first
    · rw [alters.storage_eq k (known k there' other) other]
      exact alters.apart k (known k there' other) other
    · have known' := known j there first
      rw [alters.storage_eq j known' first]
      rcases Decidable.em (k = i) with rfl | second
      · exact (alters.apart j known' first).symm
      · rw [alters.storage_eq k (known k there' second) second]
        exact h.apart j known' k (known k there' second) other
  · rcases Decidable.em (j = i) with rfl | other
    · exact alters.allocated
    · rw [alters.storage_eq j (known j there other) other]
      exact Nat.lt_of_lt_of_le (h.allocated j (known j there other)) alters.blocks_le

theorem alters_store (h : Sound w) (inside : i < w.objects) (r : RingArray α) :
    Alters w i (w.store i r) ∧ (w.store i r).array i = r := by
  unfold store
  split
  · exact ⟨(h.alters inside).assignInPlace r, array_assign_self _ _ _ _⟩
  · exact ⟨(h.alters inside).assignFresh h r, array_assign_self _ _ _ _⟩

theorem alters_create (h : Sound w) (r : RingArray α) :
    Alters w w.objects (w.assign w.objects w.blocks r) := by
  refine ⟨rfl, Nat.le_max_left _ _, fun j inside other => storage_assign_of_ne r other,
    fun j inside other => array_assign_of_ne r other (Nat.ne_of_gt (h.allocated j inside)), ?_,
    fun j inside other => ?_⟩
  · rw [storage_assign_self]
    exact Nat.lt_of_lt_of_le (Nat.lt_succ_self _) (Nat.le_max_right _ _)
  · rw [storage_assign_self]
    exact Nat.ne_of_gt (h.allocated j inside)

theorem returns_sliceCopy {w₁ : RingWorld α} (alters : Alters w i w₁) (other : ℕ)
    {at' lower upper : Int} (inside : lower ≤ upper → 0 ≤ at' ∧
      at' + upper - lower < (w₁.array i).storage.size ∧ 0 ≤ lower ∧
        upper < (w₁.array other).storage.size) :
    Returns (w₁.sliceCopy i at' other lower upper) fun w' => Alters w i w' ∧
      ∃ s, w'.array i = { w₁.array i with storage := s } ∧
        s.size = (w₁.array i).storage.size ∧
        (∀ k, at' ≤ k → k ≤ at' + upper - lower →
          s.cell k = (w₁.array other).storage.cell (lower + k - at')) ∧
        ∀ k, ¬(at' ≤ k ∧ k ≤ at' + upper - lower) → s.cell k = (w₁.array i).storage.cell k := by
  unfold sliceCopy
  dsimp only
  rw [Returns.bind_iff]
  exact NativeArray.returns_sliceCopy inside fun s size copied kept => Returns.pure_iff.mpr
    ⟨alters.assignInPlace _, s, array_assign_self _ _ _ _, size, copied, kept⟩

end Memory

/-! ## Copies -/

section Copies

open RingArray

variable {w w' : RingWorld α} {i other : ℕ}

/-- The end of `copy`, into a storage that has room. -/
theorem returns_copyItems {w₁ : RingWorld α} (alters : Alters w i w₁)
    (inside : other < w.objects) {o : RingArray α} (eq : w₁.array other = o) (valid : Valid o)
    (positive : 0 < o.count) (room : o.count ≤ (w₁.array i).storage.size)
    (aligned : other = i → o.storageLower = 0) :
    Returns (w₁.copyItems i other) fun w' => Alters w i w' ∧
      ∃ s, w'.array i = { w₁.array i with storage := s } ∧
        s.size = (w₁.array i).storage.size ∧ ∀ k, 0 ≤ k → k < o.count → s.cell k = o.view k := by
  have le := valid.count_le
  have size := valid.size_eq
  have low := valid.storageLower_nonneg
  have less := valid.storageLower_lt (by omega)
  have bounds := slot_inside valid (k := o.count - 1) (by omega) (by omega)
  unfold copyItems
  dsimp only
  rw [eq, storageUpper_eq]
  split
  · rename_i row
    have places := @slot_eq_of_not_wrapped α _ o valid row
    have last := places (k := o.count - 1) (by omega) (by omega)
    rw [last]
    refine (returns_sliceCopy alters _ fun _ => ⟨Int.le_refl 0, by omega, low, by rw [eq]; omega⟩).mono
      fun w' copied => ?_
    obtain ⟨alters', s, array, size', copied, -⟩ := copied
    refine ⟨alters', s, array, size', fun k nonneg high => ?_⟩
    rw [copied k nonneg (by omega), eq]
    unfold view
    rw [places nonneg high]
    congr 1
    omega
  · rename_i wrapped
    have last : o.slot (o.count - 1) = o.count - 1 + o.storageLower - o.capacity := by
      unfold slot at wrapped ⊢
      split at wrapped <;> split <;> omega
    have different : other ≠ i := by
      intro same
      have start := aligned same
      omega
    rw [last]
    refine (returns_sliceCopy alters other fun _ => ⟨Int.le_refl 0, ?_, low, ?_⟩).bind
      fun w₂ copied => ?_
    · omega
    · rw [eq]
      omega
    obtain ⟨alters₂, s₂, array₂, size₂, copied₂, -⟩ := copied
    have eq₂ : w₂.array other = o := by
      rw [alters₂.array_eq other inside different, ← alters.array_eq other inside different, eq]
    refine (returns_sliceCopy alters₂ other fun _ => ⟨?_, ?_, Int.le_refl 0, ?_⟩).mono
      fun w' copied => ?_
    · omega
    · rw [array₂]
      change _ < s₂.size
      omega
    · rw [eq₂]
      omega
    obtain ⟨alters', s, array, size', copied', kept⟩ := copied
    rw [array₂] at array size' kept
    refine ⟨alters', s, array, size'.trans size₂, fun k nonneg high => ?_⟩
    unfold view slot
    rcases Int.lt_or_le k (o.capacity - o.storageLower) with before | behind
    · rw [if_neg (by omega), kept k (by omega)]
      change s₂.cell k = _
      rw [copied₂ k nonneg (by omega), eq]
      congr 1
      omega
    · rw [if_pos (by omega), copied' k behind (by omega), eq₂]
      congr 1
      omega

/-- What `copy` does before it copies the items: the array `i` has the bounds of the other one and
a storage with room for its items, and the other one, if it is `i`, is left aligned. -/
theorem copy_eq (h : Sound w) (inside : i < w.objects) (inside' : other < w.objects) :
    ∃ (w₁ : RingWorld α) (o : RingArray α),
      w.copy i other = (if o.count > 0 then w₁.copyItems i other else some w₁) ∧
      Alters w i w₁ ∧ w₁.array other = o ∧ Valid o ∧ (other = i → o.storageLower = 0) ∧
      (other ≠ i → o = w.array other) ∧ (w₁.array i).storageLower = 0 ∧
      (w₁.array i).lower = o.lower ∧ (w₁.array i).upper = o.upper ∧
      (w₁.array i).storage.size = (w₁.array i).capacity ∧ o.count ≤ (w₁.array i).capacity := by
  have valid := (h.grounded i inside).valid
  let a : RingArray α := { w.array i with storageLower := 0 }
  have alters := (h.alters inside).assignInPlace a
  have self : (w.assignInPlace i a).array i = a := array_assign_self _ _ _ _
  have validA : Valid a := by
    have nonneg := valid.count_nonneg
    have le := valid.count_le
    refine ⟨valid.size_eq, nonneg, le, Int.le_refl 0, fun some => ?_,
      fun _ => (by decide : (0 : Int) < 16)⟩
    change 0 < (w.array i).capacity
    change (w.array i).capacity ≠ 0 at some
    omega
  obtain ⟨o, eq⟩ : ∃ o, (w.assignInPlace i a).array other = o := ⟨_, rfl⟩
  have origin : (other = i → o = a) ∧ (other ≠ i → o = w.array other) := by
    constructor
    · rintro rfl
      rw [← eq, self]
    · intro different
      rw [← eq, alters.array_eq other inside' different]
  let b : RingArray α := { a with lower := o.lower, upper := o.upper }
  have alters₂ := alters.assignInPlace b
  have self₂ : ((w.assignInPlace i a).assignInPlace i b).array i = b := array_assign_self _ _ _ _
  have validO : Valid o := by
    rcases Decidable.em (other = i) with same | different
    · rw [origin.1 same]
      exact validA
    · rw [origin.2 different]
      exact (h.grounded other inside').valid
  have aligned : other = i → o.storageLower = 0 := fun same => by rw [origin.1 same]
  have start : w.copy i other = (let w₂ := (w.assignInPlace i a).assignInPlace i b
      let w₁ := if b.capacity < o.count then
          w₂.assign i w₂.blocks { b with storage := .calloc o.count, capacity := o.count }
        else w₂
      if o.count > 0 then w₁.copyItems i other else some w₁) := by
    unfold copy
    dsimp only
    rw [show { w.array i with storageLower := 0 } = a from rfl, self, eq,
      show { a with lower := o.lower, upper := o.upper } = b from rfl, self₂]
    rfl
  rw [start]
  rcases Decidable.em (b.capacity < o.count) with short | room
  · have different : other ≠ i := by
      intro same
      have le := validA.count_le
      rw [origin.1 same] at short
      exact absurd le (Int.not_le.mpr short)
    dsimp only
    rw [if_pos short]
    refine ⟨_, o, rfl, alters₂.assignFresh h _, ?_, validO, aligned, origin.2, ?_⟩
    · rw [(alters₂.assignFresh h _).array_eq other inside' different, origin.2 different]
    · rw [array_assign_self]
      exact ⟨rfl, rfl, rfl, rfl, Int.le_refl _⟩
  · dsimp only
    rw [if_neg room]
    refine ⟨_, o, rfl, alters₂, ?_, validO, aligned, origin.2, ?_⟩
    · rcases Decidable.em (other = i) with rfl | different
      · rw [self₂]
        change ({ a with lower := o.lower, upper := o.upper } : RingArray α) = o
        rw [origin.1 rfl]
      · rw [alters₂.array_eq other inside' different, origin.2 different]
    · rw [self₂]
      exact ⟨rfl, rfl, rfl, valid.size_eq, Int.not_lt.mp room⟩

/-- `copy` alters one array only, which gets the bounds and the items of the other one. -/
theorem returns_copy (h : Sound w) (inside : i < w.objects) (inside' : other < w.objects) :
    Returns (w.copy i other) fun w' => Alters w i w' ∧ Grounded (w'.array i) ∧
      (other ≠ i → (w'.array i).lower = (w.array other).lower ∧
        (w'.array i).upper = (w.array other).upper ∧ ∀ k, 0 ≤ k → k < (w.array other).count →
          (w'.array i).view k = (w.array other).view k) := by
  obtain ⟨w₁, o, copy, alters, eq, valid, aligned, origin, start, lower, upper, size, room⟩ :=
    copy_eq h inside inside'
  have nonneg := valid.count_nonneg
  have counts : (w₁.array i).count = o.count := by
    rw [count_eq, count_eq, lower, upper]
  rw [copy]
  split
  · rename_i positive
    refine (returns_copyItems alters inside' eq valid positive (size.symm ▸ room) aligned).mono
      fun w' copied => ?_
    obtain ⟨alters', s, array, size', cells⟩ := copied
    rw [array]
    refine ⟨alters', ⟨⟨size'.trans size, ?_, ?_, Int.le_of_eq start.symm, fun some => ?_,
      fun _ => ?_⟩, fun _ => start⟩, fun different => ?_⟩
    · change 0 ≤ (w₁.array i).count
      omega
    · change (w₁.array i).count ≤ (w₁.array i).capacity
      omega
    · change (w₁.array i).storageLower < (w₁.array i).capacity
      omega
    · change (w₁.array i).storageLower < 16
      omega
    · rw [← origin different]
      refine ⟨lower, upper, fun k low high => ?_⟩
      have place : (w₁.array i).slot k = k := by
        rw [slot_row (by omega)]
        omega
      change s.cell ((w₁.array i).slot k) = _
      rw [place]
      exact cells k low high
  · rename_i empty
    rw [Returns.some_iff]
    refine ⟨alters, ⟨⟨size, by omega, by omega, Int.le_of_eq start.symm, fun some => by omega,
      fun _ => by omega⟩, fun _ => start⟩, fun different => ?_⟩
    rw [← origin different]
    exact ⟨lower, upper, fun k low high => by omega⟩

end Copies

/-! ## Results -/

section Results

open RingArray

variable {w w' : RingWorld α} {E : SafeEqual α} {i other : ℕ}

theorem Step.alters (h : Sound w) (step : Step ClearsAtStart w i w') :
    Alters w i w' ∧ Sound w' := by
  cases step with
  | create c allowed run =>
    have alters := alters_create h (w.array w.objects)
    refine ⟨alters_create h _, h.of_alters (alters_create h _) (Nat.le_refl _) ?_⟩
    rw [array_assign_self]
    exact grounded_creation allowed run
  | @change r _ inside changes =>
    obtain ⟨alters, array⟩ := alters_store h inside r
    refine ⟨alters, h.of_alters alters (Nat.le_of_lt inside) ?_⟩
    rw [array]
    exact changes.grounded (h.grounded i inside)
  | copy inside inside' run =>
    obtain ⟨alters, grounded, -⟩ := (returns_copy h inside inside').unique run
    exact ⟨alters, h.of_alters alters (Nat.le_of_lt inside) grounded⟩

theorem Runs.sound {target : ℕ → Prop} (h : Sound w) (runs : Runs ClearsAtStart target w w') :
    Sound w' ∧ w.objects ≤ w'.objects := by
  induction runs with
  | start => exact ⟨h, Nat.le_refl _⟩
  | step _ _ step ih =>
    obtain ⟨alters, sound⟩ := step.alters ih.1
    refine ⟨sound, Nat.le_trans ih.2 ?_⟩
    rw [alters.objects_eq]
    exact Nat.le_max_left _ _

/-- Updates of other arrays leave an array as it is. -/
theorem Runs.array_eq (h : Sound w) (inside : i < w.objects)
    (runs : Runs ClearsAtStart (· ≠ i) w w') : w'.array i = w.array i := by
  induction runs with
  | start => rfl
  | step before aimed step ih =>
    obtain ⟨sound, le⟩ := before.sound h
    exact ((step.alters sound).1.array_eq i (Nat.lt_of_lt_of_le inside le) aimed.symm).trans ih

theorem agrees_refl {r : RingArray α} {same : α → α → Bool} (valid : Valid r)
    (refl : ∀ x, same x x = true) : Agrees same r r :=
  (agrees_iff valid valid rfl rfl).mpr fun _ _ _ => refl _

theorem returns_isEqual (h : Sound w) (lawful : E.Lawful) (inside : i < w.objects)
    (inside' : other < w.objects) : Returns (w.isEqual E i other) fun b =>
      b = true ↔ Agrees E.test (w.array i) (w.array other) := by
  unfold isEqual
  split
  · rename_i same
    subst same
    exact Returns.some_iff.mpr
      ⟨fun _ => agrees_refl (h.grounded i inside).valid lawful.test_refl, fun _ => rfl⟩
  · exact returns_isEqualWhere (h.grounded i inside) (h.grounded other inside') lawful.test_comm

end Results

end RingWorld

end Liberty
