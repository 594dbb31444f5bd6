import Liberty.Text.NativelyStoredString

/-!
# Commands of STRING

The commands shift, fill and copy cells of the storage, the first used cell of which is at
`storageLower`.  An argument that is the string itself is `none`.
-/

namespace Liberty

namespace NativelyStoredString

/-! ## The source -/

/-- `storage.move` -/
def moveStorage (d : NativelyStoredString) (lower upper offset : Int) :
    Option NativelyStoredString :=
  if offset = 0 then some d
  else do return { d with storage := ← d.storage.move lower upper offset }

def setSliceWith (d : NativelyStoredString) (c : Character) (lower upper : Int) :
    Option NativelyStoredString := do
  return { d with storage := ← d.storage.setSliceWith c lower upper }

/-- `slice_copy`, with `copy_slice_to_native` of the source. -/
def sliceCopy (d : NativelyStoredString) (at' : Int) (source : NativelyStoredString)
    (startIndex endIndex : Int) : Option NativelyStoredString :=
  if endIndex ≥ startIndex then do
    return { d with
      storage := ← d.storage.sliceCopy (at' + d.storageLower) source.storage
        (source.storageLower + startIndex - 1) (source.storageLower + endIndex - 1) }
  else some d

def make (d : NativelyStoredString) (neededCapacity : Int) : NativelyStoredString :=
  let d := { d with storageLower := 0 }
  let d := if neededCapacity > 0 then d.ensureCapacity neededCapacity else d
  { d with count := 0 }

/-- `fill_with` -/
def fillWith (d : NativelyStoredString) (c : Character) : Option NativelyStoredString := do
  return { d with storageLower := 0, storage := ← d.storage.setAllWith c (d.count - 1) }

def makeFilled (d : NativelyStoredString) (c : Character) (n : Int) : Option NativelyStoredString :=
  fillWith { d.make n with count := n } c

def makeFromString (d model : NativelyStoredString) : Option NativelyStoredString :=
  let c := model.count
  let d := { d with storageLower := 0, count := c }
  if c > 0 then (d.ensureCapacity c).sliceCopy 0 model 1 model.count else some d

def copy (d : NativelyStoredString) (other : Option NativelyStoredString) :
    Option NativelyStoredString :=
  match other with
  | none => some d
  | some other => do
    let d := { d with storageLower := 0 }
    let c := other.count
    let d ←
      (if c > 0 then do
        let d := d.ensureCapacity c
        return { d with
          storage := ← d.storage.sliceCopy 0 other.storage other.storageLower
            (other.storageLower + c - 1) }
      else some d)
    return { d with count := c }

def resize (d : NativelyStoredString) (newCount : Int) : Option NativelyStoredString := do
  let d ←
    (if newCount ≤ d.count then some d
    else if d.capacity < newCount + d.storageLower then
      some (d.ensureCapacity (newCount + d.storageLower))
    else do
      return { d with
        storage := ← d.storage.clear (d.count + d.storageLower) (newCount + d.storageLower - 1) })
  return { d with count := newCount }

def clearCount (d : NativelyStoredString) : NativelyStoredString :=
  { d with storageLower := 0, count := 0 }

def append (d : NativelyStoredString) (s : Option NativelyStoredString) :
    Option NativelyStoredString := do
  let neededCapacity := d.count + (s.getD d).count + d.storageLower
  let d := d.ensureCapacity neededCapacity
  let d ← d.sliceCopy d.count (s.getD d) 1 (s.getD d).count
  return { d with count := neededCapacity - d.storageLower }

def appendSubstring (d : NativelyStoredString) (s : Option NativelyStoredString)
    (startIndex endIndex : Int) : Option NativelyStoredString := do
  let neededCapacity := d.count + d.storageLower + endIndex - startIndex + 1
  let d := d.ensureCapacity neededCapacity
  let d ← d.sliceCopy d.count (s.getD d) startIndex endIndex
  return { d with count := neededCapacity }

def prepend (d : NativelyStoredString) (other : Option NativelyStoredString) :
    Option NativelyStoredString :=
  match other with
  | none => do
    let d := d.ensureCapacity (d.count * 2 + d.storageLower)
    let d ← d.sliceCopy d.count d 1 d.count
    return { d with count := d.count * 2 }
  | some other => do
    let i := d.count
    let j := other.count
    let gap := d.storageLower - j
    let d := if gap < 0 then d.ensureCapacity (i + j) else d
    let d ←
      (if i = 0 ∨ gap = 0 then some { d with storageLower := 0 }
      else if gap > 0 then some { d with storageLower := gap }
      else do
        let d ← d.moveStorage d.storageLower (d.storageLower + i - 1) (-gap)
        return { d with storageLower := 0 })
    let d ← d.sliceCopy 0 other 1 other.count
    return { d with count := i + j }

def insertString (d : NativelyStoredString) (s : Option NativelyStoredString) (i : Int) :
    Option NativelyStoredString :=
  let j := d.count
  let k := (s.getD d).count
  let d := { d with count := j + k }
  let dk := k - d.storageLower
  if dk ≤ 0 then do
    let d ← d.moveStorage d.storageLower (i - 1 + d.storageLower) (-k)
    let d := { d with storageLower := -dk }
    d.sliceCopy (i - 1) (s.getD d) 1 (s.getD d).count
  else do
    let d := d.ensureCapacity d.count
    let d ←
      (if d.storageLower > 0 then
        d.moveStorage d.storageLower (i + d.storageLower - 1) (-d.storageLower)
      else some d)
    let d ←
      (if i ≤ j then d.moveStorage (i + d.storageLower - 1) (j + d.storageLower - 1) dk else some d)
    let d := { d with storageLower := 0 }
    d.sliceCopy (i - 1) (s.getD d) 1 (s.getD d).count

def replaceSubstring (d : NativelyStoredString) (s : Option NativelyStoredString)
    (startIndex endIndex : Int) : Option NativelyStoredString := do
  let removeLen := endIndex - startIndex + 1
  let insertLen := (s.getD d).count
  let difference := insertLen - removeLen
  let d ←
    (if difference > 0 then
      if d.storageLower ≥ difference then do
        -- the upper bound is an index of the string and not of the storage
        let d ← d.moveStorage d.storageLower startIndex (-difference)
        return { d with storageLower := d.storageLower - difference }
      else
        let oldUpper := d.count
        let d := d.ensureCapacity (d.count + difference)
        if endIndex < oldUpper then
          d.moveStorage (d.storageLower + endIndex) (d.storageLower + oldUpper - 1) difference
        else some d
    else if difference < 0 then
      if endIndex < d.count then
        d.moveStorage (d.storageLower + endIndex) (d.storageLower + d.count - 1) difference
      else some d
    else some d)
  let d := { d with count := d.count + difference }
  d.sliceCopy (startIndex - 1) (s.getD d) 1 (s.getD d).count

def put (d : NativelyStoredString) (c : Character) (i : Int) : Option NativelyStoredString := do
  return { d with storage := ← d.storage.put c (d.storageLower + i - 1) }

def insertCharacter (d : NativelyStoredString) (c : Character) (i : Int) :
    Option NativelyStoredString := do
  let d ←
    (if d.storageLower > 0 ∧ i ≤ d.count then do
      let d ←
        (if i > 1 then d.moveStorage d.storageLower (d.storageLower + i - 1) (-1) else some d)
      return { d with storageLower := d.storageLower - 1 }
    else
      let d := d.ensureCapacity (d.count + d.storageLower + 1)
      if i ≤ d.count then
        d.moveStorage (d.storageLower - 1 + i) (d.storageLower - 1 + d.count) 1
      else some d)
  let storage ← d.storage.put c (d.storageLower + i - 1)
  return { d with storage := storage, count := d.count + 1 }

def shrink (d : NativelyStoredString) (minIndex maxIndex : Int) : NativelyStoredString :=
  if maxIndex < minIndex then { d with count := 0 }
  else if minIndex = 1 then { d with count := maxIndex }
  else { d with storageLower := d.storageLower + minIndex - 1, count := maxIndex - minIndex + 1 }

def addFirst (d : NativelyStoredString) (c : Character) : Option NativelyStoredString :=
  d.insertCharacter c 1

def addLast (d : NativelyStoredString) (c : Character) : Option NativelyStoredString :=
  d.insertCharacter c (d.count + 1)

def removeFirst (d : NativelyStoredString) : NativelyStoredString :=
  { d with storageLower := d.storageLower + 1, count := d.count - 1 }

def removeHead (d : NativelyStoredString) (n : Int) : NativelyStoredString :=
  if n ≥ d.count then { d with storageLower := 0, count := 0 }
  else { d with storageLower := d.storageLower + n, count := d.count - n }

def removeLast (d : NativelyStoredString) : NativelyStoredString :=
  { d with count := d.count - 1 }

def removeTail (d : NativelyStoredString) (n : Int) : NativelyStoredString :=
  if n ≥ d.count then { d with storageLower := 0, count := 0 }
  else { d with count := d.count - n }

def removeBetween (d : NativelyStoredString) (startIndex endIndex : Int) :
    Option NativelyStoredString :=
  let len := endIndex - startIndex + 1
  if len > 0 then do
    let (d, _) ← untilLoop (fun (d, i) => some (decide (i > d.count)))
      (fun (d, i) => do return (← d.put (← d.item i) (i - len), i + 1))
      (d.count - endIndex).toNat (d, endIndex + 1)
    return { d with count := d.count - len }
  else some d

def extendMultiple (d : NativelyStoredString) (c : Character) (n : Int) :
    Option NativelyStoredString := do
  let (d, _) ← untilLoop (fun (_, i) => some (decide (i = 0)))
    (fun (d, i) => do return (← d.addLast c, i - 1)) n.toNat (d, n)
  return d

def precedeMultiple (d : NativelyStoredString) (c : Character) (n : Int) :
    Option NativelyStoredString :=
  if n > 0 then
    let oldUpper := d.count
    if oldUpper < 1 then extendMultiple { d with storageLower := 0 } c n
    else do
      let (d, newStorageLower) ←
        (if n > d.storageLower then do
          let d' ← extendMultiple { d with count := d.count + d.storageLower } default
            (n - d.storageLower)
          return (d', 0)
        else some ({ d with count := d.count + n }, d.storageLower - n))
      let d ← d.moveStorage d.storageLower (d.storageLower + oldUpper - 1) n
      let d ← d.setSliceWith c newStorageLower (newStorageLower + n - 1)
      return { d with storageLower := newStorageLower }
  else some d

/-- `from_external`: `p` is the block of a string that ends with a null character. -/
def fromExternal (d : NativelyStoredString) (p : NativeArray Character) :
    Option NativelyStoredString := do
  let count ← untilLoop (fun count => do return decide ((← p.item count) = 0))
    (fun count => some (count + 1)) p.size.toNat 0
  return { d with
    storageLower := 0, storage := p, isNull := false, count := count, capacity := count + 1 }

def fromExternalCopy (d : NativelyStoredString) (p : NativeArray Character) :
    Option NativelyStoredString := do
  let (d, _) ← untilLoop (fun (_, i) => do return decide ((← p.item i) = 0))
    (fun (d, i) => do return (← d.addLast (← p.item i), i + 1)) p.size.toNat
    ({ d with storageLower := 0, count := 0 }, (0 : Int))
  return d

def fromExternalSized (d : NativelyStoredString) (p : NativeArray Character) (size : Int) :
    NativelyStoredString :=
  { d with storageLower := 0, storage := p, isNull := false, count := size, capacity := size }

def fromExternalSizedCopy (d : NativelyStoredString) (p : NativeArray Character) (size : Int) :
    Option NativelyStoredString :=
  let d := { d with storageLower := 0 }
  let d := d.ensureCapacity size
  untilLoop (fun d => some (decide (d.count = size)))
    (fun d => do
      let storage ← d.storage.put (← p.item d.count) d.count
      return { d with storage := storage, count := d.count + 1 })
    size.toNat { d with count := 0 }

/-! ## Moves and copies of cells -/

section Cells

variable {d source : NativelyStoredString} {xs ys : List Character} {lower upper offset at' : Int}
  {Q : NativelyStoredString → Prop}

theorem returns_moveStorage
    (inside : offset ≠ 0 → lower ≤ upper → 0 ≤ lower ∧ 0 ≤ lower + offset ∧ upper < d.storage.size ∧
      upper + offset < d.storage.size)
    (next : ∀ storage : NativeArray Character, storage.size = d.storage.size →
      (∀ i, lower ≤ i → i ≤ upper → storage.cell (i + offset) = d.storage.cell i) →
      (∀ i, ¬(lower + offset ≤ i ∧ i ≤ upper + offset) → storage.cell i = d.storage.cell i) →
      Q { d with storage := storage }) :
    Returns (d.moveStorage lower upper offset) Q := by
  unfold moveStorage
  split
  · rename_i zero
    subst zero
    rw [Returns.some_iff]
    exact next d.storage rfl (fun i _ _ => by rw [Int.add_zero]) fun _ _ => rfl
  · rename_i shifted
    rw [Returns.bind_iff]
    refine NativeArray.returns_sliceCopy (fun nonempty => ?_) fun storage size moved kept => ?_
    · have := inside shifted nonempty
      omega
    · rw [Returns.pure_iff]
      refine next storage size (fun i low high => ?_) fun i outside => kept i (by omega)
      rw [moved _ (by omega) (by omega)]
      congr 1
      omega

theorem returns_sliceCopy (h : Represents source ys) {startIndex endIndex : Int}
    (start : 1 ≤ startIndex) (stop : endIndex ≤ ys.length) (interval : startIndex ≤ endIndex + 1)
    (low : 0 ≤ at' + d.storageLower)
    (high : at' + d.storageLower + (endIndex - startIndex + 1) ≤ d.storage.size)
    (next : ∀ storage : NativeArray Character, storage.size = d.storage.size →
      Segment storage.cell (at' + d.storageLower)
        ((ys.drop (startIndex - 1).toNat).take (endIndex - startIndex + 1).toNat) →
      (∀ i, ¬(at' + d.storageLower ≤ i ∧ i ≤ at' + d.storageLower + (endIndex - startIndex)) →
        storage.cell i = d.storage.cell i) → Q { d with storage := storage }) :
    Returns (d.sliceCopy at' source startIndex endIndex) Q := by
  have size := h.valid.size_eq
  have lowest := h.valid.lower_nonneg
  have count := h.count_eq
  have fits := h.valid.fits
  unfold sliceCopy
  split
  · rename_i nonempty
    rw [Returns.bind_iff]
    refine NativeArray.returns_sliceCopy (fun _ => by omega) fun storage size copied kept => ?_
    rw [Returns.pure_iff]
    refine next storage size ?_ fun i outside => kept i (by omega)
    have part := (h.segment.drop (n := (startIndex - 1).toNat) (by omega)).take
      (endIndex - startIndex + 1).toNat
    have length : ((ys.drop (startIndex - 1).toNat).take (endIndex - startIndex + 1).toNat).length =
        (endIndex - startIndex + 1).toNat := by
      rw [List.length_take, List.length_drop]
      omega
    refine part.copied fun i from_zero less => ?_
    rw [copied _ (by omega) (by omega)]
    congr 1
    omega
  · rename_i empty
    rw [Returns.some_iff]
    refine next d.storage rfl ?_ fun _ _ => rfl
    rw [show (endIndex - startIndex + 1).toNat = 0 by omega, List.take_zero]
    exact segment_nil

theorem returns_sliceCopy_all (h : Represents source ys) (low : 0 ≤ at' + d.storageLower)
    (high : at' + d.storageLower + ys.length ≤ d.storage.size)
    (next : ∀ storage : NativeArray Character, storage.size = d.storage.size →
      Segment storage.cell (at' + d.storageLower) ys →
      (∀ i, ¬(at' + d.storageLower ≤ i ∧ i < at' + d.storageLower + ys.length) →
        storage.cell i = d.storage.cell i) → Q { d with storage := storage }) :
    Returns (d.sliceCopy at' source 1 source.count) Q := by
  have count := h.count_eq
  refine returns_sliceCopy h (Int.le_refl _) (by omega) (by omega) low (by omega)
    fun storage size copied kept => next storage size ?_ fun i outside => kept i (by omega)
  rw [show (source.count - 1 + 1).toNat = ys.length by omega, Int.sub_self, Int.toNat_zero,
    List.drop_zero, List.take_length] at copied
  exact copied

end Cells

/-! ## What the commands do -/

/-- The argument `s` of a command on a string of characters `xs` has the characters `ys`. -/
def Argument (s : Option NativelyStoredString) (xs ys : List Character) : Prop :=
  match s with
  | none => ys = xs
  | some source => Represents source ys

theorem Argument.represents {s : Option NativelyStoredString} {d : NativelyStoredString}
    {xs ys : List Character} (argument : Argument s xs ys) (h : Represents d xs) :
    Represents (s.getD d) ys := by
  cases s with
  | none =>
    cases argument
    exact h
  | some source => exact argument

section Edits

variable {d : NativelyStoredString} {s : Option NativelyStoredString} {xs ys : List Character}
  {c : Character} {i n startIndex endIndex : Int}

theorem Represents.returns_append (h : Represents d xs) (argument : Argument s xs ys) :
    Returns (d.append s) fun d' => Represents d' (xs ++ ys) := by
  have count := h.count_eq
  have low := h.valid.lower_nonneg
  have countS := (argument.represents h).count_eq
  unfold append
  dsimp only
  have grown := h.grown (d.count + (s.getD d).count + d.storageLower) (by omega)
  revert grown
  generalize d.ensureCapacity _ = e
  intro grown
  have h' := h.of_grown grown
  have countE := h'.count_eq
  have lowE := h'.valid.lower_nonneg
  have size := grown.size_eq
  have needed := grown.needed_le
  have lower := grown.lower_eq
  rw [Returns.bind_iff]
  refine returns_sliceCopy_all (argument.represents h') (by omega) (by omega)
    fun storage size' copied kept => ?_
  rw [Returns.pure_iff]
  refine ⟨⟨?_, grown.null, lowE, ?_, ?_⟩, ?_, segment_append.mpr
    ⟨h'.segment.congr fun i _ _ => kept i (by omega), ?_⟩⟩
  · exact size'.trans size
  · dsimp only
    omega
  · dsimp only
    omega
  · dsimp only
    rw [List.length_append]
    omega
  · dsimp only
    rwa [countE, Int.add_comm] at copied

/-- `append_substring`, where nothing was removed from the beginning of the string. -/
theorem Represents.returns_appendSubstring (h : Represents d xs) (argument : Argument s xs ys)
    (start : 1 ≤ startIndex) (stop : endIndex ≤ ys.length) (interval : startIndex ≤ endIndex + 1)
    (zero : d.storageLower = 0) :
    Returns (d.appendSubstring s startIndex endIndex) fun d' => Represents d'
      (xs ++ (ys.drop (startIndex - 1).toNat).take (endIndex - startIndex + 1).toNat) := by
  have count := h.count_eq
  unfold appendSubstring
  dsimp only
  have grown := h.grown
    (d.count + d.storageLower + endIndex - startIndex + 1) (by omega)
  revert grown
  generalize d.ensureCapacity _ = e
  intro grown
  have h' := h.of_grown grown
  have countE := h'.count_eq
  have lowE := h'.valid.lower_nonneg
  have size := grown.size_eq
  have needed := grown.needed_le
  have lower := grown.lower_eq
  have length : ((ys.drop (startIndex - 1).toNat).take (endIndex - startIndex + 1).toNat).length =
      (endIndex - startIndex + 1).toNat := by
    rw [List.length_take, List.length_drop]
    omega
  rw [Returns.bind_iff]
  refine returns_sliceCopy (argument.represents h') start stop interval (by omega) (by omega)
    fun storage size' copied kept => ?_
  rw [Returns.pure_iff]
  refine ⟨⟨?_, grown.null, lowE, ?_, ?_⟩, ?_, segment_append.mpr
    ⟨h'.segment.congr fun i _ _ => kept i (by omega), ?_⟩⟩
  · exact size'.trans size
  · dsimp only
    omega
  · dsimp only
    omega
  · dsimp only
    rw [List.length_append, length]
    omega
  · dsimp only
    rwa [countE, Int.add_comm] at copied

theorem Represents.returns_put (h : Represents d xs) (low : 1 ≤ i) (high : i ≤ xs.length) :
    Returns (d.put c i) fun d' => Represents d' (xs.set (i - 1).toNat c) := by
  have count := h.count_eq
  have size := h.valid.size_eq
  have lower := h.valid.lower_nonneg
  have fits := h.valid.fits
  unfold put
  rw [Returns.bind_iff, NativeArray.returns_put]
  refine ⟨by omega, ?_⟩
  rw [Returns.pure_iff]
  refine ⟨⟨size, h.valid.null, lower, h.valid.count_nonneg, fits⟩, ?_, fun k x found => ?_⟩
  · rw [List.length_set]
    exact count
  · dsimp only
    by_cases here : k = (i - 1).toNat
    · rw [here, List.getElem?_set_self (by omega)] at found
      rw [show d.storageLower + (k : Int) = d.storageLower + i - 1 by omega, NativeArray.cell_set_self]
      exact Option.some.inj found
    · rw [List.getElem?_set_ne (fun same => here same.symm)] at found
      rw [NativeArray.cell_set_of_ne _ _ (by omega)]
      exact h.segment k x found

theorem Represents.removeHead (h : Represents d xs) (nonneg : 0 ≤ n) :
    Represents (d.removeHead n) (xs.drop n.toNat) := by
  have count := h.count_eq
  have size := h.valid.size_eq
  have lower := h.valid.lower_nonneg
  have fits := h.valid.fits
  unfold NativelyStoredString.removeHead
  split
  · rw [List.drop_eq_nil_of_le (by omega)]
    exact ⟨⟨size, h.valid.null, Int.le_refl _, Int.le_refl _, by dsimp only; omega⟩, rfl, segment_nil⟩
  · refine ⟨⟨size, h.valid.null, ?_, ?_, ?_⟩, ?_, ?_⟩
    · dsimp only
      omega
    · dsimp only
      omega
    · dsimp only
      omega
    · rw [List.length_drop]
      dsimp only
      omega
    · have tail := h.segment.drop (n := n.toNat) (by omega)
      rwa [show ((n.toNat : ℕ) : Int) = n by omega] at tail

theorem Represents.removeTail (h : Represents d xs) (nonneg : 0 ≤ n) :
    Represents (d.removeTail n) (xs.take (xs.length - n.toNat)) := by
  have count := h.count_eq
  have size := h.valid.size_eq
  have lower := h.valid.lower_nonneg
  have fits := h.valid.fits
  unfold NativelyStoredString.removeTail
  split
  · rw [show xs.length - n.toNat = 0 by omega, List.take_zero]
    exact ⟨⟨size, h.valid.null, Int.le_refl _, Int.le_refl _, by dsimp only; omega⟩, rfl, segment_nil⟩
  · refine ⟨⟨size, h.valid.null, lower, ?_, ?_⟩, ?_, h.segment.take _⟩
    · dsimp only
      omega
    · dsimp only
      omega
    · rw [List.length_take]
      dsimp only
      omega

theorem Represents.removeFirst (h : Represents d xs) (nonempty : xs ≠ []) :
    Represents d.removeFirst xs.tail := by
  have count := h.count_eq
  have lower := h.valid.lower_nonneg
  have fits := h.valid.fits
  have positive := List.length_pos_iff.mpr nonempty
  refine ⟨⟨h.valid.size_eq, h.valid.null, ?_, ?_, ?_⟩, ?_, ?_⟩
  · unfold NativelyStoredString.removeFirst
    dsimp only
    omega
  · unfold NativelyStoredString.removeFirst
    dsimp only
    omega
  · unfold NativelyStoredString.removeFirst
    dsimp only
    omega
  · unfold NativelyStoredString.removeFirst
    rw [List.length_tail]
    dsimp only
    omega
  · rw [← List.drop_one]
    exact h.segment.drop positive

theorem Represents.removeLast (h : Represents d xs) (nonempty : xs ≠ []) :
    Represents d.removeLast xs.dropLast := by
  have count := h.count_eq
  have lower := h.valid.lower_nonneg
  have fits := h.valid.fits
  have positive := List.length_pos_iff.mpr nonempty
  rw [List.dropLast_eq_take]
  refine ⟨⟨h.valid.size_eq, h.valid.null, lower, ?_, ?_⟩, ?_, h.segment.take _⟩
  · unfold NativelyStoredString.removeLast
    dsimp only
    omega
  · unfold NativelyStoredString.removeLast
    dsimp only
    omega
  · unfold NativelyStoredString.removeLast
    rw [List.length_take]
    dsimp only
    omega

theorem Represents.shrink (h : Represents d xs) (low : 1 ≤ startIndex) (high : endIndex ≤ xs.length)
    (interval : startIndex ≤ endIndex + 1) :
    Represents (d.shrink startIndex endIndex)
      ((xs.drop (startIndex - 1).toNat).take (endIndex - startIndex + 1).toNat) := by
  have count := h.count_eq
  have lower := h.valid.lower_nonneg
  have fits := h.valid.fits
  have part := (h.segment.drop (n := (startIndex - 1).toNat) (by omega)).take
    (endIndex - startIndex + 1).toNat
  have length : ((xs.drop (startIndex - 1).toNat).take (endIndex - startIndex + 1).toNat).length =
      (endIndex - startIndex + 1).toNat := by
    rw [List.length_take, List.length_drop]
    omega
  unfold NativelyStoredString.shrink
  split
  · rw [show (endIndex - startIndex + 1).toNat = 0 by omega, List.take_zero]
    exact ⟨⟨h.valid.size_eq, h.valid.null, lower, Int.le_refl _, by dsimp only; omega⟩, rfl, segment_nil⟩
  · split
    · rename_i first
      subst first
      refine ⟨⟨h.valid.size_eq, h.valid.null, lower, ?_, ?_⟩, ?_, ?_⟩
      · dsimp only
        omega
      · dsimp only
        omega
      · rw [length]
        dsimp only
        omega
      · rwa [Int.sub_self, Int.toNat_zero, Int.natCast_zero, Int.add_zero] at part
    · refine ⟨⟨h.valid.size_eq, h.valid.null, ?_, ?_, ?_⟩, ?_, ?_⟩
      · dsimp only
        omega
      · dsimp only
        omega
      · dsimp only
        omega
      · rw [length]
        dsimp only
        omega
      · rwa [show d.storageLower + ((startIndex - 1).toNat : Int) =
          d.storageLower + startIndex - 1 by omega] at part

theorem Represents.clearCount (h : Represents d xs) : Represents d.clearCount [] := by
  have count := h.count_eq
  have lower := h.valid.lower_nonneg
  have fits := h.valid.fits
  refine ⟨⟨h.valid.size_eq, h.valid.null, Int.le_refl _, Int.le_refl _, ?_⟩, rfl, segment_nil⟩
  unfold NativelyStoredString.clearCount
  dsimp only
  omega

/-- The new characters of `resize` are null when the cells after the string are, or when they
are cleared. -/
theorem Represents.returns_resize (h : Represents d xs) (nonneg : 0 ≤ n)
    (clear : d.count < n → d.capacity < n + d.storageLower →
      ∀ i, d.storageLower + d.count ≤ i → i < d.capacity → d.storage.cell i = default) :
    Returns (d.resize n) fun d' => Represents d'
      (xs.take n.toNat ++ List.replicate (n.toNat - xs.length) default) := by
  have count := h.count_eq
  have size := h.valid.size_eq
  have lower := h.valid.lower_nonneg
  have fits := h.valid.fits
  unfold resize
  rw [Returns.bind_iff]
  split
  · rw [Returns.some_iff, Returns.pure_iff, show n.toNat - xs.length = 0 by omega,
      List.replicate_zero, List.append_nil]
    refine ⟨⟨size, h.valid.null, lower, nonneg, ?_⟩, ?_, h.segment.take _⟩
    · dsimp only
      omega
    · rw [List.length_take]
      dsimp only
      omega
  · rename_i longer
    rw [List.take_of_length_le (by omega)]
    have total : (xs ++ List.replicate (n.toNat - xs.length) (default : Character)).length = n.toNat := by
      rw [List.length_append, List.length_replicate]
      omega
    split
    · rename_i big
      have grown := h.grown (n + d.storageLower) (by omega)
      revert grown
      generalize d.ensureCapacity (n + d.storageLower) = e
      intro grown
      have h' := h.of_grown grown
      have lowE := grown.lower_eq
      have needed := grown.needed_le
      rw [Returns.some_iff, Returns.pure_iff]
      refine ⟨⟨grown.size_eq, grown.null, h'.valid.lower_nonneg, nonneg, ?_⟩, ?_,
        segment_append.mpr ⟨h'.segment, segment_replicate fun j low high => ?_⟩⟩
      · dsimp only
        omega
      · dsimp only
        omega
      · dsimp only at low high ⊢
        by_cases old : j < d.capacity
        · rw [grown.cell_eq j (by omega) old]
          exact clear (by omega) big j (by omega) old
        · exact grown.new_eq big j (by omega)
    · rw [Returns.bind_iff]
      refine NativeArray.returns_setSliceWith (fun _ => by omega) ?_
      rw [Returns.pure_iff, Returns.pure_iff]
      refine ⟨⟨size, h.valid.null, lower, nonneg, ?_⟩, ?_,
        segment_append.mpr ⟨h.segment.congr fun j _ _ => if_neg (by omega),
          segment_replicate fun j low high => if_pos ?_⟩⟩
      · dsimp only
        omega
      · dsimp only
        omega
      · dsimp only at low high
        omega

theorem Represents.returns_copy (h : Represents d xs) (argument : Argument s xs ys) :
    Returns (d.copy s) fun d' => Represents d' ys := by
  have count := h.count_eq
  have size := h.valid.size_eq
  have lower := h.valid.lower_nonneg
  have fits := h.valid.fits
  cases s with
  | none =>
    cases argument
    exact Returns.some_iff.mpr h
  | some other =>
    have source : Represents other ys := argument
    have countS := source.count_eq
    have sizeS := source.valid.size_eq
    have lowerS := source.valid.lower_nonneg
    have fitsS := source.valid.fits
    unfold copy
    rw [Returns.bind_iff]
    split
    · have grown := grown_ensureCapacity (d := { d with storageLower := 0 }) size h.capacity_nonneg
        h.valid.null other.count (by omega)
      revert grown
      generalize ensureCapacity _ _ = e
      intro grown
      have sizeE := grown.size_eq
      have lowE : e.storageLower = 0 := grown.lower_eq
      have needed := grown.needed_le
      rw [Returns.bind_iff]
      refine NativeArray.returns_sliceCopy (fun _ => by omega) fun storage size' copied kept => ?_
      rw [Returns.pure_iff, Returns.pure_iff]
      refine ⟨⟨size'.trans sizeE, grown.null, ?_, ?_, ?_⟩, countS, ?_⟩
      · dsimp only
        omega
      · dsimp only
        omega
      · dsimp only
        omega
      · refine source.segment.copied fun j from_zero less => ?_
        dsimp only
        rw [copied _ (by omega) (by omega)]
        congr 1
        omega
    · rw [Returns.some_iff, Returns.pure_iff]
      refine ⟨⟨size, h.valid.null, Int.le_refl _, ?_, ?_⟩, countS, ?_⟩
      · dsimp only
        omega
      · dsimp only
        omega
      · rw [List.length_eq_zero_iff.mp (show ys.length = 0 by omega)]
        exact segment_nil

end Edits

end NativelyStoredString

end Liberty
