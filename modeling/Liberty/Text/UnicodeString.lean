import Liberty.Storage.NativeArray
import Liberty.Storage.FastArray

/-!
# UNICODE_STRING

A cell of the storage holds 16 bits of a character.  The other bits of a supplementary
character, of which the cell is marked, are in `lowSurrogateValues`, at the position of its
index in `lowSurrogateIndexes`.
-/

namespace Liberty

structure UnicodeString where
  storage : NativeArray (BitVec 16)
  count : Int
  capacity : Int
  lowSurrogateIndexes : List Int
  lowSurrogateValues : List (BitVec 16)

/-- `valid_unicode` -/
def ValidUnicode (unicode : Int) : Prop :=
  (0 ≤ unicode ∧ unicode ≤ 0x10FFFF) ∧ ¬(0xD800 ≤ unicode ∧ unicode ≤ 0xDFFF) ∧
    unicode ≠ 0xFFFE ∧ unicode ≠ 0xFFFF

instance (unicode : Int) : Decidable (ValidUnicode unicode) :=
  inferInstanceAs (Decidable (_ ∧ _))

namespace UnicodeString

/-! ## Cells -/

/-- The mark of a cell that goes with a low surrogate. -/
def IsSurrogate (cell : BitVec 16) : Prop :=
  cell &&& 0xF800#16 = 0xD800#16

instance (cell : BitVec 16) : Decidable (IsSurrogate cell) :=
  inferInstanceAs (Decidable (_ = _))

/-- `low_16` -/
def low16 (n : Int) : BitVec 16 :=
  .ofInt 16 n

/-- What is written in the cell of a supplementary character. -/
def highSurrogate (unicode : Int) : Int :=
  unicode / 1024 - 64

/-- What is written in the table for a supplementary character. -/
def lowSurrogate (unicode : Int) : BitVec 16 :=
  (BitVec.ofInt 32 unicode &&& 0x000003FF#32).setWidth 16

/-! ## Tables -/

/-- `low_surrogate_index` -/
def lowSurrogateIndex (u : UnicodeString) (index : Int) : Int :=
  FastArray.fastFirstIndexOf u.lowSurrogateIndexes index

/-- `low_surrogate_value` -/
def lowSurrogateValue (u : UnicodeString) (index : Int) : Option (BitVec 16) :=
  FastArray.item u.lowSurrogateValues (u.lowSurrogateIndex index)

/-- `low_surrogate_position`: the first position of the tables at or after `index`. -/
def lowSurrogatePosition (u : UnicodeString) (index : Int) : Option Int :=
  untilLoop
    (fun result =>
      if result > FastArray.upper u.lowSurrogateIndexes then some true
      else do return decide ((← FastArray.item u.lowSurrogateIndexes result) ≥ index))
    (fun result => some (result + 1))
    u.lowSurrogateIndexes.length 0

/-- The loop that adds 1 to the indexes from the position `k` on, from the last one. -/
def incrementIndexes (u : UnicodeString) (k : Int) : Option UnicodeString := do
  let (indexes, _) ← untilLoop (fun s => some (decide (s.2 < k)))
    (fun (indexes, j) => do
      return (← FastArray.put indexes ((← FastArray.item indexes j) + 1) j, j - 1))
    u.lowSurrogateIndexes.length (u.lowSurrogateIndexes, FastArray.upper u.lowSurrogateIndexes)
  return { u with lowSurrogateIndexes := indexes }

/-- The loop that brings the entries from the position `source` on to the position `target`
and after, with `shift` added to their indexes, until an index fulfils `stops`.  The
tables are cut after the last one. -/
def moveEntries (u : UnicodeString) (source target shift : Int) (stops : Int → Bool) :
    Option UnicodeString := do
  let (indexes, values, _, target) ← untilLoop
    (fun (indexes, _, source, _) =>
      if source > FastArray.upper indexes then some true
      else do return stops (← FastArray.item indexes source))
    (fun (indexes, values, source, target) => do
      return (← FastArray.put indexes ((← FastArray.item indexes source) + shift) target,
        ← FastArray.put values (← FastArray.item values source) target,
        source + 1, target + 1))
    u.lowSurrogateIndexes.length (u.lowSurrogateIndexes, u.lowSurrogateValues, source, target)
  return { u with
    lowSurrogateIndexes := FastArray.resize indexes target
    lowSurrogateValues := FastArray.resize values target }

/-- The tables without their entries. -/
def clearTables (u : UnicodeString) : UnicodeString :=
  { u with lowSurrogateIndexes := [], lowSurrogateValues := [] }

/-! ## Creation and access -/

/-- An object before its creation procedure. -/
def blank : UnicodeString where
  storage := .calloc 0
  count := 0
  capacity := 0
  lowSurrogateIndexes := []
  lowSurrogateValues := []

def make (u : UnicodeString) (neededCapacity : Int) : UnicodeString :=
  let u :=
    if neededCapacity > 0 ∧ u.capacity < neededCapacity then
      { u with storage := .calloc neededCapacity, capacity := neededCapacity }
    else u
  { u.clearTables with count := 0 }

def item (u : UnicodeString) (i : Int) : Option Int := do
  let n := (← u.storage.item (i - 1)).signExtend 32
  if n &&& 0x0000F800#32 = 0x0000D800#32 then
    return ((n &&& 0x000007FF#32) + 64).toInt * 1024 + (← u.lowSurrogateValue i).toInt
  else
    return (n &&& 0x0000FFFF#32).toInt

/-- `resize` -/
def resize (u : UnicodeString) (newCount : Int) : Option UnicodeString := do
  let u ←
    (if newCount ≤ u.count then some u
    else if u.capacity < newCount then
      if u.capacity = 0 then
        some { u with storage := .calloc newCount, capacity := newCount }
      else
        some { u with storage := u.storage.realloc u.capacity newCount, capacity := newCount }
    else do return { u with storage := ← u.storage.clear u.count (newCount - 1) })
  let (indexes, values, _) ← untilLoop
    (fun (indexes, _, i) =>
      if i < 0 then some true
      else do return decide ((← FastArray.item indexes i) ≤ newCount))
    (fun (indexes, values, i) => some (indexes.dropLast, values.dropLast, i - 1))
    u.lowSurrogateIndexes.length
    (u.lowSurrogateIndexes, u.lowSurrogateValues, FastArray.upper u.lowSurrogateIndexes)
  return { u with
    count := newCount
    lowSurrogateIndexes := indexes
    lowSurrogateValues := values }

def fillWith (u : UnicodeString) (unicode : Int) : Option UnicodeString :=
  if unicode ≥ 65536 then do
    let storage ← u.storage.setAllWith (low16 (highSurrogate unicode)) (u.count - 1)
    let values := FastArray.setAllWith (FastArray.resize u.lowSurrogateValues u.count)
      (lowSurrogate unicode)
    let (indexes, _) ← untilLoop (fun s => some (decide (s.2 < 0)))
      (fun (indexes, i) => do return (← FastArray.put indexes (i + 1) i, i - 1))
      u.count.toNat (FastArray.resize u.lowSurrogateIndexes u.count, u.count - 1)
    return { u with storage, lowSurrogateIndexes := indexes, lowSurrogateValues := values }
  else do
    let storage ← u.storage.setAllWith (low16 unicode) (u.count - 1)
    return { u with
      storage
      lowSurrogateValues := FastArray.resize u.lowSurrogateValues 0
      lowSurrogateIndexes := FastArray.resize u.lowSurrogateIndexes 0 }

def makeFilled (u : UnicodeString) (unicode n : Int) : Option UnicodeString :=
  fillWith { u.make n with count := n } unicode

def copy (u other : UnicodeString) : Option UnicodeString := do
  let u := { u with count := other.count }
  let u ←
    (if u.count > 0 then do
      let u :=
        if u.capacity < u.count then { u with storage := .calloc u.count, capacity := u.count }
        else u
      return { u with storage := ← u.storage.sliceCopy 0 other.storage 0 (u.count - 1) }
    else some u)
  return { u with
    lowSurrogateIndexes := other.lowSurrogateIndexes
    lowSurrogateValues := other.lowSurrogateValues }

/-! ## Writing -/

def put (u : UnicodeString) (unicode i : Int) : Option UnicodeString := do
  if unicode ≥ 65536 then
    let u ←
      (if IsSurrogate (← u.storage.item (i - 1)) then do
        let values ← FastArray.put u.lowSurrogateValues (lowSurrogate unicode)
          (u.lowSurrogateIndex i)
        return { u with lowSurrogateValues := values }
      else do
        let n ← u.lowSurrogatePosition i
        let indexes := FastArray.addLast u.lowSurrogateIndexes 0
        let values := FastArray.addLast u.lowSurrogateValues 0
        let (indexes, values) ←
          (if n ≠ FastArray.upper indexes then do
            let last := FastArray.upper indexes - 1
            return (← FastArray.move indexes n last 1, ← FastArray.move values n last 1)
          else some (indexes, values))
        let indexes ← FastArray.put indexes i n
        let values ← FastArray.put values (lowSurrogate unicode) n
        return { u with lowSurrogateIndexes := indexes, lowSurrogateValues := values })
    return { u with storage := ← u.storage.put (low16 (highSurrogate unicode)) (i - 1) }
  else
    let u ←
      (if IsSurrogate (← u.storage.item (i - 1)) then do
        let v := u.lowSurrogateIndex i
        let indexes ← FastArray.remove u.lowSurrogateIndexes v
        let values ← FastArray.remove u.lowSurrogateValues v
        return { u with lowSurrogateIndexes := indexes, lowSurrogateValues := values }
      else some u)
    return { u with storage := ← u.storage.put (low16 unicode) (i - 1) }

/-- The growth of the storage before one more character. -/
def reserve (u : UnicodeString) : UnicodeString :=
  if u.capacity > u.count then u
  else if u.capacity = 0 then { u with storage := .calloc 32, capacity := 32 }
  else
    { u with
      storage := u.storage.realloc u.capacity (2 * u.capacity)
      capacity := 2 * u.capacity }

/-- `extend`, which is also `add_last`. -/
def extend (u : UnicodeString) (unicode : Int) : Option UnicodeString := do
  let u := u.reserve
  if unicode ≥ 65536 then
    let storage ← u.storage.put (low16 (highSurrogate unicode)) u.count
    return { u with
      storage
      lowSurrogateIndexes := FastArray.addLast u.lowSurrogateIndexes u.count
      lowSurrogateValues := FastArray.addLast u.lowSurrogateValues (lowSurrogate unicode)
      count := u.count + 1 }
  else
    return { u with
      storage := ← u.storage.put (low16 unicode) u.count
      count := u.count + 1 }

/-- The storage is shifted by one cell from the index `i` on, and the cell at `i` is 0. -/
def openCell (u : UnicodeString) (i : Int) : Option UnicodeString :=
  if u.count > 1 then do
    let storage ← u.storage.move (i - 1) (u.count - 2) 1
    return { u with storage := ← storage.put 0 (i - 1) }
  else some u

/-- `add_first`, which is also `precede`. -/
def addFirst (u : UnicodeString) (unicode : Int) : Option UnicodeString := do
  let u ← u.incrementIndexes 0
  let u ← u.resize (u.count + 1)
  let u ← u.openCell 1
  u.put unicode 1

/-- The growth of the storage in `append`. -/
def reserveFor (u : UnicodeString) (neededCapacity : Int) : UnicodeString :=
  if neededCapacity > u.capacity then
    if u.capacity = 0 then
      { u with storage := .calloc neededCapacity, capacity := neededCapacity }
    else
      let newCapacity := max (2 * u.capacity) neededCapacity
      { u with storage := u.storage.realloc u.capacity newCapacity, capacity := newCapacity }
  else u

/-- `append`; the argument is `Current` when it is `none`. -/
def append (u : UnicodeString) (s : Option UnicodeString) : Option UnicodeString := do
  let sCount := (s.getD u).count
  let neededCapacity := u.count + sCount
  let u := u.reserveFor neededCapacity
  let u := { u with storage := ← u.storage.copyAt u.count (s.getD u).storage sCount }
  let (u, _) ← untilLoop
    (fun (u, i) => some (decide (i > FastArray.upper (s.getD u).lowSurrogateIndexes)))
    (fun (u, i) => do
      let u := { u with
        lowSurrogateIndexes := FastArray.addLast u.lowSurrogateIndexes
          ((← FastArray.item (s.getD u).lowSurrogateIndexes i) + u.count) }
      return ({ u with
        lowSurrogateValues := FastArray.addLast u.lowSurrogateValues
          (← FastArray.item (s.getD u).lowSurrogateValues i) }, i + 1))
    (s.getD u).lowSurrogateIndexes.length (u, (0 : Int))
  return { u with count := neededCapacity }

/-! ## Edits -/

/-- `insert_string`; the argument is `Current` when it is `none`. -/
def insertString (u : UnicodeString) (s : Option UnicodeString) (i : Int) :
    Option UnicodeString := do
  let j := u.count
  let k := (s.getD u).count
  let u ← u.resize (j + k)
  let u ←
    (if i ≤ j then do return { u with storage := ← u.storage.move (i - 1) (j - 1) k }
    else some u)
  let u := { u with storage := ← u.storage.copyAt (i - 1) (s.getD u).storage k }
  let pos ← u.lowSurrogatePosition i
  let j : Int := u.lowSurrogateIndexes.length + (s.getD u).lowSurrogateIndexes.length
  let u := { u with lowSurrogateIndexes := FastArray.resize u.lowSurrogateIndexes j }
  let u := { u with lowSurrogateValues := FastArray.resize u.lowSurrogateValues j }
  -- move existing surrogates and adjust indexes
  let rounds := (s.getD u).lowSurrogateIndexes.length
  let (u, _, _) ← untilLoop (fun (_, n, _) => some (decide (n < 0)))
    (fun (u, n, j) => do
      let j := j - 1
      let indexes := u.lowSurrogateIndexes
      let values := u.lowSurrogateValues
      return ({ u with
        lowSurrogateIndexes :=
          ← FastArray.put indexes ((← FastArray.item indexes (pos + n)) + k) j
        lowSurrogateValues := ← FastArray.put values (← FastArray.item values (pos + n)) j },
        n - 1, j))
    rounds (u, FastArray.upper (s.getD u).lowSurrogateIndexes, j)
  -- copy surrogates from the argument and adjust indexes
  let n := FastArray.upper (s.getD u).lowSurrogateIndexes
  let (u, _, _) ← untilLoop (fun (_, n, _) => some (decide (n < 0)))
    (fun (u, n, j) => do
      let u := { u with
        lowSurrogateIndexes := ← FastArray.put u.lowSurrogateIndexes
          ((← FastArray.item (s.getD u).lowSurrogateIndexes n) + i) j }
      return ({ u with
        lowSurrogateValues := ← FastArray.put u.lowSurrogateValues
          (← FastArray.item (s.getD u).lowSurrogateValues n) j },
        n - 1, j - 1))
    rounds (u, n, pos + n)
  return u

def insertCharacter (u : UnicodeString) (unicode i : Int) : Option UnicodeString := do
  let u ← u.incrementIndexes (← u.lowSurrogatePosition i)
  let u ← u.resize (u.count + 1)
  let u ← u.openCell i
  u.put unicode i

/-- The entry of a character that leaves the index `i1` for `i2`.  The low surrogate is read
where the position of `i1` is still 0. -/
def swapEntry (u : UnicodeString) (i1 i2 : Int) : Option UnicodeString := do
  let lowTmp ← FastArray.item u.lowSurrogateValues 0
  let k1 := u.lowSurrogateIndex i1
  let k2 ← u.lowSurrogatePosition i2
  let indexes := u.lowSurrogateIndexes
  let values := u.lowSurrogateValues
  let (indexes, values, k2) ←
    (if k2 > k1 + 1 then do
      return (← FastArray.move indexes (k1 + 1) (k2 - 1) (-1),
        ← FastArray.move values (k1 + 1) (k2 - 1) (-1), k2 - 1)
    else if k1 > k2 then do
      return (← FastArray.move indexes k2 (k1 - 1) 1, ← FastArray.move values k2 (k1 - 1) 1, k2)
    else some (indexes, values, k2))
  return { u with
    lowSurrogateIndexes := ← FastArray.put indexes i1 k2
    lowSurrogateValues := ← FastArray.put values lowTmp k2 }

def swap (u : UnicodeString) (i1 i2 : Int) : Option UnicodeString := do
  let j1 := i1 - 1
  let j2 := i2 - 1
  let tmp ← u.storage.item j1
  let u ←
    (if IsSurrogate tmp then do
      if IsSurrogate (← u.storage.item j2) then
        let k1 := u.lowSurrogateIndex i1
        let k2 := u.lowSurrogateIndex i2
        let lowTmp ← FastArray.item u.lowSurrogateValues k1
        let values ← FastArray.put u.lowSurrogateValues
          (← FastArray.item u.lowSurrogateValues k2) k1
        let values ← FastArray.put values lowTmp k2
        let indexes ← FastArray.put u.lowSurrogateIndexes i2 k1
        let indexes ← FastArray.put indexes i1 k2
        return { u with lowSurrogateIndexes := indexes, lowSurrogateValues := values }
      else
        u.swapEntry i1 i2
    else do
      if IsSurrogate (← u.storage.item j2) then
        u.swapEntry i2 i1
      else return u)
  let storage ← u.storage.put (← u.storage.item j2) j1
  return { u with storage := ← storage.put tmp j2 }

def shrink (u : UnicodeString) (minIndex maxIndex : Int) : Option UnicodeString :=
  if maxIndex < minIndex then
    some { u.clearTables with count := 0 }
  else if minIndex = 1 then do
    let u := { u with count := maxIndex }
    let i ← u.lowSurrogatePosition u.count
    let i ←
      (if i ≤ FastArray.upper u.lowSurrogateIndexes then do
        return if (← FastArray.item u.lowSurrogateIndexes i) = maxIndex then i + 1 else i
      else some i)
    return { u with
      lowSurrogateIndexes := FastArray.resize u.lowSurrogateIndexes i
      lowSurrogateValues := FastArray.resize u.lowSurrogateValues i }
  else do
    let u := { u with
      storage := ← u.storage.sliceCopy 0 u.storage (minIndex - 1) (maxIndex - 1) }
    let i ← u.lowSurrogatePosition minIndex
    let u ← u.moveEntries i 0 (1 - minIndex) (fun index => decide (index > maxIndex))
    return { u with count := maxIndex - minIndex + 1 }

def removeBetween (u : UnicodeString) (startIndex endIndex : Int) : Option UnicodeString :=
  let len := endIndex - startIndex + 1
  if len > 0 then do
    let i ← u.lowSurrogatePosition startIndex
    let k ← u.lowSurrogatePosition (endIndex + 1)
    let u ← u.moveEntries k i (-len) (fun _ => false)
    return { u with
      storage := ← u.storage.sliceCopy (startIndex - 1) u.storage endIndex (u.count - 1)
      count := u.count - len }
  else
    some u

def removeHead (u : UnicodeString) (n : Int) : Option UnicodeString :=
  if n > u.count then
    some { u.clearTables with count := 0 }
  else if n > 0 then
    u.removeBetween 1 n
  else
    some u

def removeTail (u : UnicodeString) (n : Int) : Option UnicodeString :=
  if n > u.count then
    some { u.clearTables with count := 0 }
  else do
    let u := { u with count := u.count - n }
    let i ← u.lowSurrogatePosition (u.count + 1)
    return { u with
      lowSurrogateIndexes := FastArray.resize u.lowSurrogateIndexes i
      lowSurrogateValues := FastArray.resize u.lowSurrogateValues i }

def substring (u : UnicodeString) (startIndex endIndex : Int) : Option UnicodeString := do
  let result := blank.make (endIndex - startIndex + 1)
  let result := { result with count := endIndex - startIndex + 1 }
  let result := { result with
    storage := ← result.storage.sliceCopy 0 u.storage (startIndex - 1) (endIndex - 1) }
  let i ← u.lowSurrogatePosition startIndex
  let (indexes, values, _) ← untilLoop
    (fun (_, _, i) =>
      if i > FastArray.upper u.lowSurrogateIndexes then some true
      else do return decide ((← FastArray.item u.lowSurrogateIndexes i) > endIndex))
    (fun (indexes, values, i) => do
      return (FastArray.addLast indexes ((← FastArray.item u.lowSurrogateIndexes i) - startIndex),
        FastArray.addLast values (← FastArray.item u.lowSurrogateValues i), i + 1))
    u.lowSurrogateIndexes.length
    (result.lowSurrogateIndexes, result.lowSurrogateValues, i)
  return { result with lowSurrogateIndexes := indexes, lowSurrogateValues := values }

/-- `reverse`, whose first instruction is `not_yet_implemented`: it stops the program. -/
def reverse (_ : UnicodeString) : Option UnicodeString :=
  none

end UnicodeString

end Liberty
