import Liberty.Library.Loops
import Liberty.Storage.NativeArray

/-!
# ARRAY

The items from `lower` to `upper` stand at the beginning of the storage, which may have more
cells.  What is removed at the end stays in the storage.
-/

namespace Liberty

structure PlainArray (α : Type) where
  storage : NativeArray α
  capacity : Int
  lower : Int
  upper : Int

namespace PlainArray

variable {α : Type} [Inhabited α]

/-! ## The source -/

def count (a : PlainArray α) : Int :=
  a.upper - a.lower + 1

def ValidIndex (a : PlainArray α) (i : Int) : Prop :=
  a.lower ≤ i ∧ i ≤ a.upper

instance (a : PlainArray α) (i : Int) : Decidable (a.ValidIndex i) :=
  inferInstanceAs (Decidable (_ ∧ _))

def item (a : PlainArray α) (i : Int) : Option α :=
  a.storage.item (i - a.lower)

def put (a : PlainArray α) (element : α) (i : Int) : Option (PlainArray α) := do
  return { a with storage := ← a.storage.put element (i - a.lower) }

/-- An object before its creation procedure. -/
def blank : PlainArray α where
  storage := .calloc 0
  capacity := 0
  lower := 0
  upper := 0

def setAllWith (a : PlainArray α) (v : α) : Option (PlainArray α) := do
  return { a with storage := ← a.storage.setAllWith v (a.upper - a.lower) }

/-- `clear_all` -/
def clearAll (a : PlainArray α) : Option (PlainArray α) :=
  a.setAllWith default

/-- The release of the objects in `ensure_capacity_and_bounds`; `isReference` tells that the default
value is Void. -/
def purged (isReference : Bool) (a : PlainArray α) : Option (PlainArray α) :=
  if isReference && decide (a.capacity > 0) then a.clearAll else some a

def ensureCapacityAndBounds (isReference : Bool) (a : PlainArray α) (neededCapacity low up : Int) :
    Option (PlainArray α) := do
  let a ← a.purged isReference
  let a := { a with lower := low, upper := up }
  if neededCapacity > 0 then
    if a.capacity < neededCapacity then
      return { a with storage := .calloc neededCapacity, capacity := neededCapacity }
    else if !isReference && decide (up ≥ low) then
      a.clearAll
    else
      return a
  else
    return a

def make (isReference : Bool) (a : PlainArray α) (minIndex maxIndex : Int) :
    Option (PlainArray α) :=
  a.ensureCapacityAndBounds isReference (maxIndex - minIndex + 1) minIndex maxIndex

def withCapacity (isReference : Bool) (a : PlainArray α) (neededCapacity low : Int) :
    Option (PlainArray α) :=
  a.ensureCapacityAndBounds isReference neededCapacity low (low - 1)

/-- The storage of `resize`, once it has the cells that it needs. -/
def enlarged (a : PlainArray α) (needed : Int) : PlainArray α :=
  if needed > a.capacity then
    if a.capacity = 0 then
      { a with storage := .calloc needed, capacity := needed }
    else
      { a with storage := a.storage.realloc a.capacity needed, capacity := needed }
  else
    a

/-- The storage of `resize`, with the items at their new places. -/
def shifted (a : PlainArray α) (minIndex maxIndex : Int) : Option (NativeArray α) :=
  let offset := a.lower - minIndex
  let intersize := min maxIndex a.upper - max minIndex a.lower + 1
  if intersize > 0 then
    if offset = 0 then
      if intersize ≤ a.upper - a.lower then
        a.storage.clear intersize (a.upper - a.lower)
      else
        some a.storage
    else if offset < 0 then do
      (← a.storage.move (-offset) (intersize - offset - 1) offset).clear intersize
        (a.upper - a.lower)
    else do
      let storage ← (← a.storage.move 0 (intersize - 1) offset).clear 0 (offset - 1)
      if intersize + offset ≤ a.upper - a.lower then
        storage.clear (intersize + offset) (a.upper - a.lower)
      else
        return storage
  else
    a.storage.clear 0 (a.upper - a.lower)

def resize (a : PlainArray α) (minIndex maxIndex : Int) : Option (PlainArray α) :=
  let needed := maxIndex - minIndex + 1
  if needed > 0 then do
    let a := a.enlarged needed
    return { a with storage := ← a.shifted minIndex maxIndex, lower := minIndex, upper := maxIndex }
  else if a.upper ≥ a.lower then do
    return { a with
      storage := ← a.storage.clear 0 (a.upper - a.lower), lower := minIndex, upper := maxIndex }
  else
    some { a with lower := minIndex, upper := maxIndex }

def addLast (a : PlainArray α) (element : α) : Option (PlainArray α) :=
  let a :=
    if a.capacity < a.count + 1 then
      if a.capacity = 0 then
        { a with storage := .calloc 16, capacity := 16 }
      else
        { a with
          storage := a.storage.realloc a.capacity (a.capacity * 2), capacity := a.capacity * 2 }
    else
      a
  let a := { a with upper := a.upper + 1 }
  a.put element a.upper

def force (a : PlainArray α) (element : α) (index : Int) : Option (PlainArray α) :=
  if a.upper < index then
    if index = a.upper + 1 then
      a.addLast element
    else do
      (← a.resize a.lower index).put element index
  else if index < a.lower then do
    (← a.resize index a.upper).put element index
  else
    a.put element index

/-- `reindex` -/
def reindex (a : PlainArray α) (newLower : Int) : PlainArray α :=
  let i := newLower - a.lower
  { a with lower := a.lower + i, upper := a.upper + i }

/-- `move` of COLLECTION, towards higher indices. -/
def move (a : PlainArray α) (lowerIndex upperIndex distance : Int) : Option (PlainArray α) := do
  let (a, _) ← untilLoop (fun s : PlainArray α × Int => some (decide (s.2 < lowerIndex)))
    (fun (a, i) => do
      let a ← a.put (← a.item i) (i + distance)
      return (← a.put default i, i - 1))
    (upperIndex - lowerIndex + 1).toNat (a, upperIndex)
  return a

def addFirst (a : PlainArray α) (element : α) : Option (PlainArray α) :=
  if a.upper < a.lower then
    a.addLast element
  else do
    let a ← a.addLast element
    let a ← a.move a.lower (a.upper - 1) 1
    a.put element a.lower

def add (a : PlainArray α) (element : α) (index : Int) : Option (PlainArray α) :=
  if index = a.upper + 1 then
    a.addLast element
  else do
    let a ← a.addLast element
    let a ← a.move index (a.upper - 1) 1
    a.put element index

def removeFirst (a : PlainArray α) : Option (PlainArray α) := do
  return { a with storage := ← a.storage.move 1 (a.upper - a.lower) (-1), lower := a.lower + 1 }

def removeHead (a : PlainArray α) (n : Int) : Option (PlainArray α) := do
  return { a with storage := ← a.storage.move n (a.upper - a.lower) (-n), lower := a.lower + n }

def remove (a : PlainArray α) (index : Int) : Option (PlainArray α) := do
  return { a with
    storage := ← a.storage.move (index - a.lower + 1) (a.upper - a.lower) (-1)
    upper := a.upper - 1 }

def removeLast (a : PlainArray α) : PlainArray α :=
  { a with upper := a.upper - 1 }

def removeTail (a : PlainArray α) (n : Int) : PlainArray α :=
  { a with upper := a.upper - n }

/-- `clear_count`, `clear_count_and_capacity` -/
def clearCount (a : PlainArray α) : PlainArray α :=
  { a with upper := a.lower - 1 }

def copy (a other : PlainArray α) : Option (PlainArray α) := do
  let neededCapacity := other.upper - other.lower + 1
  let a := { a with lower := other.lower, upper := other.upper }
  let a :=
    if a.capacity < neededCapacity then
      { a with storage := .calloc neededCapacity, capacity := neededCapacity }
    else
      a
  if neededCapacity > 0 then
    return { a with storage := ← a.storage.sliceCopy 0 other.storage 0 (neededCapacity - 1) }
  else
    return a

/-! ## Runs -/

inductive Command (α : Type)
  | make (minIndex maxIndex : Int)
  | withCapacity (neededCapacity low : Int)
  | resize (minIndex maxIndex : Int)
  | reindex (newLower : Int)
  | put (element : α) (index : Int)
  | force (element : α) (index : Int)
  | addFirst (element : α)
  | addLast (element : α)
  | add (element : α) (index : Int)
  | removeFirst
  | removeHead (n : Int)
  | remove (index : Int)
  | removeLast
  | removeTail (n : Int)
  | clearCount
  | clearCountAndCapacity
  | setAllWith (v : α)

def execute (isReference : Bool) (a : PlainArray α) : Command α → Option (PlainArray α)
  | .make minIndex maxIndex => a.make isReference minIndex maxIndex
  | .withCapacity neededCapacity low => a.withCapacity isReference neededCapacity low
  | .resize minIndex maxIndex => a.resize minIndex maxIndex
  | .reindex newLower => some (a.reindex newLower)
  | .put element index => a.put element index
  | .force element index => a.force element index
  | .addFirst element => a.addFirst element
  | .addLast element => a.addLast element
  | .add element index => a.add element index
  | .removeFirst => a.removeFirst
  | .removeHead n => a.removeHead n
  | .remove index => a.remove index
  | .removeLast => some a.removeLast
  | .removeTail n => some (a.removeTail n)
  | .clearCount | .clearCountAndCapacity => some a.clearCount
  | .setAllWith v => a.setAllWith v

/-- The precondition of a command. -/
def Command.Allowed (a : PlainArray α) : Command α → Prop
  | .make minIndex maxIndex | .resize minIndex maxIndex => minIndex ≤ maxIndex + 1
  | .withCapacity neededCapacity _ => 0 ≤ neededCapacity
  | .put _ index | .remove index => a.ValidIndex index
  | .add _ index => a.lower ≤ index ∧ index ≤ a.upper + 1
  | .removeFirst | .removeLast => a.lower ≤ a.upper
  | .removeHead n | .removeTail n => 0 < n ∧ n ≤ a.count
  | _ => True

/-- The arrays that a program comes to. -/
inductive Reaches (isReference : Bool) : PlainArray α → Prop
  | make {a : PlainArray α} (minIndex maxIndex : Int) (allowed : minIndex ≤ maxIndex + 1)
      (run : blank.make isReference minIndex maxIndex = some a) : Reaches isReference a
  | withCapacity {a : PlainArray α} (neededCapacity low : Int) (allowed : 0 ≤ neededCapacity)
      (run : blank.withCapacity isReference neededCapacity low = some a) : Reaches isReference a
  | step {a a' : PlainArray α} (command : Command α) (before : Reaches isReference a)
      (allowed : command.Allowed a) (run : a.execute isReference command = some a') :
      Reaches isReference a'
  | copy {a a' other : PlainArray α} (before : Reaches isReference a)
      (source : Reaches isReference other) (run : a.copy other = some a') : Reaches isReference a'

/-- The class invariant. -/
structure Valid (a : PlainArray α) : Prop where
  size_eq : a.storage.size = a.capacity
  capacity_nonneg : 0 ≤ a.capacity
  count_nonneg : 0 ≤ a.count
  count_le : a.count ≤ a.capacity

end PlainArray

end Liberty
