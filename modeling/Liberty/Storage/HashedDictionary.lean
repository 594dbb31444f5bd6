import Liberty.Storage.Dictionary
import Liberty.Storage.HashTableSize
import Liberty.Storage.NodeCache

/-!
# HASHED_DICTIONARY

Chains of nodes from an array of buckets.  `put`, `remove` and the queries are written once
for the comparison of the keys that they are given, `is_equal` or, in their `fast` variants,
`=`.
-/

namespace Liberty

open LinkedNodes HashTableSize

namespace HashedDictionary

/-- A HASHED_DICTIONARY_NODE. -/
structure Node (κ ν : Type) where
  item : ν
  key : κ
  next : Option ℕ

end HashedDictionary

/-- A dictionary, with the heap of the nodes of its type. -/
structure HashedDictionary (κ ν : Type) where
  heap : NodeHeap (HashedDictionary.Node κ ν)
  buckets : NativeArray (Option ℕ)
  capacity : Int
  count : Int
  cache : NodeCache

namespace HashedDictionary

variable {κ ν : Type} [HashedKey κ]

/-! ## The source -/

/-- The `next` of a node. -/
def nodeLink : Link (Node κ ν) where
  get := Node.next
  set n x := { x with next := n }
  get_set _ _ := rfl
  set_set _ _ _ := rfl

/-- The node of `k` in its chain, or Void. -/
def find (test : κ → κ → Bool) (d : HashedDictionary κ ν) (k : κ) : Option (Option ℕ) := do
  let node ← d.buckets.item (bucketIndex d.capacity k)
  LinkedNodes.find nodeLink d.heap.node (fun x => test x.key k) d.heap.fresh node

def has (test : κ → κ → Bool) (d : HashedDictionary κ ν) (k : κ) : Option Bool := do
  return (← d.find test k).isSome

/-- `at`; where the key is absent its loop reads the key of a Void node. -/
def at' (test : κ → κ → Bool) (d : HashedDictionary κ ν) (k : κ) : Option ν := do
  return (← d.heap.node (← (← d.find test k))).item

/-- `reference_at`, whose result may be Void. -/
def referenceAt (test : κ → κ → Bool) (d : HashedDictionary κ ν) (k : κ) : Option (Option ν) := do
  match ← d.find test k with
  | none => return none
  | some a => return some (← d.heap.node a).item

/-- `increase_capacity` -/
def increaseCapacity (d : HashedDictionary κ ν) : Option (HashedDictionary κ ν) := do
  let newCapacity := primeCapacity (d.capacity + 1)
  let (heap, buckets) ← d.heap.rebuild nodeLink (fun x => bucketIndex newCapacity x.key) d.buckets
    d.capacity newCapacity
  return { d with heap := heap, buckets := buckets, capacity := newCapacity,
                  cache := d.cache.deactivate }

/-- A new node at the head of its bucket. -/
def link (d : HashedDictionary κ ν) (v : ν) (k : κ) : Option (HashedDictionary κ ν) := do
  let idx := bucketIndex d.capacity k
  let (heap, node) ← d.heap.newNode nodeLink ⟨v, k, ← d.buckets.item idx⟩
  return { d with heap := heap, buckets := ← d.buckets.put (some node) idx,
                  count := d.count + 1, cache := d.cache.deactivate }

/-- The growth that `put` and `add` may begin with. -/
def grow (d : HashedDictionary κ ν) : Option (HashedDictionary κ ν) :=
  if shouldIncreaseCapacity d.capacity d.count then d.increaseCapacity else some d

/-- `set_item` of a node. -/
def setNodeItem (d : HashedDictionary κ ν) (a : ℕ) (v : ν) : Option (HashedDictionary κ ν) := do
  let x ← d.heap.node a
  return { d with heap := { d.heap with
    node := Function.update d.heap.node a (some { x with item := v }) } }

def put (test : κ → κ → Bool) (d : HashedDictionary κ ν) (v : ν) (k : κ) :
    Option (HashedDictionary κ ν) := do
  match ← d.find test k with
  | none => (← d.grow).link v k
  | some a => d.setNodeItem a v

def add (d : HashedDictionary κ ν) (v : ν) (k : κ) : Option (HashedDictionary κ ν) := do
  (← d.grow).link v k

def remove (test : κ → κ → Bool) (d : HashedDictionary κ ν) (k : κ) :
    Option (HashedDictionary κ ν) := do
  let d := { d with cache := d.cache.deactivate }
  let idx := bucketIndex d.capacity k
  match ← d.buckets.item idx with
  | none => return d
  | some node =>
    if test (← d.heap.node node).key k then
      let (heap, next) ← d.heap.disposeNode nodeLink node
      return { d with heap := heap, buckets := ← d.buckets.put next idx, count := d.count - 1 }
    else
      let (previous, found) ← findAfter nodeLink d.heap.node (fun x => test x.key k)
        d.heap.fresh node (← d.heap.node node).next
      match found with
      | none => return d
      | some node =>
        let (heap, next) ← d.heap.disposeNode nodeLink node
        return { d with heap := ← heap.setLink nodeLink previous next, count := d.count - 1 }

/-- `clear_count`, `clear_count_and_capacity` -/
def clearCount (d : HashedDictionary κ ν) : Option (HashedDictionary κ ν) := do
  let (heap, buckets, _) ← untilLoop (fun s => some (decide (s.2.2 < 0)))
    (fun (heap, buckets, i) => do
      let node ← buckets.item i
      let buckets ← buckets.put none i
      let heap ← heap.disposeAll nodeLink node
      return (heap, buckets, i - 1))
    d.capacity.toNat (d.heap, d.buckets, d.capacity - 1)
  return { d with heap := heap, buckets := buckets, count := 0, cache := d.cache.deactivate }

/-- `set_cache_user` -/
def setCacheUser (d : HashedDictionary κ ν) (index : Int) : Option (HashedDictionary κ ν) := do
  return { d with cache := ← d.cache.set nodeLink d.heap.node d.buckets d.capacity index }

/-- `set_item` -/
def setItem (d : HashedDictionary κ ν) (v : ν) (index : Int) :
    Option (HashedDictionary κ ν) := do
  let d ← d.setCacheUser index
  d.setNodeItem (← d.cache.node) v

/-- `key`, a query that moves the cache. -/
def key (d : HashedDictionary κ ν) (index : Int) : Option (HashedDictionary κ ν × κ) := do
  let d ← d.setCacheUser index
  return (d, (← d.heap.node (← d.cache.node)).key)

/-- `item` -/
def item (d : HashedDictionary κ ν) (index : Int) : Option (HashedDictionary κ ν × ν) := do
  let d ← d.setCacheUser index
  return (d, (← d.heap.node (← d.cache.node)).item)

/-- `create_with_capacity`, in the heap of a program. -/
def createWithCapacity (heap : NodeHeap (Node κ ν)) (newCapacity : Int) :
    HashedDictionary κ ν where
  heap := heap
  buckets := .calloc newCapacity
  capacity := newCapacity
  count := 0
  cache := .initial

/-- `Default_size` -/
def defaultSize : Int := 53

def make (heap : NodeHeap (Node κ ν)) : HashedDictionary κ ν :=
  createWithCapacity heap defaultSize

/-- `with_capacity` -/
def withCapacity (heap : NodeHeap (Node κ ν)) (mediumSize : Int) : HashedDictionary κ ν :=
  createWithCapacity heap (primeCapacity mediumSize)

end HashedDictionary

end Liberty
