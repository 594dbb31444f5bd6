import Liberty.Storage.AvlContainer

/-!
# AVL_DICTIONARY

An AVL container whose nodes carry a value for their key.
-/

namespace Liberty

open SortedAssoc AvlContainer

/-- An AVL_DICTIONARY with the pool of the nodes of its type. -/
abbrev AvlDictionary (κ ν : Type) : Type := AvlContainer ν κ

namespace AvlDictionary

variable {κ ν : Type} (C : AvlItems κ)

/-! ## The source -/

def has (d : AvlDictionary κ ν) (k : κ) : Bool :=
  d.root.has C k

def fastHas (d : AvlDictionary κ ν) (k : κ) : Bool :=
  d.root.fastHas C k

/-- `at`; where the key is absent it calls a feature of Void. -/
def at' (d : AvlDictionary κ ν) (k : κ) : Option ν :=
  d.root.at' C k

def fastAt (d : AvlDictionary κ ν) (k : κ) : Option ν :=
  d.root.fastAt C k

/-- `reference_at`, whose result may be Void. -/
def referenceAt (d : AvlDictionary κ ν) (k : κ) : Option (Option ν) :=
  some (d.root.at' C k)

def fastReferenceAt (d : AvlDictionary κ ν) (k : κ) : Option (Option ν) :=
  some (d.root.fastAt C k)

/-- `put`, `add` -/
def put (d : AvlDictionary κ ν) (v : ν) (k : κ) : Option (AvlDictionary κ ν) :=
  d.insert C k v

def fastPut (d : AvlDictionary κ ν) (v : ν) (k : κ) : Option (AvlDictionary κ ν) :=
  d.fastInsert C k v

/-- `set_item` -/
def setItem (d : AvlDictionary κ ν) (v : ν) (index : Int) : Option (AvlDictionary κ ν) := do
  let (d, a) ← d.nodeAt index
  let _ ← d.root.nodeAt a
  return { d with root := d.root.setValue a v }

/-- `item`, a query that may build the map. -/
def item (d : AvlDictionary κ ν) (index : Int) : Option (AvlDictionary κ ν × ν) := do
  let (d, a) ← d.nodeAt index
  return (d, (← d.root.nodeAt a).2)

/-- `key` -/
def key (d : AvlDictionary κ ν) (index : Int) : Option (AvlDictionary κ ν × κ) := do
  let (d, a) ← d.nodeAt index
  return (d, (← d.root.nodeAt a).1)

inductive Command (κ ν : Type)
  | put (v : ν) (k : κ)
  | fastPut (v : ν) (k : κ)
  | add (v : ν) (k : κ)
  | remove (k : κ)
  | fastRemove (k : κ)
  | setItem (v : ν) (index : Int)
  | clearCount
  | clearCountAndCapacity
  | key (index : Int)
  | item (index : Int)

def execute (d : AvlDictionary κ ν) : Command κ ν → Option (AvlDictionary κ ν)
  | .put v k | .add v k => put C d v k
  | .fastPut v k => fastPut C d v k
  | .remove k => d.remove C k
  | .fastRemove k => d.fastRemove C k
  | .setItem v index => setItem d v index
  | .clearCount | .clearCountAndCapacity => some d.clearCount
  | .key index => do return (← key d index).1
  | .item index => do return (← item d index).1

/-- The precondition of a command; the fast variants are for keys that `=` compares as
`is_equal` does. -/
def Command.Allowed (d : AvlDictionary κ ν) : Command κ ν → Prop
  | .add _ k => has C d k = false
  | .fastPut _ _ | .fastRemove _ => C.Discriminating
  | .setItem _ index | .key index | .item index => 1 ≤ index ∧ index ≤ d.count
  | _ => True

/-- What a command does to the map; `keyAt` is the query `key`, which names the key that
`set_item` writes. -/
def Command.update (m : κ → Option ν) (keyAt : Int → Option κ) : Command κ ν → κ → Option ν
  | .put v k | .add v k | .fastPut v k => AvlContainer.update C m k (some v)
  | .remove k | .fastRemove k => AvlContainer.update C m k none
  | .setItem v index => (keyAt index).elim m fun k => AvlContainer.update C m k (some v)
  | .clearCount | .clearCountAndCapacity => fun _ => none
  | .key _ | .item _ => m

/-- The dictionary and the map after the same commands; the other dictionaries of the type may
change the pool, and the garbage collector may clear it. -/
inductive Reaches : AvlDictionary κ ν → (κ → Option ν) → Prop
  | make {pool : AvlPool} (apart : pool.Apart []) : Reaches (AvlContainer.make pool) fun _ => none
  | step {d d' : AvlDictionary κ ν} {m : κ → Option ν} (command : Command κ ν)
      (before : Reaches d m) (allowed : command.Allowed C d)
      (run : execute C d command = some d') :
      Reaches d' (command.update C m fun index => (key d index).map Prod.snd)
  | elsewhere {d : AvlDictionary κ ν} {m : κ → Option ν} (pool : AvlPool) (before : Reaches d m)
      (apart : pool.Apart d.root.addresses) : Reaches { d with pool := pool } m

/-! ## Enumeration -/

variable {C} {d : AvlDictionary κ ν} {m : κ → Option ν}

/-- `key` and `item` answer the binding at the index and change nothing but the cache. -/
theorem returns_key (h : Represents C d m) {index : Int} (first : 1 ≤ index)
    (last : index ≤ d.count) :
    ∃ d' p, key d index = some (d', p.1) ∧ item d index = some (d', p.2) ∧
      d.root.bindings[(index - 1).toNat]? = some p ∧ Represents C d' m := by
  have total := h.count_eq
  rw [AvlTreeNode.count_eq_length] at total
  obtain ⟨⟨d', a⟩, run, held, root, -, -, -, at_i⟩ := h.returns_nodeAt first last
  have nodup := (List.nodup_append.mp h.apart.nodup).2.1
  have node := AvlTreeNode.nodeAt_getElem nodup at_i
  have inside : (index - 1).toNat < d.root.bindings.length := by
    unfold AvlTreeNode.bindings
    rw [List.length_map]
    omega
  obtain ⟨p, binding⟩ : ∃ p, d.root.bindings[(index - 1).toNat]? = some p :=
    ⟨_, List.getElem?_eq_getElem inside⟩
  refine ⟨d', p, ?_, ?_, binding, held⟩
  · unfold key
    rw [run, Option.bind_eq_bind, Option.bind_some]
    dsimp only
    rw [root, node, binding]
    rfl
  · unfold item
    rw [run, Option.bind_eq_bind, Option.bind_some]
    dsimp only
    rw [root, node, binding]
    rfl

theorem returns_setItem (h : Represents C d m) (v : ν) {index : Int} (first : 1 ≤ index)
    (last : index ≤ d.count) :
    ∃ d' k, key d index = some (d', k) ∧ Returns (setItem d v index) fun d'' =>
      Represents C d'' (AvlContainer.update C m k (some v)) := by
  obtain ⟨d', p, named, -, binding, -⟩ := returns_key h first last
  obtain ⟨⟨e, a⟩, run, held, root, -, -, -, at_i⟩ := h.returns_nodeAt first last
  have nodup := (List.nodup_append.mp h.apart.nodup).2.1
  have node := AvlTreeNode.nodeAt_getElem nodup at_i
  refine ⟨d', p.1, named, ?_⟩
  unfold setItem
  rw [run, Option.bind_eq_bind, Option.bind_some]
  dsimp only
  rw [root, node, binding, Option.bind_eq_bind, Option.bind_some, ← root]
  rw [← root] at at_i binding
  exact Returns.pure_iff.mpr (held.setValue at_i binding v)

/-! ## Runs -/

theorem returns_execute (h : Represents C d m) {command : Command κ ν}
    (allowed : command.Allowed C d) :
    Returns (execute C d command) fun d' =>
      Represents C d' (command.update C m fun index => (key d index).map Prod.snd) := by
  cases command with
  | put v k => exact h.returns_insert k v
  | add v k => exact h.returns_insert k v
  | fastPut v k =>
    change Returns (d.fastInsert C k v) _
    rw [fastInsert_eq allowed]
    exact h.returns_insert k v
  | remove k => exact h.returns_remove k
  | fastRemove k =>
    change Returns (d.fastRemove C k) _
    rw [fastRemove_eq allowed]
    exact h.returns_remove k
  | setItem v index =>
    obtain ⟨d', k, named, written⟩ := returns_setItem h v allowed.1 allowed.2
    have update : (Command.setItem v index).update C m (fun index =>
        (key d index).map Prod.snd) = AvlContainer.update C m k (some v) := by
      change ((key d index).map Prod.snd).elim m _ = _
      rw [named]
      rfl
    rw [update]
    exact written
  | clearCount => exact Returns.some_iff.mpr h.clearCount
  | clearCountAndCapacity => exact Returns.some_iff.mpr h.clearCount
  | key index =>
    obtain ⟨d', p, named, -, -, held⟩ := returns_key h allowed.1 allowed.2
    refine ⟨d', ?_, held⟩
    change (do return (← key d index).1) = _
    rw [named]
    rfl
  | item index =>
    obtain ⟨d', p, -, answered, -, held⟩ := returns_key h allowed.1 allowed.2
    refine ⟨d', ?_, held⟩
    change (do return (← item d index).1) = _
    rw [answered]
    rfl

theorem Reaches.represents (reached : Reaches C d m) : Represents C d m := by
  induction reached with
  | make apart => exact represents_make apart
  | step command _ allowed run ih => exact (returns_execute ih allowed).unique run
  | elsewhere pool _ apart ih => exact ih.withPool apart

/-- **AVL_DICTIONARY is a finite map ordered by key.**  In every dictionary that a program comes
to, the searches answer as the map that its commands make, an enumeration comes to its bindings
in increasing order of their keys, the cache of the enumeration is not stale, and the next
command returns. -/
theorem reaches_orderedMap (κ ν : Type) (C : AvlItems κ) (d : AvlDictionary κ ν)
    (m : κ → Option ν) (reached : Reaches C d m) :
    (∀ k, has C d k = (m k).isSome ∧ referenceAt C d k = some (m k) ∧
      (has C d k = true → at' C d k = m k)) ∧
    (C.Discriminating → ∀ k, fastHas C d k = (m k).isSome ∧
      fastReferenceAt C d k = some (m k) ∧ (has C d k = true → fastAt C d k = m k)) ∧
    (∃ bindings : List (κ × ν), bindings.Pairwise (fun p q => C.ordered p.1 q.1 = true) ∧
      (bindings.length : Int) = d.count ∧
      (∀ k v, m k = some v ↔ ∃ p ∈ bindings, Same C.ordered p.1 k ∧ p.2 = v) ∧
      ∀ (i : ℕ) (p : κ × ν), bindings[i]? = some p →
        ∃ d', key d (i + 1) = some (d', p.1) ∧ item d (i + 1) = some (d', p.2)) ∧
    (d.mapDirty = false → d.map = d.root.addresses) ∧
    ∀ command : Command κ ν, command.Allowed C d → ∃ d', execute C d command = some d' := by
  have h := reached.represents
  have length : (d.root.bindings.length : Int) = d.count := by
    rw [h.count_eq, AvlTreeNode.count_eq_length]
    unfold AvlTreeNode.bindings
    rw [List.length_map]
  refine ⟨fun k => ⟨h.has_eq k, congrArg some (h.at_eq k), fun _ => h.at_eq k⟩,
    fun discriminating k => ⟨?_, ?_, fun _ => ?_⟩,
    ⟨d.root.bindings, h.sorted, length, h.lookup, fun i p at_i => ?_⟩, h.cache,
    fun command allowed => (returns_execute h allowed).isSome⟩
  · exact (AvlTreeNode.fastHas_eq discriminating d.root k).trans (h.has_eq k)
  · exact congrArg some ((AvlTreeNode.fastAt_eq discriminating d.root k).trans (h.at_eq k))
  · exact (AvlTreeNode.fastAt_eq discriminating d.root k).trans (h.at_eq k)
  · have inside : i < d.root.bindings.length := (List.getElem?_eq_some_iff.mp at_i).1
    obtain ⟨d', q, named, answered, binding, -⟩ :=
      returns_key h (show (1 : Int) ≤ (i : Int) + 1 by omega) (by omega)
    rw [show ((i : Int) + 1 - 1).toNat = i by omega, at_i] at binding
    cases binding
    exact ⟨d', named, answered⟩

/-- An enumeration between a removal and the next insertion, which recycles the node. -/
theorem reaches_orderedMap_enumerated :
    ∃ (d : AvlDictionary ℕ Int) (m : ℕ → Option Int), Reaches AvlTree.natItems d m ∧
      d.mapDirty = true ∧ d.pool.lostNodes = [] ∧
      ∀ k, has AvlTree.natItems d k = (m k).isSome := by
  have made : Reaches AvlTree.natItems (AvlContainer.make ⟨[], 0⟩ : AvlDictionary ℕ Int) _ :=
    .make ⟨.nil, fun a member => absurd member List.not_mem_nil⟩
  have first := made.step (.put 10 1) trivial rfl
  have second := first.step (.put 20 2) trivial rfl
  have third := second.step (.item 2) ⟨by decide, by decide⟩ rfl
  have fourth := third.step (.remove 1) trivial rfl
  have fifth := fourth.step (.key 1) ⟨by decide, by decide⟩ rfl
  have sixth := fifth.step (.put 30 3) trivial rfl
  have refined := reaches_orderedMap ℕ Int AvlTree.natItems _ _ sixth
  exact ⟨_, _, sixth, rfl, rfl, fun k => (refined.1 k).1⟩

end AvlDictionary

end Liberty
