import Liberty.Library.Returns
import Liberty.Storage.AvlNodes
import Liberty.Storage.FastArray

/-!
# AVL containers that are enumerated

`map` is a cache of the nodes in order, built when an enumeration finds it dirty.  A container
is a finite map from the classes of keys that are not ordered either way; `update` is the
change of such a map at one class.
-/

namespace Liberty

open SortedAssoc

/-- The attributes of an `AVL_TREE` with its `map` and the pool of its nodes. -/
structure AvlContainer (V K : Type) extends AvlFlags where
  root : AvlTreeNode (AvlCell V) K
  map : List ℕ
  pool : AvlPool

namespace AvlContainer

variable {V K : Type}

/-! ## The source -/

/-- `make` -/
def make (pool : AvlPool) : AvlContainer V K where
  root := .void
  rebalance := false
  count := 0
  mapDirty := false
  map := []
  pool := pool

/-- `root := do_insert(root)` and the other recursions. -/
def install (d : AvlContainer V K)
    (result : Option (AvlTreeNode (AvlCell V) K × AvlFlags × AvlPool)) :
    Option (AvlContainer V K) := do
  let (root, flags, pool) ← result
  return { toAvlFlags := flags, root := root, map := d.map, pool := pool }

def insert (C : AvlItems K) (d : AvlContainer V K) (k : K) (v : V) : Option (AvlContainer V K) :=
  d.install (d.root.insertNode C k v d.toAvlFlags d.pool)

def fastInsert (C : AvlItems K) (d : AvlContainer V K) (k : K) (v : V) :
    Option (AvlContainer V K) :=
  d.install (d.root.fastInsertNode C k v d.toAvlFlags d.pool)

def remove (C : AvlItems K) (d : AvlContainer V K) (k : K) : Option (AvlContainer V K) :=
  d.install (d.root.removeNode C k d.toAvlFlags d.pool)

def fastRemove (C : AvlItems K) (d : AvlContainer V K) (k : K) : Option (AvlContainer V K) :=
  d.install (d.root.fastRemoveNode C k d.toAvlFlags d.pool)

/-- `clear_count`, `clear_count_and_capacity` -/
def clearCount (d : AvlContainer V K) : AvlContainer V K :=
  if d.count = 0 then d
  else { d with pool := d.root.clearNodes d.pool, root := .void, count := 0, mapDirty := true }

/-- `build_map`; a call on a Void `root` does not return. -/
def buildMap (d : AvlContainer V K) : Option (AvlContainer V K) :=
  if d.count > 0 then
    match d.root with
    | .void => none
    | root => some { d with map := root.mapIn [], mapDirty := false }
  else some { d with map := [], mapDirty := false }

/-- The node at an index, with the map built where it was dirty. -/
def nodeAt (d : AvlContainer V K) (index : Int) : Option (AvlContainer V K × ℕ) := do
  let d ← (if d.mapDirty then d.buildMap else some d)
  return (d, ← FastArray.item d.map (index - 1))

/-! ## The map that a container holds -/

variable (C : AvlItems K)

/-- The map with the keys of one class bound to something else. -/
def update (m : K → Option V) (k : K) (v : Option V) : K → Option V :=
  fun l => if Same C.ordered k l then v else m l

/-- The container holds the map `m`, and its cache is not stale unless it is marked so. -/
structure Represents (d : AvlContainer V K) (m : K → Option V) : Prop where
  sorted : Sorted C.ordered d.root.bindings
  balanced : d.root.Balanced
  count_eq : d.count = d.root.count
  apart : d.pool.Apart d.root.addresses
  cache : d.mapDirty = false → d.map = d.root.addresses
  lookup : ∀ k v, m k = some v ↔ Binds C.ordered d.root.bindings k v

variable {C} {d : AvlContainer V K} {m : K → Option V} {k : K} {v : V}

theorem represents_make {pool : AvlPool} (apart : pool.Apart []) :
    Represents C (make pool : AvlContainer V K) fun _ => none := by
  refine ⟨.nil, trivial, rfl, apart, fun _ => rfl, fun k v => ?_⟩
  exact iff_of_false (fun found => nomatch found) binds_nil

/-- The pool changes as the other containers of the program use it. -/
theorem Represents.withPool (h : Represents C d m) {pool : AvlPool}
    (apart : pool.Apart d.root.addresses) : Represents C { d with pool := pool } m :=
  ⟨h.sorted, h.balanced, h.count_eq, apart, h.cache, h.lookup⟩

/-! ## Updates -/

theorem Represents.returns_insert (h : Represents C d m) (k : K) (v : V) :
    Returns (d.insert C k v) fun d' => Represents C d' (update C m k (some v)) := by
  obtain ⟨⟨root, flags, pool⟩, run, grown, bindings, nodes⟩ :=
    AvlTreeNode.insertNode_spec C k v d.root d.toAvlFlags d.pool h.balanced
  have entries := bindings h.sorted
  have count := grown.count
  have total := h.count_eq
  unfold insert install
  rw [run]
  refine Returns.pure_iff.mpr ⟨?_, grown.balanced, ?_, ?_, fun clean => ?_, fun l w => ?_⟩
  · exact entries ▸ h.sorted.insert C.ordered_trans
  · dsimp only at count ⊢
    omega
  · rcases nodes with ⟨same, -, pool⟩ | ⟨perm, -, pool⟩
    · dsimp only at same pool ⊢
      rw [same, pool]
      exact h.apart
    · dsimp only at perm pool ⊢
      rw [pool]
      exact h.apart.newNode.perm perm
  · rcases nodes with ⟨same, dirty, -⟩ | ⟨-, dirty, -⟩
    · exact (h.cache (dirty.symm.trans clean)).trans same.symm
    · cases dirty.symm.trans clean
  · dsimp only at entries ⊢
    rw [entries, binds_insert C.ordered_irrefl C.ordered_trans C.ordered_same h.sorted, update]
    split
    · exact Option.some_inj
    · exact h.lookup l w

theorem Represents.returns_remove (h : Represents C d m) (k : K) :
    Returns (d.remove C k) fun d' => Represents C d' (update C m k none) := by
  obtain ⟨⟨root, flags, pool⟩, run, shrunk, bindings, nodes⟩ :=
    AvlTreeNode.removeNode_spec C k d.root d.toAvlFlags d.pool h.balanced
  have entries := bindings h.sorted
  have count := shrunk.count
  have total := h.count_eq
  unfold remove install
  rw [run]
  refine Returns.pure_iff.mpr ⟨?_, shrunk.balanced, ?_, ?_, fun clean => ?_, fun l w => ?_⟩
  · exact entries ▸ h.sorted.erase
  · dsimp only at count ⊢
    omega
  · rcases nodes with ⟨same, -, pool⟩ | ⟨a, perm, -, pool⟩
    · dsimp only at same pool ⊢
      rw [same, pool]
      exact h.apart
    · dsimp only at perm pool ⊢
      rw [pool]
      exact (h.apart.perm perm.symm).discardNode
  · rcases nodes with ⟨same, dirty, -⟩ | ⟨a, -, dirty, -⟩
    · exact (h.cache (dirty.symm.trans clean)).trans same.symm
    · cases dirty.symm.trans clean
  · dsimp only at entries ⊢
    rw [entries, binds_erase C.ordered_irrefl C.ordered_trans C.ordered_same h.sorted, update]
    split
    · rename_i equal
      exact iff_of_false (fun found => nomatch found) fun found => found.1 equal
    · rename_i other
      rw [h.lookup l w]
      exact (and_iff_right other).symm

theorem fastInsert_eq (discriminating : C.Discriminating) (d : AvlContainer V K) (k : K) (v : V) :
    d.fastInsert C k v = d.insert C k v := by
  unfold fastInsert insert
  rw [AvlTreeNode.fastInsertNode_eq C discriminating]

theorem fastRemove_eq (discriminating : C.Discriminating) (d : AvlContainer V K) (k : K) :
    d.fastRemove C k = d.remove C k := by
  unfold fastRemove remove
  rw [AvlTreeNode.fastRemoveNode_eq C discriminating]

theorem Represents.clearCount (h : Represents C d m) :
    Represents C d.clearCount fun _ => none := by
  have total := h.count_eq
  unfold AvlContainer.clearCount
  split
  · rename_i zero
    have none : d.root.bindings = [] := by
      rw [zero, AvlTreeNode.count_eq_length] at total
      have length : d.root.entries.length = 0 := by omega
      unfold AvlTreeNode.bindings
      rw [List.length_eq_zero_iff.mp length]
      rfl
    refine ⟨h.sorted, h.balanced, h.count_eq, h.apart, h.cache, fun k v => ?_⟩
    rw [none]
    exact iff_of_false (fun found => nomatch found) binds_nil
  · refine ⟨.nil, trivial, rfl, ?_, fun clean => (by cases clean), fun k v => ?_⟩
    · refine AvlTreeNode.Apart_clearNodes d.root d.pool [] ?_
      rw [List.append_nil]
      exact h.apart
    · exact iff_of_false (fun found => nomatch found) binds_nil

/-! ## Searches -/

theorem Represents.at_eq (h : Represents C d m) (k : K) : d.root.at' C k = m k := by
  refine Option.ext fun v => ?_
  rw [AvlTreeNode.at_eq_some_iff h.sorted, h.lookup]

theorem Represents.has_eq (h : Represents C d m) (k : K) : d.root.has C k = (m k).isSome := by
  rw [AvlTreeNode.has_eq_isSome, h.at_eq]

/-! ## Enumeration -/

/-- The map is built and changes nothing else. -/
theorem Represents.returns_buildMap (h : Represents C d m) :
    Returns d.buildMap fun d' => Represents C d' m ∧ d'.mapDirty = false ∧ d'.root = d.root ∧
      d'.count = d.count ∧ d'.pool = d.pool := by
  have total := h.count_eq
  unfold buildMap
  split
  · rename_i positive
    cases shape : d.root with
    | void =>
      rw [shape] at total
      change d.count = 0 at total
      omega
    | node l i c b r =>
      dsimp only
      rw [← shape]
      refine Returns.some_iff.mpr ⟨⟨h.sorted, h.balanced, h.count_eq, h.apart, fun _ => ?_,
        h.lookup⟩, rfl, rfl, rfl, rfl⟩
      exact AvlTreeNode.mapIn_eq d.root []
  · rename_i zero
    rw [AvlTreeNode.count_eq_addresses] at total
    have none : d.root.addresses = [] := List.length_eq_zero_iff.mp (by omega)
    exact Returns.some_iff.mpr ⟨⟨h.sorted, h.balanced, h.count_eq, h.apart, fun _ => none.symm,
      h.lookup⟩, rfl, rfl, rfl, rfl⟩

/-- The node at an index is that of the binding there. -/
theorem Represents.returns_nodeAt (h : Represents C d m) {index : Int} (first : 1 ≤ index)
    (last : index ≤ d.count) :
    Returns (d.nodeAt index) fun s => Represents C s.1 m ∧ s.1.root = d.root ∧
      s.1.count = d.count ∧ s.1.pool = d.pool ∧ s.1.mapDirty = false ∧
      d.root.addresses[(index - 1).toNat]? = some s.2 := by
  have total := h.count_eq
  rw [AvlTreeNode.count_eq_addresses] at total
  have inside : (index - 1).toNat < d.root.addresses.length := by omega
  have built : Returns (if d.mapDirty then d.buildMap else some d) fun d' => Represents C d' m ∧
      d'.mapDirty = false ∧ d'.root = d.root ∧ d'.count = d.count ∧ d'.pool = d.pool := by
    split
    · exact h.returns_buildMap
    · rename_i clean
      exact Returns.some_iff.mpr ⟨h, Bool.eq_false_iff.mpr clean, rfl, rfl, rfl⟩
  unfold nodeAt
  rw [Returns.bind_iff]
  refine built.mono fun d' ⟨held, clean, root, count, pool⟩ => ?_
  have map := held.cache clean
  rw [root] at map
  rw [map, FastArray.item_of_lt (by omega) inside, Returns.bind_iff, Returns.some_iff,
    Returns.pure_iff]
  exact ⟨held, root, count, pool, clean, List.getElem?_eq_getElem inside⟩

theorem Represents.setValue (h : Represents C d m) {i a : ℕ}
    (at_i : d.root.addresses[i]? = some a) {p : K × V} (binding : d.root.bindings[i]? = some p)
    (v : V) : Represents C { d with root := d.root.setValue a v } (update C m p.1 (some v)) := by
  have nodup := (List.nodup_append.mp h.apart.nodup).2.1
  have addresses := AvlTreeNode.addresses_setValue a v d.root
  have count : (d.root.setValue a v).count = d.root.count := by
    rw [AvlTreeNode.count_eq_addresses, AvlTreeNode.count_eq_addresses, addresses]
  -- the entry of the node, between those of other addresses
  have bindings : (d.root.setValue a v).bindings =
      SortedAssoc.insert C.ordered p.1 v d.root.bindings := by
    have sorted := h.sorted
    unfold AvlTreeNode.addresses at nodup at_i
    unfold AvlTreeNode.bindings at binding sorted ⊢
    rw [List.getElem?_map] at at_i binding
    obtain ⟨e, at_e, rfl⟩ := Option.map_eq_some_iff.mp at_i
    rw [at_e, Option.map_some, Option.some_inj] at binding
    subst binding
    obtain ⟨s, t, split⟩ := List.mem_iff_append.mp (List.mem_of_getElem? at_e)
    rw [AvlTreeNode.entries_setValue, List.map_map]
    rw [split] at nodup sorted ⊢
    rw [List.map_append, List.map_cons] at nodup sorted ⊢
    rw [List.map_append, List.map_cons]
    have moved := List.nodup_cons.mp (List.nodup_middle.mp nodup)
    have others : ∀ e' ∈ s ++ t, e'.2.address ≠ e.2.address := by
      intro e' member same
      refine moved.1 ?_
      rw [← List.map_append, ← same]
      exact List.mem_map_of_mem member
    have kept : ∀ l : List (K × AvlCell V), (∀ e' ∈ l, e' ∈ s ++ t) →
        l.map ((fun e' => (e'.1, e'.2.value)) ∘ fun e' =>
          (e'.1, if e'.2.address = e.2.address then { e'.2 with value := v } else e'.2)) =
        l.map fun e' => (e'.1, e'.2.value) := by
      intro l inside
      refine List.map_congr_left fun e' member => ?_
      dsimp only [Function.comp]
      rw [if_neg (others e' (inside e' member))]
    rw [kept s fun e' => List.mem_append_left t, kept t fun e' => List.mem_append_right s]
    have above : Above C.ordered e.1 (s.map fun e' => (e'.1, e'.2.value)) := by
      intro entry member
      have below := (List.pairwise_append.mp sorted).2.2 entry member (e.1, e.2.value)
        List.mem_cons_self
      exact ⟨asymm C.ordered_irrefl C.ordered_trans below, below⟩
    rw [insert_append_of_above above]
    simp [SortedAssoc.insert, C.ordered_irrefl]
  refine ⟨?_, h.balanced.setValue a v, h.count_eq.trans count.symm, ?_, fun clean => ?_,
    fun l w => ?_⟩
  · dsimp only
    rw [bindings]
    exact h.sorted.insert C.ordered_trans
  · dsimp only
    rw [addresses]
    exact h.apart
  · exact (h.cache clean).trans addresses.symm
  · dsimp only
    rw [bindings, binds_insert C.ordered_irrefl C.ordered_trans C.ordered_same h.sorted, update]
    split
    · exact Option.some_inj
    · exact h.lookup l w

/-! ## Fast and slow operations -/

end AvlContainer

end Liberty
