import Liberty.Storage.HashedDictionaryRuns
import Mathlib.Data.Set.Function

/-!
# The indices of a HASHED_DICTIONARY

`key` and `item` walk from the cached index.  Between two updates of a dictionary they count its
pairs, in whatever order the indices are asked for and whatever happens to other dictionaries.
-/

namespace Liberty

open LinkedNodes HashTableSize NodeHeap

/-! ## The index of the cache -/

/-- The node of the cache is the one that its index counts to. -/
theorem NodeCache.At.node_eq {c : NodeCache} {n : ℕ} {chain : ℕ → List ℕ} (active : c.At n chain) {j : ℕ}
    (user : c.user = j + 1) : c.node = (order chain n)[j]? ∧ 0 ≤ c.buckets ∧ c.buckets < n := by
  obtain ⟨b, a, p, q, bucket, less, cached, split, counted⟩ := active
  obtain ⟨more, whole⟩ := order_isPrefix chain (show b + 1 ≤ n from less)
  have position : j = (order chain b).length + p.length := by omega
  refine ⟨?_, by omega, by omega⟩
  rw [cached, ← whole, order_succ, split, position, List.append_assoc, List.append_assoc,
    List.getElem?_append_right (Nat.le_add_right _ _), Nat.add_sub_cancel_left,
    List.getElem?_append_right (Nat.le_refl _), Nat.sub_self]
  rfl

namespace HashedDictionary

variable {κ ν : Type} [HashedKey κ]

/-! ## The pairs in the order of their indices -/

/-- The entries `entry` are the pairs of the nodes `l`, in their order. -/
def Enumerates (node : Memory (Node κ ν)) (l : List ℕ) {n : ℕ} (entry : Fin n → κ × ν) : Prop :=
  l.length = n ∧ ∀ j : Fin n, ∃ a x, l[j.val]? = some a ∧ node a = some x ∧ entry j = (x.key, x.item)

/-- `set_cache_user` has come to an index, with a bucket inside the table. -/
structure Cached (d : HashedDictionary κ ν) (index : Int) : Prop where
  user : d.cache.user = index
  node : d.cache.node.isSome = true
  low : 0 ≤ d.cache.buckets
  high : d.cache.buckets < d.capacity

variable {others others' : Set ℕ} {d d' : HashedDictionary κ ν} {n n' : ℕ} {chain chain' : ℕ → List ℕ}
  {free free' : List ℕ} {m : FiniteMap κ ν} {count : ℕ} {entry : Fin count → κ × ν}

theorem Table.exists_enumerates (t : Table others d n chain free) :
    ∃ entry : Fin (order chain n).length → κ × ν, Enumerates d.heap.node (order chain n) entry := by
  have each : ∀ j : Fin (order chain n).length, ∃ e : κ × ν, ∃ a x,
      (order chain n)[j.val]? = some a ∧ d.heap.node a = some x ∧ e = (x.key, x.item) := by
    intro j
    obtain ⟨x, at_a⟩ := t.allocated (List.getElem_mem j.isLt)
    exact ⟨(x.key, x.item), _, x, List.getElem?_eq_getElem j.isLt, at_a, rfl⟩
  choose entry told using each
  exact ⟨entry, rfl, told⟩

/-- The entries are the pairs of the map, each key once. -/
theorem Table.bijOn (t : Table others d n chain free)
    (tab : Tabulates (pairs d.heap.node (order chain n)) m)
    (enumerates : Enumerates d.heap.node (order chain n) entry) :
    Set.BijOn (fun j => keyClass (entry j).1) Set.univ {q | q ∈ m} ∧
      ∀ j, m.lookup (keyClass (entry j).1) = some (entry j).2 := by
  obtain ⟨length, told⟩ := enumerates
  have found : ∀ j, m.lookup (keyClass (entry j).1) = some (entry j).2 := by
    intro j
    obtain ⟨a, x, at_j, at_a, same⟩ := told j
    refine (tab _ _).mpr ⟨x.key, ⟨a, List.mem_of_getElem? at_j, x, at_a, rfl, ?_⟩, ?_⟩
    · rw [same]
    · rw [same]
  refine ⟨⟨fun j _ => Finmap.mem_of_lookup_eq_some (found j), ?_, ?_⟩, found⟩
  · intro j _ j' _ same
    obtain ⟨a, x, at_j, at_a, first⟩ := told j
    obtain ⟨b, y, at_j', at_b, second⟩ := told j'
    dsimp only at same
    rw [first, second] at same
    obtain rfl := t.distinct a (List.mem_of_getElem? at_j) b (List.mem_of_getElem? at_j') x y at_a at_b
      (keyClass_eq.mp same)
    have less : j.val < (order chain n).length := length.symm ▸ j.isLt
    exact Fin.ext ((List.getElem?_inj less t.nodup).mp (at_j.trans at_j'.symm))
  · intro q present
    obtain ⟨v, at_q⟩ := Finmap.mem_iff.mp present
    obtain ⟨k, ⟨a, member, x, at_a, rfl, -⟩, rfl⟩ := (tab q v).mp at_q
    obtain ⟨i, less, at_i⟩ := List.mem_iff_getElem.mp member
    obtain ⟨b, y, at_j, at_b, same⟩ := told ⟨i, by omega⟩
    refine ⟨⟨i, by omega⟩, Set.mem_univ _, ?_⟩
    have here : a = b := by
      rw [← at_i]
      exact Option.some.inj ((List.getElem?_eq_getElem less).symm.trans at_j)
    subst here
    cases at_a.symm.trans at_b
    dsimp only
    rw [same]

/-- `key` and `item` answer the entry that the index counts. -/
theorem Table.returns_entry (t : Table others d n chain free) (cached : d.cache.Valid n chain)
    (enumerates : Enumerates d.heap.node (order chain n) entry) (j : Fin count) :
    ∃ d', d.setCacheUser (j + 1) = some d' ∧ Cached d' (j + 1) ∧ d.key (j + 1) = some (d', (entry j).1) ∧
      d.item (j + 1) = some (d', (entry j).2) := by
  obtain ⟨length, told⟩ := enumerates
  obtain ⟨c, run, user, active⟩ := cached.returns_set t.buckets (fun a member => t.allocated member)
    (show (1 : Int) ≤ j + 1 by omega) (by omega)
  have set : d.setCacheUser (j + 1) = some { d with cache := c } := by
    unfold setCacheUser
    rw [t.capacity_eq, run]
    rfl
  obtain ⟨node, low, high⟩ := active.node_eq user
  obtain ⟨a, x, at_j, at_a, same⟩ := told j
  rw [at_j] at node
  refine ⟨{ d with cache := c }, set, ⟨user, ?_, low, ?_⟩, ?_, ?_⟩
  · dsimp only
    rw [node]
    rfl
  · dsimp only
    rw [t.capacity_eq]
    exact high
  · unfold key
    rw [set, Option.bind_eq_bind, Option.bind_some]
    rw [node, Option.bind_eq_bind, Option.bind_some, at_a, same]
    rfl
  · unfold item
    rw [set, Option.bind_eq_bind, Option.bind_some]
    rw [node, Option.bind_eq_bind, Option.bind_some, at_a, same]
    rfl

/-- The chains are told by the buckets and the nodes. -/
theorem Table.order_unique (t : Table others d n chain free) (t' : Table others' d' n' chain' free')
    (buckets : d'.buckets = d.buckets) (capacity : d'.capacity = d.capacity)
    (same : ∀ a ∈ order chain n, d'.heap.node a = d.heap.node a) : order chain' n' = order chain n := by
  have sizes : n' = n := by
    have size := t.capacity_eq
    have size' := t'.capacity_eq
    omega
  subst sizes
  refine order_congr fun i less => ?_
  have there := t'.buckets.chains i less
  rw [buckets] at there
  refine there.unique ((t.buckets.chains i less).congr fun a member => ?_)
  unfold nextOf
  rw [same a (mem_order.mpr ⟨i, less, member⟩)]

namespace World

/-! ## Between two updates -/

/-- A command that only asks. -/
def Asks : Command κ ν → Prop
  | .key _ | .item _ => True
  | _ => False

/-- The program goes on without an update of the dictionary `i`: it asks for keys and items, changes other
dictionaries, makes new ones, and collects garbage. -/
inductive Leaves (sameObject : κ → κ → Bool) (i : ℕ) (w : World κ ν) (maps : ℕ → FiniteMap κ ν) :
    World κ ν → (ℕ → FiniteMap κ ν) → Prop
  | here : Leaves sameObject i w maps w maps
  | creation {w' : World κ ν} {maps' : ℕ → FiniteMap κ ν} (j : ℕ) (c : Creation)
      (before : Leaves sameObject i w maps w' maps') (new : w'.dictionary j = none) (allowed : c.Allowed) :
      Leaves sameObject i w maps (w'.leave j (c.run w'.heap)) (Function.update maps' j ∅)
  | step {w' : World κ ν} {maps' : ℕ → FiniteMap κ ν} (j : ℕ) {d d' : HashedDictionary κ ν}
      (command : Command κ ν) (before : Leaves sameObject i w maps w' maps')
      (object : w'.dictionary j = some d) (allowed : command.Allowed sameObject (maps' j))
      (quiet : j = i → Asks command) (run : (w'.enter d).execute sameObject command = some d') :
      Leaves sameObject i w maps (w'.leave j d')
        (Function.update maps' j
          (command.update (maps' j) fun index => ((w'.enter d).key index).map Prod.snd))
  | collect {w' : World κ ν} {maps' : ℕ → FiniteMap κ ν} (before : Leaves sameObject i w maps w' maps') :
      Leaves sameObject i w maps { w' with heap := w'.heap.collect } maps'

variable {w w' : World κ ν} {maps maps' : ℕ → FiniteMap κ ν} {i : ℕ} {sameObject : κ → κ → Bool}
  {object : HashedDictionary κ ν} {l : List ℕ}

theorem Leaves.reaches (leaves : Leaves sameObject i w maps w' maps') (reached : Reaches sameObject w maps) :
    Reaches sameObject w' maps' := by
  induction leaves with
  | here => exact reached
  | creation j c _ new allowed ih => exact ih.creation j c new allowed
  | step j command _ object allowed _ run ih => exact ih.step j command object allowed run
  | collect _ ih => exact ih.collect

/-- The dictionary is as it was but for its cache, and so are the nodes `l`. -/
structure Unchanged (i : ℕ) (object : HashedDictionary κ ν) (l : List ℕ) (w : World κ ν) (maps : ℕ → FiniteMap κ ν)
    (w' : World κ ν) (maps' : ℕ → FiniteMap κ ν) : Prop where
  dictionary : ∃ object', w'.dictionary i = some object' ∧ object'.buckets = object.buckets ∧
    object'.capacity = object.capacity ∧ object'.count = object.count
  nodes : ∀ a ∈ l, w'.heap.node a = w.heap.node a
  map : maps' i = maps i

/-- A query leaves everything but the cache. -/
theorem buckets_of_asks {d d' : HashedDictionary κ ν} {command : Command κ ν} (asks : Asks command)
    (run : d.execute sameObject command = some d') :
    ∃ c, d' = { d with cache := c } := by
  have moved : ∀ {index : Int} {d'' : HashedDictionary κ ν}, d.setCacheUser index = some d'' →
      ∃ c, d'' = { d with cache := c } := by
    intro index d'' set
    obtain ⟨c, -, rest⟩ := Option.bind_eq_some_iff.mp set
    cases rest
    exact ⟨c, rfl⟩
  cases command with
  | plain c => exact absurd asks not_false
  | fastPut v k => exact absurd asks not_false
  | fastRemove k => exact absurd asks not_false
  | key index =>
    obtain ⟨r, named, rest⟩ := Option.bind_eq_some_iff.mp run
    obtain ⟨d'', set, more⟩ := Option.bind_eq_some_iff.mp named
    obtain ⟨a, -, more⟩ := Option.bind_eq_some_iff.mp more
    obtain ⟨x, -, more⟩ := Option.bind_eq_some_iff.mp more
    cases more
    cases rest
    exact moved set
  | item index =>
    obtain ⟨r, named, rest⟩ := Option.bind_eq_some_iff.mp run
    obtain ⟨d'', set, more⟩ := Option.bind_eq_some_iff.mp named
    obtain ⟨a, -, more⟩ := Option.bind_eq_some_iff.mp more
    obtain ⟨x, -, more⟩ := Option.bind_eq_some_iff.mp more
    cases more
    cases rest
    exact moved set

theorem update_of_asks {command : Command κ ν} (asks : Asks command) (m : FiniteMap κ ν) (keyAt : Int → Option κ) :
    command.update m keyAt = m := by
  cases command with
  | plain c => exact absurd asks not_false
  | fastPut v k => exact absurd asks not_false
  | fastRemove k => exact absurd asks not_false
  | key index => rfl
  | item index => rfl

/-- Nothing but the cache of the dictionary changes until its next update. -/
theorem Leaves.unchanged (leaves : Leaves sameObject i w maps w' maps') (reached : Reaches sameObject w maps)
    (of_program : w.dictionary i = some object) {others : Set ℕ} {n : ℕ} {chain : ℕ → List ℕ} {free : List ℕ}
    (t : Table others (w.enter object) n chain free) :
    Unchanged i object (order chain n) w maps w' maps' := by
  induction leaves with
  | here => exact ⟨⟨object, of_program, rfl, rfl, rfl⟩, fun _ _ => rfl, rfl⟩
  | @creation w' maps' j c before new allowed ih =>
    obtain ⟨object', there, fields⟩ := ih.dictionary
    have other : i ≠ j := by
      intro same
      rw [same, new] at there
      cases there
    refine ⟨⟨object', ?_, fields⟩, fun a member => ?_, ?_⟩
    · exact (Function.update_of_ne other _ _).trans there
    · rw [← ih.nodes a member]
      cases c <;> rfl
    · exact (Function.update_of_ne other _ _).trans ih.map
  | @step w' maps' j d d' command before there allowed quiet run ih =>
    obtain ⟨object', of_program', buckets, capacity, count⟩ := ih.dictionary
    by_cases here : j = i
    · subst here
      cases there.symm.trans of_program'
      obtain ⟨c, rfl⟩ := buckets_of_asks (quiet rfl) run
      refine ⟨⟨_, Function.update_self _ _ _, buckets, capacity, count⟩, ih.nodes, ?_⟩
      rw [Function.update_self, update_of_asks (quiet rfl)]
      exact ih.map
    · refine ⟨⟨object', ?_, buckets, capacity, count⟩, fun a member => ?_, ?_⟩
      · exact (Function.update_of_ne (Ne.symm here) _ _).trans of_program'
      · obtain ⟨own, free', h⟩ := (before.reaches reached).invariant
        obtain ⟨n', chain', t', mine, -⟩ := h.member i object' of_program'
        have same := t.order_unique t' buckets capacity ih.nodes
        have inside : a ∈ own i := (mine a).mpr (same.symm ▸ member)
        have keeps := (((h.member j d there).represents.execute allowed).unique run).2
        rw [← ih.nodes a member]
        exact keeps a ⟨i, Ne.symm here, inside⟩
      · exact (Function.update_of_ne (Ne.symm here) _ _).trans ih.map
  | collect _ ih => exact ⟨ih.dictionary, ih.nodes, ih.map⟩

/-- **The indices of a HASHED_DICTIONARY.**  From an update of a dictionary to the next one, `key` is a
bijection from the indices to the keys of its map and `item` gives their values, in whatever order the indices
are asked for; the search from the cache ends at the index, with a bucket inside the table. -/
theorem reaches_enumerates (κ ν : Type) [HashedKey κ] (sameObject : κ → κ → Bool) (w : World κ ν)
    (maps : ℕ → FiniteMap κ ν) (reached : Reaches sameObject w maps) (i : ℕ)
    (object : HashedDictionary κ ν) (of_program : w.dictionary i = some object) :
    ∃ (count : ℕ) (entry : Fin count → κ × ν), object.count = count ∧
      Set.BijOn (fun j => keyClass (entry j).1) Set.univ {q | q ∈ maps i} ∧
      (∀ j, (maps i).lookup (keyClass (entry j).1) = some (entry j).2) ∧
      ∀ w' maps', Leaves sameObject i w maps w' maps' →
        maps' i = maps i ∧ ∃ object', w'.dictionary i = some object' ∧ object'.count = count ∧
          ∀ j : Fin count, ∃ d', (w'.enter object').setCacheUser (j + 1) = some d' ∧ Cached d' (j + 1) ∧
            (w'.enter object').key (j + 1) = some (d', (entry j).1) ∧
            (w'.enter object').item (j + 1) = some (d', (entry j).2) := by
  obtain ⟨own, free, h⟩ := reached.invariant
  obtain ⟨n, chain, t, -, tab, -⟩ := h.member i object of_program
  obtain ⟨entry, enumerates⟩ := t.exists_enumerates
  obtain ⟨bijective, found⟩ := t.bijOn tab enumerates
  refine ⟨_, entry, t.count_eq, bijective, found, fun w' maps' leaves => ?_⟩
  have unchanged := leaves.unchanged reached of_program t
  obtain ⟨object', of_program', buckets, capacity, count⟩ := unchanged.dictionary
  refine ⟨unchanged.map, object', of_program', count.trans t.count_eq, ?_⟩
  obtain ⟨own', free', h'⟩ := (leaves.reaches reached).invariant
  obtain ⟨n', chain', t', -, -, cached⟩ := h'.member i object' of_program'
  have same := t.order_unique t' buckets capacity unchanged.nodes
  have enumerates' : Enumerates (w'.enter object').heap.node (order chain' n') entry := by
    refine ⟨congrArg List.length same, fun j => ?_⟩
    obtain ⟨a, x, at_j, at_a, told⟩ := enumerates.2 j
    exact ⟨a, x, same.symm ▸ at_j, (unchanged.nodes a (List.mem_of_getElem? at_j)).trans at_a, told⟩
  exact t'.returns_entry cached enumerates'

/-- Two keys, of which the second is asked for after another dictionary has been changed. -/
theorem reaches_enumerates_two :
    ∃ (w w' : World (BitVec 32) Int) (maps maps' : ℕ → FiniteMap (BitVec 32) Int)
      (object : HashedDictionary (BitVec 32) Int), Reaches (· == ·) w maps ∧
      w.dictionary 0 = some object ∧ object.count = 2 ∧ Leaves (· == ·) 0 w maps w' maps' ∧ maps' 0 = maps 0 := by
  have started : Reaches (· == ·) (start : World (BitVec 32) Int) fun _ => ∅ := .start
  have first := started.creation 0 (.withCapacity 0) rfl ⟨by decide, by decide⟩
  have second := first.creation 1 .make rfl trivial
  have third := second.step 0 (.plain (.put 1 7)) rfl trivial rfl
  have fourth := third.step 0 (.plain (.put 2 8)) rfl trivial rfl
  have here : ∀ {w : World (BitVec 32) Int} {maps}, Reaches (· == ·) w maps → Leaves (· == ·) 0 w maps w maps :=
    fun _ => .here
  have asked := (here fourth).step 1 (.plain (.put 3 9)) rfl trivial (fun same => absurd same (by decide)) rfl
  obtain ⟨_, _, _, _, _, between⟩ := reaches_enumerates (BitVec 32) Int (· == ·) _ _ fourth 0 _ rfl
  exact ⟨_, _, _, _, _, fourth, rfl, rfl, asked, (between _ _ asked).1⟩

end World

end HashedDictionary

end Liberty
