import Liberty.Storage.HashedDictionary

/-!
# The finite map that a HASHED_DICTIONARY holds

The chains of a dictionary are told by lists of addresses; `others` are the nodes that other
dictionaries of the type use, and no command changes them.  A program has any number of such
dictionaries, which recycle one another's nodes.
-/

namespace Liberty

open LinkedNodes HashTableSize NodeHeap

namespace HashedDictionary

variable {κ ν : Type} [HashedKey κ]

/-! ## The chains of a dictionary -/

/-- The nodes of the chains and those of other dictionaries. -/
def inUse (chain : ℕ → List ℕ) (n : ℕ) (others : Set ℕ) : Set ℕ :=
  {a | a ∈ order chain n ∨ a ∈ others}

/-- No two nodes have equal keys. -/
def DistinctKeys (node : Memory (Node κ ν)) (l : List ℕ) : Prop :=
  ∀ a ∈ l, ∀ b ∈ l, ∀ x y, node a = some x → node b = some y → x.key ≈ y.key → a = b

/-- The keys and the items of the nodes. -/
def pairs (node : Memory (Node κ ν)) (l : List ℕ) (k : κ) (v : ν) : Prop :=
  ∃ a ∈ l, ∃ x, node a = some x ∧ x.key = k ∧ x.item = v

/-- The dictionary has `n` buckets with the chains `chain`, and the nodes `free` are ready to
be recycled. -/
structure Table (others : Set ℕ) (d : HashedDictionary κ ν) (n : ℕ) (chain : ℕ → List ℕ)
    (free : List ℕ) : Prop where
  capacity_eq : d.capacity = n
  low : 3 ≤ n
  high : n ≤ 2147483647
  buckets : Buckets nodeLink d.heap.node d.buckets n chain
  placed : Placed (fun x => bucketIndex n x.key) d.heap.node n chain
  pool : Pooled nodeLink d.heap free (inUse chain n others)
  apart : ∀ a ∈ order chain n, a ∉ others
  nodup : (order chain n).Nodup
  distinct : DistinctKeys d.heap.node (order chain n)
  count_eq : d.count = (order chain n).length

/-- The dictionary holds the map `m` beside the nodes `others`. -/
def Represents (others : Set ℕ) (d : HashedDictionary κ ν) (m : FiniteMap κ ν) : Prop :=
  ∃ n chain free, Table others d n chain free ∧
    Tabulates (pairs d.heap.node (order chain n)) m ∧ d.cache.Valid n chain

/-- The nodes `others` stay as they are. -/
def Keeps (others : Set ℕ) (d d' : HashedDictionary κ ν) : Prop :=
  ∀ a ∈ others, d'.heap.node a = d.heap.node a

variable {others : Set ℕ} {d : HashedDictionary κ ν} {n : ℕ} {chain : ℕ → List ℕ}
  {free : List ℕ} {m : FiniteMap κ ν} {k : κ} {v : ν}

theorem Table.allocated (t : Table others d n chain free) {a : ℕ} (member : a ∈ order chain n) :
    ∃ x, d.heap.node a = some x :=
  (t.pool.allocated a (Or.inr (Or.inl member))).2

/-- The node of a key is in the bucket of the key. -/
theorem Table.mem_chain (t : Table others d n chain free) {a i : ℕ} {x : Node κ ν}
    (member : a ∈ order chain n) (at_a : d.heap.node a = some x) (same : x.key ≈ k)
    (index : bucketIndex n k = (i : Int)) : a ∈ chain i := by
  obtain ⟨j, less, inside⟩ := mem_order.mp member
  obtain ⟨y, at_a', placed⟩ := t.placed j less a inside
  rw [at_a] at at_a'
  cases at_a'
  dsimp only at placed
  rw [bucketIndex_congr same] at placed
  rw [show i = j by omega]
  exact inside

theorem Table.chain_mem (t : Table others d n chain free) {i : ℕ} (less : i < n) {a : ℕ}
    (member : a ∈ chain i) : ∃ x, d.heap.node a = some x :=
  t.allocated (mem_order.mpr ⟨i, less, member⟩)

theorem Table.length_chain_le (t : Table others d n chain free) {i : ℕ} (less : i < n) :
    (chain i).length ≤ d.heap.fresh :=
  t.pool.length_le (t.buckets.chains i less).nodup fun _ member =>
    Or.inl (mem_order.mpr ⟨i, less, member⟩)

/-- What the search answers. -/
inductive Found (d : HashedDictionary κ ν) (l : List ℕ) (k : κ) : Option ℕ → Prop
  | absent (nowhere : ∀ a ∈ l, ∀ x, d.heap.node a = some x → ¬x.key ≈ k) : Found d l k none
  | present {a : ℕ} {x : Node κ ν} (member : a ∈ l) (at_a : d.heap.node a = some x)
      (same : x.key ≈ k) : Found d l k (some a)

/-- The chain of a key, searched by a comparison that agrees with `is_equal`. -/
theorem Table.found (t : Table others d n chain free) {test : κ → κ → Bool}
    (agrees : ∀ k l, test k l = safeEqual k l) {i : ℕ} (less : i < n)
    (index : bucketIndex n k = (i : Int)) :
    Found d (order chain n) k
      ((chain i).find? (meets d.heap.node fun x => test x.key k)) := by
  cases found : (chain i).find? (meets d.heap.node fun x => test x.key k) with
  | none =>
    refine .absent fun a member x at_a same => ?_
    have inside := t.mem_chain member at_a same index
    have fails := List.find?_eq_none.mp found a inside
    rw [meets_eq at_a, agrees] at fails
    exact fails same
  | some a =>
    have inside := List.mem_of_find?_eq_some found
    have met := List.find?_some found
    obtain ⟨x, at_a⟩ := t.chain_mem less inside
    rw [meets_eq at_a, agrees] at met
    exact .present (mem_order.mpr ⟨i, less, inside⟩) at_a met

theorem Table.returns_find (t : Table others d n chain free) {test : κ → κ → Bool}
    (agrees : ∀ k l, test k l = safeEqual k l) (k : κ) :
    Returns (d.find test k) (Found d (order chain n) k) := by
  have low := t.low
  obtain ⟨i, less, index⟩ := exists_bucketIndex k (show 0 < n by omega)
  unfold find
  rw [t.capacity_eq, index, t.buckets.item_eq less, Option.bind_eq_bind, Option.bind_some,
    find_eq (t.buckets.chains i less) (fun a member => t.chain_mem less member)
      (t.length_chain_le less)]
  exact Returns.some_iff.mpr (t.found agrees less index)

theorem mem_iff_of_tabulates {node : Memory (Node κ ν)} {l : List ℕ}
    (tab : Tabulates (pairs node l) m) :
    keyClass k ∈ m ↔ ∃ a ∈ l, ∃ x, node a = some x ∧ x.key ≈ k := by
  rw [tab.mem_iff]
  constructor
  · rintro ⟨_, v, ⟨a, member, x, at_a, rfl, -⟩, same⟩
    exact ⟨a, member, x, at_a, same⟩
  · rintro ⟨a, member, x, at_a, same⟩
    exact ⟨x.key, x.item, ⟨a, member, x, at_a, rfl, rfl⟩, same⟩

/-- The number of nodes is the number of keys. -/
theorem Table.card_eq (t : Table others d n chain free)
    (tab : Tabulates (pairs d.heap.node (order chain n)) m) : d.count = m.keys.card := by
  rw [t.count_eq]
  by_cases default : Nonempty (Node κ ν)
  · obtain ⟨z⟩ := default
    let key (a : ℕ) : κ := ((d.heap.node a).getD z).key
    have key_eq : ∀ {a x}, d.heap.node a = some x → key a = x.key := by
      intro a x at_a
      change ((d.heap.node a).getD z).key = _
      rw [at_a]
      rfl
    have card := tab.card_eq (order chain n).toFinset key (fun a member b member' same => by
      rw [List.mem_toFinset] at member member'
      obtain ⟨x, at_a⟩ := t.allocated member
      obtain ⟨y, at_b⟩ := t.allocated member'
      rw [key_eq at_a, key_eq at_b] at same
      exact t.distinct a member b member' x y at_a at_b same) (fun k => by
      constructor
      · rintro ⟨v, a, member, x, at_a, rfl, -⟩
        exact ⟨a, List.mem_toFinset.mpr member, key_eq at_a⟩
      · rintro ⟨a, member, rfl⟩
        obtain ⟨x, at_a⟩ := t.allocated (List.mem_toFinset.mp member)
        exact ⟨x.item, a, List.mem_toFinset.mp member, x, at_a, (key_eq at_a).symm, rfl⟩)
    rw [List.toFinset_card_of_nodup t.nodup] at card
    rw [card]
  · have unset : order chain n = [] := by
      refine List.eq_nil_iff_forall_not_mem.mpr fun a member => ?_
      obtain ⟨x, -⟩ := t.allocated member
      exact default ⟨x⟩
    have none : m.keys = ∅ := by
      refine Finset.eq_empty_of_forall_notMem fun q member => ?_
      obtain ⟨v, found⟩ := Finmap.mem_iff.mp (Finmap.mem_keys.mp member)
      obtain ⟨k, ⟨a, -, x, -⟩, -⟩ := (tab q v).mp found
      exact default ⟨x⟩
    rw [unset, none]
    rfl

/-! ## Queries -/

section Queries

variable {test : κ → κ → Bool} (agrees : ∀ k l, test k l = safeEqual k l)

include agrees

theorem Represents.has_eq (h : Represents others d m) (k : κ) :
    d.has test k = some (decide (keyClass k ∈ m)) := by
  obtain ⟨n, chain, free, t, tab, -⟩ := h
  obtain ⟨r, run, found⟩ := t.returns_find agrees k
  unfold has
  rw [run, Option.bind_eq_bind, Option.bind_some]
  cases found with
  | absent nowhere =>
    rw [decide_eq_false]
    · rfl
    · rw [mem_iff_of_tabulates tab]
      rintro ⟨a, member, x, at_a, same⟩
      exact nowhere a member x at_a same
  | present member at_a same =>
    rw [decide_eq_true ((mem_iff_of_tabulates tab).mpr ⟨_, member, _, at_a, same⟩)]
    rfl

theorem Represents.referenceAt_eq (h : Represents others d m) (k : κ) :
    d.referenceAt test k = some (m.lookup (keyClass k)) := by
  obtain ⟨n, chain, free, t, tab, -⟩ := h
  obtain ⟨r, run, found⟩ := t.returns_find agrees k
  unfold referenceAt
  rw [run, Option.bind_eq_bind, Option.bind_some]
  cases found with
  | absent nowhere =>
    rw [Finmap.lookup_eq_none.mpr]
    · rfl
    · rw [mem_iff_of_tabulates tab]
      rintro ⟨a, member, x, at_a, same⟩
      exact nowhere a member x at_a same
  | present member at_a same =>
    rw [(tab _ _).mpr ⟨_, ⟨_, member, _, at_a, rfl, rfl⟩, keyClass_eq.mpr same⟩]
    dsimp only
    rw [at_a]
    rfl

theorem Represents.at_eq (h : Represents others d m) {k : κ} (present : keyClass k ∈ m) :
    d.at' test k = m.lookup (keyClass k) := by
  obtain ⟨n, chain, free, t, tab, -⟩ := h
  obtain ⟨r, run, found⟩ := t.returns_find agrees k
  unfold at'
  rw [run, Option.bind_eq_bind, Option.bind_some]
  cases found with
  | absent nowhere =>
    obtain ⟨a, member, x, at_a, same⟩ := (mem_iff_of_tabulates tab).mp present
    exact absurd same (nowhere a member x at_a)
  | present member at_a same =>
    rw [(tab _ _).mpr ⟨_, ⟨_, member, _, at_a, rfl, rfl⟩, keyClass_eq.mpr same⟩]
    simp only [Option.bind_eq_bind, Option.bind_some, at_a]
    rfl

end Queries

/-! ## Another item -/

theorem Represents.returns_setNodeItem (t : Table others d n chain free)
    (tab : Tabulates (pairs d.heap.node (order chain n)) m) (cached : d.cache.Valid n chain) {a : ℕ}
    {x : Node κ ν} (member : a ∈ order chain n) (at_a : d.heap.node a = some x) (same : x.key ≈ k)
    (v : ν) :
    Returns (d.setNodeItem a v) fun d' =>
      Represents others d' (m.insert (keyClass k) v) ∧ Keeps others d d' := by
  let y : Node κ ν := { x with item := v }
  have next : ∀ b, nextOf nodeLink (Function.update d.heap.node a (some y)) b =
      nextOf nodeLink d.heap.node b := by
    intro b
    by_cases here : b = a
    · rw [here, nextOf_update_self, nextOf_eq at_a]
      rfl
    · exact nextOf_update_of_ne _ here
  have key : ∀ b z, Function.update d.heap.node a (some y) b = some z →
      ∃ w, d.heap.node b = some w ∧ z.key = w.key := by
    intro b z at_b
    by_cases here : b = a
    · rw [here, Function.update_self] at at_b
      cases at_b
      exact ⟨x, by rw [here]; exact at_a, rfl⟩
    · rw [Function.update_of_ne here] at at_b
      exact ⟨z, at_b, rfl⟩
  unfold setNodeItem
  rw [at_a, Option.bind_eq_bind, Option.bind_some, Returns.pure_iff]
  refine ⟨⟨n, chain, free, ⟨t.capacity_eq, t.low, t.high, t.buckets.congr fun b _ => next b,
    t.placed.congr fun b _ z at_b => ?_, t.pool.update (Or.inl member) y, t.apart, t.nodup,
    fun b hb c hc z w at_b at_c eq => ?_, t.count_eq⟩, tab.insert same fun l w => ?_, cached⟩,
    fun b other => ?_⟩
  · by_cases here : b = a
    · rw [here, at_a] at at_b
      cases at_b
      exact ⟨y, by rw [here]; exact Function.update_self _ _ _, rfl⟩
    · exact ⟨z, (Function.update_of_ne here _ _).trans at_b, rfl⟩
  · obtain ⟨z', at_b', eqB⟩ := key b z at_b
    obtain ⟨w', at_c', eqC⟩ := key c w at_c
    rw [eqB, eqC] at eq
    exact t.distinct b hb c hc z' w' at_b' at_c' eq
  · constructor
    · rintro ⟨b, hb, z, at_b, rfl, rfl⟩
      change Function.update d.heap.node a (some y) b = some z at at_b
      by_cases here : b = a
      · subst here
        rw [Function.update_self] at at_b
        cases at_b
        exact Or.inl ⟨rfl, rfl⟩
      · rw [Function.update_of_ne here] at at_b
        refine Or.inr ⟨⟨b, hb, z, at_b, rfl, rfl⟩, fun eq => here ?_⟩
        exact t.distinct b hb a member z x at_b at_a (Setoid.trans eq (Setoid.symm same))
    · rintro (⟨rfl, rfl⟩ | ⟨⟨b, hb, z, at_b, rfl, rfl⟩, other⟩)
      · exact ⟨a, member, y, Function.update_self _ _ _, rfl, rfl⟩
      · refine ⟨b, hb, z, ?_, rfl, rfl⟩
        change Function.update d.heap.node a (some y) b = some z
        rw [Function.update_of_ne (by rintro rfl; rw [at_a] at at_b; cases at_b; exact other same)]
        exact at_b
  · exact Function.update_of_ne (by rintro rfl; exact t.apart b member other) _ _

/-! ## A new node -/

theorem Table.returns_link (t : Table others d n chain free)
    (tab : Tabulates (pairs d.heap.node (order chain n)) m) (absent : keyClass k ∉ m) (v : ν) :
    Returns (d.link v k) fun d' =>
      Represents others d' (m.insert (keyClass k) v) ∧ Keeps others d d' := by
  have low := t.low
  obtain ⟨i, less, index⟩ := exists_bucketIndex k (show 0 < n by omega)
  have size := t.buckets.size_eq
  unfold link
  rw [t.capacity_eq, index]
  dsimp only
  rw [t.buckets.item_eq less, Returns.bind_iff, Returns.some_iff, Returns.bind_iff]
  refine (t.pool.returns_newNode ⟨v, k, d.buckets.cell i⟩).mono ?_
  rintro ⟨heap, a⟩ ⟨unused, node, free', pool⟩
  rw [Returns.bind_iff, NativeArray.returns_put, Returns.pure_iff]
  have fresh : a ∉ order chain n := fun member => unused (Or.inl member)
  have order' : (order (Function.update chain i (a :: chain i)) n).Perm (a :: order chain n) :=
    order_push_perm less a
  have others' : ∀ b, b ≠ a → heap.node b = d.heap.node b := by
    intro b other
    rw [node, Function.update_of_ne other]
  have at_a : heap.node a = some ⟨v, k, d.buckets.cell i⟩ := by rw [node, Function.update_self]
  have next : ∀ b ∈ order chain n, nextOf nodeLink heap.node b = nextOf nodeLink d.heap.node b := by
    intro b member
    rw [node]
    exact nextOf_update_of_ne _ (by rintro rfl; exact fresh member)
  have nowhere : ∀ b ∈ order chain n, ∀ x, d.heap.node b = some x → ¬x.key ≈ k :=
    fun b member x at_b same => absent ((mem_iff_of_tabulates tab).mpr ⟨b, member, x, at_b, same⟩)
  have old : ∀ b ∈ order chain n, b ≠ a := fun b member eq => fresh (eq ▸ member)
  refine ⟨⟨by omega, by omega⟩, ⟨n, Function.update chain i (a :: chain i), free',
    ⟨rfl, t.low, t.high, ?_, ?_, ?_, ?_, ?_, ?_, ?_⟩, tab.insert (Setoid.refl k) ?_,
    Or.inl rfl⟩, ?_⟩
  · refine t.buckets.set (fun j low _ b inside => next b (mem_order.mpr ⟨j, low, inside⟩)) ?_
    refine Chain.push (t.buckets.chains i less)
      (fun b inside => next b (mem_order.mpr ⟨i, less, inside⟩)) ?_
    exact nextOf_eq at_a
  · have kept : Placed (fun x => bucketIndex n x.key) heap.node n chain :=
      t.placed.congr fun b inside x at_b => ⟨x, by rw [others' b (old b inside)]; exact at_b, rfl⟩
    refine kept.set fun b inside => ?_
    rcases List.mem_cons.mp inside with rfl | inside
    · exact ⟨_, at_a, index⟩
    · exact kept i less b inside
  · have same : inUse (Function.update chain i (a :: chain i)) n others =
        insert a (inUse chain n others) := by
      ext b
      change b ∈ order _ n ∨ b ∈ others ↔ b = a ∨ b ∈ order chain n ∨ b ∈ others
      rw [order'.mem_iff, List.mem_cons, or_assoc]
    rw [same]
    exact pool
  · intro b member other
    rcases List.mem_cons.mp (order'.mem_iff.mp member) with rfl | member
    · exact unused (Or.inr other)
    · exact t.apart b member other
  · exact order'.nodup_iff.mpr (List.nodup_cons.mpr ⟨fresh, t.nodup⟩)
  · intro b hb c hc x y at_b at_c same
    rcases List.mem_cons.mp (order'.mem_iff.mp hb) with newB | oldB <;>
      rcases List.mem_cons.mp (order'.mem_iff.mp hc) with newC | oldC
    · rw [newB, newC]
    · rw [newB, at_a] at at_b
      cases at_b
      rw [others' c (old c oldC)] at at_c
      exact absurd (Setoid.symm same) (nowhere c oldC y at_c)
    · rw [newC, at_a] at at_c
      cases at_c
      rw [others' b (old b oldB)] at at_b
      exact absurd same (nowhere b oldB x at_b)
    · rw [others' b (old b oldB)] at at_b
      rw [others' c (old c oldC)] at at_c
      exact t.distinct b oldB c oldC x y at_b at_c same
  · rw [order'.length_eq, List.length_cons]
    have count := t.count_eq
    dsimp only
    omega
  · intro l w
    constructor
    · rintro ⟨b, hb, x, at_b, rfl, rfl⟩
      rcases List.mem_cons.mp (order'.mem_iff.mp hb) with rfl | hb
      · rw [at_a] at at_b
        cases at_b
        exact Or.inl ⟨rfl, rfl⟩
      · rw [others' b (old b hb)] at at_b
        exact Or.inr ⟨⟨b, hb, x, at_b, rfl, rfl⟩, nowhere b hb x at_b⟩
    · rintro (⟨rfl, rfl⟩ | ⟨⟨b, hb, x, at_b, rfl, rfl⟩, -⟩)
      · exact ⟨a, order'.mem_iff.mpr List.mem_cons_self, _, at_a, rfl, rfl⟩
      · refine ⟨b, order'.mem_iff.mpr (List.mem_cons_of_mem a hb), x, ?_, rfl, rfl⟩
        rw [others' b (old b hb)]
        exact at_b
  · intro b other
    exact others' b (by rintro rfl; exact unused (Or.inr other))

/-! ## Growing -/

theorem Table.returns_increaseCapacity (t : Table others d n chain free)
    (tab : Tabulates (pairs d.heap.node (order chain n)) m) (room : d.capacity < 2147483647) :
    Returns d.increaseCapacity fun d' => (∃ n' chain', n < n' ∧ Table others d' n' chain' free ∧
      Tabulates (pairs d'.heap.node (order chain' n')) m ∧ d'.cache.Valid n' chain') ∧
        Keeps others d d' := by
  have capacity := t.capacity_eq
  have larger := primeCapacity_ge (show 0 ≤ d.capacity + 1 by omega) (by omega)
  obtain ⟨n', newCapacity⟩ : ∃ n' : ℕ, primeCapacity (d.capacity + 1) = n' :=
    ⟨(primeCapacity (d.capacity + 1)).toNat, by omega⟩
  unfold increaseCapacity
  rw [newCapacity, capacity, Returns.bind_iff]
  have range : ∀ x : Node κ ν, 0 ≤ bucketIndex n' x.key ∧ bucketIndex n' x.key < n' := by
    intro x
    obtain ⟨i, less, index⟩ := exists_bucketIndex x.key (show 0 < n' by omega)
    omega
  refine (returns_rebuild t.buckets t.nodup (fun a member =>
    t.pool.allocated a (Or.inr (Or.inl member))) (fun _ _ => rfl) range).mono ?_
  rintro ⟨heap, buckets⟩ ⟨chain', r⟩
  rw [Returns.pure_iff]
  have perm := r.perm
  rw [List.append_nil] at perm
  have field : ∀ {a x}, d.heap.node a = some x →
      ∃ y, heap.node a = some y ∧ (y.key, y.item) = (x.key, x.item) := fun {a x} at_a =>
    r.sameBut.field (f := fun x : Node κ ν => (x.key, x.item)) (fun _ _ => rfl) at_a
  have field' : ∀ {a y}, heap.node a = some y →
      ∃ x, d.heap.node a = some x ∧ (y.key, y.item) = (x.key, x.item) := by
    intro a y at_a
    have eq := r.sameBut a
    rw [at_a, Option.map_some] at eq
    obtain ⟨x, at_a', -⟩ := Option.map_eq_some_iff.mp eq.symm
    obtain ⟨y', at_a'', eq'⟩ := field at_a'
    rw [at_a] at at_a''
    cases at_a''
    exact ⟨x, at_a', eq'⟩
  have pool : Pooled nodeLink heap free (inUse chain' n' others) := by
    refine ⟨?_, fun a member inside => ?_, fun a member => ?_⟩
    · rw [r.freeNodes_eq]
      refine t.pool.chain.congr fun a member => ?_
      unfold nextOf
      rw [r.frame a fun inside => t.pool.apart a member (Or.inl inside)]
    · refine t.pool.apart a member (inside.imp_left fun old => perm.mem_iff.mp old)
    · rw [r.fresh_eq]
      have old := t.pool.allocated a (member.imp_right fun used =>
        used.imp_left fun old => perm.mem_iff.mp old)
      obtain ⟨x, at_a⟩ := old.2
      obtain ⟨y, at_a', -⟩ := field at_a
      exact ⟨old.1, y, at_a'⟩
  refine ⟨⟨n', chain', by omega, ⟨rfl, by omega, by omega, r.buckets, r.placed, pool,
    fun a member => t.apart a (perm.mem_iff.mp member), perm.nodup_iff.mpr t.nodup, ?_, ?_⟩,
    tab.congr ?_, Or.inl rfl⟩, fun a other => ?_⟩
  · intro a ha b hb x y at_a at_b same
    obtain ⟨x', at_a', eqA⟩ := field' at_a
    obtain ⟨y', at_b', eqB⟩ := field' at_b
    rw [(Prod.mk.inj eqA).1, (Prod.mk.inj eqB).1] at same
    exact t.distinct a (perm.mem_iff.mp ha) b (perm.mem_iff.mp hb) x' y' at_a' at_b' same
  · rw [perm.length_eq]
    exact t.count_eq
  · intro l w
    constructor
    · rintro ⟨a, ha, x, at_a, rfl, rfl⟩
      obtain ⟨x', at_a', eq⟩ := field' at_a
      exact ⟨a, perm.mem_iff.mp ha, x', at_a', (Prod.mk.inj eq).1.symm, (Prod.mk.inj eq).2.symm⟩
    · rintro ⟨a, ha, x, at_a, rfl, rfl⟩
      obtain ⟨x', at_a', eq⟩ := field at_a
      exact ⟨a, perm.mem_iff.mpr ha, x', at_a', (Prod.mk.inj eq).1, (Prod.mk.inj eq).2⟩
  · exact r.frame a fun member => t.apart a member other

theorem Represents.returns_grow (h : Represents others d m) :
    Returns d.grow fun d' => Represents others d' m ∧ Keeps others d d' := by
  obtain ⟨n, chain, free, t, tab, cached⟩ := h
  unfold grow
  split
  · rename_i should
    refine (t.returns_increaseCapacity tab (lt_of_shouldIncreaseCapacity should)).mono ?_
    rintro d' ⟨⟨n', chain', -, t', tab', cached'⟩, keeps⟩
    exact ⟨⟨n', chain', free, t', tab', cached'⟩, keeps⟩
  · exact Returns.some_iff.mpr ⟨⟨n, chain, free, t, tab, cached⟩, fun _ _ => rfl⟩

theorem Represents.returns_add (h : Represents others d m) (absent : keyClass k ∉ m) (v : ν) :
    Returns (d.add v k) fun d' =>
      Represents others d' (m.insert (keyClass k) v) ∧ Keeps others d d' := by
  unfold add
  rw [Returns.bind_iff]
  refine h.returns_grow.mono ?_
  rintro d' ⟨⟨n, chain, free, t, tab, -⟩, keeps⟩
  refine (t.returns_link tab absent v).mono fun d'' ⟨held, keeps'⟩ => ⟨held, fun a other => ?_⟩
  rw [keeps' a other, keeps a other]

theorem Represents.returns_put {test : κ → κ → Bool} (agrees : ∀ k l, test k l = safeEqual k l)
    (h : Represents others d m) (v : ν) (k : κ) :
    Returns (d.put test v k) fun d' =>
      Represents others d' (m.insert (keyClass k) v) ∧ Keeps others d d' := by
  have held := h
  obtain ⟨n, chain, free, t, tab, cached⟩ := h
  unfold put
  rw [Returns.bind_iff]
  refine (t.returns_find agrees k).mono fun r found => ?_
  cases found with
  | absent nowhere =>
    refine held.returns_add ?_ v
    rw [mem_iff_of_tabulates tab]
    rintro ⟨a, member, x, at_a, same⟩
    exact nowhere a member x at_a same
  | present member at_a same =>
    exact Represents.returns_setNodeItem t tab cached member at_a same v

/-! ## Removing -/

/-- What is left when the node `a` is taken out of its chain and put on the free list. -/
theorem Table.unlinked (t : Table others d n chain free)
    (tab : Tabulates (pairs d.heap.node (order chain n)) m) {i a : ℕ} {l l' : List ℕ}
    (less : i < n) (split : chain i = l ++ a :: l') {x : Node κ ν}
    (at_a : d.heap.node a = some x) (same : x.key ≈ k) {d' : HashedDictionary κ ν}
    (capacity : d'.capacity = d.capacity) (count : d'.count = d.count - 1)
    (inactive : d'.cache.user = -1)
    (buckets : Buckets nodeLink d'.heap.node d'.buckets n (Function.update chain i (l ++ l')))
    (fields : ∀ b y, b ≠ a → d.heap.node b = some y →
      ∃ z, d'.heap.node b = some z ∧ (z.key, z.item) = (y.key, y.item))
    (pool : Pooled nodeLink d'.heap (a :: free) (inUse chain n others \ {a})) :
    Represents others d' (m.erase (keyClass k)) := by
  have perm := order_unlink_perm less split
  have distinct := List.nodup_cons.mp (perm.nodup_iff.mp t.nodup)
  have member : a ∈ order chain n := perm.mem_iff.mpr List.mem_cons_self
  have old : ∀ {b}, b ∈ order (Function.update chain i (l ++ l')) n → b ∈ order chain n ∧ b ≠ a := by
    intro b inside
    refine ⟨perm.mem_iff.mpr (List.mem_cons_of_mem a inside), ?_⟩
    rintro rfl
    exact distinct.1 inside
  have new : ∀ {b}, b ∈ order chain n → b ≠ a →
      b ∈ order (Function.update chain i (l ++ l')) n := fun inside other =>
    (List.mem_cons.mp (perm.mem_iff.mp inside)).resolve_left other
  have fields' : ∀ {b z}, b ∈ order (Function.update chain i (l ++ l')) n →
      d'.heap.node b = some z → ∃ y, d.heap.node b = some y ∧ (z.key, z.item) = (y.key, y.item) := by
    intro b z inside at_b
    obtain ⟨y, at_b'⟩ := t.allocated (old inside).1
    obtain ⟨z', at_b'', eq⟩ := fields b y (old inside).2 at_b'
    rw [at_b] at at_b''
    cases at_b''
    exact ⟨y, at_b', eq⟩
  refine ⟨n, Function.update chain i (l ++ l'), a :: free, ⟨capacity.trans t.capacity_eq, t.low,
    t.high, buckets, ?_, ?_, fun b inside => t.apart b (old inside).1, distinct.2, ?_, ?_⟩,
    tab.erase ?_, Or.inl inactive⟩
  · intro j low b inside
    have inside' := mem_order.mpr ⟨j, low, inside⟩
    obtain ⟨y, at_b⟩ := t.allocated (old inside').1
    obtain ⟨z, at_b', eq⟩ := fields b y (old inside').2 at_b
    refine ⟨z, at_b', ?_⟩
    obtain ⟨y', at_b'', placed⟩ : ∃ y, d.heap.node b = some y ∧ bucketIndex n y.key = (j : Int) := by
      refine t.placed j low b ?_
      by_cases here : j = i
      · subst here
        rw [Function.update_self] at inside
        rw [split]
        rcases List.mem_append.mp inside with before | after
        · exact List.mem_append_left _ before
        · exact List.mem_append_right _ (List.mem_cons_of_mem a after)
      · rwa [Function.update_of_ne here] at inside
    rw [at_b] at at_b''
    cases at_b''
    dsimp only
    rw [(Prod.mk.inj eq).1]
    exact placed
  · have used : inUse (Function.update chain i (l ++ l')) n others = inUse chain n others \ {a} := by
      ext b
      constructor
      · rintro (inside | other)
        · exact ⟨Or.inl (old inside).1, (old inside).2⟩
        · refine ⟨Or.inr other, ?_⟩
          rintro rfl
          exact t.apart b member other
      · rintro ⟨inside | other, apart⟩
        · exact Or.inl (new inside apart)
        · exact Or.inr other
    rw [used]
    exact pool
  · intro b hb c hc y z at_b at_c eq
    obtain ⟨y', at_b', eqB⟩ := fields' hb at_b
    obtain ⟨z', at_c', eqC⟩ := fields' hc at_c
    rw [(Prod.mk.inj eqB).1, (Prod.mk.inj eqC).1] at eq
    exact t.distinct b (old hb).1 c (old hc).1 y' z' at_b' at_c' eq
  · have length := perm.length_eq
    rw [List.length_cons] at length
    have total := t.count_eq
    omega
  · intro b w
    constructor
    · rintro ⟨b, hb, z, at_b, rfl, rfl⟩
      obtain ⟨y, at_b', eq⟩ := fields' hb at_b
      refine ⟨⟨b, (old hb).1, y, at_b', (Prod.mk.inj eq).1.symm, (Prod.mk.inj eq).2.symm⟩,
        fun equal => (old hb).2 ?_⟩
      rw [(Prod.mk.inj eq).1] at equal
      exact t.distinct b (old hb).1 a member y x at_b' at_a
        (Setoid.trans equal (Setoid.symm same))
    · rintro ⟨⟨b, hb, y, at_b, rfl, rfl⟩, other⟩
      have apart : b ≠ a := by
        rintro rfl
        rw [at_a] at at_b
        cases at_b
        exact other same
      obtain ⟨z, at_b', eq⟩ := fields b y apart at_b
      exact ⟨b, new hb apart, z, at_b', (Prod.mk.inj eq).1, (Prod.mk.inj eq).2⟩

theorem Represents.returns_remove {test : κ → κ → Bool}
    (agrees : ∀ k l, test k l = safeEqual k l) (h : Represents others d m) (k : κ) :
    Returns (d.remove test k) fun d' =>
      Represents others d' (m.erase (keyClass k)) ∧ Keeps others d d' := by
  obtain ⟨n, chain, free, t, tab, cached⟩ := h
  have low := t.low
  obtain ⟨i, less, index⟩ := exists_bucketIndex k (show 0 < n by omega)
  have size := t.buckets.size_eq
  have linked := t.buckets.chains i less
  have found := t.found agrees less index
  have stays : (∀ a ∈ order chain n, ∀ x, d.heap.node a = some x → ¬x.key ≈ k) →
      Represents others { d with cache := d.cache.deactivate } (m.erase (keyClass k)) := by
    intro nowhere
    rw [erase_of_notMem]
    · exact ⟨n, chain, free, ⟨t.capacity_eq, t.low, t.high, t.buckets, t.placed, t.pool, t.apart,
        t.nodup, t.distinct, t.count_eq⟩, tab, Or.inl rfl⟩
    · rw [mem_iff_of_tabulates tab]
      rintro ⟨a, member, x, at_a, same⟩
      exact nowhere a member x at_a same
  have inside : ∀ {a}, a ∈ chain i → a ∈ inUse chain n others := fun member =>
    Or.inl (mem_order.mpr ⟨i, less, member⟩)
  have disjoint : ∀ j < n, j ≠ i → ∀ {a}, a ∈ chain i → a ∉ chain j := by
    intro j low' other a member again
    obtain ⟨x, at_a, placed⟩ := t.placed i less a member
    obtain ⟨y, at_a', placed'⟩ := t.placed j low' a again
    rw [at_a] at at_a'
    cases at_a'
    omega
  unfold remove
  dsimp only
  rw [t.capacity_eq, index, t.buckets.item_eq less, Returns.bind_iff, Returns.some_iff]
  cases chain_i : chain i with
  | nil =>
    rw [chain_i] at linked found
    rw [show d.buckets.cell i = none from linked]
    cases found with
    | absent nowhere =>
      rw [← t.capacity_eq]
      exact Returns.pure_iff.mpr ⟨stays nowhere, fun _ _ => rfl⟩
  | cons a l =>
    have in_chain : a ∈ chain i := by rw [chain_i]; exact List.mem_cons_self
    obtain ⟨x, at_a⟩ := t.chain_mem less in_chain
    rw [chain_i] at linked found
    rw [linked.1]
    dsimp only
    rw [at_a, Returns.bind_iff, Returns.some_iff]
    by_cases met : test x.key k = true
    · rw [if_pos met]
      rw [agrees] at met
      rw [Returns.bind_iff]
      refine (t.pool.returns_disposeNode (inside in_chain)).mono ?_
      rintro ⟨heap, next⟩ ⟨nextEq, frame, fresh, pool⟩
      rw [Returns.bind_iff, NativeArray.returns_put, Returns.pure_iff]
      refine ⟨⟨by omega, by omega⟩, ?_, fun b other =>
        frame b (by rintro rfl; exact t.apart b (mem_order.mpr ⟨i, less, in_chain⟩) other)⟩
      refine t.unlinked tab less (l := []) chain_i at_a met t.capacity_eq.symm rfl rfl ?_
        (fun b y other at_b => ⟨y, (frame b other).trans at_b, rfl⟩) pool
      refine t.buckets.set (fun j low' other b member => ?_) ?_
      · unfold nextOf
        rw [frame b (by rintro rfl; exact disjoint j low' other in_chain member)]
      · rw [nextEq]
        refine linked.2.congr fun b member => ?_
        unfold nextOf
        rw [frame b (by
          rintro rfl
          exact (List.nodup_cons.mp linked.nodup).1 member)]
    · have after : Chain (nextOf nodeLink d.heap.node) x.next l := by
        have rest := linked.2
        rw [nextOf_eq at_a] at rest
        exact rest
      have bound := t.length_chain_le less
      rw [chain_i, List.length_cons] at bound
      rw [if_neg met, Returns.bind_iff, Returns.some_iff, Returns.bind_iff]
      refine (findAfter_eq after (fun b member => t.chain_mem less
        (by rw [chain_i]; exact List.mem_cons_of_mem a member)) (by omega) a).mono ?_
      rintro ⟨q, r⟩ ⟨answer, between⟩
      rw [List.find?_cons_of_neg (by rw [meets_eq at_a]; exact met), ← answer] at found
      cases found with
      | absent nowhere =>
        rw [← t.capacity_eq]
        exact Returns.pure_iff.mpr ⟨stays nowhere, fun _ _ => rfl⟩
      | @present b y member at_b same =>
        obtain ⟨l₁, l₂, split⟩ := between b rfl
        have split' : chain i = (l₁ ++ [q]) ++ b :: l₂ := by
          rw [chain_i, split, List.append_assoc]
          rfl
        have nodup := (t.buckets.chains i less).nodup
        rw [split'] at nodup
        have b_in : b ∈ chain i := by
          rw [split']
          exact List.mem_append_right _ List.mem_cons_self
        have q_in : q ∈ chain i := by
          rw [split']
          exact List.mem_append_left _ (List.mem_append_right _ List.mem_cons_self)
        have apart : q ≠ b := by
          rintro rfl
          exact (List.nodup_append.mp nodup).2.2 q
            (List.mem_append_right _ List.mem_cons_self) q List.mem_cons_self rfl
        rw [Returns.bind_iff]
        refine (t.pool.returns_disposeNode (inside b_in)).mono ?_
        rintro ⟨heap, next⟩ ⟨nextEq, frame, fresh, pool⟩
        dsimp only at nextEq frame fresh pool
        obtain ⟨z, at_q⟩ := t.chain_mem less q_in
        have at_q' : heap.node q = some z := (frame q apart).trans at_q
        rw [setLink_eq at_q', Returns.bind_iff, Returns.some_iff, Returns.pure_iff]
        have frame' : ∀ c, c ≠ b → c ≠ q → Function.update heap.node q
            (some (nodeLink.set next z)) c = d.heap.node c := by
          intro c other other'
          rw [Function.update_of_ne other', frame c other]
        have nexts : ∀ c, c ≠ b → c ≠ q → nextOf nodeLink (Function.update heap.node q
            (some (nodeLink.set next z))) c = nextOf nodeLink d.heap.node c := by
          intro c other other'
          unfold nextOf
          rw [frame' c other other']
        refine ⟨?_, fun c other => frame' c ?_ ?_⟩
        · refine t.unlinked tab less split' at_b same t.capacity_eq.symm rfl rfl ?_ ?_
            (pool.update ⟨inside q_in, apart⟩ _)
          · refine t.buckets.replace rfl (fun _ _ => rfl) (fun j low' other c member' =>
              nexts c ?_ ?_) ?_
            · rintro rfl
              exact disjoint j low' other b_in member'
            · rintro rfl
              exact disjoint j low' other q_in member'
            · have whole := t.buckets.chains i less
              rw [split', List.append_assoc] at whole
              rw [List.append_assoc]
              refine Chain.unlink whole (fun c member' => nexts c ?_ ?_) ?_
              · rintro rfl
                rw [List.append_assoc] at nodup
                have := List.nodup_middle.mp (show (l₁ ++ [q] ++ c :: l₂).Nodup by
                  rw [List.append_assoc]; exact nodup)
                refine (List.nodup_cons.mp this).1 ?_
                rcases List.mem_append.mp member' with before | after'
                · exact List.mem_append_left _ (List.mem_append_left _ before)
                · exact List.mem_append_right _ after'
              · rintro rfl
                rw [List.append_assoc] at nodup
                have := List.nodup_middle.mp nodup
                refine (List.nodup_cons.mp this).1 ?_
                rcases List.mem_append.mp member' with before | after'
                · exact List.mem_append_left _ before
                · exact List.mem_append_right _ (List.mem_cons_of_mem b after')
              · rw [nextOf_update_self, nodeLink.get_set, nextEq]
          · intro c w other at_c
            by_cases here : c = q
            · subst here
              rw [at_q] at at_c
              cases at_c
              exact ⟨_, Function.update_self _ _ _, rfl⟩
            · exact ⟨w, (frame' c other here).trans at_c, rfl⟩
        · rintro rfl
          exact t.apart c member other
        · rintro rfl
          exact t.apart c (mem_order.mpr ⟨i, less, q_in⟩) other

theorem Represents.returns_clearCount (h : Represents others d m) :
    Returns d.clearCount fun d' => Represents others d' ∅ ∧ Keeps others d d' := by
  obtain ⟨n, chain, free, t, tab, cached⟩ := h
  have size := t.buckets.size_eq
  have capacity := t.capacity_eq
  unfold clearCount
  rw [Returns.bind_iff]
  refine returns_untilLoop
    (fun s : NodeHeap (Node κ ν) × NativeArray (Option ℕ) × Int => ∃ i : ℕ,
      s.2.2 = (i : Int) - 1 ∧ i ≤ n ∧ s.2.1.size = n ∧
      (∀ j < i, s.2.1.cell j = d.buckets.cell j) ∧
      (∀ j : ℕ, i ≤ j → j < n → s.2.1.cell j = none) ∧
      (∀ a, a ∈ order chain i ∨ a ∈ others → s.1.node a = d.heap.node a) ∧
      ∃ free', Pooled nodeLink s.1 free' (inUse chain i others))
    (fun s => (s.2.2 + 1).toNat) ?_ (by dsimp only; omega) ?_
  · exact ⟨n, by dsimp only; omega, le_refl n, size, fun _ _ => rfl,
      fun j le less => absurd less (by omega), fun _ _ => rfl, free, t.pool⟩
  · rintro ⟨heap, buckets, j⟩ ⟨i, at_j, le, size', cells, cleared, frame, free', pool⟩
    dsimp only at at_j size' cells cleared frame pool ⊢
    rw [Returns.some_iff]
    by_cases done : j < 0
    · rw [if_pos (decide_eq_true done), Returns.pure_iff]
      have zero : i = 0 := by omega
      subst zero
      have empty : order (fun _ => ([] : List ℕ)) n = [] := by
        exact List.flatMap_eq_nil_iff.mpr fun _ _ => rfl
      have used : inUse (fun _ => ([] : List ℕ)) n others = inUse chain 0 others := by
        unfold inUse
        rw [empty]
        rfl
      refine ⟨⟨n, fun _ => [], free', ⟨t.capacity_eq, t.low, t.high,
        ⟨size', fun k less => cleared k (by omega) less⟩, fun _ _ a member =>
          absurd member List.not_mem_nil, by rw [used]; exact pool, ?_, ?_, ?_, ?_⟩, ?_,
        Or.inl rfl⟩, fun a other => frame a (Or.inr other)⟩
      · rw [empty]
        exact fun a member => absurd member List.not_mem_nil
      · rw [empty]
        exact List.nodup_nil
      · rw [empty]
        exact fun a member => absurd member List.not_mem_nil
      · rw [empty]
        rfl
      · refine .empty ?_
        rw [empty]
        rintro k v ⟨a, member, -⟩
        exact absurd member List.not_mem_nil
    · rw [if_neg (by rw [decide_eq_false done]; exact Bool.false_ne_true)]
      obtain ⟨i, rfl⟩ : ∃ k, i = k + 1 := ⟨i - 1, by omega⟩
      have at_i : j = (i : Int) := by omega
      subst at_i
      have inside : ∀ {l a}, l < i + 1 → a ∈ chain l → a ∈ order chain (i + 1) :=
        fun {l a} less member => mem_order.mpr ⟨l, less, member⟩
      rw [NativeArray.item_of_inBounds (by omega), Returns.bind_iff, Returns.some_iff,
        Returns.bind_iff, NativeArray.returns_put]
      refine ⟨⟨by omega, by omega⟩, ?_⟩
      rw [Returns.bind_iff]
      have linked : Chain (nextOf nodeLink heap.node) (buckets.cell i) (chain i) := by
        rw [cells i (by omega)]
        refine (t.buckets.chains i (by omega)).congr fun a member => ?_
        unfold nextOf
        rw [frame a (Or.inl (inside (by omega) member))]
      refine (pool.returns_disposeAll linked fun a member =>
        Or.inl (inside (by omega) member)).mono ?_
      rintro heap' ⟨frame', fresh, free'', pool'⟩
      have nodup := nodup_order_of_le t.nodup le
      rw [order_succ] at nodup
      have apart : ∀ a ∈ order chain i, a ∉ chain i := fun a member again =>
        (List.nodup_append.mp nodup).2.2 a member a again rfl
      have used : {a | a ∈ inUse chain (i + 1) others ∧ a ∉ chain i} = inUse chain i others := by
        ext a
        constructor
        · rintro ⟨member | other, out⟩
          · rw [order_succ] at member
            exact Or.inl ((List.mem_append.mp member).resolve_right out)
          · exact Or.inr other
        · rintro (member | other)
          · refine ⟨Or.inl ?_, apart a member⟩
            rw [order_succ]
            exact List.mem_append_left _ member
          · exact ⟨Or.inr other, fun member =>
              t.apart a (mem_order.mpr ⟨i, by omega, member⟩) other⟩
      rw [used] at pool'
      rw [Returns.pure_iff]
      refine ⟨⟨i, rfl, by omega, size', fun k low' => ?_, fun k high less => ?_, fun a member => ?_,
        free'', pool'⟩, by dsimp only; omega⟩
      · rw [NativeArray.cell_set_of_ne _ _ (by omega)]
        exact cells k (by omega)
      · by_cases here : k = i
        · rw [here]
          exact NativeArray.cell_set_self _ _ _
        · rw [NativeArray.cell_set_of_ne _ _ (by omega)]
          exact cleared k (by omega) less
      · rw [frame' a, frame a]
        · rw [order_succ]
          exact member.imp_left (List.mem_append_left _)
        · rcases member with member | other
          · exact apart a member
          · exact fun again => t.apart a (mem_order.mpr ⟨i, by omega, again⟩) other

/-! ## The iteration cache -/

theorem Table.withCache (t : Table others d n chain free) (c : NodeCache) :
    Table others { d with cache := c } n chain free :=
  ⟨t.capacity_eq, t.low, t.high, t.buckets, t.placed, t.pool, t.apart, t.nodup, t.distinct,
    t.count_eq⟩

theorem Represents.returns_setCacheUser (h : Represents others d m) {index : Int}
    (first : 1 ≤ index) (last : index ≤ m.keys.card) :
    Returns (d.setCacheUser index) fun d' => d'.heap = d.heap ∧ Represents others d' m ∧
      ∃ n chain free a x, Table others d' n chain free ∧
        Tabulates (pairs d'.heap.node (order chain n)) m ∧ d'.cache.Valid n chain ∧
        d'.cache.node = some a ∧ a ∈ order chain n ∧ d'.heap.node a = some x := by
  obtain ⟨n, chain, free, t, tab, cached⟩ := h
  have card := t.card_eq tab
  have count := t.count_eq
  unfold setCacheUser
  rw [t.capacity_eq, Returns.bind_iff]
  refine (cached.returns_set t.buckets (fun a member => t.allocated member) first
    (by omega)).mono fun c ⟨_, active⟩ => ?_
  rw [Returns.pure_iff]
  have t' := t.withCache c
  rw [t.capacity_eq] at t'
  obtain ⟨a, member, node⟩ := active.exists_node
  obtain ⟨x, at_a⟩ := t.allocated member
  exact ⟨rfl, ⟨n, chain, free, t', tab, Or.inr active⟩, n, chain, free, a, x, t', tab,
    Or.inr active, node, member, at_a⟩

/-- `key` and `item` answer a pair of the map and change nothing but the cache. -/
theorem Represents.returns_key (h : Represents others d m) {index : Int} (first : 1 ≤ index)
    (last : index ≤ m.keys.card) :
    ∃ d' k v, d.key index = some (d', k) ∧ d.item index = some (d', v) ∧
      m.lookup (keyClass k) = some v ∧ Represents others d' m ∧ Keeps others d d' := by
  obtain ⟨d', run, same, held, n, chain, free, a, x, t, tab, -, node, member, at_a⟩ :=
    h.returns_setCacheUser first last
  refine ⟨d', x.key, x.item, ?_, ?_, (tab _ _).mpr ⟨x.key, ⟨a, member, x, at_a, rfl, rfl⟩, rfl⟩,
    held, fun b _ => by rw [same]⟩
  · unfold key
    rw [run, Option.bind_eq_bind, Option.bind_some, node]
    simp only [Option.bind_eq_bind, Option.bind_some, at_a]
    rfl
  · unfold item
    rw [run, Option.bind_eq_bind, Option.bind_some, node]
    simp only [Option.bind_eq_bind, Option.bind_some, at_a]
    rfl

theorem Represents.returns_setItem (h : Represents others d m) (v : ν) {index : Int}
    (first : 1 ≤ index) (last : index ≤ m.keys.card) :
    ∃ d' k, d.key index = some (d', k) ∧ Returns (d.setItem v index) fun d'' =>
      Represents others d'' (m.insert (keyClass k) v) ∧ Keeps others d d'' := by
  obtain ⟨d', run, same, -, n, chain, free, a, x, t, tab, cached, node, member, at_a⟩ :=
    h.returns_setCacheUser first last
  refine ⟨d', x.key, ?_, ?_⟩
  · unfold key
    rw [run, Option.bind_eq_bind, Option.bind_some, node]
    simp only [Option.bind_eq_bind, Option.bind_some, at_a]
    rfl
  · unfold setItem
    rw [run, Option.bind_eq_bind, Option.bind_some, node, Option.bind_eq_bind, Option.bind_some]
    refine (Represents.returns_setNodeItem t tab cached member at_a (Setoid.refl _) v).mono ?_
    rintro d'' ⟨held, keeps⟩
    exact ⟨held, fun b other => by rw [keeps b other, same]⟩

end HashedDictionary

end Liberty
