import Liberty.Storage.HashedDictionaryCommands

/-!
# Programs with HASHED_DICTIONARY objects

Any number of dictionaries of one type, made and changed in any order, recycle one another's
nodes; the garbage collector may clear the weak reference to the free nodes at any time.
Every dictionary is the finite map that its own commands make.
-/

namespace Liberty

open LinkedNodes HashTableSize NodeHeap

namespace HashedDictionary

variable {κ ν : Type} [HashedKey κ]

/-! ## Runs -/

inductive Command (κ ν : Type)
  | plain (c : Dictionary.Command κ ν)
  | fastPut (v : ν) (k : κ)
  | fastRemove (k : κ)
  | key (index : Int)
  | item (index : Int)

/-- `sameObject` is the comparison `=` of the fast variants. -/
def execute (sameObject : κ → κ → Bool) (d : HashedDictionary κ ν) :
    Command κ ν → Option (HashedDictionary κ ν)
  | .plain (.add v k) => d.add v k
  | .plain (.put v k) => d.put safeEqual v k
  | .plain (.remove k) => d.remove safeEqual k
  | .plain (.setItem v index) => d.setItem v index
  | .plain .clearCount | .plain .clearCountAndCapacity => d.clearCount
  | .fastPut v k => d.put sameObject v k
  | .fastRemove k => d.remove sameObject k
  | .key index => do return (← d.key index).1
  | .item index => do return (← d.item index).1

/-- The precondition of a command; the fast variants are for keys that `=` compares as
`is_equal` does. -/
def Command.Allowed (sameObject : κ → κ → Bool) (m : FiniteMap κ ν) : Command κ ν → Prop
  | .plain c => c.Allowed m
  | .fastPut _ _ | .fastRemove _ => ∀ k l, sameObject k l = safeEqual k l
  | .key index | .item index => 1 ≤ index ∧ index ≤ m.keys.card

/-- What a command does to the map. -/
def Command.update (m : FiniteMap κ ν) (keyAt : Int → Option κ) : Command κ ν → FiniteMap κ ν
  | .plain c => c.update m keyAt
  | .fastPut v k => m.insert (keyClass k) v
  | .fastRemove k => m.erase (keyClass k)
  | .key _ | .item _ => m

inductive Creation
  | make
  | withCapacity (mediumSize : Int)

def Creation.run (heap : NodeHeap (Node κ ν)) : Creation → HashedDictionary κ ν
  | .make => HashedDictionary.make heap
  | .withCapacity mediumSize => HashedDictionary.withCapacity heap mediumSize

/-- The precondition of a creation, whose argument is an INTEGER_32. -/
def Creation.Allowed : Creation → Prop
  | .make => True
  | .withCapacity mediumSize => 0 ≤ mediumSize ∧ mediumSize ≤ maximumInteger

variable {d : HashedDictionary κ ν}

/-! ## Single steps -/

theorem Table.transport {others others' : Set ℕ} {n : ℕ} {chain : ℕ → List ℕ} {free free' : List ℕ}
    (t : Table others d n chain free) (heap : NodeHeap (Node κ ν))
    (same : ∀ a ∈ order chain n, heap.node a = d.heap.node a)
    (pool : Pooled nodeLink heap free' (inUse chain n others'))
    (apart : ∀ a ∈ order chain n, a ∉ others') :
    Table others' { d with heap := heap } n chain free' := by
  refine ⟨t.capacity_eq, t.low, t.high, t.buckets.congr fun a member => ?_,
    t.placed.congr fun a member x at_a => ⟨x, (same a member).trans at_a, rfl⟩, pool, apart,
    t.nodup, fun a ha b hb x y at_a at_b => ?_, t.count_eq⟩
  · unfold nextOf
    rw [same a member]
  · exact t.distinct a ha b hb x y ((same a ha).symm.trans at_a) ((same b hb).symm.trans at_b)

theorem represents_createWithCapacity {heap : NodeHeap (Node κ ν)} {others : Set ℕ} {n : ℕ} {free : List ℕ}
    (pool : Pooled nodeLink heap free others) (low : 3 ≤ n) (high : n ≤ 2147483647) :
    Represents others (createWithCapacity heap n) (∅ : FiniteMap κ ν) := by
  have empty : order (fun _ => ([] : List ℕ)) n = [] := by
    exact List.flatMap_eq_nil_iff.mpr fun _ _ => rfl
  have used : inUse (fun _ => ([] : List ℕ)) n others = others := by
    ext a
    change a ∈ order _ n ∨ a ∈ others ↔ _
    rw [empty]
    exact or_iff_right List.not_mem_nil
  refine ⟨n, fun _ => [], free, ⟨rfl, low, high, ⟨rfl, fun _ _ => rfl⟩, fun _ _ a member =>
    absurd member List.not_mem_nil, by rw [used]; exact pool, ?_, ?_, ?_, ?_⟩, .empty ?_, Or.inl rfl⟩
  · rw [empty]
    exact fun a member => absurd member List.not_mem_nil
  · rw [empty]
    exact List.nodup_nil
  · rw [empty]
    exact fun a member => absurd member List.not_mem_nil
  · rw [empty]
    rfl
  · rw [empty]
    rintro k v ⟨a, member, -⟩
    exact absurd member List.not_mem_nil

theorem Creation.represents {c : Creation} (allowed : c.Allowed) {heap : NodeHeap (Node κ ν)}
    {others : Set ℕ} {free : List ℕ} (pool : Pooled nodeLink heap free others) :
    Represents others (c.run heap) (∅ : FiniteMap κ ν) := by
  cases c with
  | make => exact represents_createWithCapacity pool (by decide) (by decide)
  | withCapacity mediumSize =>
    obtain ⟨-, low, high⟩ := primeCapacity_ge allowed.1 allowed.2
    obtain ⟨n, capacity⟩ : ∃ n : ℕ, primeCapacity mediumSize = n :=
      ⟨(primeCapacity mediumSize).toNat, by omega⟩
    change Represents others (createWithCapacity heap (primeCapacity mediumSize)) _
    rw [capacity]
    exact represents_createWithCapacity pool (by omega) (by omega)

theorem Represents.execute {others : Set ℕ} {m : FiniteMap κ ν} (h : Represents others d m)
    {sameObject : κ → κ → Bool} {command : Command κ ν} (allowed : command.Allowed sameObject m) :
    Returns (d.execute sameObject command) fun d' =>
      Represents others d' (command.update m fun index => (d.key index).map Prod.snd) ∧
        Keeps others d d' := by
  have equal : ∀ k l : κ, safeEqual k l = safeEqual k l := fun _ _ => rfl
  cases command with
  | plain c =>
    cases c with
    | add v k => exact h.returns_add allowed v
    | put v k => exact h.returns_put equal v k
    | remove k => exact h.returns_remove equal k
    | setItem v index =>
      obtain ⟨d', k, named, written⟩ := h.returns_setItem v allowed.1 allowed.2
      have update : (Command.plain (.setItem v index)).update m
          (fun index => (d.key index).map Prod.snd) = m.insert (keyClass k) v := by
        change ((d.key index).map Prod.snd).elim m (fun k => m.insert (keyClass k) v) = _
        rw [named]
        rfl
      rw [update]
      exact written
    | clearCount => exact h.returns_clearCount
    | clearCountAndCapacity => exact h.returns_clearCount
  | fastPut v k => exact h.returns_put allowed v k
  | fastRemove k => exact h.returns_remove allowed k
  | key index =>
    obtain ⟨d', k, v, named, -, -, held, keeps⟩ := h.returns_key allowed.1 allowed.2
    refine ⟨d', ?_, held, keeps⟩
    change (do return (← d.key index).1) = _
    rw [named]
    rfl
  | item index =>
    obtain ⟨d', k, v, -, answered, -, held, keeps⟩ := h.returns_key allowed.1 allowed.2
    refine ⟨d', ?_, held, keeps⟩
    change (do return (← d.item index).1) = _
    rw [answered]
    rfl

/-- The dictionaries of a program and the heap that they share. -/
structure World (κ ν : Type) where
  heap : NodeHeap (Node κ ν)
  dictionary : ℕ → Option (HashedDictionary κ ν)

namespace World

/-- The program before its first dictionary. -/
def start : World κ ν where
  heap := .empty
  dictionary _ := none

/-- A dictionary in the heap of the program. -/
def enter (w : World κ ν) (d : HashedDictionary κ ν) : HashedDictionary κ ν :=
  { d with heap := w.heap }

/-- The program after a command or a creation that leaves the dictionary `d`. -/
def leave (w : World κ ν) (i : ℕ) (d : HashedDictionary κ ν) : World κ ν where
  heap := d.heap
  dictionary := Function.update w.dictionary i (some d)

/-- The program and the maps after the same commands on the dictionaries. -/
inductive Reaches (sameObject : κ → κ → Bool) : World κ ν → (ℕ → FiniteMap κ ν) → Prop
  | start : Reaches sameObject start fun _ => ∅
  | creation {w : World κ ν} {maps : ℕ → FiniteMap κ ν} (i : ℕ) (c : Creation)
      (before : Reaches sameObject w maps) (new : w.dictionary i = none) (allowed : c.Allowed) :
      Reaches sameObject (w.leave i (c.run w.heap)) (Function.update maps i ∅)
  | step {w : World κ ν} {maps : ℕ → FiniteMap κ ν} (i : ℕ) {d d' : HashedDictionary κ ν}
      (command : Command κ ν) (before : Reaches sameObject w maps)
      (object : w.dictionary i = some d) (allowed : command.Allowed sameObject (maps i))
      (run : (w.enter d).execute sameObject command = some d') :
      Reaches sameObject (w.leave i d')
        (Function.update maps i
          (command.update (maps i) fun index => ((w.enter d).key index).map Prod.snd))
  | collect {w : World κ ν} {maps : ℕ → FiniteMap κ ν} (before : Reaches sameObject w maps) :
      Reaches sameObject { w with heap := w.heap.collect } maps

/-! ## What every program keeps -/

/-- The nodes of the other dictionaries. -/
def othersOf (own : ℕ → Set ℕ) (i : ℕ) : Set ℕ :=
  {a | ∃ j, j ≠ i ∧ a ∈ own j}

/-- The nodes `own i` are those of the dictionary `i`, which holds the map `m`. -/
def Member (w : World κ ν) (own : ℕ → Set ℕ) (free : List ℕ) (i : ℕ) (d : HashedDictionary κ ν)
    (m : FiniteMap κ ν) : Prop :=
  ∃ n chain, Table (othersOf own i) (w.enter d) n chain free ∧
    (∀ a, a ∈ own i ↔ a ∈ order chain n) ∧
    Tabulates (pairs w.heap.node (order chain n)) m ∧ d.cache.Valid n chain

structure Invariant (w : World κ ν) (maps : ℕ → FiniteMap κ ν) (own : ℕ → Set ℕ)
    (free : List ℕ) : Prop where
  pool : Pooled nodeLink w.heap free {a | ∃ i, a ∈ own i}
  unmade : ∀ i, w.dictionary i = none → own i = ∅
  member : ∀ i d, w.dictionary i = some d → Member w own free i d (maps i)

variable {w : World κ ν} {maps : ℕ → FiniteMap κ ν} {own : ℕ → Set ℕ} {free : List ℕ} {i : ℕ}

theorem Member.represents {m : FiniteMap κ ν} (h : Member w own free i d m) :
    Represents (othersOf own i) (w.enter d) m := by
  obtain ⟨n, chain, t, -, tab, cached⟩ := h
  exact ⟨n, chain, free, t, tab, cached⟩

/-- A dictionary changed, and the others as they were. -/
theorem Invariant.leave (h : Invariant w maps own free) {d' : HashedDictionary κ ν}
    {m : FiniteMap κ ν} (held : Represents (othersOf own i) d' m)
    (keeps : ∀ a ∈ othersOf own i, d'.heap.node a = w.heap.node a) :
    ∃ own' free', Invariant (w.leave i d') (Function.update maps i m) own' free' := by
  obtain ⟨n, chain, free', t, tab, cached⟩ := held
  let own' : ℕ → Set ℕ := Function.update own i {a | a ∈ order chain n}
  have self : ∀ a, a ∈ own' i ↔ a ∈ order chain n := fun a => by
    change a ∈ Function.update own i _ i ↔ _
    rw [Function.update_self]
    exact Iff.rfl
  have unchanged : ∀ j, j ≠ i → own' j = own j := fun j other => Function.update_of_ne other _ _
  have all : {a | ∃ j, a ∈ own' j} = inUse chain n (othersOf own i) := by
    ext a
    constructor
    · rintro ⟨j, member⟩
      by_cases here : j = i
      · subst here
        exact Or.inl ((self a).mp member)
      · rw [unchanged j here] at member
        exact Or.inr ⟨j, here, member⟩
    · rintro (member | ⟨j, other, member⟩)
      · exact ⟨i, (self a).mpr member⟩
      · exact ⟨j, by rw [unchanged j other]; exact member⟩
  have pool : Pooled nodeLink d'.heap free' {a | ∃ j, a ∈ own' j} := by
    rw [all]
    exact t.pool
  refine ⟨own', free', pool, fun j unset => ?_, fun j e object => ?_⟩
  · change Function.update w.dictionary i (some d') j = none at unset
    by_cases here : j = i
    · rw [here, Function.update_self] at unset
      cases unset
    · rw [Function.update_of_ne here] at unset
      rw [unchanged j here]
      exact h.unmade j unset
  · change Function.update w.dictionary i (some d') j = some e at object
    by_cases here : j = i
    · subst here
      rw [Function.update_self] at object
      cases object
      have others : othersOf own' j = othersOf own j := by
        ext a
        constructor
        · rintro ⟨l, other, member⟩
          exact ⟨l, other, by rw [← unchanged l other]; exact member⟩
        · rintro ⟨l, other, member⟩
          exact ⟨l, other, by rw [unchanged l other]; exact member⟩
      refine ⟨n, chain, ?_, self, ?_, cached⟩
      · rw [others]
        exact t
      · rw [Function.update_self]
        exact tab
    · rw [Function.update_of_ne here] at object
      rw [Function.update_of_ne here]
      obtain ⟨n', chain', t', mine, tab', cached'⟩ := h.member j e object
      have same : ∀ a ∈ order chain' n', d'.heap.node a = w.heap.node a := fun a member =>
        keeps a ⟨j, here, (mine a).mpr member⟩
      have used : inUse chain' n' (othersOf own' j) = {a | ∃ l, a ∈ own' l} := by
        ext a
        constructor
        · rintro (member | ⟨l, other, member⟩)
          · exact ⟨j, by rw [unchanged j here]; exact (mine a).mpr member⟩
          · exact ⟨l, member⟩
        · rintro ⟨l, member⟩
          by_cases self' : l = j
          · subst self'
            rw [unchanged l here] at member
            exact Or.inl ((mine a).mp member)
          · exact Or.inr ⟨l, self', member⟩
      have apart : ∀ a ∈ order chain' n', a ∉ othersOf own' j := by
        rintro a member ⟨l, other, inside⟩
        by_cases at_i : l = i
        · subst at_i
          exact t.apart a ((self a).mp inside) ⟨j, here, (mine a).mpr member⟩
        · rw [unchanged l at_i] at inside
          exact t'.apart a member ⟨l, other, inside⟩
      refine ⟨n', chain', ?_, fun a => ?_, ?_, cached'⟩
      · have moved := t'.transport d'.heap same
          (by rw [used]; exact pool) apart
        exact moved
      · rw [unchanged j here]
        exact mine a
      · refine tab'.congr fun k v => ?_
        constructor
        · rintro ⟨a, member, x, at_a, eq⟩
          exact ⟨a, member, x, (same a member).symm.trans at_a, eq⟩
        · rintro ⟨a, member, x, at_a, eq⟩
          exact ⟨a, member, x, (same a member).trans at_a, eq⟩

theorem Invariant.collect (h : Invariant w maps own free) :
    Invariant { w with heap := w.heap.collect } maps own [] := by
  refine ⟨h.pool.collect, h.unmade, fun i d object => ?_⟩
  obtain ⟨n, chain, t, mine, tab, cached⟩ := h.member i d object
  have moved := t.transport w.heap.collect (fun _ _ => rfl) t.pool.collect t.apart
  exact ⟨n, chain, moved, mine, tab, cached⟩

theorem Reaches.invariant {sameObject : κ → κ → Bool} (reached : Reaches sameObject w maps) :
    ∃ own free, Invariant w maps own free := by
  induction reached with
  | start =>
    have unused : {a | ∃ _ : ℕ, a ∈ (∅ : Set ℕ)} = ∅ := by
      ext a
      exact ⟨fun ⟨_, member⟩ => member, fun member => absurd member (Set.notMem_empty a)⟩
    refine ⟨fun _ => ∅, [], ?_, fun _ _ => rfl, fun i d object => by cases object⟩
    rw [unused]
    exact pooled_empty nodeLink
  | @creation w maps i c _ new allowed ih =>
    obtain ⟨own, free, h⟩ := ih
    have unused := h.unmade i new
    have all : {a | ∃ j, a ∈ own j} = othersOf own i := by
      ext a
      constructor
      · rintro ⟨j, member⟩
        refine ⟨j, ?_, member⟩
        rintro rfl
        rw [unused] at member
        exact member
      · rintro ⟨j, -, member⟩
        exact ⟨j, member⟩
    have pool := h.pool
    rw [all] at pool
    refine h.leave (Creation.represents allowed pool) fun a _ => ?_
    cases c <;> rfl
  | step i command _ object allowed run ih =>
    obtain ⟨own, free, h⟩ := ih
    obtain ⟨held, keeps⟩ := ((h.member i _ object).represents.execute allowed).unique run
    exact h.leave held keeps
  | collect _ ih =>
    obtain ⟨own, free, h⟩ := ih
    exact ⟨own, [], h.collect⟩

/-- **HASHED_DICTIONARY objects are their finite maps.**  After every program the queries of
every dictionary answer as its map does, every node is in the bucket of its key, and the next
command returns. -/
theorem reaches_maps (κ ν : Type) [HashedKey κ] (sameObject : κ → κ → Bool) (w : World κ ν)
    (maps : ℕ → FiniteMap κ ν) (reached : Reaches sameObject w maps) (i : ℕ)
    (object : HashedDictionary κ ν) (of_program : w.dictionary i = some object) :
    let d := w.enter object
    let m := maps i
    (∀ test : κ → κ → Bool, (∀ k l, test k l = safeEqual k l) →
      (∀ k, d.has test k = some (decide (keyClass k ∈ m))) ∧
      (∀ k, keyClass k ∈ m → d.at' test k = m.lookup (keyClass k)) ∧
      (∀ k, d.referenceAt test k = some (m.lookup (keyClass k)))) ∧
    d.count = m.keys.card ∧
    (∀ index, 1 ≤ index → index ≤ d.count → ∃ d' k v, d.key index = some (d', k) ∧
      d.item index = some (d', v) ∧ m.lookup (keyClass k) = some v) ∧
    (∃ chain : ℕ → List ℕ, (order chain d.capacity.toNat).length = d.count ∧
      ∀ b : ℕ, b < d.capacity → Chain (nextOf nodeLink w.heap.node) (d.buckets.cell b) (chain b) ∧
        ∀ a ∈ chain b, ∃ x, w.heap.node a = some x ∧ bucketIndex d.capacity x.key = b) ∧
    ∀ command, command.Allowed sameObject m → ∃ d', d.execute sameObject command = some d' := by
  obtain ⟨own, free, h⟩ := reached.invariant
  have member := h.member i object of_program
  have held := member.represents
  obtain ⟨n, chain, t, -, tab, -⟩ := member
  have capacity := t.capacity_eq
  have card := t.card_eq tab
  refine ⟨fun test agrees => ⟨held.has_eq agrees, fun k present => held.at_eq agrees present,
    held.referenceAt_eq agrees⟩, card, fun index first last => ?_, ⟨chain, ?_, fun b less => ?_⟩,
    fun command allowed => (held.execute allowed).isSome⟩
  · obtain ⟨d', k, v, named, answered, found, -⟩ := held.returns_key first (by omega)
    exact ⟨d', k, v, named, answered, found⟩
  · rw [capacity, Int.toNat_natCast]
    exact t.count_eq.symm
  · have inside : b < n := by omega
    refine ⟨t.buckets.chains b inside, fun a in_chain => ?_⟩
    obtain ⟨x, at_a, placed⟩ := t.placed b inside a in_chain
    exact ⟨x, at_a, by rw [capacity]; exact placed⟩

/-- Two dictionaries of which the second recycles a node of the first. -/
theorem reaches_maps_recycled :
    ∃ (w : World (BitVec 32) Int) (maps : ℕ → FiniteMap (BitVec 32) Int)
      (object : HashedDictionary (BitVec 32) Int), Reaches (· == ·) w maps ∧
      w.dictionary 1 = some object ∧ w.heap.fresh = 1 ∧
      (w.enter object).has safeEqual 8 = some (decide (keyClass (8 : BitVec 32) ∈ maps 1)) := by
  have started : Reaches (· == ·) (start : World (BitVec 32) Int) fun _ => ∅ := .start
  have first := started.creation 0 (.withCapacity 0) rfl ⟨by decide, by decide⟩
  have second := first.creation 1 .make rfl trivial
  have third := second.step 0 (.plain (.put 1 7)) rfl trivial rfl
  have fourth := third.step 0 (.plain (.remove 7)) rfl trivial rfl
  have fifth := fourth.step 1 (.fastPut 2 8) rfl (fun _ _ => rfl) rfl
  have refined := reaches_maps (BitVec 32) Int (· == ·) _ _ fifth 1 _ rfl
  exact ⟨_, _, _, fifth, rfl, rfl, (refined.1 safeEqual fun _ _ => rfl).1 8⟩

end World

end HashedDictionary

end Liberty
