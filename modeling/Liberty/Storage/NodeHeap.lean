import Liberty.Library.LinkedNodes
import Liberty.Storage.NativeArray
import Mathlib.Data.Int.Notation
import Mathlib.Data.Set.Insert
import Mathlib.Data.Finset.Card
import Mathlib.Data.Finset.Range

/-!
# The nodes of the hashed dictionaries

The nodes of one type, and the list of those that are ready to be recycled: it begins at
`free_nodes`, a weak reference that all dictionaries of the type share.  What is said of a
chain of a dictionary is said relative to the nodes in use, so that another dictionary's
chains stay as they are.
-/

namespace Liberty

section

open LinkedNodes

/-- The objects of a node class, and the item of the weak reference `free_nodes`. -/
structure NodeHeap (α : Type) where
  node : Memory α
  fresh : ℕ
  freeNodes : Option ℕ

namespace NodeHeap

variable {α : Type}

/-! ## The source -/

/-- The heap of a program that has no node yet. -/
def empty : NodeHeap α where
  node _ := none
  fresh := 0
  freeNodes := none

/-- `set_next`, for the link that `link` is. -/
def setLink (link : Link α) (h : NodeHeap α) (a : ℕ) (n : Option ℕ) : Option (NodeHeap α) := do
  return { h with node := Function.update h.node a (some (link.set n (← h.node a))) }

/-- `new_node`: recycle from `free_nodes` or create a new one. -/
def newNode (link : Link α) (h : NodeHeap α) (x : α) : Option (NodeHeap α × ℕ) :=
  match h.freeNodes with
  | none =>
    some ({ h with node := Function.update h.node h.fresh (some x), fresh := h.fresh + 1 },
      h.fresh)
  | some a => do
      return ({ h with node := Function.update h.node a (some x),
                       freeNodes := link.get (← h.node a) }, a)

/-- `dispose_node`: add the node in the `free_nodes` list; the result is the node after it. -/
def disposeNode (link : Link α) (h : NodeHeap α) (a : ℕ) : Option (NodeHeap α × Option ℕ) := do
  let next := link.get (← h.node a)
  let h ← h.setLink link a h.freeNodes
  return ({ h with freeNodes := some a }, next)

/-- `dispose_node` where it gives the node `made(free_nodes.item)` its attributes. -/
def recycle (link : Link α) (made : Option ℕ → α) (h : NodeHeap α) (a : ℕ) :
    Option (NodeHeap α × Option ℕ) := do
  let next := link.get (← h.node a)
  return ({ h with node := Function.update h.node a (some (made h.freeNodes)), freeNodes := some a },
    next)

/-- `from until node = Void loop node := dispose_node(node) end` -/
def disposeEach (dispose : NodeHeap α → ℕ → Option (NodeHeap α × Option ℕ)) (h : NodeHeap α)
    (node : Option ℕ) : Option (NodeHeap α) := do
  let (h, _) ← untilLoop (fun s => some s.2.isNone)
    (fun (h, node) => do dispose h (← node)) h.fresh (h, node)
  return h

/-- The inner loop of `clear_count`: the nodes of a chain are disposed of. -/
def disposeAll (link : Link α) (h : NodeHeap α) (node : Option ℕ) : Option (NodeHeap α) := do
  let (h, _) ← untilLoop (fun s => some s.2.isNone)
    (fun (h, node) => do h.disposeNode link (← node)) h.fresh (h, node)
  return h

/-- The garbage collector clears the weak reference. -/
def collect (h : NodeHeap α) : NodeHeap α :=
  { h with freeNodes := none }

/-- One round of the rebuilding loop of `increase_capacity`: `node1` goes to the head of its
new bucket. -/
def relink (link : Link α) (index : α → Int) (h : NodeHeap α)
    (buckets : NativeArray (Option ℕ)) (node1 : Option ℕ) :
    Option (NodeHeap α × NativeArray (Option ℕ) × Option ℕ) := do
  let a ← node1
  let x ← h.node a
  let node2 := link.get x
  let idx := index x
  let h ← h.setLink link a (← buckets.item idx)
  return (h, ← buckets.put (some a) idx, node2)

/-- The loop of `increase_capacity` that rebuilds one family of buckets. -/
def rebuild (link : Link α) (index : α → Int) (oldBuckets : NativeArray (Option ℕ))
    (capacity newCapacity : Int) (h : NodeHeap α) :
    Option (NodeHeap α × NativeArray (Option ℕ)) := do
  let (h, buckets, _) ← untilLoop (fun s => some (decide (s.2.2 < 0)))
    (fun (h, buckets, i) => do
      let (h, buckets, _) ← untilLoop (fun s => some s.2.2.isNone)
        (fun (h, buckets, node1) => relink link index h buckets node1)
        h.fresh (h, buckets, ← oldBuckets.item i)
      return (h, buckets, i - 1))
    capacity.toNat (h, (NativeArray.calloc newCapacity : NativeArray (Option ℕ)), capacity - 1)
  return (h, buckets)

/-! ## Nodes in use and nodes to recycle -/

/-- The list `free` is ready to be recycled and apart from the nodes in use. -/
structure Pooled (link : Link α) (h : NodeHeap α) (free : List ℕ) (used : Set ℕ) : Prop where
  chain : Chain (nextOf link h.node) h.freeNodes free
  apart : ∀ a ∈ free, a ∉ used
  allocated : ∀ a, a ∈ free ∨ a ∈ used → a < h.fresh ∧ ∃ x, h.node a = some x

variable {link : Link α} {h : NodeHeap α} {free : List ℕ} {used : Set ℕ}

theorem nextOf_update_of_ne {node : Memory α} {a b : ℕ} (x : Option α) (other : b ≠ a) :
    nextOf link (Function.update node a x) b = nextOf link node b := by
  unfold nextOf
  rw [Function.update_of_ne other]

theorem nextOf_update_self {node : Memory α} {a : ℕ} (x : α) :
    nextOf link (Function.update node a (some x)) a = link.get x :=
  nextOf_eq (Function.update_self _ _ _)

/-- A link that is apart from the one that changes. -/
theorem nextOf_update_set {link' : Link α} (apart : ∀ n x, link'.get (link.set n x) = link'.get x)
    {node : Memory α} {a : ℕ} {x : α} (at_a : node a = some x) (n : Option ℕ) :
    nextOf link' (Function.update node a (some (link.set n x))) = nextOf link' node := by
  funext b
  by_cases here : b = a
  · rw [here, nextOf_update_self, nextOf_eq at_a, apart]
  · exact nextOf_update_of_ne _ here

theorem setLink_eq {a : ℕ} {x : α} (at_a : h.node a = some x) (n : Option ℕ) :
    h.setLink link a n = some { h with node := Function.update h.node a (some (link.set n x)) } := by
  unfold setLink
  rw [at_a]
  rfl

/-- A list of nodes in use is no longer than the heap. -/
theorem Pooled.length_le (pool : Pooled link h free used) {l : List ℕ} (nodup : l.Nodup)
    (inside : ∀ a ∈ l, a ∈ used) : l.length ≤ h.fresh := by
  have below : l.toFinset ⊆ Finset.range h.fresh := by
    intro a member
    rw [Finset.mem_range]
    exact (pool.allocated a (Or.inr (inside a (List.mem_toFinset.mp member)))).1
  have card := Finset.card_le_card below
  rwa [List.toFinset_card_of_nodup nodup, Finset.card_range] at card

theorem pooled_empty (link : Link α) : Pooled link (empty : NodeHeap α) [] ∅ :=
  ⟨rfl, fun _ member => absurd member List.not_mem_nil, fun _ member =>
    absurd member fun either => either.elim List.not_mem_nil (Set.notMem_empty _)⟩

/-- After a collection the free nodes are not reached any more. -/
theorem Pooled.collect (pool : Pooled link h free used) : Pooled link h.collect [] used :=
  ⟨rfl, fun _ member => absurd member List.not_mem_nil, fun a member =>
    pool.allocated a (Or.inr (member.resolve_left List.not_mem_nil))⟩

/-- Changing a node in use does not touch the free list. -/
theorem Pooled.update (pool : Pooled link h free used) {a : ℕ} (inside : a ∈ used) (x : α) :
    Pooled link { h with node := Function.update h.node a (some x) } free used := by
  refine ⟨pool.chain.congr fun b member => nextOf_update_of_ne _ ?_, pool.apart,
    fun b member => ⟨(pool.allocated b member).1, ?_⟩⟩
  · rintro rfl
    exact pool.apart b member inside
  · by_cases same : b = a
    · exact ⟨x, by rw [same]; exact Function.update_self _ _ _⟩
    · obtain ⟨y, at_b⟩ := (pool.allocated b member).2
      exact ⟨y, by dsimp only; rw [Function.update_of_ne same]; exact at_b⟩

/-- `new_node` takes a node that was not in use, and changes no other one. -/
theorem Pooled.returns_newNode (pool : Pooled link h free used) (x : α) :
    Returns (h.newNode link x) fun s =>
      s.2 ∉ used ∧ s.1.node = Function.update h.node s.2 (some x) ∧
        ∃ free', Pooled link s.1 free' (insert s.2 used) := by
  have chain := pool.chain
  unfold newNode
  cases head : h.freeNodes with
  | none =>
    have unused : h.fresh ∉ used := by
      intro member
      have := (pool.allocated h.fresh (Or.inr member)).1
      omega
    refine Returns.some_iff.mpr ⟨unused, rfl, [], rfl,
      fun _ member => absurd member List.not_mem_nil, fun a member => ?_⟩
    rcases member with member | member
    · exact absurd member List.not_mem_nil
    · rcases member with rfl | member
      · exact ⟨Nat.lt_succ_self _, x, Function.update_self _ _ _⟩
      · have old := pool.allocated a (Or.inr member)
        refine ⟨Nat.lt_succ_of_lt old.1, ?_⟩
        obtain ⟨y, at_a⟩ := old.2
        exact ⟨y, by dsimp only; rw [Function.update_of_ne (by omega)]; exact at_a⟩
  | some a =>
    rw [head] at chain
    cases free with
    | nil => cases chain
    | cons b l =>
      cases chain.1
      have nodup := List.nodup_cons.mp chain.nodup
      obtain ⟨y, at_a⟩ := (pool.allocated a (Or.inl List.mem_cons_self)).2
      have others : ∀ b, b ≠ a → b ∈ l ∨ b ∈ insert a used →
          b < h.fresh ∧ ∃ z, h.node b = some z := by
        intro b other member
        rcases member with member | rfl | member
        · exact pool.allocated b (Or.inl (List.mem_cons_of_mem a member))
        · exact absurd rfl other
        · exact pool.allocated b (Or.inr member)
      dsimp only
      rw [at_a, Option.bind_eq_bind, Option.bind_some]
      refine Returns.pure_iff.mpr ⟨pool.apart a List.mem_cons_self, rfl, l, ?_, ?_, ?_⟩
      · have rest := chain.2
        rw [nextOf_eq at_a] at rest
        exact rest.congr fun b member => nextOf_update_of_ne _ (by
          rintro rfl
          exact nodup.1 member)
      · rintro b member (rfl | inside)
        · exact nodup.1 member
        · exact pool.apart b (List.mem_cons_of_mem a member) inside
      · intro b member
        by_cases same : b = a
        · subst same
          exact ⟨(pool.allocated b (Or.inl List.mem_cons_self)).1, x,
            Function.update_self _ _ _⟩
        · obtain ⟨less, z, at_b⟩ := others b same member
          exact ⟨less, z, by dsimp only; rw [Function.update_of_ne same]; exact at_b⟩

/-- A routine that puts a node in use on the free list, and answers the node after it. -/
def Disposes (link : Link α) (dispose : NodeHeap α → ℕ → Option (NodeHeap α × Option ℕ)) : Prop :=
  ∀ (h : NodeHeap α) (free : List ℕ) (used : Set ℕ) (a : ℕ), Pooled link h free used → a ∈ used →
    Returns (dispose h a) fun s =>
      s.2 = nextOf link h.node a ∧ (∀ b, b ≠ a → s.1.node b = h.node b) ∧
        s.1.fresh = h.fresh ∧ Pooled link s.1 (a :: free) (used \ {a})

theorem disposes_recycle (link : Link α) {made : Option ℕ → α} (linked : ∀ n, link.get (made n) = n) :
    Disposes link (recycle link made) := by
  intro h free used a pool inside
  obtain ⟨x, at_a⟩ := (pool.allocated a (Or.inr inside)).2
  unfold recycle
  rw [at_a]
  simp only [Option.bind_eq_bind, Option.bind_some, Returns.pure_iff]
  refine ⟨(nextOf_eq at_a).symm, fun b other => Function.update_of_ne other _ _, trivial, ?_, ?_, ?_⟩
  · refine Chain.push pool.chain (fun b member => nextOf_update_of_ne _ ?_) ?_
    · rintro rfl
      exact pool.apart b member inside
    · rw [nextOf_update_self, linked]
  · intro b member out
    rcases List.mem_cons.mp member with rfl | member
    · exact out.2 rfl
    · exact pool.apart b member out.1
  · intro b member
    by_cases same : b = a
    · subst same
      exact ⟨(pool.allocated b (Or.inr inside)).1, _, Function.update_self _ _ _⟩
    · have old : b ∈ free ∨ b ∈ used := by
        rcases member with member | member
        · exact Or.inl ((List.mem_cons.mp member).resolve_left same)
        · exact Or.inr member.1
      obtain ⟨less, z, at_b⟩ := pool.allocated b old
      exact ⟨less, z, by dsimp only; rw [Function.update_of_ne same]; exact at_b⟩

theorem disposes_disposeNode (link : Link α) : Disposes link (disposeNode link) := by
  intro h free used a pool inside
  obtain ⟨x, at_a⟩ := (pool.allocated a (Or.inr inside)).2
  have same : h.disposeNode link a = h.recycle link (fun n => link.set n x) a := by
    unfold disposeNode recycle
    rw [at_a, setLink_eq at_a]
    rfl
  rw [same]
  exact disposes_recycle link (fun n => link.get_set n x) h free used a pool inside

/-- `dispose_node` puts a node in use on the free list. -/
theorem Pooled.returns_disposeNode (pool : Pooled link h free used) {a : ℕ} (inside : a ∈ used) :
    Returns (h.disposeNode link a) fun s =>
      s.2 = nextOf link h.node a ∧ (∀ b, b ≠ a → s.1.node b = h.node b) ∧
        s.1.fresh = h.fresh ∧ Pooled link s.1 (a :: free) (used \ {a}) :=
  disposes_disposeNode link h free used a pool inside

theorem Pooled.returns_disposeLoop (pool : Pooled link h free used) {l : List ℕ}
    {dispose : NodeHeap α → ℕ → Option (NodeHeap α × Option ℕ)} (disposes : Disposes link dispose)
    {node : Option ℕ} (linked : Chain (nextOf link h.node) node l) (inside : ∀ a ∈ l, a ∈ used)
    {fuel : ℕ} (enough : l.length ≤ fuel) :
    Returns (untilLoop (fun s : NodeHeap α × Option ℕ => some s.2.isNone)
      (fun (h, node) => do dispose h (← node)) fuel (h, node)) fun s =>
      (∀ b, b ∉ l → s.1.node b = h.node b) ∧ s.1.fresh = h.fresh ∧
        ∃ free', Pooled link s.1 free' {a | a ∈ used ∧ a ∉ l} := by
  induction l generalizing h free used node fuel with
  | nil =>
    rw [show node = none from linked]
    refine ⟨_, untilLoop_stopped rfl, fun _ _ => rfl, rfl, free, ?_⟩
    have same : {a | a ∈ used ∧ a ∉ ([] : List ℕ)} = used := by
      ext a
      exact ⟨fun both => both.1, fun member => ⟨member, List.not_mem_nil⟩⟩
    rw [same]
    exact pool
  | cons a l ih =>
    obtain ⟨fuel, rfl⟩ : ∃ f, fuel = f + 1 := ⟨fuel - 1, by simp at enough; omega⟩
    have distinct := List.nodup_cons.mp linked.nodup
    rw [linked.1, untilLoop]
    simp only [Option.isNone_some, Option.bind_eq_bind, Option.bind_some, Bool.false_eq_true,
      if_false]
    rw [← Option.bind_eq_bind, Returns.bind_iff]
    refine (disposes h free used a pool (inside a List.mem_cons_self)).mono ?_
    rintro ⟨h', node'⟩ ⟨next, frame, fresh, pool'⟩
    dsimp only at next frame fresh pool'
    have other : ∀ b ∈ l, b ≠ a := by
      rintro b member rfl
      exact distinct.1 member
    have tail : Chain (nextOf link h'.node) node' l := by
      rw [next]
      refine linked.2.congr fun b member => ?_
      unfold nextOf
      rw [frame b (other b member)]
    refine (ih pool' tail (fun b member => ⟨inside b (List.mem_cons_of_mem a member),
      other b member⟩) (by simpa using enough)).mono ?_
    rintro s ⟨frame', fresh', free', pool''⟩
    refine ⟨fun b out => ?_, fresh'.trans fresh, free', ?_⟩
    · rw [List.mem_cons, not_or] at out
      rw [frame' b out.2, frame b out.1]
    · have same : {b | b ∈ used ∧ b ∉ a :: l} = {b | b ∈ used \ {a} ∧ b ∉ l} := by
        ext b
        simp only [Set.mem_ofPred_eq, List.mem_cons, not_or, Set.mem_sdiff,
          Set.mem_singleton_iff, and_assoc]
      rw [same]
      exact pool''

theorem Pooled.returns_disposeEach (pool : Pooled link h free used) {l : List ℕ}
    {dispose : NodeHeap α → ℕ → Option (NodeHeap α × Option ℕ)} (disposes : Disposes link dispose)
    {node : Option ℕ} (linked : Chain (nextOf link h.node) node l) (inside : ∀ a ∈ l, a ∈ used) :
    Returns (h.disposeEach dispose node) fun h' =>
      (∀ b, b ∉ l → h'.node b = h.node b) ∧ h'.fresh = h.fresh ∧
        ∃ free', Pooled link h' free' {a | a ∈ used ∧ a ∉ l} := by
  unfold disposeEach
  rw [Returns.bind_iff]
  exact (pool.returns_disposeLoop disposes linked inside
    (pool.length_le linked.nodup inside)).mono fun s done => Returns.pure_iff.mpr done

theorem Pooled.returns_disposeAll (pool : Pooled link h free used) {l : List ℕ}
    {node : Option ℕ} (linked : Chain (nextOf link h.node) node l) (inside : ∀ a ∈ l, a ∈ used) :
    Returns (h.disposeAll link node) fun h' =>
      (∀ b, b ∉ l → h'.node b = h.node b) ∧ h'.fresh = h.fresh ∧
        ∃ free', Pooled link h' free' {a | a ∈ used ∧ a ∉ l} :=
  pool.returns_disposeEach (disposes_disposeNode link) linked inside

/-! ## Buckets -/

/-- The chains of `n` buckets. -/
structure Buckets (link : Link α) (node : Memory α) (buckets : NativeArray (Option ℕ)) (n : ℕ)
    (chain : ℕ → List ℕ) : Prop where
  size_eq : buckets.size = n
  chains : ∀ i < n, Chain (nextOf link node) (buckets.cell i) (chain i)

/-- Every node of the chains is in the bucket that `index` names. -/
def Placed (index : α → Int) (node : Memory α) (n : ℕ) (chain : ℕ → List ℕ) : Prop :=
  ∀ i < n, ∀ a ∈ chain i, ∃ x, node a = some x ∧ index x = i

theorem Buckets.item_eq {node : Memory α} {buckets : NativeArray (Option ℕ)} {n : ℕ}
    {chain : ℕ → List ℕ} (b : Buckets link node buckets n chain) {i : ℕ} (less : i < n) :
    buckets.item i = some (buckets.cell i) :=
  NativeArray.item_of_inBounds (by have := b.size_eq; omega)

theorem Buckets.congr {node node' : Memory α} {buckets : NativeArray (Option ℕ)} {n : ℕ}
    {chain : ℕ → List ℕ} (b : Buckets link node buckets n chain)
    (same : ∀ a ∈ order chain n, nextOf link node' a = nextOf link node a) :
    Buckets link node' buckets n chain :=
  ⟨b.size_eq, fun i less => (b.chains i less).congr fun a member =>
    same a (mem_order.mpr ⟨i, less, member⟩)⟩

theorem Placed.congr {index : α → Int} {node node' : Memory α} {n : ℕ} {chain : ℕ → List ℕ}
    (p : Placed index node n chain)
    (same : ∀ a ∈ order chain n, ∀ x, node a = some x → ∃ y, node' a = some y ∧ index y = index x) :
    Placed index node' n chain := by
  intro i less a member
  obtain ⟨x, at_a, eq⟩ := p i less a member
  obtain ⟨y, at_a', eq'⟩ := same a (mem_order.mpr ⟨i, less, member⟩) x at_a
  exact ⟨y, at_a', eq'.trans eq⟩

theorem Buckets.replace {node node' : Memory α} {buckets buckets' : NativeArray (Option ℕ)}
    {n i : ℕ} {chain : ℕ → List ℕ} (b : Buckets link node buckets n chain)
    (size : buckets'.size = buckets.size)
    (cells : ∀ j : ℕ, j ≠ i → buckets'.cell j = buckets.cell j)
    (same : ∀ j < n, j ≠ i → ∀ a ∈ chain j, nextOf link node' a = nextOf link node a)
    {c : List ℕ} (written : Chain (nextOf link node') (buckets'.cell i) c) :
    Buckets link node' buckets' n (Function.update chain i c) := by
  refine ⟨size.trans b.size_eq, fun j less => ?_⟩
  by_cases here : j = i
  · subst here
    rw [Function.update_self]
    exact written
  · rw [cells j here, Function.update_of_ne here]
    exact (b.chains j less).congr (same j less here)

/-- A chain and its head written in one bucket. -/
theorem Buckets.set {node node' : Memory α} {buckets : NativeArray (Option ℕ)} {n i : ℕ}
    {chain : ℕ → List ℕ} (b : Buckets link node buckets n chain)
    (same : ∀ j < n, j ≠ i → ∀ a ∈ chain j, nextOf link node' a = nextOf link node a)
    {head : Option ℕ} {c : List ℕ} (written : Chain (nextOf link node') head c) :
    Buckets link node' (buckets.set head i) n (Function.update chain i c) := by
  refine b.replace (show (buckets.set head i).size = buckets.size from rfl) (fun j other => ?_)
    same ?_
  · exact NativeArray.cell_set_of_ne _ _ (by omega)
  · rw [NativeArray.cell_set_self]
    exact written

theorem Placed.set {index : α → Int} {node : Memory α} {n i : ℕ} {chain : ℕ → List ℕ}
    (p : Placed index node n chain) {c : List ℕ}
    (written : ∀ a ∈ c, ∃ x, node a = some x ∧ index x = i) :
    Placed index node n (Function.update chain i c) := by
  intro j less a member
  by_cases here : j = i
  · subst here
    rw [Function.update_self] at member
    exact written a member
  · rw [Function.update_of_ne here] at member
    exact p j less a member

/-! ## Rebuilding the buckets -/

/-- Nodes that differ in the link only. -/
def SameBut (link : Link α) (node node' : Memory α) : Prop :=
  ∀ a, (node' a).map (link.set none) = (node a).map (link.set none)

theorem SameBut.refl (link : Link α) (node : Memory α) : SameBut link node node :=
  fun _ => rfl

theorem SameBut.update {node node' : Memory α} (same : SameBut link node node') {a : ℕ} {x : α}
    (at_a : node' a = some x) (n : Option ℕ) :
    SameBut link node (Function.update node' a (some (link.set n x))) := by
  intro b
  rw [← same b]
  by_cases here : b = a
  · rw [here, Function.update_self, at_a, Option.map_some, Option.map_some, link.set_set]
  · rw [Function.update_of_ne here]

theorem SameBut.field {node node' : Memory α} (same : SameBut link node node') {β : Type}
    {f : α → β} (apart : ∀ n x, f (link.set n x) = f x) {a : ℕ} {x : α} (at_a : node a = some x) :
    ∃ y, node' a = some y ∧ f y = f x := by
  have eq := same a
  rw [at_a, Option.map_some] at eq
  obtain ⟨y, at_a', cleared⟩ := Option.map_eq_some_iff.mp eq
  refine ⟨y, at_a', ?_⟩
  rw [← apart none y, cleared, apart]

/-- What the loop of `increase_capacity` has done when the nodes `rest` are still to come. -/
structure Rebuilt (link : Link α) (index : α → Int) (h h' : NodeHeap α) (all rest : List ℕ)
    (buckets' : NativeArray (Option ℕ)) (m : ℕ) (chain' : ℕ → List ℕ) : Prop where
  buckets : Buckets link h'.node buckets' m chain'
  placed : Placed index h'.node m chain'
  perm : (order chain' m ++ rest).Perm all
  fresh_eq : h'.fresh = h.fresh
  freeNodes_eq : h'.freeNodes = h.freeNodes
  frame : ∀ a, a ∉ all → h'.node a = h.node a
  sameBut : SameBut link h.node h'.node

section Rebuild

variable {index : α → Int} {h' : NodeHeap α} {all rest : List ℕ}
  {buckets' : NativeArray (Option ℕ)} {m : ℕ} {chain' : ℕ → List ℕ}

/-- One round: the node `a` goes to the head of its new bucket. -/
theorem Rebuilt.returns_relink {a : ℕ}
    (r : Rebuilt link index h h' all (a :: rest) buckets' m chain') (nodup : all.Nodup)
    (allocated : ∀ b ∈ all, ∃ x, h.node b = some x) (apart : ∀ n x, index (link.set n x) = index x)
    (range : ∀ x, 0 ≤ index x ∧ index x < m) :
    Returns (relink link index h' buckets' (some a)) fun s =>
      s.2.2 = nextOf link h'.node a ∧
        (∀ b, b ≠ a → nextOf link s.1.node b = nextOf link h'.node b) ∧
        ∃ chain'', Rebuilt link index h s.1 all rest s.2.1 m chain'' := by
  have member : a ∈ all := r.perm.subset (List.mem_append_right _ List.mem_cons_self)
  obtain ⟨x₀, at_a₀⟩ := allocated a member
  obtain ⟨x, at_a, -⟩ := r.sameBut.field (f := fun _ => ()) (fun _ _ => rfl) at_a₀
  have bounds := range x
  obtain ⟨i, at_i⟩ : ∃ i : ℕ, index x = i := ⟨(index x).toNat, by omega⟩
  have less : i < m := by omega
  have size := r.buckets.size_eq
  have fresh : a ∉ order chain' m := by
    have disjoint := r.perm.nodup_iff.mpr nodup
    exact fun again => (List.nodup_append.mp disjoint).2.2 a again a List.mem_cons_self rfl
  unfold relink
  rw [Option.bind_eq_bind, Option.bind_some, at_a, Option.bind_eq_bind, Option.bind_some]
  dsimp only
  rw [at_i, NativeArray.item_of_inBounds (by omega), Returns.bind_iff, Returns.some_iff,
    setLink_eq at_a, Returns.bind_iff, Returns.some_iff, Returns.bind_iff,
    NativeArray.returns_put, Returns.pure_iff]
  refine ⟨⟨by omega, by omega⟩, (nextOf_eq at_a).symm,
    fun b other => nextOf_update_of_ne _ other, Function.update chain' i (a :: chain' i),
    ?_, ?_, ?_, r.fresh_eq, r.freeNodes_eq, fun b out => ?_, r.sameBut.update at_a _⟩
  · have others : ∀ j < m, ∀ b ∈ chain' j, nextOf link
        (Function.update h'.node a (some (link.set (buckets'.cell i) x))) b =
        nextOf link h'.node b := by
      intro j low b inside
      refine nextOf_update_of_ne _ ?_
      rintro rfl
      exact fresh (mem_order.mpr ⟨j, low, inside⟩)
    refine r.buckets.set (fun j low _ => others j low) ?_
    refine Chain.push (r.buckets.chains i less) (others i less) ?_
    rw [nextOf_update_self, link.get_set]
  · have kept : Placed index (Function.update h'.node a
        (some (link.set (buckets'.cell i) x))) m chain' := by
      refine r.placed.congr fun b inside y at_b => ⟨y, ?_, rfl⟩
      rw [Function.update_of_ne (by rintro rfl; exact fresh inside)]
      exact at_b
    refine kept.set fun b inside => ?_
    rcases List.mem_cons.mp inside with rfl | inside
    · exact ⟨_, Function.update_self _ _ _, by rw [apart]; exact at_i⟩
    · exact kept i less b inside
  · refine ((order_push_perm less a).append_right rest).trans (List.Perm.trans ?_ r.perm)
    exact List.perm_middle.symm
  · rw [← r.frame b out]
    exact Function.update_of_ne (by rintro rfl; exact out member) _ _

theorem Rebuilt.returns_chain {l : List ℕ}
    (r : Rebuilt link index h h' all (l ++ rest) buckets' m chain') (nodup : all.Nodup)
    (allocated : ∀ b ∈ all, ∃ x, h.node b = some x) (apart : ∀ n x, index (link.set n x) = index x)
    (range : ∀ x, 0 ≤ index x ∧ index x < m) {node1 : Option ℕ}
    (linked : Chain (nextOf link h'.node) node1 l) {fuel : ℕ} (enough : l.length ≤ fuel) :
    Returns (untilLoop (fun s : NodeHeap α × NativeArray (Option ℕ) × Option ℕ =>
        some s.2.2.isNone) (fun (h, buckets, node1) => relink link index h buckets node1)
        fuel (h', buckets', node1)) fun s =>
      (∀ b, b ∉ l → nextOf link s.1.node b = nextOf link h'.node b) ∧
        ∃ chain'', Rebuilt link index h s.1 all rest s.2.1 m chain'' := by
  induction l generalizing h' buckets' chain' node1 fuel with
  | nil =>
    rw [show node1 = none from linked]
    exact ⟨_, untilLoop_stopped rfl, fun _ _ => rfl, chain', r⟩
  | cons a l ih =>
    obtain ⟨fuel, rfl⟩ : ∃ f, fuel = f + 1 := ⟨fuel - 1, by simp at enough; omega⟩
    have distinct := List.nodup_cons.mp linked.nodup
    rw [linked.1, untilLoop]
    simp only [Option.isNone_some, Option.bind_eq_bind, Option.bind_some, Bool.false_eq_true,
      if_false]
    rw [← Option.bind_eq_bind, Returns.bind_iff]
    refine (r.returns_relink nodup allocated apart range).mono ?_
    rintro ⟨h'', buckets'', node2⟩ ⟨next, same, chain'', r'⟩
    dsimp only at next same r'
    have tail : Chain (nextOf link h''.node) node2 l := by
      rw [next]
      refine linked.2.congr fun b member => same b ?_
      rintro rfl
      exact distinct.1 member
    refine (ih r' tail (by simpa using enough)).mono ?_
    rintro s ⟨same', rebuilt⟩
    refine ⟨fun b out => ?_, rebuilt⟩
    rw [List.mem_cons, not_or] at out
    rw [same' b out.2, same b out.1]

/-- **The rebuilt buckets** hold the nodes of the old ones, each in its new place, and no
other node is changed. -/
theorem returns_rebuild {old : NativeArray (Option ℕ)} {n : ℕ} {chain : ℕ → List ℕ}
    (b : Buckets link h.node old n chain) (nodup : (order chain n).Nodup)
    (allocated : ∀ a ∈ order chain n, a < h.fresh ∧ ∃ x, h.node a = some x)
    (apart : ∀ n x, index (link.set n x) = index x) (range : ∀ x, 0 ≤ index x ∧ index x < m) :
    Returns (rebuild link index old n m h) fun s =>
      ∃ chain', Rebuilt link index h s.1 (order chain n) [] s.2 m chain' := by
  have size := b.size_eq
  have bounded : ∀ l : List ℕ, l.Nodup → (∀ a ∈ l, a ∈ order chain n) → l.length ≤ h.fresh := by
    intro l distinct inside
    have below : l.toFinset ⊆ Finset.range h.fresh := by
      intro a member
      rw [Finset.mem_range]
      exact (allocated a (inside a (List.mem_toFinset.mp member))).1
    have card := Finset.card_le_card below
    rwa [List.toFinset_card_of_nodup distinct, Finset.card_range] at card
  unfold rebuild
  rw [Returns.bind_iff]
  refine returns_untilLoop
    (fun s : NodeHeap α × NativeArray (Option ℕ) × Int => ∃ i : ℕ, s.2.2 = (i : Int) - 1 ∧ i ≤ n ∧
      (∀ j < i, Chain (nextOf link s.1.node) (old.cell j) (chain j)) ∧
      ∃ chain', Rebuilt link index h s.1 (order chain n) (order chain i) s.2.1 m chain')
    (fun s => (s.2.2 + 1).toNat) ?_ (by dsimp only; omega) ?_
  · have none : order (fun _ => ([] : List ℕ)) m = [] := by
      exact List.flatMap_eq_nil_iff.mpr fun _ _ => rfl
    refine ⟨n, rfl, le_refl n, b.chains, fun _ => [], ⟨⟨rfl, fun _ _ => rfl⟩,
      fun _ _ a member => absurd member List.not_mem_nil, ?_, rfl, rfl, fun _ _ => rfl,
      .refl _ _⟩⟩
    rw [none]
    exact .refl _
  · rintro ⟨h', buckets', j⟩ ⟨i, at_j, le, chains, chain', r⟩
    dsimp only at at_j chains r ⊢
    rw [Returns.some_iff]
    by_cases done : j < 0
    · rw [if_pos (decide_eq_true done), Returns.pure_iff]
      have zero : i = 0 := by omega
      subst zero
      exact ⟨chain', r⟩
    · rw [if_neg (by rw [decide_eq_false done]; exact Bool.false_ne_true)]
      obtain ⟨i, rfl⟩ : ∃ k, i = k + 1 := ⟨i - 1, by omega⟩
      have at_i : j = (i : Int) := by omega
      subst at_i
      have linked := chains i (by omega)
      have inside : ∀ a ∈ chain i, a ∈ order chain n := fun a member =>
        mem_order.mpr ⟨i, by omega, member⟩
      have r' : Rebuilt link index h h' (order chain n) (chain i ++ order chain i) buckets' m
          chain' := by
        refine ⟨r.buckets, r.placed, ?_, r.fresh_eq, r.freeNodes_eq, r.frame, r.sameBut⟩
        have perm := r.perm
        rw [order_succ] at perm
        exact ((List.perm_append_comm).append_left _).trans perm
      rw [NativeArray.item_of_inBounds (by omega), Returns.bind_iff, Returns.some_iff,
        Returns.bind_iff]
      refine (r'.returns_chain nodup (fun a member => (allocated a member).2) apart range linked
        (by rw [r.fresh_eq]; exact bounded _ linked.nodup inside)).mono ?_
      rintro ⟨h'', buckets'', node1⟩ ⟨same, chain'', r''⟩
      rw [Returns.pure_iff]
      refine ⟨⟨i, rfl, by omega, fun k low => (chains k (by omega)).congr fun a member =>
        same a fun again => ?_, chain'', r''⟩, by dsimp only; omega⟩
      exact notMem_of_nodup_order nodup (by omega) (by omega) (by omega) member again

end Rebuild

end NodeHeap

end

/-!
## Objects that share a node heap

Any number of objects keep their nodes in one heap, and the free nodes are those of none of
them.  When one object changes its own nodes, and takes or gives back free ones, the others
stay as they are.
-/

section

open LinkedNodes

namespace NodeHeap

variable {α : Type}

/-- The nodes of the objects other than `i`. -/
def othersOf (own : ℕ → Set ℕ) (i : ℕ) : Set ℕ :=
  {a | ∃ j, j ≠ i ∧ a ∈ own j}

/-- Every object `i` has the nodes `own i` and `fits` in the heap beside the nodes of the
others. -/
structure Sharing (link : Link α) (h : NodeHeap α)
    (fits : ℕ → NodeHeap α → Set ℕ → Set ℕ → List ℕ → Prop) (own : ℕ → Set ℕ) (free : List ℕ) :
    Prop where
  pool : Pooled link h free {a | ∃ i, a ∈ own i}
  apart : ∀ i, ∀ a ∈ own i, a ∉ othersOf own i
  fits : ∀ i, fits i h (othersOf own i) (own i) free

variable {link : Link α} {h h' : NodeHeap α}
  {fits fits' : ℕ → NodeHeap α → Set ℕ → Set ℕ → List ℕ → Prop} {own : ℕ → Set ℕ}
  {free free' : List ℕ} {i : ℕ}

/-- An object fits in a heap that leaves its nodes as they are. -/
def Transports (link : Link α) (fits fits' : NodeHeap α → Set ℕ → Set ℕ → List ℕ → Prop) : Prop :=
  ∀ (h h' : NodeHeap α) (others others' mine : Set ℕ) (free free' : List ℕ),
    fits h others mine free → (∀ a ∈ mine, h'.node a = h.node a) →
    Pooled link h' free' {a | a ∈ mine ∨ a ∈ others'} → (∀ a ∈ mine, a ∉ others') →
    fits' h' others' mine free'

theorem othersOf_update (own : ℕ → Set ℕ) (i : ℕ) (mine : Set ℕ) :
    othersOf (Function.update own i mine) i = othersOf own i := by
  ext a
  constructor
  · rintro ⟨j, other, member⟩
    rw [Function.update_of_ne other] at member
    exact ⟨j, other, member⟩
  · rintro ⟨j, other, member⟩
    refine ⟨j, other, ?_⟩
    rw [Function.update_of_ne other]
    exact member

/-- All nodes are those of `i` and those of the others. -/
theorem exists_own_iff (own : ℕ → Set ℕ) (i : ℕ) :
    {a | ∃ j, a ∈ own j} = {a | a ∈ own i ∨ a ∈ othersOf own i} := by
  ext a
  constructor
  · rintro ⟨j, member⟩
    by_cases here : j = i
    · subst here
      exact Or.inl member
    · exact Or.inr ⟨j, here, member⟩
  · rintro (member | ⟨j, -, member⟩)
    · exact ⟨i, member⟩
    · exact ⟨j, member⟩

theorem sharing_empty (link : Link α) (unmade : ∀ i, fits i empty ∅ ∅ []) :
    Sharing link empty fits (fun _ => ∅) [] := by
  have unused : {a | ∃ _ : ℕ, a ∈ (∅ : Set ℕ)} = ∅ := by
    ext a
    exact ⟨fun ⟨_, member⟩ => member, fun member => absurd member (Set.notMem_empty a)⟩
  have others : ∀ i, othersOf (fun _ => (∅ : Set ℕ)) i = ∅ := by
    intro i
    ext a
    exact ⟨fun ⟨_, _, member⟩ => member, fun member => absurd member (Set.notMem_empty a)⟩
  refine ⟨?_, fun i a member => absurd member (Set.notMem_empty a), fun i => ?_⟩
  · rw [unused]
    exact pooled_empty link
  · rw [others i]
    exact unmade i

/-- The object `i` changes and has the nodes `mine` from now on. -/
theorem Sharing.change (s : Sharing link h fits own free) (mine : Set ℕ)
    (pool : Pooled link h' free' {a | a ∈ mine ∨ a ∈ othersOf own i})
    (apart : ∀ a ∈ mine, a ∉ othersOf own i) (changed : fits' i h' (othersOf own i) mine free')
    (keeps : ∀ a ∈ othersOf own i, h'.node a = h.node a)
    (transports : ∀ j, j ≠ i → Transports link (fits j) (fits' j)) :
    Sharing link h' fits' (Function.update own i mine) free' := by
  have self : Function.update own i mine i = mine := Function.update_self _ _ _
  have all : Pooled link h' free' {a | ∃ j, a ∈ Function.update own i mine j} := by
    rw [exists_own_iff _ i, self, othersOf_update]
    exact pool
  have disjoint : ∀ j, ∀ a ∈ Function.update own i mine j,
      a ∉ othersOf (Function.update own i mine) j := by
    rintro j a member ⟨l, other, member'⟩
    by_cases at_j : j = i <;> by_cases at_l : l = i
    · exact other (at_l.trans at_j.symm)
    · rw [at_j, self] at member
      rw [Function.update_of_ne at_l] at member'
      exact apart a member ⟨l, at_l, member'⟩
    · rw [Function.update_of_ne at_j] at member
      rw [at_l, self] at member'
      exact apart a member' ⟨j, at_j, member⟩
    · rw [Function.update_of_ne at_j] at member
      rw [Function.update_of_ne at_l] at member'
      exact s.apart j a member ⟨l, other, member'⟩
  refine ⟨all, disjoint, fun j => ?_⟩
  by_cases here : j = i
  · rw [here, self, othersOf_update]
    exact changed
  · have mine' : Function.update own i mine j = own j := Function.update_of_ne here _ _
    have disjoint' := disjoint j
    rw [exists_own_iff _ j] at all
    rw [mine'] at all disjoint' ⊢
    exact transports j here h h' _ _ _ _ _ (s.fits j) (fun a member => keeps a ⟨j, here, member⟩)
      all disjoint'

/-- The garbage collector clears the weak reference. -/
theorem Sharing.collect (s : Sharing link h fits own free)
    (transports : ∀ j, Transports link (fits j) (fits j)) :
    Sharing link h.collect fits own [] := by
  refine ⟨s.pool.collect, s.apart, fun j => ?_⟩
  have pool := s.pool.collect
  rw [exists_own_iff own j] at pool
  exact transports j h h.collect _ _ _ _ _ (s.fits j) (fun _ _ => rfl) pool (s.apart j)

end NodeHeap

end

end Liberty
