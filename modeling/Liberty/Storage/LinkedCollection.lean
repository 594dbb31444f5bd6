import Liberty.Library.LinkedSequence
import Liberty.Storage.NodeHeap

/-!
# LINKED_LIST and TWO_WAY_LINKED_LIST: what they have in common

Both classes hold a chain of nodes with a memory of the last access, and the objects of a
class recycle one another's nodes.  The routines that are written alike in the two classes
are here, with `go_item`, `dispose_node` and the removals of the class as parameters.
-/

namespace Liberty

open LinkedNodes NodeHeap

/-- The attributes of a list, with the heap of its nodes. -/
structure LinkedCollection (α : Type) where
  heap : NodeHeap α
  firstLink : Option ℕ
  lastLink : Option ℕ
  upper : Int
  memIdx : Int
  memLnk : Option ℕ

/-- What the nodes of a class carry; the nodes of LINKED_LIST have no `previous`. -/
structure NodeKind (α E : Type) where
  next : Link α
  previous : Option (Link α)
  item : α → E
  setItem : E → α → α
  item_setItem : ∀ x n, item (setItem x n) = x
  next_setItem : ∀ x n, next.get (setItem x n) = next.get n
  previous_setItem : ∀ p ∈ previous, ∀ x n, p.get (setItem x n) = p.get n

namespace LinkedCollection

variable {α E : Type}

/-! ## The source -/

/-- `make`, for an object that is new. -/
def make (heap : NodeHeap α) : LinkedCollection α where
  heap := heap
  firstLink := none
  lastLink := none
  upper := 0
  memIdx := 0
  memLnk := none

/-- The attributes after the first node is put in an empty list. -/
def single (heap : NodeHeap α) (a : ℕ) : LinkedCollection α where
  heap := heap
  firstLink := some a
  lastLink := some a
  upper := 1
  memIdx := 1
  memLnk := some a

/-- `if index /= mem_idx then go_item(index) end` -/
def seek (goItem : LinkedCollection α → Int → Option (LinkedCollection α))
    (d : LinkedCollection α) (index : Int) : Option (LinkedCollection α) :=
  if index ≠ d.memIdx then goItem d index else some d

/-- `item`, a query that may move the memory of the last access. -/
def item (K : NodeKind α E) (goItem : LinkedCollection α → Int → Option (LinkedCollection α))
    (d : LinkedCollection α) (index : Int) : Option (LinkedCollection α × E) := do
  let d ← seek goItem d index
  return (d, K.item (← d.heap.node (← d.memLnk)))

def put (K : NodeKind α E) (goItem : LinkedCollection α → Int → Option (LinkedCollection α))
    (d : LinkedCollection α) (element : E) (index : Int) : Option (LinkedCollection α) := do
  let d ← seek goItem d index
  let a ← d.memLnk
  let n ← d.heap.node a
  return { d with heap.node := Function.update d.heap.node a (some (K.setItem element n)) }

/-- The loop of `index_of`, which has an access in its test. -/
def indexOfLoop (K : NodeKind α E) (goItem : LinkedCollection α → Int → Option (LinkedCollection α))
    (test : E → E → Bool) (x : E) : ℕ → LinkedCollection α → Int → Option (LinkedCollection α × Int)
  | 0, _, _ => none
  | fuel + 1, d, result =>
    if result > d.upper then
      some (d, result)
    else do
      let (d, y) ← item K goItem d result
      if test x y then
        return (d, result)
      else
        indexOfLoop K goItem test x fuel d (result + 1)

/-- `index_of`; `test` is the comparison of SAFE_EQUAL. -/
def indexOf (K : NodeKind α E) (goItem : LinkedCollection α → Int → Option (LinkedCollection α))
    (test : E → E → Bool) (d : LinkedCollection α) (x : E) (startIndex : Int) :
    Option (LinkedCollection α × Int) :=
  indexOfLoop K goItem test x ((d.upper - startIndex + 1).toNat + 1) d startIndex

def clearCount (dispose : NodeHeap α → ℕ → Option (NodeHeap α × Option ℕ))
    (d : LinkedCollection α) : Option (LinkedCollection α) :=
  match d.firstLink with
  | none => some d
  | some a => do return make (← d.heap.disposeEach dispose (some a))

/-- `from i := n until i = 0 loop remove_first; i := i - 1 end`, and the same with
`remove_last`. -/
def removeTimes (remove : LinkedCollection α → Option (LinkedCollection α))
    (d : LinkedCollection α) (n : Int) : Option (LinkedCollection α) := do
  let (d, _) ← untilLoop (fun s => some (decide (s.2 = 0)))
    (fun (d, i) => do return (← remove d, i - 1)) n.toNat (d, n)
  return d

/-! ## The sequence -/

/-- The item at an address. -/
def itemAt (K : NodeKind α E) (node : Memory α) (a : ℕ) : Option E :=
  (node a).map K.item

/-- The nodes `l` carry the items `xs`; where the class has them, the previous links lead back
from the last node to the first one. -/
structure Linked (K : NodeKind α E) (d : LinkedCollection α) (l : List ℕ) (xs : List E) : Prop where
  carries : Carries (nextOf K.next d.heap.node) (itemAt K d.heap.node) d.firstLink d.lastLink l xs
  back : ∀ p ∈ K.previous, Chain (nextOf p d.heap.node) d.lastLink l.reverse
  upper_eq : d.upper = l.length
  cursor : LinkedNodes.Cursor l d.memIdx d.memLnk

/-- The list is `xs`, in a heap with the nodes `others` of other lists. -/
def Represents (K : NodeKind α E) (others : Set ℕ) (d : LinkedCollection α) (xs : List E) : Prop :=
  ∃ l free, Linked K d l xs ∧ Pooled K.next d.heap free {a | a ∈ l ∨ a ∈ others} ∧
    ∀ a ∈ l, a ∉ others

/-- A routine that leaves the other lists as they are. -/
def Keeps (others : Set ℕ) (d d' : LinkedCollection α) : Prop :=
  ∀ a ∈ others, d'.heap.node a = d.heap.node a

/-- `go_item` comes to every position. -/
def Goes (K : NodeKind α E) (goItem : LinkedCollection α → Int → Option (LinkedCollection α)) : Prop :=
  ∀ (d : LinkedCollection α) (l : List ℕ) (xs : List E) (k : ℕ), Linked K d l xs → k < l.length →
    goItem d ((k : Int) + 1) = some { d with memIdx := (k : Int) + 1, memLnk := l[k]? }

variable {K : NodeKind α E} {d : LinkedCollection α} {l : List ℕ} {xs : List E} {others : Set ℕ}
  {goItem : LinkedCollection α → Int → Option (LinkedCollection α)}

theorem itemAt_eq {node : Memory α} {a : ℕ} {n : α} (at_a : node a = some n) :
    itemAt K node a = some (K.item n) := by
  unfold itemAt
  rw [at_a]
  rfl

theorem itemAt_update_of_ne {node : Memory α} {a b : ℕ} (x : Option α) (other : b ≠ a) :
    itemAt K (Function.update node a x) b = itemAt K node b := by
  unfold itemAt
  rw [Function.update_of_ne other]

theorem itemAt_update_set {link : Link α} (apart : ∀ n x, K.item (link.set n x) = K.item x)
    {node : Memory α} {a : ℕ} {x : α} (at_a : node a = some x) (n : Option ℕ) :
    itemAt K (Function.update node a (some (link.set n x))) = itemAt K node := by
  funext b
  by_cases here : b = a
  · rw [here, itemAt_eq (Function.update_self _ _ _), itemAt_eq at_a, apart]
  · exact itemAt_update_of_ne _ here

theorem Linked.length_eq (h : Linked K d l xs) : l.length = xs.length :=
  h.carries.length_eq

theorem Linked.exists_node (h : Linked K d l xs) {k : ℕ} (less : k < l.length) :
    ∃ a n x, l[k]? = some a ∧ d.heap.node a = some n ∧ xs[k]? = some x ∧ K.item n = x := by
  have at_k := List.getElem?_eq_getElem less
  have item := h.carries.item_eq at_k
  rw [List.getElem?_eq_getElem (h.length_eq ▸ less)] at item
  obtain ⟨n, at_a, carried⟩ := Option.map_eq_some_iff.mp item
  exact ⟨_, n, _, at_k, at_a, List.getElem?_eq_getElem (h.length_eq ▸ less), carried⟩

theorem Linked.allocated (h : Linked K d l xs) : ∀ a ∈ l, ∃ n, d.heap.node a = some n := by
  intro a member
  obtain ⟨k, less, rfl⟩ := List.getElem_of_mem member
  obtain ⟨a, n, x, at_k, at_a, -⟩ := h.exists_node less
  rw [List.getElem?_eq_getElem less] at at_k
  cases at_k
  exact ⟨n, at_a⟩

theorem Linked.moved (h : Linked K d l xs) {k : ℕ} (less : k < l.length) :
    Linked K { d with memIdx := (k : Int) + 1, memLnk := l[k]? } l xs :=
  ⟨h.carries, h.back, h.upper_eq, Or.inr ⟨k, less, rfl, rfl⟩⟩

theorem Linked.seek_eq (h : Linked K d l xs) (goes : Goes K goItem) {k : ℕ} (less : k < l.length) :
    seek goItem d ((k : Int) + 1) = some { d with memIdx := (k : Int) + 1, memLnk := l[k]? } := by
  unfold seek
  by_cases here : (k : Int) + 1 = d.memIdx
  · rw [if_neg (not_not_intro here)]
    rcases h.cursor with ⟨-, zero, -⟩ | ⟨j, -, at_j, node⟩
    · omega
    · have same : j = k := by omega
      rw [here, ← same, ← node]
  · rw [if_pos here]
    exact goes d l xs k h less

/-- The node before a position, which has been sought, and the node at it. -/
theorem Linked.exists_before (h : Linked K d l xs) (goes : Goes K goItem) {k : ℕ} (positive : 0 < k)
    (less : k < l.length) : ∃ l₁ b c l₂ y, l = l₁ ++ b :: c :: l₂ ∧ l₁.length + 1 = k ∧
      d.heap.node b = some y ∧ K.next.get y = some c ∧
      seek goItem d ((k : Int) + 1 - 1) = some { d with memIdx := (k : Int) + 1 - 1, memLnk := some b } ∧
      Linked K { d with memIdx := (k : Int) + 1 - 1, memLnk := some b } l xs := by
  obtain ⟨l₁, b, c, l₂, rfl, before⟩ := exists_pair (show k - 1 + 1 < l.length by omega)
  have inside : k - 1 < (l₁ ++ b :: c :: l₂).length := by omega
  have at_b : (l₁ ++ b :: c :: l₂)[k - 1]? = some b := by
    rw [← before]
    exact getElem?_middle l₁ b _
  have moved := h.moved inside
  have sought := h.seek_eq goes inside
  rw [show ((k - 1 : ℕ) : Int) + 1 = (k : Int) + 1 - 1 by omega, at_b] at moved sought
  obtain ⟨y, at_y⟩ := h.allocated b (List.mem_append_right _ List.mem_cons_self)
  refine ⟨l₁, b, c, l₂, y, rfl, by omega, at_y, ?_, sought, moved⟩
  exact (nextOf_eq at_y : nextOf K.next d.heap.node b = _).symm.trans h.carries.chain.next_eq

/-! ## Nodes of the list -/

theorem exists_newNode {link : Link α} {heap : NodeHeap α} {free : List ℕ}
    (pool : Pooled link heap free {a | a ∈ l ∨ a ∈ others}) (n : α) :
    ∃ heap' a, heap.newNode link n = some (heap', a) ∧ a ∉ l ∧ a ∉ others ∧
      heap'.node = Function.update heap.node a (some n) ∧
      ∀ l' : List ℕ, (∀ b, b ∈ l' ↔ b = a ∨ b ∈ l) →
        ∃ free', Pooled link heap' free' {b | b ∈ l' ∨ b ∈ others} := by
  obtain ⟨⟨heap', a⟩, run, unused, node, free', pool'⟩ := pool.returns_newNode n
  refine ⟨heap', a, run, fun member => unused (Or.inl member), fun other => unused (Or.inr other),
    node, fun l' members => ⟨free', ?_⟩⟩
  have same : {b | b ∈ l' ∨ b ∈ others} = insert a {b | b ∈ l ∨ b ∈ others} := by
    ext b
    simp only [Set.mem_ofPred_eq, Set.mem_insert_iff, members b, or_assoc]
  rw [same]
  exact pool'

theorem exists_dispose {link : Link α} {heap : NodeHeap α} {free : List ℕ}
    {dispose : NodeHeap α → ℕ → Option (NodeHeap α × Option ℕ)} (disposes : Disposes link dispose)
    (pool : Pooled link heap free {a | a ∈ l ∨ a ∈ others}) {a : ℕ} (member : a ∈ l)
    (outside : a ∉ others) :
    ∃ heap', dispose heap a = some (heap', nextOf link heap.node a) ∧
      (∀ b, b ≠ a → heap'.node b = heap.node b) ∧
      ∀ l' : List ℕ, (∀ b, b ∈ l' ↔ b ≠ a ∧ b ∈ l) →
        ∃ free', Pooled link heap' free' {b | b ∈ l' ∨ b ∈ others} := by
  obtain ⟨⟨heap', next⟩, run, is_next, frame, -, pool'⟩ := disposes heap free _ a pool (Or.inl member)
  dsimp only at is_next frame pool'
  rw [is_next] at run
  refine ⟨heap', run, frame, fun l' members => ⟨a :: free, ?_⟩⟩
  have same : {b | b ∈ l' ∨ b ∈ others} = {b | b ∈ l ∨ b ∈ others} \ {a} := by
    ext b
    simp only [Set.mem_ofPred_eq, Set.mem_sdiff, Set.mem_singleton_iff, members b]
    constructor
    · rintro (⟨other, inside⟩ | inside)
      · exact ⟨Or.inl inside, other⟩
      · exact ⟨Or.inr inside, fun here => outside (here ▸ inside)⟩
    · rintro ⟨inside | inside, other⟩
      · exact Or.inl ⟨other, inside⟩
      · exact Or.inr inside
  rw [same]
  exact pool'

/-! ## The routines in common -/

theorem Represents.length_eq (h : Represents K others d xs) : d.upper = xs.length := by
  obtain ⟨l, free, linked, -⟩ := h
  rw [linked.upper_eq, linked.length_eq]

/-- The last link and the memory of the last access are where the first link leads to. -/
theorem Represents.positions (h : Represents K others d xs) :
    d.lastLink = walk (nextOf K.next d.heap.node) d.firstLink (xs.length - 1) ∧
    walk (nextOf K.next d.heap.node) d.firstLink xs.length = none ∧
    (xs = [] → d.memIdx = 0 ∧ d.memLnk = none) ∧
    (xs ≠ [] → 1 ≤ d.memIdx ∧ d.memIdx ≤ xs.length ∧ d.memLnk ≠ none ∧
      d.memLnk = walk (nextOf K.next d.heap.node) d.firstLink (d.memIdx - 1).toNat) := by
  obtain ⟨l, free, linked, -⟩ := h
  have length := linked.length_eq
  have chain := linked.carries.chain
  rw [chain.walk_eq, chain.walk_eq, ← length]
  refine ⟨?_, List.getElem?_eq_none (Nat.le_refl _), fun empty => ?_, fun some => ?_⟩
  · rw [linked.carries.last_eq, List.getLast?_eq_getElem?]
  · rcases linked.cursor with ⟨-, zero, none⟩ | ⟨k, less, -⟩
    · exact ⟨zero, none⟩
    · rw [length, empty] at less
      exact absurd less (Nat.not_lt_zero k)
  · rcases linked.cursor with ⟨empty, -⟩ | ⟨k, less, at_k, node⟩
    · rw [empty] at length
      exact absurd (List.length_eq_zero_iff.mp length.symm) some
    · rw [chain.walk_eq, at_k, show ((k : Int) + 1 - 1).toNat = k by omega]
      refine ⟨by omega, by omega, ?_, node⟩
      rw [node, List.getElem?_eq_getElem less]
      exact Option.some_ne_none _

theorem represents_make {heap : NodeHeap α} {free : List ℕ} (pool : Pooled K.next heap free others) :
    Represents K others (make heap) ([] : List E) := by
  refine ⟨[], free, ⟨.nil, fun _ _ => rfl, rfl, Or.inl ⟨rfl, rfl, rfl⟩⟩, ?_, fun a member =>
    absurd member List.not_mem_nil⟩
  have same : {a | a ∈ ([] : List ℕ) ∨ a ∈ others} = others := by
    ext a
    exact or_iff_right List.not_mem_nil
  rw [same]
  exact pool

theorem Represents.eq_nil_of_empty (h : Represents K others d xs) (empty : d.firstLink = none) :
    xs = [] := by
  obtain ⟨l, free, linked, -⟩ := h
  have head := linked.carries.chain.head_eq
  rw [empty] at head
  have length := linked.length_eq
  rw [List.head?_eq_none_iff.mp head.symm] at length
  exact List.length_eq_zero_iff.mp length.symm

/-- The first node of a list that was empty. -/
theorem Represents.exists_single (h : Represents K others d xs) (empty : d.firstLink = none) {n : α}
    (alone : K.next.get n = none) (alone' : ∀ p ∈ K.previous, p.get n = none) :
    ∃ heap a, d.heap.newNode K.next n = some (heap, a) ∧ xs = [] ∧
      Represents K others (single heap a) [K.item n] ∧ Keeps others d (single heap a) := by
  obtain ⟨l, free, linked, pool, apart⟩ := h
  have head := linked.carries.chain.head_eq
  rw [empty] at head
  have none : l = [] := List.head?_eq_none_iff.mp head.symm
  subst none
  obtain ⟨heap, a, run, -, outside, node, pooled⟩ := exists_newNode pool n
  obtain ⟨free', pool'⟩ := pooled [a] fun b => by simp only [List.mem_singleton, List.not_mem_nil, or_false]
  have at_a : heap.node a = some n := by
    rw [node, Function.update_self]
  refine ⟨heap, a, run, List.length_eq_zero_iff.mp linked.length_eq.symm, ⟨[a], free', ⟨?_, ?_, rfl,
    Or.inr ⟨0, Nat.zero_lt_one, rfl, rfl⟩⟩, pool', ?_⟩, ?_⟩
  · exact .single ((nextOf_eq at_a).trans alone) (itemAt_eq at_a)
  · exact fun p is_previous => ⟨rfl, (nextOf_eq at_a).trans (alone' p is_previous)⟩
  · intro b member
    rw [List.mem_singleton.mp member]
    exact outside
  · intro b other
    change heap.node b = _
    rw [node]
    exact Function.update_of_ne (fun here : b = a => outside (here ▸ other)) _ _

theorem Represents.exists_disposeOnly (h : Represents K others d xs)
    {dispose : NodeHeap α → ℕ → Option (NodeHeap α × Option ℕ)} (disposes : Disposes K.next dispose)
    (one : d.upper = 1) :
    ∃ a heap, d.firstLink = some a ∧ dispose d.heap a = some (heap, none) ∧ xs.length = 1 ∧
      Represents K others (make heap) ([] : List E) ∧ Keeps others d (make heap) := by
  obtain ⟨l, free, linked, pool, apart⟩ := h
  have upper := linked.upper_eq
  obtain ⟨a, rfl⟩ := List.length_eq_one_iff.mp (show l.length = 1 by omega)
  have outside := apart a List.mem_cons_self
  obtain ⟨heap, run, frame, pooled⟩ := exists_dispose disposes pool List.mem_cons_self outside
  obtain ⟨free', pool'⟩ := pooled [] fun b =>
    ⟨fun found => absurd found List.not_mem_nil,
      fun ⟨other, member⟩ => absurd (List.mem_singleton.mp member) other⟩
  have alone : {b | b ∈ ([] : List ℕ) ∨ b ∈ others} = others := by
    ext b
    exact or_iff_right List.not_mem_nil
  rw [alone] at pool'
  rw [show nextOf K.next d.heap.node a = none from linked.carries.chain.2] at run
  exact ⟨a, heap, linked.carries.chain.1, run, linked.length_eq.symm, represents_make pool',
    fun b other => frame b fun here => outside (here ▸ other)⟩

theorem Represents.returns_item (h : Represents K others d xs) (goes : Goes K goItem) {k : ℕ}
    (less : k < xs.length) :
    Returns (item K goItem d ((k : Int) + 1)) fun s =>
      xs[k]? = some s.2 ∧ Represents K others s.1 xs ∧ Keeps others d s.1 := by
  obtain ⟨l, free, linked, pool, apart⟩ := h
  have inside : k < l.length := linked.length_eq ▸ less
  obtain ⟨a, n, x, at_k, at_a, at_x, carried⟩ := linked.exists_node inside
  unfold item
  rw [linked.seek_eq goes inside, Option.bind_eq_bind, Option.bind_some]
  rw [at_k, Option.bind_eq_bind, Option.bind_some, at_a, Option.bind_eq_bind, Option.bind_some,
    carried]
  refine Returns.pure_iff.mpr ⟨at_x, ⟨l, free, ?_, pool, apart⟩, fun _ _ => rfl⟩
  rw [← at_k]
  exact linked.moved inside

theorem Represents.returns_put (h : Represents K others d xs) (goes : Goes K goItem) (x : E) {k : ℕ}
    (less : k < xs.length) :
    Returns (put K goItem d x ((k : Int) + 1)) fun d' =>
      Represents K others d' (xs.set k x) ∧ Keeps others d d' := by
  obtain ⟨l, free, linked, pool, apart⟩ := h
  have inside : k < l.length := linked.length_eq ▸ less
  obtain ⟨a, n, y, at_k, at_a, -⟩ := linked.exists_node inside
  have member := List.mem_of_getElem? at_k
  unfold put
  rw [linked.seek_eq goes inside, Option.bind_eq_bind, Option.bind_some]
  rw [at_k, Option.bind_eq_bind, Option.bind_some, at_a, Option.bind_eq_bind, Option.bind_some]
  have links : ∀ p : Link α, p.get (K.setItem x n) = p.get n → ∀ b,
      nextOf p (Function.update d.heap.node a (some (K.setItem x n))) b = nextOf p d.heap.node b := by
    intro p same b
    by_cases here : b = a
    · rw [here, nextOf_update_self, nextOf_eq at_a, same]
    · exact nextOf_update_of_ne _ here
  refine Returns.pure_iff.mpr ⟨⟨l, free, ⟨?_, ?_, linked.upper_eq, ?_⟩, pool.update ?_ _, apart⟩, ?_⟩
  · refine linked.carries.set at_k (fun b _ => links K.next (K.next_setItem x n) b)
      (fun b _ other => itemAt_update_of_ne _ other) ?_
    rw [itemAt_eq (Function.update_self _ _ _), K.item_setItem]
  · intro p is_previous
    exact (linked.back p is_previous).congr fun b _ => links p (K.previous_setItem p is_previous x n) b
  · exact Or.inr ⟨k, inside, rfl, at_k.symm⟩
  · exact Or.inl member
  · intro b other
    exact Function.update_of_ne (by rintro rfl; exact apart _ member other) _ _

theorem Represents.returns_indexOfLoop (h : Represents K others d xs) (goes : Goes K goItem)
    (test : E → E → Bool) (x : E) {k fuel : ℕ} (enough : xs.length - k < fuel) :
    Returns (indexOfLoop K goItem test x fuel d ((k : Int) + 1)) fun s =>
      s.2 = (k : Int) + 1 + (xs.drop k).findIdx (test x) ∧ Represents K others s.1 xs ∧
        Keeps others d s.1 := by
  induction fuel generalizing d k with
  | zero => omega
  | succ fuel ih =>
    have upper := h.length_eq
    unfold indexOfLoop
    by_cases past : (k : Int) + 1 > d.upper
    · rw [if_pos past, Returns.some_iff, List.drop_of_length_le (by omega)]
      exact ⟨rfl, h, fun _ _ => rfl⟩
    · rw [if_neg past]
      have less : k < xs.length := by omega
      refine (h.returns_item goes less).bind ?_
      rintro ⟨d', y⟩ ⟨at_k, held, keeps⟩
      dsimp only at at_k held keeps ⊢
      have split : xs.drop k = y :: xs.drop (k + 1) := by
        rw [List.drop_eq_getElem_cons less]
        rw [List.getElem?_eq_getElem less] at at_k
        rw [Option.some_inj.mp at_k]
      rw [split, List.findIdx_cons]
      cases found : test x y with
      | true =>
        rw [if_pos rfl, Returns.pure_iff]
        exact ⟨rfl, held, keeps⟩
      | false =>
        refine (@ih d' held (k + 1) (by omega)).mono fun s ⟨result, held', keeps'⟩ => ?_
        refine ⟨?_, held', fun a other => (keeps' a other).trans (keeps a other)⟩
        simp only [cond_false]
        omega

theorem Represents.returns_indexOf (h : Represents K others d xs) (goes : Goes K goItem)
    (test : E → E → Bool) (x : E) {startIndex : Int} (first : 1 ≤ startIndex) :
    Returns (indexOf K goItem test d x startIndex) fun s =>
      s.2 = startIndex + (xs.drop (startIndex - 1).toNat).findIdx (test x) ∧
        Represents K others s.1 xs ∧ Keeps others d s.1 := by
  obtain ⟨k, rfl⟩ : ∃ k : ℕ, startIndex = (k : Int) + 1 := ⟨(startIndex - 1).toNat, by omega⟩
  have upper := h.length_eq
  rw [show ((k : Int) + 1 - 1).toNat = k by omega]
  exact h.returns_indexOfLoop goes test x (by omega)

theorem Represents.returns_clearCount (h : Represents K others d xs)
    {dispose : NodeHeap α → ℕ → Option (NodeHeap α × Option ℕ)}
    (disposes : Disposes K.next dispose) :
    Returns (clearCount dispose d) fun d' =>
      Represents K others d' ([] : List E) ∧ Keeps others d d' := by
  have h' := h
  obtain ⟨l, free, linked, pool, apart⟩ := h
  have head := linked.carries.chain.head_eq
  unfold clearCount
  cases first : d.firstLink with
  | none =>
    rw [first] at head
    have none : l = [] := List.head?_eq_none_iff.mp head.symm
    have length := linked.length_eq
    rw [none] at length
    rw [List.length_eq_zero_iff.mp length.symm] at h'
    exact Returns.some_iff.mpr ⟨h', fun _ _ => rfl⟩
  | some a =>
    have chain := linked.carries.chain
    rw [first] at chain
    refine (pool.returns_disposeEach disposes chain fun b member => Or.inl member).bind ?_
    rintro heap ⟨frame, -, free', pool'⟩
    have rest : {a | a ∈ {a | a ∈ l ∨ a ∈ others} ∧ a ∉ l} = others := by
      ext b
      constructor
      · rintro ⟨member | other, out⟩
        · exact absurd member out
        · exact other
      · intro other
        exact ⟨Or.inr other, fun member => apart b member other⟩
    rw [rest] at pool'
    refine Returns.pure_iff.mpr ⟨represents_make pool', fun b other => frame b ?_⟩
    exact fun member => apart b member other

/-- Removals one after the other, by what each of them leaves. -/
theorem Represents.returns_removeTimes {remove : LinkedCollection α → Option (LinkedCollection α)}
    {n : ℕ} (cut : ℕ → List E)
    (step : ∀ (d : LinkedCollection α) (m : ℕ), m < n → Represents K others d (cut m) →
      Returns (remove d) fun d' => Represents K others d' (cut (m + 1)) ∧ Keeps others d d')
    (h : Represents K others d (cut 0)) :
    Returns (removeTimes remove d n) fun d' =>
      Represents K others d' (cut n) ∧ Keeps others d d' := by
  unfold removeTimes
  rw [Returns.bind_iff]
  refine returns_untilLoop
    (fun s : LinkedCollection α × Int => ∃ m : ℕ, m ≤ n ∧ s.2 = (n : Int) - m ∧
      Represents K others s.1 (cut m) ∧ Keeps others d s.1)
    (fun s => s.2.toNat) ⟨0, by omega, by omega, h, fun _ _ => rfl⟩ (by dsimp only; omega) ?_
  rintro ⟨d', i⟩ ⟨m, le, at_i, held, keeps⟩
  rw [Returns.some_iff]
  by_cases done : i = 0
  · rw [if_pos (decide_eq_true done), Returns.pure_iff]
    have same : m = n := by omega
    rw [← same]
    exact ⟨held, keeps⟩
  · rw [if_neg (by rw [decide_eq_false done]; exact Bool.false_ne_true)]
    refine (step d' m (by omega) held).bind ?_
    rintro d'' ⟨held', keeps'⟩
    rw [Returns.pure_iff]
    refine ⟨⟨m + 1, by omega, by omega, held', fun a other => ?_⟩, by omega⟩
    rw [keeps' a other, keeps a other]

end LinkedCollection

end Liberty
