import Liberty.Storage.LinkedCollection
import Liberty.Storage.LinkedWorld

/-!
# TWO_WAY_LINKED_LIST

A list whose nodes are linked both ways: the memory of the last access goes in the direction
that is shorter, or starts again from one of the ends.
-/

namespace Liberty

section

open LinkedNodes NodeHeap LinkedCollection

/-- The objects of TWO_WAY_LINKED_LIST_NODE. -/
structure TwoWayLinkedListNode (E : Type) where
  item : E
  previous : Option ℕ
  next : Option ℕ
deriving DecidableEq

abbrev TwoWayLinkedList (E : Type) : Type := LinkedCollection (TwoWayLinkedListNode E)

namespace TwoWayLinkedList

variable {E : Type}

/-! ## The source -/

def nextLink : Link (TwoWayLinkedListNode E) where
  get n := n.next
  set next n := { n with next }
  get_set _ _ := rfl
  set_set _ _ _ := rfl

def previousLink : Link (TwoWayLinkedListNode E) where
  get n := n.previous
  set previous n := { n with previous }
  get_set _ _ := rfl
  set_set _ _ _ := rfl

def kind : NodeKind (TwoWayLinkedListNode E) E where
  next := nextLink
  previous := some previousLink
  item n := n.item
  setItem item n := { n with item }
  item_setItem _ _ := rfl
  next_setItem _ _ := rfl
  previous_setItem p is_previous _ _ := by
    rw [← Option.some_inj.mp is_previous]
    rfl

/-- `new_node` -/
def newNode (heap : NodeHeap (TwoWayLinkedListNode E)) (e : E) (previous next : Option ℕ) :
    Option (NodeHeap (TwoWayLinkedListNode E) × ℕ) :=
  heap.newNode nextLink ⟨e, previous, next⟩

def goItem (d : TwoWayLinkedList E) (index : Int) : Option (TwoWayLinkedList E) := do
  let fuel := d.upper.toNat
  let (memIdx, memLnk) ←
    (if index > d.memIdx then
      if d.upper - index < index - d.memIdx then
        stepsTo previousLink d.heap.node (-1) index fuel (d.upper, d.lastLink)
      else
        stepsTo nextLink d.heap.node 1 index fuel (d.memIdx, d.memLnk)
    else if d.memIdx - index < index - 1 then
      stepsTo previousLink d.heap.node (-1) index fuel (d.memIdx, d.memLnk)
    else
      stepsTo nextLink d.heap.node 1 index fuel (1, d.firstLink))
  return { d with memIdx, memLnk }

def item (d : TwoWayLinkedList E) (index : Int) : Option (TwoWayLinkedList E × E) :=
  LinkedCollection.item kind goItem d index

def put (d : TwoWayLinkedList E) (element : E) (index : Int) : Option (TwoWayLinkedList E) :=
  LinkedCollection.put kind goItem d element index

def indexOf (test : E → E → Bool) (d : TwoWayLinkedList E) (x : E) (startIndex : Int) :
    Option (TwoWayLinkedList E × Int) :=
  LinkedCollection.indexOf kind goItem test d x startIndex

def addFirst (d : TwoWayLinkedList E) (element : E) : Option (TwoWayLinkedList E) :=
  match d.firstLink with
  | none => do
      let (heap, a) ← newNode d.heap element none none
      return single heap a
  | some first => do
      let (heap, a) ← newNode d.heap element none (some first)
      let heap ← heap.setLink previousLink (← (← heap.node a).next) (some a)
      return { d with heap, firstLink := some a, upper := d.upper + 1, memIdx := d.memIdx + 1 }

def addLast (d : TwoWayLinkedList E) (element : E) : Option (TwoWayLinkedList E) :=
  match d.firstLink with
  | none => do
      let (heap, a) ← newNode d.heap element none none
      return single heap a
  | some _ => do
      let (heap, a) ← newNode d.heap element d.lastLink none
      let heap ← heap.setLink nextLink (← (← heap.node a).previous) (some a)
      return { d with heap, lastLink := some a, upper := d.upper + 1 }

def add (d : TwoWayLinkedList E) (element : E) (index : Int) : Option (TwoWayLinkedList E) :=
  if index = 1 then
    addFirst d element
  else if index = d.upper + 1 then
    addLast d element
  else do
    let d ← seek goItem d (index - 1)
    let mem ← d.memLnk
    let (heap, link) ← newNode d.heap element (some mem) (← d.heap.node mem).next
    let heap ← heap.setLink previousLink (← (← heap.node link).next) (some link)
    let heap ← heap.setLink nextLink mem (some link)
    return { d with heap, upper := d.upper + 1 }

section Removing

variable [Inhabited E]

/-- `dispose_node`; the node gets the default value. -/
def disposeNode (heap : NodeHeap (TwoWayLinkedListNode E)) (node : ℕ) :
    Option (NodeHeap (TwoWayLinkedListNode E) × Option ℕ) :=
  heap.recycle nextLink (fun next => ⟨default, none, next⟩) node

def removeFirst (d : TwoWayLinkedList E) : Option (TwoWayLinkedList E) :=
  if d.upper = 1 then do
    let (heap, firstLink) ← disposeNode d.heap (← d.firstLink)
    return { heap, firstLink, lastLink := none, memLnk := none, memIdx := 0, upper := 0 }
  else do
    let (heap, firstLink) ← disposeNode d.heap (← d.firstLink)
    let heap ← heap.setLink previousLink (← firstLink) none
    if d.memIdx > 1 then
      return { d with heap, firstLink, upper := d.upper - 1, memIdx := d.memIdx - 1 }
    else
      return { d with heap, firstLink, upper := d.upper - 1, memLnk := firstLink, memIdx := 1 }

def removeLast (d : TwoWayLinkedList E) : Option (TwoWayLinkedList E) :=
  if d.upper = 1 then do
    let (heap, firstLink) ← disposeNode d.heap (← d.firstLink)
    return { heap, firstLink, lastLink := none, memLnk := none, memIdx := 0, upper := 0 }
  else do
    let link ← d.lastLink
    let last ← (← d.heap.node link).previous
    let heap ← d.heap.setLink nextLink last none
    let (heap, _) ← disposeNode heap link
    if d.memIdx = d.upper then
      return { d with heap, lastLink := some last, memIdx := 1, memLnk := d.firstLink, upper := d.upper - 1 }
    else
      return { d with heap, lastLink := some last, upper := d.upper - 1 }

def remove (d : TwoWayLinkedList E) (index : Int) : Option (TwoWayLinkedList E) :=
  if index = 1 then
    removeFirst d
  else if index = d.upper then
    removeLast d
  else do
    let d ← seek goItem d (index - 1)
    let mem ← d.memLnk
    let link ← (← d.heap.node mem).next
    let after := (← d.heap.node link).next
    let heap ← d.heap.setLink nextLink mem after
    let heap ← heap.setLink previousLink (← (← heap.node link).next) (some mem)
    let (heap, _) ← disposeNode heap link
    return { d with heap, upper := d.upper - 1 }

def removeHead (d : TwoWayLinkedList E) (n : Int) : Option (TwoWayLinkedList E) :=
  removeTimes removeFirst d n

def removeTail (d : TwoWayLinkedList E) (n : Int) : Option (TwoWayLinkedList E) :=
  removeTimes removeLast d n

def clearCount (d : TwoWayLinkedList E) : Option (TwoWayLinkedList E) :=
  LinkedCollection.clearCount disposeNode d

end Removing

/-! ## The memory of the last access -/

theorem goes : Goes (kind : NodeKind (TwoWayLinkedListNode E) E) goItem := by
  intro d l xs k linked less
  have upper := linked.upper_eq
  have back : Chain (nextOf previousLink d.heap.node) d.lastLink l.reverse :=
    linked.back previousLink rfl
  have head : l[0]? = d.firstLink := by
    rw [← List.head?_eq_getElem?]
    exact linked.carries.chain.head_eq.symm
  have last : l[l.length - 1]? = d.lastLink := by
    rw [← List.getLast?_eq_getElem?]
    exact linked.carries.last_eq.symm
  have forward : ∀ j ≤ k, stepsTo nextLink d.heap.node 1 ((k : Int) + 1) d.upper.toNat
      ((j : Int) + 1, l[j]?) = some ((k : Int) + 1, l[k]?) := fun j order =>
    linked.carries.chain.stepsTo_eq linked.allocated order less (by omega)
  have backward : ∀ j < l.length, k ≤ j → stepsTo previousLink d.heap.node (-1) ((k : Int) + 1)
      d.upper.toNat ((j : Int) + 1, l[j]?) = some ((k : Int) + 1, l[k]?) := fun j inside order =>
    back.stepsTo_back_eq linked.allocated order inside (by omega)
  rcases linked.cursor with ⟨empty, -⟩ | ⟨j, inside, at_j, node⟩
  · rw [empty] at less
    exact absurd less (Nat.not_lt_zero k)
  · unfold goItem
    dsimp only
    by_cases ahead : (k : Int) + 1 > d.memIdx
    · rw [if_pos ahead]
      by_cases fromEnd : d.upper - ((k : Int) + 1) < (k : Int) + 1 - d.memIdx
      · have steps := backward (l.length - 1) (by omega) (by omega)
        rw [last, show ((l.length - 1 : ℕ) : Int) + 1 = d.upper by omega] at steps
        rw [if_pos fromEnd, steps]
        rfl
      · rw [if_neg fromEnd, at_j, node, forward j (by omega)]
        rfl
    · rw [if_neg ahead]
      by_cases near : d.memIdx - ((k : Int) + 1) < (k : Int) + 1 - 1
      · rw [if_pos near, at_j, node, backward j inside (by omega)]
        rfl
      · have steps := forward 0 (Nat.zero_le k)
        rw [head, show ((0 : ℕ) : Int) + 1 = 1 from rfl] at steps
        rw [if_neg near, steps]
        rfl

/-! ## Links of the nodes -/

section Links

variable {node : Memory (TwoWayLinkedListNode E)} {a : ℕ} {y : TwoWayLinkedListNode E}

theorem nextOf_setPrevious (at_a : node a = some y) (n : Option ℕ) :
    nextOf nextLink (Function.update node a (some (previousLink.set n y))) = nextOf nextLink node :=
  nextOf_update_set (fun _ _ => rfl) at_a n

theorem previousOf_setNext (at_a : node a = some y) (n : Option ℕ) :
    nextOf previousLink (Function.update node a (some (nextLink.set n y))) =
      nextOf previousLink node :=
  nextOf_update_set (fun _ _ => rfl) at_a n

theorem itemAt_setPrevious (at_a : node a = some y) (n : Option ℕ) :
    itemAt kind (Function.update node a (some (previousLink.set n y))) = itemAt kind node :=
  itemAt_update_set (fun _ _ => rfl) at_a n

theorem itemAt_setNext (at_a : node a = some y) (n : Option ℕ) :
    itemAt kind (Function.update node a (some (nextLink.set n y))) = itemAt kind node :=
  itemAt_update_set (fun _ _ => rfl) at_a n

end Links

/-! ## Insertions -/

variable {d : TwoWayLinkedList E} {xs : List E} {others : Set ℕ} {l l' : List ℕ} {b : ℕ}
  {free : List ℕ}

theorem back_of {head : Option ℕ}
    (chain : Chain (nextOf previousLink d.heap.node) head l.reverse) :
    ∀ p ∈ (kind : NodeKind (TwoWayLinkedListNode E) E).previous,
      Chain (nextOf p d.heap.node) head l.reverse := by
  rintro p is_previous
  rw [← Option.some_inj.mp is_previous]
  exact chain

theorem returns_addFirst (h : Represents kind others d xs) (x : E) :
    Returns (addFirst d x) fun d' => Represents kind others d' (x :: xs) ∧ Keeps others d d' := by
  unfold addFirst
  cases first : d.firstLink with
  | none =>
    obtain ⟨heap, a, run, rfl, held⟩ :=
      @Represents.exists_single _ _ _ _ _ _ h first (⟨x, none, none⟩ : TwoWayLinkedListNode E) rfl
        fun p is_previous => by rw [← Option.some_inj.mp is_previous]; rfl
    unfold newNode
    rw [show d.heap.newNode nextLink ⟨x, none, none⟩ = some (heap, a) from run]
    exact Returns.pure_iff.mpr held
  | some head =>
    obtain ⟨l, free, linked, pool, apart⟩ := h
    obtain ⟨l', rfl⟩ := linked.carries.exists_head first
    obtain ⟨y, at_head⟩ := linked.allocated head List.mem_cons_self
    have distinct := List.nodup_cons.mp linked.carries.chain.nodup
    have back := linked.back previousLink rfl
    rw [List.reverse_cons] at back
    obtain ⟨heap, a, run, absent, outside, node, pooled⟩ :=
      exists_newNode pool (⟨x, none, some head⟩ : TwoWayLinkedListNode E)
    obtain ⟨free', pool'⟩ := pooled (a :: head :: l') fun b => List.mem_cons
    have other : head ≠ a := fun here => absent (here ▸ List.mem_cons_self)
    have at_a : heap.node a = some ⟨x, none, some head⟩ := by rw [node, Function.update_self]
    have at_head' : heap.node head = some y := by
      rw [node, Function.update_of_ne other, at_head]
    have kept : ∀ b ∈ head :: l', heap.node b = d.heap.node b := by
      intro b member
      rw [node]
      exact Function.update_of_ne (fun here : b = a => absent (here ▸ member)) _ _
    have made : newNode d.heap x none (some head) = some (heap, a) := run
    dsimp only
    rw [made]
    simp only [Option.bind_eq_bind, Option.bind_some, at_a, setLink_eq at_head']
    refine Returns.pure_iff.mpr ⟨⟨a :: head :: l', free', ⟨?_, back_of ?_, ?_, ?_⟩,
      pool'.update (Or.inl (List.mem_cons_of_mem a List.mem_cons_self)) _, ?_⟩, ?_⟩
    · change Carries (nextOf nextLink (Function.update heap.node head _))
        (itemAt kind (Function.update heap.node head _)) _ _ _ _
      rw [nextOf_setPrevious at_head', itemAt_setPrevious at_head']
      refine linked.carries.push (fun b member => ?_) (fun b member => ?_) ?_ ?_ ?_
      · exact congrArg (fun o : Option (TwoWayLinkedListNode E) => o.bind nextLink.get) (kept b member)
      · exact congrArg (Option.map kind.item) (kept b member)
      · exact (nextOf_eq at_a).trans first.symm
      · exact itemAt_eq at_a
      · exact linked.carries.last_eq
    · have mirrored : (a :: head :: l').reverse = l'.reverse ++ [head, a] := by
        simp only [List.reverse_cons, List.append_assoc, List.cons_append, List.nil_append]
      rw [mirrored]
      refine back.insertAfter (fun b member => ?_) (nextOf_update_self _) ?_
      · rw [List.append_nil, List.mem_reverse] at member
        refine (nextOf_update_of_ne _ (fun here : b = head => distinct.1 (here ▸ member))).trans ?_
        exact congrArg (fun o : Option (TwoWayLinkedListNode E) => o.bind previousLink.get)
          (kept b (List.mem_cons_of_mem head member))
      · rw [back.next_last]
        exact (nextOf_update_of_ne _ other.symm).trans (nextOf_eq at_a)
    · have upper := linked.upper_eq
      simp only [List.length_cons] at upper ⊢
      omega
    · rcases linked.cursor with ⟨empty, -⟩ | ⟨k, less, at_k, at_node⟩
      · cases empty
      · refine Or.inr ⟨k + 1, Nat.succ_lt_succ less, ?_, at_node⟩
        dsimp only
        omega
    · intro b member
      rcases List.mem_cons.mp member with rfl | inside
      · exact outside
      · exact apart b inside
    · intro b out
      change Function.update heap.node head _ b = _
      rw [Function.update_of_ne (fun here : b = head => apart head List.mem_cons_self (here ▸ out)),
        node]
      exact Function.update_of_ne (fun here : b = a => outside (here ▸ out)) _ _

theorem returns_addLast (h : Represents kind others d xs) (x : E) :
    Returns (addLast d x) fun d' =>
      Represents kind others d' (xs ++ [x]) ∧ Keeps others d d' := by
  unfold addLast
  cases first : d.firstLink with
  | none =>
    obtain ⟨heap, a, run, rfl, held⟩ :=
      @Represents.exists_single _ _ _ _ _ _ h first (⟨x, none, none⟩ : TwoWayLinkedListNode E) rfl
        fun p is_previous => by rw [← Option.some_inj.mp is_previous]; rfl
    unfold newNode
    rw [show d.heap.newNode nextLink ⟨x, none, none⟩ = some (heap, a) from run]
    exact Returns.pure_iff.mpr held
  | some head =>
    obtain ⟨l, free, linked, pool, apart⟩ := h
    obtain ⟨l', rfl⟩ := linked.carries.exists_head first
    obtain ⟨l, b, split⟩ : ∃ l b, head :: l' = l ++ [b] :=
      ⟨_, _, (List.dropLast_append_getLast (List.cons_ne_nil head l')).symm⟩
    have last := linked.carries.last_eq
    rw [split] at linked pool apart last
    rw [List.getLast?_concat] at last
    have middle : b ∈ l ++ [b] := List.mem_append_right _ List.mem_cons_self
    obtain ⟨y, at_b⟩ := linked.allocated b middle
    have distinct := List.nodup_middle.mp linked.carries.chain.nodup
    have absent_b := (List.nodup_cons.mp distinct).1
    have back := linked.back previousLink rfl
    rw [last] at back
    obtain ⟨heap, a, run, absent, outside, node, pooled⟩ :=
      exists_newNode pool (⟨x, some b, none⟩ : TwoWayLinkedListNode E)
    have members : ∀ c, c ∈ l ++ [b, a] ↔ c = a ∨ c ∈ l ++ [b] := by
      intro c
      simp only [List.mem_append, List.mem_cons, List.not_mem_nil, or_false]
      tauto
    obtain ⟨free', pool'⟩ := pooled _ members
    have other : b ≠ a := fun here => absent (here ▸ middle)
    have at_a : heap.node a = some ⟨x, some b, none⟩ := by rw [node, Function.update_self]
    have at_b' : heap.node b = some y := by rw [node, Function.update_of_ne other, at_b]
    have kept : ∀ c ∈ l ++ [b], heap.node c = d.heap.node c := by
      intro c member
      rw [node]
      exact Function.update_of_ne (fun here : c = a => absent (here ▸ member)) _ _
    have made : newNode d.heap x (some b) none = some (heap, a) := run
    rw [last, made]
    simp only [Option.bind_eq_bind, Option.bind_some, at_a, setLink_eq at_b']
    have length := linked.length_eq
    have grown : xs.insertIdx (l.length + 1) x = xs ++ [x] := by
      rw [List.length_append] at length
      rw [show l.length + 1 = xs.length from length, List.insertIdx_length_self]
    rw [← grown]
    refine Returns.pure_iff.mpr ⟨⟨l ++ [b, a], free', ⟨?_, back_of ?_, ?_, ?_⟩,
      pool'.update (Or.inl ((members b).mpr (Or.inr middle))) _, ?_⟩, ?_⟩
    · change Carries (nextOf nextLink (Function.update heap.node b _))
        (itemAt kind (Function.update heap.node b _)) _ _ _ _
      rw [itemAt_setNext at_b', ← first]
      refine linked.carries.insertAfter (fun c member => ?_) (fun c member => ?_)
        (nextOf_update_self _) ?_ (itemAt_eq at_a) ?_
      · rw [List.append_nil] at member
        refine (nextOf_update_of_ne _ (fun here : c = b => absent_b ?_)).trans ?_
        · rw [List.append_nil]
          exact here ▸ member
        · exact congrArg (fun o : Option (TwoWayLinkedListNode E) => o.bind nextLink.get)
            (kept c (List.mem_append_left _ member))
      · exact congrArg (Option.map kind.item) (kept c member)
      · refine ((nextOf_update_of_ne _ other.symm).trans (nextOf_eq at_a)).trans ?_
        exact linked.carries.chain.next_last.symm
      · rw [List.getLast?_append]
        rfl
    · have mirrored : (l ++ [b, a]).reverse = a :: (l ++ [b]).reverse := by
        simp only [List.reverse_append, List.reverse_cons, List.reverse_nil, List.nil_append,
          List.cons_append]
      rw [mirrored]
      rw [previousOf_setNext at_b']
      refine back.push (fun c member => ?_) (nextOf_eq at_a)
      exact congrArg (fun o : Option (TwoWayLinkedListNode E) => o.bind previousLink.get)
        (kept c (List.mem_reverse.mp member))
    · have upper := linked.upper_eq
      simp only [List.length_append, List.length_cons, List.length_nil] at upper ⊢
      omega
    · refine linked.cursor.congr (List.append_ne_nil_of_right_ne_nil l (List.cons_ne_nil b []))
        fun k less _ => ?_
      rw [show l ++ [b, a] = (l ++ [b]) ++ [a] from (List.append_assoc l [b] [a]).symm]
      exact List.getElem?_append_left less
    · intro c member
      rcases (members c).mp member with rfl | inside
      · exact outside
      · exact apart c inside
    · intro c out
      change Function.update heap.node b _ c = _
      rw [Function.update_of_ne (fun here : c = b => apart b middle (here ▸ out)), node]
      exact Function.update_of_ne (fun here : c = a => outside (here ▸ out)) _ _

/-- A new node between `b` and `c`, as `add` links it. -/
theorem exists_insertBetween {c : ℕ} (linked : Linked kind d (l ++ b :: c :: l') xs)
    (pool : Pooled nextLink d.heap free {e | e ∈ l ++ b :: c :: l' ∨ e ∈ others})
    (apart : ∀ e ∈ l ++ b :: c :: l', e ∉ others) (x : E) :
    ∃ heap a heap₁ heap₂, newNode d.heap x (some b) (some c) = some (heap, a) ∧
      heap.node a = some ⟨x, some b, some c⟩ ∧
      heap.setLink previousLink c (some a) = some heap₁ ∧
      heap₁.setLink nextLink b (some a) = some heap₂ ∧
      Carries (nextOf nextLink heap₂.node) (itemAt kind heap₂.node) d.firstLink d.lastLink
        (l ++ b :: a :: c :: l') (xs.insertIdx (l.length + 1) x) ∧
      Chain (nextOf previousLink heap₂.node) d.lastLink (l ++ b :: a :: c :: l').reverse ∧
      (∃ free', Pooled nextLink heap₂ free' {e | e ∈ l ++ b :: a :: c :: l' ∨ e ∈ others}) ∧
      (∀ e ∈ l ++ b :: a :: c :: l', e ∉ others) ∧ ∀ e ∈ others, heap₂.node e = d.heap.node e := by
  have member_b : b ∈ l ++ b :: c :: l' := List.mem_append_right _ List.mem_cons_self
  have member_c : c ∈ l ++ b :: c :: l' :=
    List.mem_append_right _ (List.mem_cons_of_mem b List.mem_cons_self)
  obtain ⟨y, at_b⟩ := linked.allocated b member_b
  obtain ⟨z, at_c⟩ := linked.allocated c member_c
  have back := linked.back previousLink rfl
  have mirrored : (l ++ b :: c :: l').reverse = l'.reverse ++ c :: b :: l.reverse := by
    simp only [List.reverse_append, List.reverse_cons, List.append_assoc, List.cons_append,
      List.nil_append]
  have mirrored' : ∀ a, (l ++ b :: a :: c :: l').reverse = l'.reverse ++ c :: a :: b :: l.reverse := by
    intro a
    simp only [List.reverse_append, List.reverse_cons, List.append_assoc, List.cons_append,
      List.nil_append]
  rw [mirrored] at back
  have nodup := linked.carries.chain.nodup
  have absent_b := (List.nodup_cons.mp (List.nodup_middle.mp nodup)).1
  have absent_c := (List.nodup_cons.mp (List.nodup_middle.mp back.nodup)).1
  have apart_bc : b ≠ c := by
    rintro rfl
    exact absent_b (List.mem_append_right _ List.mem_cons_self)
  obtain ⟨heap, a, run, absent, outside, node, pooled⟩ :=
    exists_newNode pool (⟨x, some b, some c⟩ : TwoWayLinkedListNode E)
  have members : ∀ e, e ∈ l ++ b :: a :: c :: l' ↔ e = a ∨ e ∈ l ++ b :: c :: l' := by
    intro e
    simp only [List.mem_append, List.mem_cons]
    tauto
  obtain ⟨free', pool'⟩ := pooled _ members
  have other_b : b ≠ a := fun here => absent (here ▸ member_b)
  have other_c : c ≠ a := fun here => absent (here ▸ member_c)
  have at_a : heap.node a = some ⟨x, some b, some c⟩ := by rw [node, Function.update_self]
  have at_c' : heap.node c = some z := by rw [node, Function.update_of_ne other_c, at_c]
  have at_b' : Function.update heap.node c (some (previousLink.set (some a) z)) b = some y := by
    rw [Function.update_of_ne apart_bc, node, Function.update_of_ne other_b, at_b]
  have kept : ∀ e ∈ l ++ b :: c :: l', heap.node e = d.heap.node e := by
    intro e member
    rw [node]
    exact Function.update_of_ne (fun here : e = a => absent (here ▸ member)) _ _
  refine ⟨heap, a, _, _, run, at_a, setLink_eq at_c' (some a), setLink_eq at_b' (some a),
    ?_, ?_, ⟨free', (pool'.update (Or.inl ((members c).mpr (Or.inr member_c))) _).update
      (Or.inl ((members b).mpr (Or.inr member_b))) _⟩, ?_, ?_⟩
  · dsimp only
    rw [itemAt_setNext at_b', itemAt_setPrevious at_c']
    refine linked.carries.insertAfter (fun e member => ?_) (fun e member => ?_)
      (nextOf_update_self _) ?_ (itemAt_eq at_a) ?_
    · refine (nextOf_update_of_ne _ (fun here : e = b => absent_b (here ▸ member))).trans ?_
      rw [nextOf_setPrevious at_c']
      refine congrArg (fun o : Option (TwoWayLinkedListNode E) => o.bind nextLink.get) (kept e ?_)
      rcases List.mem_append.mp member with before | after
      · exact List.mem_append_left _ before
      · exact List.mem_append_right _ (List.mem_cons_of_mem b after)
    · exact congrArg (Option.map kind.item) (kept e member)
    · refine (nextOf_update_of_ne _ other_b.symm).trans ?_
      rw [nextOf_setPrevious at_c']
      exact (nextOf_eq at_a).trans linked.carries.chain.next_eq.symm
    · rw [linked.carries.last_eq]
      simp only [List.getLast?_append, List.getLast?_cons_cons]
  · rw [mirrored']
    rw [previousOf_setNext at_b']
    refine back.insertAfter (fun e member => ?_) (nextOf_update_self _) ?_
    · refine (nextOf_update_of_ne _ (fun here : e = c => absent_c (here ▸ member))).trans ?_
      refine congrArg (fun o : Option (TwoWayLinkedListNode E) => o.bind previousLink.get) (kept e ?_)
      simp only [List.mem_append, List.mem_cons, List.mem_reverse] at member ⊢
      tauto
    · refine (nextOf_update_of_ne _ other_c.symm).trans ((nextOf_eq at_a).trans ?_)
      exact back.next_eq.symm
  · intro e member
    rcases (members e).mp member with rfl | inside
    · exact outside
    · exact apart e inside
  · intro e out
    dsimp only
    rw [Function.update_of_ne (fun here : e = b => apart b member_b (here ▸ out)),
      Function.update_of_ne (fun here : e = c => apart c member_c (here ▸ out)), node]
    exact Function.update_of_ne (fun here : e = a => outside (here ▸ out)) _ _

theorem returns_add (h : Represents kind others d xs) (x : E) {k : ℕ} (le : k ≤ xs.length) :
    Returns (add d x ((k : Int) + 1)) fun d' =>
      Represents kind others d' (xs.insertIdx k x) ∧ Keeps others d d' := by
  have count := h.length_eq
  unfold add
  by_cases start : (k : Int) + 1 = 1
  · rw [if_pos start]
    have zero : k = 0 := by omega
    rw [zero, List.insertIdx_zero]
    exact returns_addFirst h x
  by_cases stop : (k : Int) + 1 = d.upper + 1
  · rw [if_neg start, if_pos stop]
    have all : k = xs.length := by omega
    rw [all, List.insertIdx_length_self]
    exact returns_addLast h x
  rw [if_neg start, if_neg stop]
  obtain ⟨l, free, linked, pool, apart⟩ := h
  have length := linked.length_eq
  obtain ⟨l₁, b, c, l₂, y, rfl, before, at_y, next, sought, moved⟩ :=
    linked.exists_before goes (show 0 < k by omega) (by omega)
  have next : y.next = some c := next
  obtain ⟨heap, a, heap₁, heap₂, run, at_a, set, set', carries, back, ⟨free', pool'⟩, apart', keeps⟩ :=
    exists_insertBetween moved pool apart x
  rw [sought]
  simp only [Option.bind_eq_bind, Option.bind_some, at_y, next, run, at_a, set, set']
  rw [before] at carries
  refine Returns.pure_iff.mpr ⟨⟨_, free', ⟨carries, back_of back, ?_, ?_⟩, pool', apart'⟩, keeps⟩
  · have upper := linked.upper_eq
    simp only [List.length_append, List.length_cons] at upper ⊢
    omega
  · exact .middle before b _

/-! ## Removals -/

section Removing

variable [Inhabited E]

theorem disposes : Disposes nextLink (disposeNode : NodeHeap (TwoWayLinkedListNode E) → _ → _) :=
  disposes_recycle nextLink fun _ => rfl

theorem returns_removeFirst (h : Represents kind others d xs) (some : xs ≠ []) :
    Returns (removeFirst d) fun d' => Represents kind others d' xs.tail ∧ Keeps others d d' := by
  unfold removeFirst
  by_cases one : d.upper = 1
  · obtain ⟨a, heap, first, run, length, held, keeps⟩ := h.exists_disposeOnly disposes one
    obtain ⟨x, rfl⟩ := List.length_eq_one_iff.mp length
    rw [if_pos one, first]
    simp only [Option.bind_eq_bind, Option.bind_some, run]
    exact Returns.pure_iff.mpr ⟨held, keeps⟩
  obtain ⟨l, free, linked, pool, apart⟩ := h
  have upper := linked.upper_eq
  have length := linked.length_eq
  have positive := List.length_pos_iff.mpr some
  obtain ⟨l₁, a, c, l', rfl, none⟩ := exists_pair (show 0 + 1 < l.length by omega)
  obtain rfl := List.length_eq_zero_iff.mp none
  rw [List.nil_append] at linked pool apart upper
  have member_c : c ∈ a :: c :: l' := List.mem_cons_of_mem a List.mem_cons_self
  obtain ⟨z, at_c⟩ := linked.allocated c member_c
  have distinct := List.nodup_cons.mp linked.carries.chain.nodup
  have distinct_c := List.nodup_cons.mp distinct.2
  have back := linked.back previousLink rfl
  have mirrored : (a :: c :: l').reverse = l'.reverse ++ [c, a] := by
    simp only [List.reverse_cons, List.append_assoc, List.cons_append, List.nil_append]
  rw [mirrored] at back
  obtain ⟨heap, run, frame, pooled⟩ :=
    exists_dispose disposes pool List.mem_cons_self (apart a List.mem_cons_self)
  obtain ⟨free', pool'⟩ := pooled (c :: l') fun e =>
    ⟨fun member => ⟨fun here => distinct.1 (here ▸ member), List.mem_cons_of_mem a member⟩,
      fun ⟨other, member⟩ => (List.mem_cons.mp member).resolve_left other⟩
  have kept : ∀ e ∈ c :: l', heap.node e = d.heap.node e := fun e member =>
    frame e fun here => distinct.1 (here ▸ member)
  have at_c' : heap.node c = Option.some z := (kept c List.mem_cons_self).trans at_c
  rw [show nextOf nextLink d.heap.node a = Option.some c from linked.carries.chain.2.1] at run
  have first := linked.carries.chain.1
  rw [if_neg one, first]
  simp only [Option.bind_eq_bind, Option.bind_some, run, setLink_eq at_c']
  have carries : Carries (nextOf nextLink
      (Function.update heap.node c (Option.some (previousLink.set Option.none z))))
      (itemAt kind (Function.update heap.node c (Option.some (previousLink.set Option.none z))))
      (Option.some c) d.lastLink (c :: l') xs.tail := by
    rw [nextOf_setPrevious at_c', itemAt_setPrevious at_c', ← linked.carries.chain.2.1]
    refine linked.carries.pop (fun e member => ?_) (fun e member => ?_) ?_
    · exact congrArg (fun o : Option (TwoWayLinkedListNode E) => o.bind nextLink.get) (kept e member)
    · exact congrArg (Option.map kind.item) (kept e member)
    · rw [linked.carries.last_eq, List.getLast?_cons_cons]
  have back' : Chain (nextOf previousLink
      (Function.update heap.node c (Option.some (previousLink.set Option.none z))))
      d.lastLink (c :: l').reverse := by
    rw [List.reverse_cons]
    refine back.unlink (fun e member => ?_) ?_
    · rw [List.append_nil, List.mem_reverse] at member
      refine (nextOf_update_of_ne _ (fun here : e = c => distinct_c.1 (here ▸ member))).trans ?_
      exact congrArg (fun o : Option (TwoWayLinkedListNode E) => o.bind previousLink.get)
        (kept e (List.mem_cons_of_mem c member))
    · rw [nextOf_update_self]
      exact (show Chain _ d.lastLink ((l'.reverse ++ [c]) ++ [a]) by
        rw [List.append_assoc]; exact back).next_last.symm
  have count : d.upper - 1 = (c :: l').length := by
    simp only [List.length_cons] at upper ⊢
    omega
  have apart' : ∀ e ∈ c :: l', e ∉ others := fun e member => apart e (List.mem_cons_of_mem a member)
  have keeps : ∀ e ∈ others, Function.update heap.node c
      (Option.some (previousLink.set Option.none z)) e = d.heap.node e := by
    intro e out
    rw [Function.update_of_ne (fun here : e = c => apart c member_c (here ▸ out))]
    exact frame e fun here => apart a List.mem_cons_self (here ▸ out)
  have pool'' := pool'.update (a := c) (Or.inl List.mem_cons_self) (previousLink.set Option.none z)
  rcases linked.cursor with ⟨empty, -⟩ | ⟨k, less, at_k, node⟩
  · cases empty
  · by_cases later : d.memIdx > 1
    · rw [if_pos later]
      obtain ⟨j, rfl⟩ : ∃ j, k = j + 1 := ⟨k - 1, by omega⟩
      refine Returns.pure_iff.mpr ⟨⟨c :: l', free', ⟨carries, back_of back', count, Or.inr ⟨j, ?_, ?_,
        node⟩⟩, pool'', apart'⟩, keeps⟩
      · exact Nat.lt_of_succ_lt_succ less
      · dsimp only
        omega
    · rw [if_neg later]
      exact Returns.pure_iff.mpr ⟨⟨c :: l', free', ⟨carries, back_of back', count,
        Or.inr ⟨0, Nat.zero_lt_succ _, rfl, rfl⟩⟩, pool'', apart'⟩, keeps⟩

theorem returns_removeLast (h : Represents kind others d xs) (some : xs ≠ []) :
    Returns (removeLast d) fun d' => Represents kind others d' xs.dropLast ∧ Keeps others d d' := by
  unfold removeLast
  by_cases one : d.upper = 1
  · obtain ⟨a, heap, first, run, length, held, keeps⟩ := h.exists_disposeOnly disposes one
    obtain ⟨x, rfl⟩ := List.length_eq_one_iff.mp length
    rw [if_pos one, first]
    simp only [Option.bind_eq_bind, Option.bind_some, run]
    exact Returns.pure_iff.mpr ⟨held, keeps⟩
  obtain ⟨l, free, linked, pool, apart⟩ := h
  have upper := linked.upper_eq
  have length := linked.length_eq
  have positive := List.length_pos_iff.mpr some
  obtain ⟨l₁, b, a, l₂, rfl, before⟩ := exists_pair (show l.length - 2 + 1 < l.length by omega)
  have total := length
  rw [List.length_append, List.length_cons, List.length_cons] at before total
  obtain rfl : l₂ = [] := List.length_eq_zero_iff.mp (by omega)
  have member_b : b ∈ l₁ ++ [b, a] := List.mem_append_right _ List.mem_cons_self
  have member_a : a ∈ l₁ ++ [b, a] :=
    List.mem_append_right _ (List.mem_cons_of_mem b List.mem_cons_self)
  obtain ⟨y, at_b⟩ := linked.allocated b member_b
  obtain ⟨w, at_a⟩ := linked.allocated a member_a
  have last : d.lastLink = Option.some a := by
    rw [linked.carries.last_eq, List.getLast?_append]
    rfl
  have back := linked.back previousLink rfl
  have mirrored : (l₁ ++ [b, a]).reverse = a :: b :: l₁.reverse := by
    simp only [List.reverse_append, List.reverse_cons, List.reverse_nil, List.nil_append,
      List.cons_append]
  rw [mirrored] at back
  have previous : w.previous = Option.some b :=
    (nextOf_eq at_a : nextOf previousLink d.heap.node a = w.previous).symm.trans back.2.1
  have nodup := back.nodup
  have absent_a : ∀ e ∈ l₁ ++ [b], e ≠ a := by
    rintro e member rfl
    refine (List.nodup_cons.mp nodup).1 ?_
    simp only [List.mem_append, List.mem_cons, List.mem_reverse, List.not_mem_nil, or_false] at member ⊢
    tauto
  have absent_b : ∀ e ∈ l₁, e ≠ b := by
    rintro e member rfl
    exact (List.nodup_cons.mp (List.nodup_cons.mp nodup).2).1 (List.mem_reverse.mpr member)
  have stays : b ∈ l₁ ++ [b] := List.mem_append_right _ List.mem_cons_self
  have away : a ≠ b := (absent_a b stays).symm
  have pool' := pool.update (a := b) (Or.inl member_b) (nextLink.set none y)
  obtain ⟨heap, run, frame, pooled⟩ := exists_dispose disposes pool' member_a (apart a member_a)
  obtain ⟨free', pool''⟩ := pooled (l₁ ++ [b]) fun e => by
    constructor
    · intro member
      refine ⟨absent_a e member, ?_⟩
      simp only [List.mem_append, List.mem_cons, List.not_mem_nil, or_false] at member ⊢
      tauto
    · rintro ⟨other, member⟩
      simp only [List.mem_append, List.mem_cons, List.not_mem_nil, or_false] at member ⊢
      tauto
  dsimp only at run frame
  rw [if_neg one, last]
  simp only [Option.bind_eq_bind, Option.bind_some, at_a, previous, setLink_eq at_b, run]
  have kept : ∀ e ∈ l₁, heap.node e = d.heap.node e := by
    intro e member
    rw [frame e (absent_a e (List.mem_append_left _ member)),
      Function.update_of_ne (absent_b e member)]
  have at_b' : heap.node b = Option.some (nextLink.set none y) := by
    rw [frame b away.symm, Function.update_self]
  have cut : xs.eraseIdx (l₁.length + 1) = xs.dropLast := by
    rw [show l₁.length + 1 = xs.length - 1 by omega, List.eraseIdx_length_sub_one]
  have carries : Carries (nextOf nextLink heap.node) (itemAt kind heap.node) d.firstLink
      (Option.some b) (l₁ ++ [b]) xs.dropLast := by
    rw [← cut]
    refine linked.carries.unlinkAfter (fun e member => ?_) (fun e member => ?_) ?_ ?_
    · rw [List.append_nil] at member
      exact congrArg (fun o : Option (TwoWayLinkedListNode E) => o.bind nextLink.get) (kept e member)
    · rcases List.mem_append.mp member with inside | here
      · exact congrArg (Option.map kind.item) (kept e inside)
      · rw [List.mem_singleton.mp here, itemAt_eq at_b']
        exact (@itemAt_eq _ _ kind _ _ _ at_b).symm
    · refine (nextOf_eq at_b').trans ?_
      exact (show Chain _ d.firstLink ((l₁ ++ [b]) ++ [a]) by
        rw [List.append_assoc]; exact linked.carries.chain).next_last.symm
    · exact List.getLast?_concat.symm
  have back' : Chain (nextOf previousLink heap.node) (Option.some b) (l₁ ++ [b]).reverse := by
    rw [List.reverse_append, ← back.2.1]
    refine back.2.congr fun e member => ?_
    rcases List.mem_cons.mp member with rfl | inside
    · rw [nextOf_eq at_b', nextOf_eq at_b]
      rfl
    · exact congrArg (fun o : Option (TwoWayLinkedListNode E) => o.bind previousLink.get)
        (kept e (List.mem_reverse.mp inside))
  have count : d.upper - 1 = (l₁ ++ [b]).length := by
    simp only [List.length_append, List.length_cons, List.length_nil] at upper ⊢
    omega
  have apart' : ∀ e ∈ l₁ ++ [b], e ∉ others := by
    intro e member
    refine apart e ?_
    simp only [List.mem_append, List.mem_cons, List.not_mem_nil, or_false] at member ⊢
    tauto
  have keeps : ∀ e ∈ others, heap.node e = d.heap.node e := by
    intro e out
    rw [frame e fun here => apart a member_a (here ▸ out)]
    exact Function.update_of_ne (fun here : e = b => apart b member_b (here ▸ out)) _ _
  have positions : ∀ k < (l₁ ++ [b]).length, (l₁ ++ [b])[k]? = (l₁ ++ [b, a])[k]? := by
    intro k less
    rw [show l₁ ++ [b, a] = (l₁ ++ [b]) ++ [a] from (List.append_assoc l₁ [b] [a]).symm,
      List.getElem?_append_left less]
  rcases linked.cursor with ⟨empty, -⟩ | ⟨k, less, at_k, node⟩
  · exact absurd empty (List.append_ne_nil_of_right_ne_nil _ (List.cons_ne_nil _ _))
  · by_cases here : d.memIdx = d.upper
    · rw [if_pos here]
      refine Returns.pure_iff.mpr ⟨⟨l₁ ++ [b], free', ⟨carries, back_of back', count,
        Or.inr ⟨0, List.length_pos_of_mem stays, rfl, ?_⟩⟩, pool'', apart'⟩, keeps⟩
      rw [← List.head?_eq_getElem?]
      exact carries.chain.head_eq
    · rw [if_neg here]
      have low : k < (l₁ ++ [b]).length := by omega
      refine Returns.pure_iff.mpr ⟨⟨l₁ ++ [b], free', ⟨carries, back_of back', count,
        Or.inr ⟨k, low, at_k, ?_⟩⟩, pool'', apart'⟩, keeps⟩
      rw [positions k low]
      exact node

/-- The node between `b` and `c` unlinked and disposed of, as `remove` does it. -/
theorem exists_unlinkBetween {a c : ℕ} (linked : Linked kind d (l ++ b :: a :: c :: l') xs)
    (pool : Pooled nextLink d.heap free {e | e ∈ l ++ b :: a :: c :: l' ∨ e ∈ others})
    (apart : ∀ e ∈ l ++ b :: a :: c :: l', e ∉ others) {w : TwoWayLinkedListNode E}
    (at_a : d.heap.node a = some w) :
    ∃ heap₁ heap₂ heap₃ next, d.heap.setLink nextLink b (some c) = some heap₁ ∧
      heap₁.node a = some w ∧ heap₁.setLink previousLink c (some b) = some heap₂ ∧
      disposeNode heap₂ a = some (heap₃, next) ∧
      Carries (nextOf nextLink heap₃.node) (itemAt kind heap₃.node) d.firstLink d.lastLink
        (l ++ b :: c :: l') (xs.eraseIdx (l.length + 1)) ∧
      Chain (nextOf previousLink heap₃.node) d.lastLink (l ++ b :: c :: l').reverse ∧
      (∃ free', Pooled nextLink heap₃ free' {e | e ∈ l ++ b :: c :: l' ∨ e ∈ others}) ∧
      (∀ e ∈ l ++ b :: c :: l', e ∉ others) ∧ ∀ e ∈ others, heap₃.node e = d.heap.node e := by
  have inside : ∀ e, e ∈ l ++ b :: a :: c :: l' ↔ e = a ∨ e ∈ l ++ b :: c :: l' := by
    intro e
    simp only [List.mem_append, List.mem_cons]
    tauto
  have stays_b : b ∈ l ++ b :: c :: l' := List.mem_append_right _ List.mem_cons_self
  have stays_c : c ∈ l ++ b :: c :: l' :=
    List.mem_append_right _ (List.mem_cons_of_mem b List.mem_cons_self)
  have member_a := (inside a).mpr (Or.inl rfl)
  have member_b := (inside b).mpr (Or.inr stays_b)
  have member_c := (inside c).mpr (Or.inr stays_c)
  obtain ⟨y, at_b⟩ := linked.allocated b member_b
  obtain ⟨z, at_c⟩ := linked.allocated c member_c
  have back := linked.back previousLink rfl
  have mirrored : (l ++ b :: a :: c :: l').reverse = l'.reverse ++ c :: a :: b :: l.reverse := by
    simp only [List.reverse_append, List.reverse_cons, List.append_assoc, List.cons_append,
      List.nil_append]
  have mirrored' : (l ++ b :: c :: l').reverse = l'.reverse ++ c :: b :: l.reverse := by
    simp only [List.reverse_append, List.reverse_cons, List.append_assoc, List.cons_append,
      List.nil_append]
  rw [mirrored] at back
  have nodup := linked.carries.chain.nodup
  have distinct : (a :: (l ++ b :: c :: l')).Nodup :=
    (List.perm_middle.trans (List.perm_middle.cons b |>.trans
      (List.Perm.swap a b _ |>.trans (List.perm_middle.symm.cons a)))).nodup_iff.mp nodup
  have absent_a := (List.nodup_cons.mp distinct).1
  have rest := (List.nodup_cons.mp distinct).2
  have absent_b := (List.nodup_cons.mp (List.nodup_middle.mp rest)).1
  have absent_c : c ∉ l'.reverse ++ b :: l.reverse := by
    have reversed := List.nodup_reverse.mpr rest
    rw [mirrored'] at reversed
    exact (List.nodup_cons.mp (List.nodup_middle.mp reversed)).1
  have away_b : b ≠ a := fun here => absent_a (here ▸ stays_b)
  have away_c : c ≠ a := fun here => absent_a (here ▸ stays_c)
  have apart_bc : b ≠ c := by
    rintro rfl
    exact absent_b (List.mem_append_right _ List.mem_cons_self)
  have at_c' : Function.update d.heap.node b (some (nextLink.set (some c) y)) c = some z := by
    rw [Function.update_of_ne apart_bc.symm, at_c]
  have pool' := (pool.update (a := b) (Or.inl member_b) (nextLink.set (some c) y)).update (a := c)
    (Or.inl member_c) (previousLink.set (some b) z)
  obtain ⟨heap₃, run, frame, pooled⟩ := exists_dispose disposes pool' member_a (apart a member_a)
  obtain ⟨free', pool''⟩ := pooled (l ++ b :: c :: l') fun e =>
    ⟨fun member => ⟨fun here => absent_a (here ▸ member), (inside e).mpr (Or.inr member)⟩,
      fun ⟨other, member⟩ => ((inside e).mp member).resolve_left other⟩
  dsimp only at frame
  have kept : ∀ e, e ≠ a → e ≠ b → e ≠ c → heap₃.node e = d.heap.node e := by
    intro e other other' other''
    rw [frame e other, Function.update_of_ne other'', Function.update_of_ne other']
  have links : ∀ (p : Link (TwoWayLinkedListNode E)) (e : ℕ), e ≠ a →
      nextOf p heap₃.node e = nextOf p (Function.update (Function.update d.heap.node b
        (some (nextLink.set (some c) y))) c (some (previousLink.set (some b) z))) e := fun p e other =>
    congrArg (fun o : Option (TwoWayLinkedListNode E) => o.bind p.get) (frame e other)
  refine ⟨_, _, heap₃, _, setLink_eq at_b _, ?_, setLink_eq at_c' _, run, ?_, ?_, ⟨free', pool''⟩,
    fun e member => apart e ((inside e).mpr (Or.inr member)), ?_⟩
  · dsimp only
    rw [Function.update_of_ne away_b.symm, at_a]
  · refine linked.carries.unlinkAfter (fun e member => ?_) (fun e member => ?_) ?_ ?_
    · have stays : e ∈ l ++ b :: c :: l' := by
        rcases List.mem_append.mp member with first | later
        · exact List.mem_append_left _ first
        · exact List.mem_append_right _ (List.mem_cons_of_mem b later)
      rw [links nextLink e fun here => absent_a (here ▸ stays), nextOf_setPrevious at_c']
      exact nextOf_update_of_ne _ fun here : e = b => absent_b (here ▸ member)
    · refine (congrArg (Option.map kind.item) (frame e fun here => absent_a (here ▸ member))).trans ?_
      change itemAt kind _ e = _
      rw [itemAt_setPrevious at_c', itemAt_setNext at_b]
    · rw [links nextLink b away_b, nextOf_setPrevious at_c', nextOf_update_self]
      exact (show Chain _ d.firstLink ((l ++ [b]) ++ a :: c :: l') by
        rw [List.append_assoc]; exact linked.carries.chain).next_eq.symm
    · rw [linked.carries.last_eq]
      simp only [List.getLast?_append, List.getLast?_cons_cons]
  · rw [mirrored']
    refine back.unlink (fun e member => ?_) ?_
    · have stays : e ≠ a := by
        rintro rfl
        refine absent_a ?_
        simp only [List.mem_append, List.mem_cons, List.mem_reverse] at member ⊢
        tauto
      rw [links previousLink e stays, nextOf_update_of_ne _ fun here : e = c => absent_c (here ▸ member),
        previousOf_setNext at_b]
    · rw [links previousLink c away_c, nextOf_update_self]
      exact (show Chain _ d.lastLink ((l'.reverse ++ [c]) ++ a :: b :: l.reverse) by
        rw [List.append_assoc]; exact back).next_eq.symm
  · intro e out
    exact kept e (fun here => apart a member_a (here ▸ out)) (fun here => apart b member_b (here ▸ out))
      fun here => apart c member_c (here ▸ out)

theorem returns_remove (h : Represents kind others d xs) {k : ℕ} (less : k < xs.length) :
    Returns (remove d ((k : Int) + 1)) fun d' =>
      Represents kind others d' (xs.eraseIdx k) ∧ Keeps others d d' := by
  have count := h.length_eq
  have some : xs ≠ [] := List.ne_nil_of_length_pos (by omega)
  unfold remove
  by_cases start : (k : Int) + 1 = 1
  · rw [if_pos start]
    have zero : k = 0 := by omega
    rw [zero, List.eraseIdx_zero]
    exact returns_removeFirst h some
  by_cases stop : (k : Int) + 1 = d.upper
  · rw [if_neg start, if_pos stop]
    rw [show k = xs.length - 1 by omega, List.eraseIdx_length_sub_one]
    exact returns_removeLast h some
  rw [if_neg start, if_neg stop]
  obtain ⟨l, free, linked, pool, apart⟩ := h
  have length := linked.length_eq
  obtain ⟨l₁, b, a, l₂, y, rfl, before, at_b, next, sought, moved⟩ :=
    linked.exists_before goes (show 0 < k by omega) (by omega)
  have total := length
  rw [List.length_append, List.length_cons, List.length_cons] at total
  obtain ⟨c, l₂, rfl⟩ : ∃ c l, l₂ = c :: l := by
    cases l₂ with
    | nil =>
      rw [List.length_nil] at total
      omega
    | cons c l => exact ⟨c, l, rfl⟩
  obtain ⟨w, at_a⟩ := linked.allocated a
    (List.mem_append_right _ (List.mem_cons_of_mem b List.mem_cons_self))
  have next : y.next = Option.some a := next
  have next' : w.next = Option.some c := by
    refine (nextOf_eq at_a : nextOf nextLink d.heap.node a = w.next).symm.trans ?_
    exact (show Chain _ d.firstLink ((l₁ ++ [b]) ++ a :: c :: l₂) by
      rw [List.append_assoc]; exact linked.carries.chain).next_eq
  obtain ⟨heap₁, heap₂, heap₃, after, set, at_a', set', run, carries, back, ⟨free', pool'⟩, apart',
    keeps⟩ := exists_unlinkBetween moved pool apart at_a
  rw [sought]
  simp only [Option.bind_eq_bind, Option.bind_some, at_b, next, at_a, next', set, at_a', set', run]
  rw [before] at carries
  refine Returns.pure_iff.mpr ⟨⟨l₁ ++ b :: c :: l₂, free', ⟨carries, back_of back, ?_, ?_⟩, pool',
    apart'⟩, keeps⟩
  · have upper := linked.upper_eq
    simp only [List.length_append, List.length_cons] at upper ⊢
    omega
  · exact .middle before b _

end Removing

end TwoWayLinkedList

end

/-!
## Programs with TWO_WAY_LINKED_LIST objects

Every command does to a TWO_WAY_LINKED_LIST what it does to the sequence of its items.  A copy
of a list onto itself does not: the list is cleared before its items are read.
-/

section

open LinkedNodes NodeHeap LinkedCollection

namespace TwoWayLinkedList

variable {E : Type} [Inhabited E]

def routines : Routines (TwoWayLinkedListNode E) E where
  kind := kind
  goItem := goItem
  disposeNode := disposeNode
  addFirst := addFirst
  addLast := addLast
  add := add
  removeFirst := removeFirst
  removeLast := removeLast
  remove := remove

def execute (d : TwoWayLinkedList E) : Command E → Option (TwoWayLinkedList E)
  | .addFirst element => addFirst d element
  | .addLast element => addLast d element
  | .add element index => add d element index
  | .put element index => put d element index
  | .removeFirst => removeFirst d
  | .removeLast => removeLast d
  | .remove index => remove d index
  | .removeHead n => removeHead d n
  | .removeTail n => removeTail d n
  | .clearCount => clearCount d
  | .item index => do return (← item d index).1
  | .indexOf test x startIndex => do return (← indexOf test d x startIndex).1

theorem routines_refine : (routines : Routines (TwoWayLinkedListNode E) E).Refine where
  goes := goes
  disposes := disposes
  addFirst x h := returns_addFirst h x
  addLast x h := returns_addLast h x
  add x _ h le := returns_add h x le
  removeFirst := returns_removeFirst
  removeLast := returns_removeLast
  remove h less := returns_remove h less

/-- **TWO_WAY_LINKED_LIST is a sequence**, in every program that copies no list onto itself
unless it is empty.  `item` answers the items of the sequence that the commands make, the next
and previous links are inverse of each other from `first_link` to `last_link`, the memory of the
last access is the node at its position, and the next command and the next copy return. -/
theorem reaches_linkedSequence (E : Type) [Inhabited E] (w : World (TwoWayLinkedListNode E))
    (lists : ℕ → List E) (reached : World.Reaches routines World.CopiesOthers w lists) (i : ℕ)
    (object : TwoWayLinkedList E) (of_program : w.list i = some object) :
    let d := w.enter object
    let next := nextOf nextLink w.heap.node
    let previous := nextOf previousLink w.heap.node
    d.upper = (lists i).length ∧
    (∀ (k : ℕ) (x : E), (lists i)[k]? = some x → ∃ d', item d ((k : Int) + 1) = some (d', x)) ∧
    (∃ nodes : List ℕ, nodes.length = (lists i).length ∧ nodes.Nodup ∧
      Chain next d.firstLink nodes ∧ Chain previous d.lastLink nodes.reverse ∧
      ∀ a ∈ nodes, ∀ b ∈ nodes, next a = some b ↔ previous b = some a) ∧
    (lists i = [] → d.memIdx = 0 ∧ d.memLnk = none) ∧
    (lists i ≠ [] → 1 ≤ d.memIdx ∧ d.memIdx ≤ (lists i).length ∧ d.memLnk ≠ none ∧
      d.memLnk = walk next d.firstLink (d.memIdx - 1).toNat) ∧
    (∀ command : Command E, command.Allowed d → ∃ d', execute d command = some d') ∧
    ∀ (j : ℕ) (other : TwoWayLinkedList E), w.list j = some other →
      ∃ w', w.copy routines i j = some w' := by
  obtain ⟨count, items, -, -, empty, memory, next⟩ := reached.refined routines_refine of_program
  refine ⟨count, items, reached.mirrored routines_refine of_program rfl, empty, memory,
    fun command allowed => ?_, fun j other of_program' =>
      reached.returns_copy routines_refine of_program of_program'⟩
  exact next command allowed

/-- Accesses between a copy from another list, a removal and an insertion that recycles a
node. -/
theorem reaches_linkedSequence_recycled :
    ∃ (w : World (TwoWayLinkedListNode Int)) (lists : ℕ → List Int) (object : TwoWayLinkedList Int),
      World.Reaches routines World.CopiesOthers w lists ∧ w.list 1 = some object ∧
      w.heap.fresh = 5 ∧ ∃ d', item (w.enter object) 3 = some (d', 9) := by
  have started : World.Reaches (routines : Routines (TwoWayLinkedListNode Int) Int)
      World.CopiesOthers World.start _ := .start
  have made := (started.make 0 rfl).make 1 rfl
  have first := made.step 0 (.addLast 7) rfl trivial rfl
  have second := first.step 0 (.addFirst 5) rfl trivial rfl
  have third := second.step 1 (.addLast 8) rfl trivial rfl
  have fourth := third.copy 1 0 rfl rfl (fun same => absurd same (by decide)) rfl
  have fifth := fourth.step 1 .removeFirst rfl (fun found => nomatch found) rfl
  have sixth := fifth.step 1 (.item 1) rfl ⟨by decide, by decide⟩ rfl
  have seventh := sixth.step 1 (.addLast 6) rfl trivial rfl
  have eighth := seventh.step 1 (.addLast 9) rfl trivial rfl
  obtain ⟨-, items, -⟩ := reaches_linkedSequence Int _ _ eighth 1 _ rfl
  exact ⟨_, _, _, eighth, rfl, rfl, items 2 9 rfl⟩

/-- The list `[7]` copied onto itself has no item any more. -/
theorem not_reaches_linkedSequence :
    ¬∀ (w : World (TwoWayLinkedListNode Int)) (lists : ℕ → List Int),
      World.Reaches routines (fun _ _ _ => True) w lists →
      ∀ (i : ℕ) (object : TwoWayLinkedList Int), w.list i = some object →
      ∀ (k : ℕ) (x : Int), (lists i)[k]? = some x →
        ∃ d', item (w.enter object) ((k : Int) + 1) = some (d', x) := by
  intro claim
  have started : World.Reaches (routines : Routines (TwoWayLinkedListNode Int) Int)
      (fun _ _ _ => True) World.start _ := .start
  have made := started.make 0 rfl
  have added := made.step 0 (.addLast 7) rfl trivial rfl
  have copied := added.copy 0 0 rfl rfl trivial rfl
  obtain ⟨d', run⟩ := claim _ _ copied 0 _ rfl 0 7 rfl
  cases run

end TwoWayLinkedList

end

end Liberty
