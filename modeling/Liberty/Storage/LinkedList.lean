import Liberty.Storage.LinkedCollection
import Liberty.Storage.LinkedWorld

/-!
# LINKED_LIST

A list whose nodes are linked one way: the memory of the last access can only go forward, or
start again from the first node.
-/

namespace Liberty

section

open LinkedNodes NodeHeap LinkedCollection

/-- The objects of LINKED_LIST_NODE. -/
structure LinkedListNode (E : Type) where
  item : E
  next : Option ℕ
deriving DecidableEq

abbrev LinkedList (E : Type) : Type := LinkedCollection (LinkedListNode E)

namespace LinkedList

variable {E : Type}

/-! ## The source -/

def nextLink : Link (LinkedListNode E) where
  get n := n.next
  set next n := { n with next }
  get_set _ _ := rfl
  set_set _ _ _ := rfl

def kind : NodeKind (LinkedListNode E) E where
  next := nextLink
  previous := none
  item n := n.item
  setItem item n := { n with item }
  item_setItem _ _ := rfl
  next_setItem _ _ := rfl
  previous_setItem _ found := nomatch found

/-- `new_node` -/
def newNode (heap : NodeHeap (LinkedListNode E)) (e : E) (next : Option ℕ) :
    Option (NodeHeap (LinkedListNode E) × ℕ) :=
  heap.newNode nextLink ⟨e, next⟩

def goItem (d : LinkedList E) (i : Int) : Option (LinkedList E) := do
  let start := if d.memIdx > i then (1, d.firstLink) else (d.memIdx, d.memLnk)
  let (memIdx, memLnk) ← stepsTo nextLink d.heap.node 1 i d.upper.toNat start
  return { d with memIdx, memLnk }

def item (d : LinkedList E) (index : Int) : Option (LinkedList E × E) :=
  LinkedCollection.item kind goItem d index

def put (d : LinkedList E) (element : E) (index : Int) : Option (LinkedList E) :=
  LinkedCollection.put kind goItem d element index

def indexOf (test : E → E → Bool) (d : LinkedList E) (x : E) (startIndex : Int) :
    Option (LinkedList E × Int) :=
  LinkedCollection.indexOf kind goItem test d x startIndex

def addFirst (d : LinkedList E) (element : E) : Option (LinkedList E) :=
  match d.firstLink with
  | none => do
      let (heap, a) ← newNode d.heap element none
      return single heap a
  | some first => do
      let (heap, a) ← newNode d.heap element (some first)
      return { d with heap, firstLink := some a, upper := d.upper + 1, memIdx := d.memIdx + 1 }

def addLast (d : LinkedList E) (element : E) : Option (LinkedList E) :=
  match d.firstLink with
  | none => do
      let (heap, a) ← newNode d.heap element none
      return single heap a
  | some _ => do
      let (heap, lnk) ← newNode d.heap element none
      let heap ← heap.setLink nextLink (← d.lastLink) (some lnk)
      return { d with heap, upper := d.upper + 1, lastLink := some lnk }

def add (d : LinkedList E) (element : E) (index : Int) : Option (LinkedList E) :=
  if index = 1 then
    addFirst d element
  else if index = d.upper + 1 then
    addLast d element
  else do
    let d ← seek goItem d (index - 1)
    let mem ← d.memLnk
    let (heap, link) ← newNode d.heap element (← d.heap.node mem).next
    let heap ← heap.setLink nextLink mem (some link)
    return { d with heap, upper := d.upper + 1 }

section Removing

variable [Inhabited E]

/-- `dispose_node`; the node gets the default value. -/
def disposeNode (heap : NodeHeap (LinkedListNode E)) (node : ℕ) :
    Option (NodeHeap (LinkedListNode E) × Option ℕ) :=
  heap.recycle nextLink (fun next => ⟨default, next⟩) node

def removeFirst (d : LinkedList E) : Option (LinkedList E) :=
  if d.upper = 1 then do
    let (heap, firstLink) ← disposeNode d.heap (← d.firstLink)
    return { heap, firstLink, lastLink := none, memLnk := none, memIdx := 0, upper := 0 }
  else do
    let (heap, firstLink) ← disposeNode d.heap (← d.firstLink)
    if d.memIdx = 1 then
      return { d with heap, firstLink, memLnk := firstLink, upper := d.upper - 1 }
    else
      return { d with heap, firstLink, memIdx := d.memIdx - 1, upper := d.upper - 1 }

def removeLast (d : LinkedList E) : Option (LinkedList E) :=
  if d.upper = 1 then do
    let (heap, firstLink) ← disposeNode d.heap (← d.firstLink)
    return { heap, firstLink, lastLink := none, memLnk := none, memIdx := 0, upper := 0 }
  else do
    let d ← seek goItem d (d.upper - 1)
    let last ← d.memLnk
    let (heap, next) ← disposeNode d.heap (← (← d.heap.node last).next)
    let heap ← heap.setLink nextLink last next
    return { d with heap, upper := d.upper - 1, lastLink := some last }

def remove (d : LinkedList E) (index : Int) : Option (LinkedList E) :=
  if index = 1 then
    removeFirst d
  else if index = d.upper then
    removeLast d
  else do
    let d ← seek goItem d (index - 1)
    let mem ← d.memLnk
    let link ← (← d.heap.node mem).next
    let (heap, next) ← disposeNode d.heap link
    let heap ← heap.setLink nextLink mem next
    return { d with heap, upper := d.upper - 1 }

def removeHead (d : LinkedList E) (n : Int) : Option (LinkedList E) :=
  removeTimes removeFirst d n

def removeTail (d : LinkedList E) (n : Int) : Option (LinkedList E) :=
  removeTimes removeLast d n

def clearCount (d : LinkedList E) : Option (LinkedList E) :=
  LinkedCollection.clearCount disposeNode d

end Removing

theorem no_previous {P : Link (LinkedListNode E) → Prop} :
    ∀ p ∈ (kind : NodeKind (LinkedListNode E) E).previous, P p :=
  fun _ found => nomatch found

/-! ## The memory of the last access -/

theorem goes : Goes (kind : NodeKind (LinkedListNode E) E) goItem := by
  intro d l xs k linked less
  have upper := linked.upper_eq
  have head : d.firstLink = l[0]? := by
    rw [← List.head?_eq_getElem?]
    exact linked.carries.chain.head_eq
  have walked : ∀ j ≤ k, stepsTo nextLink d.heap.node 1 ((k : Int) + 1) d.upper.toNat
      ((j : Int) + 1, l[j]?) = some ((k : Int) + 1, l[k]?) := fun j order =>
    linked.carries.chain.stepsTo_eq linked.allocated order less (by omega)
  rcases linked.cursor with ⟨empty, -⟩ | ⟨j, inside, at_j, node⟩
  · rw [empty] at less
    exact absurd less (Nat.not_lt_zero k)
  · unfold goItem
    by_cases past : d.memIdx > (k : Int) + 1
    · rw [if_pos past, head]
      have steps := walked 0 (Nat.zero_le k)
      rw [show ((0 : ℕ) : Int) + 1 = 1 from rfl] at steps
      dsimp only
      rw [steps]
      rfl
    · rw [if_neg past, at_j, node]
      dsimp only
      rw [walked j (by omega)]
      rfl

/-! ## Insertions -/

variable {d : LinkedList E} {xs : List E} {others : Set ℕ} {l l' : List ℕ} {b : ℕ} {free : List ℕ}

theorem exists_insertAfter (linked : Linked kind d (l ++ b :: l') xs)
    (pool : Pooled nextLink d.heap free {a | a ∈ l ++ b :: l' ∨ a ∈ others})
    (apart : ∀ a ∈ l ++ b :: l', a ∉ others) (x : E) :
    ∃ heap a heap', newNode d.heap x (nextOf nextLink d.heap.node b) = some (heap, a) ∧
      heap.setLink nextLink b (some a) = some heap' ∧
      (∀ last, last = (l ++ b :: a :: l').getLast? →
        Carries (nextOf nextLink heap'.node) (itemAt kind heap'.node) d.firstLink last
          (l ++ b :: a :: l') (xs.insertIdx (l.length + 1) x)) ∧
      (∃ free', Pooled nextLink heap' free' {c | c ∈ l ++ b :: a :: l' ∨ c ∈ others}) ∧
      (∀ c ∈ l ++ b :: a :: l', c ∉ others) ∧ ∀ c ∈ others, heap'.node c = d.heap.node c := by
  have middle : b ∈ l ++ b :: l' := List.mem_append_right _ List.mem_cons_self
  obtain ⟨y, at_b⟩ := linked.allocated b middle
  obtain ⟨heap, a, run, absent, outside, node, pooled⟩ :=
    exists_newNode pool ⟨x, nextOf nextLink d.heap.node b⟩
  have other : b ≠ a := fun here => absent (here ▸ middle)
  have at_b' : heap.node b = some y := by
    rw [node, Function.update_of_ne other]
    exact at_b
  have members : ∀ c, c ∈ l ++ b :: a :: l' ↔ c = a ∨ c ∈ l ++ b :: l' := by
    intro c
    simp only [List.mem_append, List.mem_cons]
    tauto
  have distinct := List.nodup_middle.mp linked.carries.chain.nodup
  have absent_b := (List.nodup_cons.mp distinct).1
  obtain ⟨free', pool'⟩ := pooled _ members
  have written : ∀ c, c ≠ b → Function.update heap.node b (some (nextLink.set (some a) y)) c =
      heap.node c := fun c away => Function.update_of_ne away _ _
  have kept : ∀ c, c ≠ a → c ≠ b →
      Function.update heap.node b (some (nextLink.set (some a) y)) c = d.heap.node c := by
    intro c away away'
    rw [written c away', node]
    exact Function.update_of_ne away _ _
  have at_a : Function.update heap.node b (some (nextLink.set (some a) y)) a =
      some ⟨x, nextOf nextLink d.heap.node b⟩ := by
    rw [written a other.symm, node, Function.update_self]
  refine ⟨heap, a, _, run, setLink_eq at_b' (some a), fun last ends => ?_, ⟨free', ?_⟩, ?_, ?_⟩
  · refine linked.carries.insertAfter (fun c member => ?_) (fun c member => ?_) ?_ ?_ ?_ ends
    · have inside : c ∈ l ++ b :: l' := by
        rcases List.mem_append.mp member with before | after
        · exact List.mem_append_left _ before
        · exact List.mem_append_right _ (List.mem_cons_of_mem b after)
      refine congrArg (fun o : Option (LinkedListNode E) => o.bind nextLink.get) (kept c ?_ ?_)
      · exact fun here => absent (here ▸ inside)
      · exact fun here => absent_b (here ▸ member)
    · by_cases here : c = b
      · rw [here, itemAt_eq (Function.update_self _ _ _)]
        exact (@itemAt_eq _ _ kind _ _ _ at_b).symm
      · exact congrArg (Option.map kind.item) (kept c (fun here => absent (here ▸ member)) here)
    · exact nextOf_update_self _
    · exact nextOf_eq at_a
    · exact itemAt_eq at_a
  · exact pool'.update (Or.inl ((members b).mpr (Or.inr middle))) _
  · intro c member
    rcases (members c).mp member with rfl | inside
    · exact outside
    · exact apart c inside
  · intro c out
    exact kept c (fun here => outside (here ▸ out)) fun here => apart b middle (here ▸ out)

theorem returns_addFirst (h : Represents kind others d xs) (x : E) :
    Returns (addFirst d x) fun d' => Represents kind others d' (x :: xs) ∧ Keeps others d d' := by
  unfold addFirst
  cases first : d.firstLink with
  | none =>
    obtain ⟨heap, a, run, rfl, held⟩ :=
      @Represents.exists_single _ _ _ _ _ _ h first (⟨x, none⟩ : LinkedListNode E) rfl
        no_previous
    unfold newNode
    rw [show d.heap.newNode nextLink ⟨x, none⟩ = some (heap, a) from run]
    exact Returns.pure_iff.mpr held
  | some head =>
    obtain ⟨l, free, linked, pool, apart⟩ := h
    obtain ⟨l', rfl⟩ := linked.carries.exists_head first
    obtain ⟨heap, a, run, absent, outside, node, pooled⟩ :=
      exists_newNode pool (⟨x, some head⟩ : LinkedListNode E)
    obtain ⟨free', pool'⟩ := pooled (a :: head :: l') fun b => List.mem_cons
    have kept : ∀ b ∈ head :: l', heap.node b = d.heap.node b := by
      intro b member
      rw [node]
      exact Function.update_of_ne (fun here : b = a => absent (here ▸ member)) _ _
    have at_a : heap.node a = some ⟨x, some head⟩ := by
      rw [node, Function.update_self]
    have made : newNode d.heap x (some head) = some (heap, a) := run
    dsimp only
    rw [made]
    refine Returns.pure_iff.mpr ⟨⟨a :: head :: l', free', ⟨?_, no_previous, ?_, ?_⟩,
      pool', ?_⟩, ?_⟩
    · refine linked.carries.push (fun b member => ?_) (fun b member => ?_) ?_ ?_ ?_
      · exact congrArg (fun o : Option (LinkedListNode E) => o.bind nextLink.get) (kept b member)
      · exact congrArg (Option.map kind.item) (kept b member)
      · exact (nextOf_eq at_a).trans first.symm
      · exact itemAt_eq at_a
      · exact linked.carries.last_eq
    · have upper := linked.upper_eq
      simp only [List.length_cons] at upper ⊢
      omega
    · rcases linked.cursor with ⟨empty, -⟩ | ⟨k, less, at_k, at_node⟩
      · cases empty
      · refine Or.inr ⟨k + 1, Nat.succ_lt_succ less, ?_, at_node⟩
        dsimp only
        omega
    · intro b member
      rcases List.mem_cons.mp member with rfl | inside
      · exact outside
      · exact apart b inside
    · intro b other
      rw [node]
      exact Function.update_of_ne (fun here : b = a => outside (here ▸ other)) _ _

theorem returns_addLast (h : Represents kind others d xs) (x : E) :
    Returns (addLast d x) fun d' =>
      Represents kind others d' (xs ++ [x]) ∧ Keeps others d d' := by
  unfold addLast
  cases first : d.firstLink with
  | none =>
    obtain ⟨heap, a, run, rfl, held⟩ :=
      @Represents.exists_single _ _ _ _ _ _ h first (⟨x, none⟩ : LinkedListNode E) rfl
        no_previous
    unfold newNode
    rw [show d.heap.newNode nextLink ⟨x, none⟩ = some (heap, a) from run]
    exact Returns.pure_iff.mpr held
  | some head =>
    obtain ⟨l, free, linked, pool, apart⟩ := h
    obtain ⟨l', rfl⟩ := linked.carries.exists_head first
    obtain ⟨l, b, split⟩ : ∃ l b, head :: l' = l ++ [b] :=
      ⟨_, _, (List.dropLast_append_getLast (List.cons_ne_nil head l')).symm⟩
    have last := linked.carries.last_eq
    rw [split] at linked pool apart last
    rw [List.getLast?_concat] at last
    have at_b : (l ++ [b])[l.length]? = some b := List.getElem?_concat_length
    have ends : nextOf nextLink d.heap.node b = none := by
      refine (linked.carries.chain.next_getElem? at_b).trans ?_
      exact List.getElem?_eq_none (by rw [List.length_append]; exact Nat.le_refl _)
    obtain ⟨heap, a, heap', run, set, carries, ⟨free', pool'⟩, apart', keeps⟩ :=
      exists_insertAfter linked pool apart x
    rw [ends] at run
    rw [run, last]
    simp only [Option.bind_eq_bind, Option.bind_some, set]
    have length := linked.length_eq
    have grown : xs.insertIdx (l.length + 1) x = xs ++ [x] := by
      rw [List.length_append] at length
      rw [show l.length + 1 = xs.length from length, List.insertIdx_length_self]
    rw [← grown]
    have carried := carries (some a) (by rw [List.getLast?_append]; rfl)
    rw [first] at carried
    refine Returns.pure_iff.mpr ⟨⟨l ++ [b, a], free', ⟨carried, no_previous, ?_, ?_⟩, pool',
      apart'⟩, keeps⟩
    · have upper := linked.upper_eq
      simp only [List.length_append, List.length_cons, List.length_nil] at upper ⊢
      omega
    · refine linked.cursor.congr (List.append_ne_nil_of_right_ne_nil l (List.cons_ne_nil b []))
        fun k less _ => ?_
      rw [show l ++ [b, a] = (l ++ [b]) ++ [a] from (List.append_assoc l [b] [a]).symm]
      exact List.getElem?_append_left less

theorem returns_add (h : Represents kind others d xs) (x : E) {k : ℕ} (le : k ≤ xs.length) :
    Returns (add d x ((k : Int) + 1)) fun d' =>
      Represents kind others d' (xs.insertIdx k x) ∧ Keeps others d d' := by
  have count := h.length_eq
  unfold add
  by_cases start : (k : Int) + 1 = 1
  · rw [if_pos start]
    have zero : k = 0 := by omega
    rw [zero, List.insertIdx_zero]
    exact returns_addFirst h x
  by_cases stop : (k : Int) + 1 = d.upper + 1
  · rw [if_neg start, if_pos stop]
    have all : k = xs.length := by omega
    rw [all, List.insertIdx_length_self]
    exact returns_addLast h x
  rw [if_neg start, if_neg stop]
  obtain ⟨l, free, linked, pool, apart⟩ := h
  have length := linked.length_eq
  obtain ⟨l₁, b, c, l₂, y, rfl, before, at_y, -, sought, moved⟩ :=
    linked.exists_before goes (show 0 < k by omega) (by omega)
  obtain ⟨heap, a, heap', run, set, carries, ⟨free', pool'⟩, apart', keeps⟩ :=
    exists_insertAfter moved pool apart x
  rw [show nextOf nextLink d.heap.node b = y.next from nextOf_eq at_y] at run
  rw [sought]
  simp only [Option.bind_eq_bind, Option.bind_some, at_y, run, set]
  rw [before] at carries
  refine Returns.pure_iff.mpr ⟨⟨_, free', ⟨carries _ ?_, no_previous, ?_, ?_⟩, pool', apart'⟩, keeps⟩
  · rw [linked.carries.last_eq]
    simp only [List.getLast?_append, List.getLast?_cons_cons]
  · have upper := linked.upper_eq
    simp only [List.length_append, List.length_cons] at upper ⊢
    omega
  · exact .middle before b _

/-! ## Removals -/

section Removing

variable [Inhabited E]

theorem disposes : Disposes nextLink (disposeNode : NodeHeap (LinkedListNode E) → _ → _) :=
  disposes_recycle nextLink fun _ => rfl

/-- The node after `b` unlinked and disposed of. -/
theorem exists_unlinkAfter {a : ℕ} (linked : Linked kind d (l ++ b :: a :: l') xs)
    (pool : Pooled nextLink d.heap free {c | c ∈ l ++ b :: a :: l' ∨ c ∈ others})
    (apart : ∀ c ∈ l ++ b :: a :: l', c ∉ others) :
    ∃ heap next heap', disposeNode d.heap a = some (heap, next) ∧
      heap.setLink nextLink b next = some heap' ∧
      (∀ last, last = (l ++ b :: l').getLast? →
        Carries (nextOf nextLink heap'.node) (itemAt kind heap'.node) d.firstLink last
          (l ++ b :: l') (xs.eraseIdx (l.length + 1))) ∧
      (∃ free', Pooled nextLink heap' free' {c | c ∈ l ++ b :: l' ∨ c ∈ others}) ∧
      (∀ c ∈ l ++ b :: l', c ∉ others) ∧ ∀ c ∈ others, heap'.node c = d.heap.node c := by
  have nodup := linked.carries.chain.nodup
  have middle : b ∈ l ++ b :: a :: l' := List.mem_append_right _ List.mem_cons_self
  have member : a ∈ l ++ b :: a :: l' :=
    List.mem_append_right _ (List.mem_cons_of_mem b List.mem_cons_self)
  have rest : ∀ c ∈ l ++ b :: l', c ≠ a := by
    have moved : (l ++ [b] ++ a :: l').Nodup := by
      rw [List.append_assoc]
      exact nodup
    rintro c inside rfl
    refine (List.nodup_cons.mp (List.nodup_middle.mp moved)).1 ?_
    rw [List.append_assoc]
    exact inside
  have absent_b : ∀ c ∈ l ++ l', c ≠ b := by
    rintro c inside rfl
    refine (List.nodup_cons.mp (List.nodup_middle.mp nodup)).1 ?_
    rcases List.mem_append.mp inside with before | after
    · exact List.mem_append_left _ before
    · exact List.mem_append_right _ (List.mem_cons_of_mem a after)
  have members : ∀ c, c ∈ l ++ b :: l' ↔ c ≠ a ∧ c ∈ l ++ b :: a :: l' := by
    intro c
    constructor
    · intro inside
      refine ⟨rest c inside, ?_⟩
      simp only [List.mem_append, List.mem_cons] at inside ⊢
      tauto
    · rintro ⟨other, inside⟩
      simp only [List.mem_append, List.mem_cons] at inside ⊢
      tauto
  obtain ⟨heap, run, frame, pooled⟩ := exists_dispose disposes pool member (apart a member)
  obtain ⟨free', pool'⟩ := pooled _ members
  have stays : b ∈ l ++ b :: l' := List.mem_append_right _ List.mem_cons_self
  obtain ⟨y, at_b⟩ := linked.allocated b middle
  have at_b' : heap.node b = some y := (frame b (rest b stays)).trans at_b
  have kept : ∀ c, c ≠ a → c ≠ b → Function.update heap.node b
      (some (nextLink.set (nextOf nextLink d.heap.node a) y)) c = d.heap.node c := by
    intro c away away'
    rw [Function.update_of_ne away']
    exact frame c away
  refine ⟨heap, _, _, run, setLink_eq at_b' _, fun last ends => ?_, ⟨free', ?_⟩, ?_, ?_⟩
  · refine linked.carries.unlinkAfter (fun c inside => ?_) (fun c inside => ?_) ?_ ends
    · have away : c ≠ a := by
        refine rest c ?_
        rcases List.mem_append.mp inside with before | after
        · exact List.mem_append_left _ before
        · exact List.mem_append_right _ (List.mem_cons_of_mem b after)
      exact congrArg (fun o : Option (LinkedListNode E) => o.bind nextLink.get)
        (kept c away (absent_b c inside))
    · by_cases here : c = b
      · rw [here, itemAt_eq (Function.update_self _ _ _)]
        exact (@itemAt_eq _ _ kind _ _ _ at_b).symm
      · exact congrArg (Option.map kind.item) (kept c (rest c inside) here)
    · exact nextOf_update_self _
  · exact pool'.update (Or.inl stays) _
  · exact fun c inside => apart c ((members c).mp inside).2
  · intro c out
    exact kept c (fun here => apart a member (here ▸ out)) fun here => apart b middle (here ▸ out)

theorem exists_disposeFirst {a : ℕ} (linked : Linked kind d (a :: l) xs)
    (pool : Pooled nextLink d.heap free {c | c ∈ a :: l ∨ c ∈ others})
    (apart : ∀ c ∈ a :: l, c ∉ others) :
    ∃ heap, disposeNode d.heap a = some (heap, l[0]?) ∧
      Carries (nextOf nextLink heap.node) (itemAt kind heap.node) l[0]? l.getLast? l xs.tail ∧
      (∃ free', Pooled nextLink heap free' {c | c ∈ l ∨ c ∈ others}) ∧
      ∀ c ∈ others, heap.node c = d.heap.node c := by
  have absent := (List.nodup_cons.mp linked.carries.chain.nodup).1
  obtain ⟨heap, run, frame, pooled⟩ :=
    exists_dispose disposes pool List.mem_cons_self (apart a List.mem_cons_self)
  have next : nextOf nextLink d.heap.node a = l[0]? :=
    linked.carries.chain.next_getElem? (k := 0) rfl
  have kept : ∀ c ∈ l, heap.node c = d.heap.node c := fun c member =>
    frame c fun here => absent (here ▸ member)
  have popped : Carries (nextOf nextLink heap.node) (itemAt kind heap.node)
      (nextOf nextLink d.heap.node a) l.getLast? l xs.tail := by
    refine linked.carries.pop (fun c member => ?_) (fun c member => ?_) rfl
    · exact congrArg (fun o : Option (LinkedListNode E) => o.bind nextLink.get) (kept c member)
    · exact congrArg (Option.map kind.item) (kept c member)
  rw [next] at popped run
  refine ⟨heap, run, popped, pooled l fun c => ?_, fun c out => frame c ?_⟩
  · constructor
    · exact fun member => ⟨fun here => absent (here ▸ member), List.mem_cons_of_mem a member⟩
    · exact fun ⟨other, member⟩ => (List.mem_cons.mp member).resolve_left other
  · exact fun here => apart a List.mem_cons_self (here ▸ out)

theorem returns_removeFirst (h : Represents kind others d xs) (some : xs ≠ []) :
    Returns (removeFirst d) fun d' => Represents kind others d' xs.tail ∧ Keeps others d d' := by
  unfold removeFirst
  by_cases one : d.upper = 1
  · obtain ⟨a, heap, first, run, length, held, keeps⟩ :=
      h.exists_disposeOnly disposes one
    obtain ⟨x, rfl⟩ := List.length_eq_one_iff.mp length
    rw [if_pos one, first]
    simp only [Option.bind_eq_bind, Option.bind_some, run]
    exact Returns.pure_iff.mpr ⟨held, keeps⟩
  · obtain ⟨l, free, linked, pool, apart⟩ := h
    have upper := linked.upper_eq
    have length := linked.length_eq
    cases l with
    | nil => exact absurd (List.length_eq_zero_iff.mp length.symm) some
    | cons a l =>
      obtain ⟨heap, run, popped, ⟨free', pool'⟩, keeps⟩ := exists_disposeFirst linked pool apart
      have last := linked.carries.last_eq
      have nonempty : l ≠ [] := by
        rintro rfl
        exact one upper
      rw [List.getLast?_cons_of_ne_nil nonempty] at last
      rw [← last] at popped
      have count : d.upper - 1 = l.length := by
        rw [List.length_cons] at upper
        omega
      have first := linked.carries.chain.1
      rw [if_neg one, first]
      simp only [Option.bind_eq_bind, Option.bind_some, run]
      have apart' : ∀ c ∈ l, c ∉ others := fun c member => apart c (List.mem_cons_of_mem a member)
      rcases linked.cursor with ⟨empty, -⟩ | ⟨k, less, at_k, node⟩
      · cases empty
      · have positive := List.length_pos_iff.mpr nonempty
        by_cases here : d.memIdx = 1
        · rw [if_pos here]
          refine Returns.pure_iff.mpr ⟨⟨l, free', ⟨popped, no_previous, count, Or.inr ⟨0, positive,
            here, rfl⟩⟩, pool', apart'⟩, keeps⟩
        · rw [if_neg here]
          obtain ⟨j, rfl⟩ : ∃ j, k = j + 1 := ⟨k - 1, by omega⟩
          refine Returns.pure_iff.mpr ⟨⟨l, free', ⟨popped, no_previous, count, Or.inr ⟨j, ?_, ?_,
            node⟩⟩, pool', apart'⟩, keeps⟩
          · exact Nat.lt_of_succ_lt_succ less
          · dsimp only
            omega

theorem returns_removeLast (h : Represents kind others d xs) (some : xs ≠ []) :
    Returns (removeLast d) fun d' => Represents kind others d' xs.dropLast ∧ Keeps others d d' := by
  unfold removeLast
  by_cases one : d.upper = 1
  · obtain ⟨a, heap, first, run, length, held, keeps⟩ :=
      h.exists_disposeOnly disposes one
    obtain ⟨x, rfl⟩ := List.length_eq_one_iff.mp length
    rw [if_pos one, first]
    simp only [Option.bind_eq_bind, Option.bind_some, run]
    exact Returns.pure_iff.mpr ⟨held, keeps⟩
  · obtain ⟨l, free, linked, pool, apart⟩ := h
    have upper := linked.upper_eq
    have length := linked.length_eq
    have positive := List.length_pos_iff.mpr some
    obtain ⟨l₁, b, a, l₂, y, rfl, before, at_y, next, sought, moved⟩ :=
      linked.exists_before goes (show 0 < l.length - 1 by omega) (by omega)
    have total := length
    rw [List.length_append, List.length_cons, List.length_cons] at total
    have last := before
    rw [List.length_append, List.length_cons, List.length_cons] at last
    obtain rfl : l₂ = [] := List.length_eq_zero_iff.mp (by omega)
    have next : y.next = Option.some a := next
    have position : d.upper - 1 = (((l₁ ++ [b, a]).length - 1 : ℕ) : Int) + 1 - 1 := by omega
    obtain ⟨heap, after, heap', run, set, carries, ⟨free', pool'⟩, apart', keeps⟩ :=
      exists_unlinkAfter moved pool apart
    rw [if_neg one, position, sought]
    simp only [Option.bind_eq_bind, Option.bind_some, at_y, next, run, set]
    have cut : xs.eraseIdx (l₁.length + 1) = xs.dropLast := by
      rw [show l₁.length + 1 = xs.length - 1 by omega, List.eraseIdx_length_sub_one]
    rw [cut] at carries
    refine Returns.pure_iff.mpr ⟨⟨l₁ ++ [b], free', ⟨carries _ ?_, no_previous, ?_, ?_⟩, pool',
      apart'⟩, keeps⟩
    · exact List.getLast?_concat.symm
    · simp only [List.length_append, List.length_cons, List.length_nil] at upper ⊢
      omega
    · exact .middle before b []

theorem returns_remove (h : Represents kind others d xs) {k : ℕ} (less : k < xs.length) :
    Returns (remove d ((k : Int) + 1)) fun d' =>
      Represents kind others d' (xs.eraseIdx k) ∧ Keeps others d d' := by
  have count := h.length_eq
  have some : xs ≠ [] := List.ne_nil_of_length_pos (by omega)
  unfold remove
  by_cases start : (k : Int) + 1 = 1
  · rw [if_pos start]
    have zero : k = 0 := by omega
    rw [zero, List.eraseIdx_zero]
    exact returns_removeFirst h some
  by_cases stop : (k : Int) + 1 = d.upper
  · rw [if_neg start, if_pos stop]
    rw [show k = xs.length - 1 by omega, List.eraseIdx_length_sub_one]
    exact returns_removeLast h some
  rw [if_neg start, if_neg stop]
  obtain ⟨l, free, linked, pool, apart⟩ := h
  have length := linked.length_eq
  obtain ⟨l₁, b, a, l₂, y, rfl, before, at_y, next, sought, moved⟩ :=
    linked.exists_before goes (show 0 < k by omega) (by omega)
  have total := length
  rw [List.length_append, List.length_cons, List.length_cons] at total
  have next : y.next = Option.some a := next
  obtain ⟨heap, after, heap', run, set, carries, ⟨free', pool'⟩, apart', keeps⟩ :=
    exists_unlinkAfter moved pool apart
  rw [sought]
  simp only [Option.bind_eq_bind, Option.bind_some, at_y, next, run, set]
  rw [before] at carries
  have nonempty : l₂ ≠ [] := by
    rintro rfl
    rw [List.length_nil] at total
    omega
  refine Returns.pure_iff.mpr ⟨⟨l₁ ++ b :: l₂, free', ⟨carries _ ?_, no_previous, ?_, ?_⟩, pool',
    apart'⟩, keeps⟩
  · rw [linked.carries.last_eq]
    simp only [List.getLast?_append, List.getLast?_cons_of_ne_nil (List.cons_ne_nil a l₂),
      List.getLast?_cons_of_ne_nil nonempty]
  · have upper := linked.upper_eq
    simp only [List.length_append, List.length_cons] at upper ⊢
    omega
  · exact .middle before b _

end Removing

end LinkedList

end

/-!
## Programs with LINKED_LIST objects

Every command does to a LINKED_LIST what it does to the sequence of its items.
-/

section

open LinkedNodes NodeHeap LinkedCollection

namespace LinkedList

variable {E : Type} [Inhabited E]

def routines : Routines (LinkedListNode E) E where
  kind := kind
  goItem := goItem
  disposeNode := disposeNode
  addFirst := addFirst
  addLast := addLast
  add := add
  removeFirst := removeFirst
  removeLast := removeLast
  remove := remove

def execute (d : LinkedList E) : Command E → Option (LinkedList E)
  | .addFirst element => addFirst d element
  | .addLast element => addLast d element
  | .add element index => add d element index
  | .put element index => put d element index
  | .removeFirst => removeFirst d
  | .removeLast => removeLast d
  | .remove index => remove d index
  | .removeHead n => removeHead d n
  | .removeTail n => removeTail d n
  | .clearCount => clearCount d
  | .item index => do return (← item d index).1
  | .indexOf test x startIndex => do return (← indexOf test d x startIndex).1

theorem routines_refine : (routines : Routines (LinkedListNode E) E).Refine where
  goes := goes
  disposes := disposes
  addFirst x h := returns_addFirst h x
  addLast x h := returns_addLast h x
  add x _ h le := returns_add h x le
  removeFirst := returns_removeFirst
  removeLast := returns_removeLast
  remove h less := returns_remove h less

/-- **LINKED_LIST is a sequence.**  In every program `item` answers the items of the sequence
that the commands make, `last_link` is the node that `count - 1` steps lead to from
`first_link`, the memory of the last access is the node at its position, and the next command
returns. -/
theorem reaches_sequence (E : Type) [Inhabited E] (w : World (LinkedListNode E))
    (lists : ℕ → List E) (reached : World.Reaches routines World.CopiesOthers w lists) (i : ℕ)
    (object : LinkedList E) (of_program : w.list i = some object) :
    let d := w.enter object
    let next := nextOf nextLink w.heap.node
    d.upper = (lists i).length ∧
    (∀ (k : ℕ) (x : E), (lists i)[k]? = some x → ∃ d', item d ((k : Int) + 1) = some (d', x)) ∧
    d.lastLink = walk next d.firstLink ((lists i).length - 1) ∧
    walk next d.firstLink (lists i).length = none ∧
    (lists i = [] → d.memIdx = 0 ∧ d.memLnk = none) ∧
    (lists i ≠ [] → 1 ≤ d.memIdx ∧ d.memIdx ≤ (lists i).length ∧ d.memLnk ≠ none ∧
      d.memLnk = walk next d.firstLink (d.memIdx - 1).toNat) ∧
    ∀ command : Command E, command.Allowed d → ∃ d', execute d command = some d' := by
  obtain ⟨count, items, last, ends, empty, memory, next⟩ := reached.refined routines_refine of_program
  refine ⟨count, items, last, ends, empty, memory, fun command allowed => ?_⟩
  exact next command allowed

/-- Accesses between removals at both ends and an insertion that recycles a node. -/
theorem reaches_sequence_recycled :
    ∃ (w : World (LinkedListNode Int)) (lists : ℕ → List Int) (object : LinkedList Int),
      World.Reaches routines World.CopiesOthers w lists ∧ w.list 0 = some object ∧
      w.heap.fresh = 3 ∧ ∃ d', item (w.enter object) 2 = some (d', 9) := by
  have started : World.Reaches (routines : Routines (LinkedListNode Int) Int) World.CopiesOthers
      World.start _ := .start
  have made := started.make 0 rfl
  have first := made.step 0 (.addLast 7) rfl trivial rfl
  have second := first.step 0 (.addFirst 5) rfl trivial rfl
  have third := second.step 0 (.addLast 8) rfl trivial rfl
  have fourth := third.step 0 (.item 3) rfl ⟨by decide, by decide⟩ rfl
  have fifth := fourth.step 0 .removeLast rfl (fun found => nomatch found) rfl
  have sixth := fifth.step 0 (.add 9 2) rfl ⟨by decide, by decide⟩ rfl
  obtain ⟨-, items, -⟩ := reaches_sequence Int _ _ sixth 0 _ rfl
  exact ⟨_, _, _, sixth, rfl, rfl, items 1 9 rfl⟩

end LinkedList

end

end Liberty
