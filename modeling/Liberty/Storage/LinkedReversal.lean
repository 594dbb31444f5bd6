import Liberty.Storage.LinkedList
import Liberty.Storage.TwoWayLinkedList

/-!
# Reversing a linked list

LINKED_LIST turns the links of its nodes round, and the memory of the last access goes with its
node.  TWO_WAY_LINKED_LIST leaves its links alone and swaps the items from both ends.  Programs
may reverse their lists between all the other commands.
-/

namespace Liberty

open LinkedNodes NodeHeap LinkedCollection

namespace LinkedCollection

variable {α E : Type} {R : Routines α E} {turn : LinkedCollection α → Option (LinkedCollection α)}

/-- The program after its list `i` has been reversed. -/
def World.reverse (turn : LinkedCollection α → Option (LinkedCollection α)) (w : World α) (i : ℕ) :
    Option (World α) := do
  let d ← w.list i
  return w.leave i (← turn (w.enter d))

/-- The program and the sequences after the same operations, with the class's `reverse`, `turn`, among them. -/
inductive World.Reverses (R : Routines α E) (turn : LinkedCollection α → Option (LinkedCollection α)) :
    World α → (ℕ → List E) → Prop
  | start : Reverses R turn start fun _ => []
  | make {w : World α} {lists : ℕ → List E} (i : ℕ) (before : Reverses R turn w lists)
      (new : w.list i = none) :
      Reverses R turn (w.leave i (.make w.heap)) (Function.update lists i [])
  | step {w w' : World α} {lists : ℕ → List E} {d : LinkedCollection α} (i : ℕ) (command : Command E)
      (before : Reverses R turn w lists) (object : w.list i = some d)
      (allowed : command.Allowed (w.enter d)) (run : w.run R i command = some w') :
      Reverses R turn w' (Function.update lists i (command.update (lists i)))
  | reverse {w w' : World α} {lists : ℕ → List E} {d : LinkedCollection α} (i : ℕ)
      (before : Reverses R turn w lists) (object : w.list i = some d)
      (run : w.reverse turn i = some w') :
      Reverses R turn w' (Function.update lists i (lists i).reverse)
  | collect {w : World α} {lists : ℕ → List E} (before : Reverses R turn w lists) :
      Reverses R turn { w with heap := w.heap.collect } lists

/-- A routine that reverses the sequence. -/
def Turns (K : NodeKind α E) (turn : LinkedCollection α → Option (LinkedCollection α)) : Prop :=
  ∀ {others : Set ℕ} {d : LinkedCollection α} {xs : List E}, Represents K others d xs →
    Returns (turn d) fun d' => Represents K others d' xs.reverse ∧ Keeps others d d'

variable {w w' : World α} {lists : ℕ → List E} {i : ℕ} {d : LinkedCollection α}

theorem World.Sound.returns_reverse (turns : Turns R.kind turn) (h : Sound R.kind w lists)
    (object : w.list i = some d) :
    Returns (w.reverse turn i) fun w' =>
      Sound R.kind w' (Function.update lists i (lists i).reverse) := by
  obtain ⟨own, free, s⟩ := h
  unfold World.reverse
  rw [object, Option.bind_eq_bind, Option.bind_some]
  refine (turns (represents_of_sharing s object)).bind ?_
  rintro d' ⟨held, keeps⟩
  exact Returns.pure_iff.mpr (sharing_leave s held keeps)

theorem World.Reverses.sound (refines : R.Refine) (turns : Turns R.kind turn)
    (reached : Reverses R turn w lists) : Sound R.kind w lists := by
  induction reached with
  | start => exact .start R.kind
  | make i _ new ih => exact ih.make new
  | step i command _ object allowed run ih =>
    exact ((ih.returns_run refines object command allowed).unique run).1
  | reverse i _ object run ih => exact (ih.returns_reverse turns object).unique run
  | collect _ ih => exact ih.collect

/-- The nodes of `d` carry the sequence `xs` and its memory is on one of them, `item` answers the
items of `xs`, and the next command and the next reversal return. -/
def Answers (R : Routines α E) (turn : LinkedCollection α → Option (LinkedCollection α))
    (d : LinkedCollection α) (xs : List E) : Prop :=
  (∃ nodes, Linked R.kind d nodes xs) ∧
  (∀ (k : ℕ) (x : E), xs[k]? = some x → ∃ d', R.item d ((k : Int) + 1) = some (d', x)) ∧
  (∀ command : Command E, command.Allowed d → ∃ d', R.execute d command = some d') ∧
  ∃ d', turn d = some d'

theorem World.Reverses.answers (refines : R.Refine) (turns : Turns R.kind turn)
    (reached : Reverses R turn w lists) (object : w.list i = some d) :
    Answers R turn (w.enter d) (lists i) := by
  obtain ⟨own, free, s⟩ := reached.sound refines turns
  have h := represents_of_sharing s object
  obtain ⟨l, -, linked, -⟩ := id h
  refine ⟨⟨l, linked⟩, fun k x at_k => ?_,
    fun command allowed => (h.returns_execute refines allowed).isSome, (turns h).isSome⟩
  obtain ⟨s', run, at_k', -⟩ := h.returns_item refines.goes (List.getElem?_eq_some_iff.mp at_k).1
  rw [at_k] at at_k'
  exact ⟨s'.1, by rw [Option.some.inj at_k']; exact run⟩

end LinkedCollection

/-! ## LINKED_LIST -/

namespace LinkedList

variable {E : Type}

/-- One round of `reverse`: the nodes, `prev` and `lnk`. -/
def reverseRound (s : NodeHeap (LinkedListNode E) × Option ℕ × Option ℕ) :
    Option (NodeHeap (LinkedListNode E) × Option ℕ × Option ℕ) := do
  let (heap, prev, lnk) := s
  let lnk ← lnk
  let next := (← heap.node lnk).next
  return (← heap.setLink nextLink lnk prev, some lnk, next)

def reverse (d : LinkedList E) : Option (LinkedList E) := do
  let (heap, prev, _) ← untilLoop (fun s => some s.2.2.isNone) reverseRound d.upper.toNat
    (d.heap, none, d.firstLink)
  return { d with
    heap
    lastLink := d.firstLink
    firstLink := prev
    memIdx := if d.memIdx ≠ 0 then d.upper - d.memIdx + 1 else d.memIdx }

/-- The nodes `rest` are still to come, those of `done` are turned round. -/
theorem returns_reverseLoop {heap : NodeHeap (LinkedListNode E)} {prev lnk : Option ℕ}
    {rest done free : List ℕ} {used : Set ℕ} (chain : Chain (nextOf nextLink heap.node) lnk rest)
    (back : Chain (nextOf nextLink heap.node) prev done) (distinct : (rest ++ done).Nodup)
    (pool : Pooled nextLink heap free used) (inside : ∀ a ∈ rest, a ∈ used) {fuel : ℕ}
    (enough : rest.length ≤ fuel) :
    Returns (untilLoop (fun s => some s.2.2.isNone) reverseRound fuel (heap, prev, lnk)) fun s =>
      Chain (nextOf nextLink s.1.node) s.2.1 (rest.reverse ++ done) ∧
        itemAt kind s.1.node = itemAt kind heap.node ∧ (∀ b, b ∉ rest → s.1.node b = heap.node b) ∧
        Pooled nextLink s.1 free used := by
  induction rest generalizing heap prev lnk done fuel with
  | nil =>
    rw [show lnk = none from chain]
    exact returns_untilLoop_stopped rfl ⟨back, rfl, fun _ _ => rfl, pool⟩
  | cons a rest ih =>
    obtain ⟨fuel, rfl⟩ : ∃ f, fuel = f + 1 := ⟨fuel - 1, by simp at enough; omega⟩
    have fresh : a ∉ rest ∧ a ∉ done := by
      rw [← not_or, ← List.mem_append]
      exact (List.nodup_cons.mp distinct).1
    have used_a := inside a List.mem_cons_self
    obtain ⟨n, at_a⟩ := (pool.allocated a (Or.inr used_a)).2
    have others : ∀ b, b ≠ a → nextOf nextLink (Function.update heap.node a
        (some (nextLink.set prev n))) b = nextOf nextLink heap.node b :=
      fun b other => nextOf_update_of_ne _ other
    rw [chain.1, untilLoop]
    simp only [reverseRound, Option.isNone_some, Option.bind_eq_bind, Option.bind_some, at_a,
      setLink_eq at_a, Option.pure_def, Bool.false_eq_true, if_false]
    have tail := chain.2
    rw [nextOf_eq at_a] at tail
    refine (ih (tail.congr fun b member => others b ?_) (back.push (fun b member => others b ?_)
      (nextOf_update_self _)) ?_ (pool.update used_a _)
      (fun b member => inside b (List.mem_cons_of_mem a member)) (by simpa using enough)).mono ?_
    · exact fun here => fresh.1 (here ▸ member)
    · exact fun here => fresh.2 (here ▸ member)
    · exact List.nodup_middle.mpr (List.nodup_cons.mpr ⟨by simpa using fresh, (List.nodup_cons.mp distinct).2⟩)
    · rintro s ⟨chain', items, frame, pool'⟩
      refine ⟨?_, items.trans (itemAt_update_set (fun _ _ => rfl) at_a prev), fun b out => ?_, pool'⟩
      · rw [List.reverse_cons, List.append_assoc]
        exact chain'
      · rw [List.mem_cons, not_or] at out
        rw [frame b out.2]
        exact Function.update_of_ne out.1 _ _

theorem turns_reverse : Turns (kind : NodeKind (LinkedListNode E) E) reverse := by
  rintro others d xs ⟨l, free, linked, pool, apart⟩
  have upper := linked.upper_eq
  have chain := linked.carries.chain
  unfold reverse
  refine (returns_reverseLoop chain (show Chain _ none [] from rfl)
    (by rw [List.append_nil]; exact chain.nodup) pool (fun a member => Or.inl member)
    (show l.length ≤ d.upper.toNat by omega)).bind ?_
  rintro ⟨heap, prev, lnk⟩ ⟨chain', items, frame, pool'⟩
  dsimp only at chain' items frame pool'
  rw [List.append_nil] at chain'
  refine Returns.pure_iff.mpr ⟨⟨l.reverse, free, ⟨⟨chain', ?_, ?_⟩, no_previous, ?_, ?_⟩, ?_, ?_⟩, ?_⟩
  · dsimp only
    rw [items, List.map_reverse, List.map_reverse]
    exact congrArg List.reverse linked.carries.items
  · rw [List.getLast?_reverse]
    exact chain.head_eq
  · rw [List.length_reverse]
    exact upper
  · rcases linked.cursor with ⟨rfl, zero, node⟩ | ⟨k, less, at_k, node⟩
    · exact Or.inl ⟨rfl, by dsimp only; rw [zero]; rfl, node⟩
    · refine Or.inr ⟨l.length - 1 - k, by rw [List.length_reverse]; omega, ?_, ?_⟩
      · dsimp only
        rw [if_pos (by omega)]
        omega
      · rw [List.getElem?_reverse (by omega), show l.length - 1 - (l.length - 1 - k) = k by omega]
        exact node
  · simp only [List.mem_reverse]
    exact pool'
  · exact fun a member => apart a (List.mem_reverse.mp member)
  · exact fun a other => frame a fun member => apart a member other

/-- **LINKED_LIST stays a sequence in programs that reverse it**, between any other commands: the
links that have been turned round carry the items of the reversed sequence, and the memory of the
last access is still on its node. -/
theorem reverses_sequence [Inhabited E] (w : World (LinkedListNode E)) (lists : ℕ → List E)
    (reached : World.Reverses routines reverse w lists) (i : ℕ) (object : LinkedList E)
    (of_program : w.list i = some object) :
    Answers routines reverse (w.enter object) (lists i) :=
  reached.answers routines_refine turns_reverse of_program

/-- An access, a reversal and another access. -/
theorem reverses_sequence_turned :
    ∃ (w : World (LinkedListNode Int)) (object : LinkedList Int), w.list 0 = some object ∧
      object.memIdx = 2 ∧ ∃ d', item (w.enter object) 2 = some (d', 5) := by
  have started : World.Reverses (routines : Routines (LinkedListNode Int) Int) reverse World.start _ :=
    .start
  have made := started.make 0 rfl
  have first := made.step 0 (.addLast 5) rfl trivial rfl
  have second := first.step 0 (.addLast 7) rfl trivial rfl
  have turned := second.reverse 0 rfl rfl
  obtain ⟨-, items, -⟩ := reverses_sequence _ _ turned 0 _ rfl
  exact ⟨_, _, rfl, rfl, items 1 5 rfl⟩

end LinkedList

/-! ## TWO_WAY_LINKED_LIST -/

namespace TwoWayLinkedList

variable {E : Type}

/-- `set_item` of the node `a`. -/
def setItem (heap : NodeHeap (TwoWayLinkedListNode E)) (a : ℕ) (x : E) :
    Option (NodeHeap (TwoWayLinkedListNode E)) := do
  return { heap with node := Function.update heap.node a (some (kind.setItem x (← heap.node a))) }

/-- One round of `reverse`: the nodes, `low`, `high` and `i`. -/
def reverseRound (s : NodeHeap (TwoWayLinkedListNode E) × Option ℕ × Option ℕ × Int) :
    Option (NodeHeap (TwoWayLinkedListNode E) × Option ℕ × Option ℕ × Int) := do
  let (heap, low, high, i) := s
  let low ← low
  let high ← high
  let temp := (← heap.node low).item
  let heap ← setItem heap low (← heap.node high).item
  let heap ← setItem heap high temp
  return (heap, (← heap.node low).next, (← heap.node high).previous, i - 1)

def reverse (d : TwoWayLinkedList E) : Option (TwoWayLinkedList E) := do
  let (heap, _) ← untilLoop (fun s => some (decide (s.2.2.2 = 0))) reverseRound d.upper.toNat
    (d.heap, d.firstLink, d.lastLink, d.upper.tdiv 2)
  return { d with heap }

/-- The list `d` in a heap where its nodes carry `ys`. -/
def Written (others : Set ℕ) (free l : List ℕ) (d : TwoWayLinkedList E)
    (heap : NodeHeap (TwoWayLinkedListNode E)) (ys : List E) : Prop :=
  Linked kind { d with heap } l ys ∧ Pooled nextLink heap free {a | a ∈ l ∨ a ∈ others} ∧
    ∀ a ∈ others, heap.node a = d.heap.node a

variable {others : Set ℕ} {free l : List ℕ} {d : TwoWayLinkedList E}
  {heap : NodeHeap (TwoWayLinkedListNode E)} {xs ys : List E}

theorem Written.returns_setItem (h : Written others free l d heap ys) (apart : ∀ a ∈ l, a ∉ others)
    {k a : ℕ} (at_k : l[k]? = some a) (x : E) :
    Returns (setItem heap a x) fun heap' => Written others free l d heap' (ys.set k x) := by
  obtain ⟨linked, pool, frame⟩ := h
  have member := List.mem_of_getElem? at_k
  obtain ⟨n, at_a⟩ := linked.allocated a member
  dsimp only at at_a
  have links : ∀ p : Link (TwoWayLinkedListNode E), p.get (kind.setItem x n) = p.get n → ∀ b,
      nextOf p (Function.update heap.node a (some (kind.setItem x n))) b = nextOf p heap.node b := by
    intro p same b
    by_cases here : b = a
    · rw [here, nextOf_update_self, nextOf_eq at_a, same]
    · exact nextOf_update_of_ne _ here
  unfold setItem
  rw [at_a]
  refine Returns.pure_iff.mpr ⟨⟨?_, fun p is_previous => ?_, linked.upper_eq, linked.cursor⟩,
    pool.update (Or.inl member) _, fun b other => ?_⟩
  · refine linked.carries.set at_k (fun b _ => links nextLink rfl b)
      (fun b _ other => itemAt_update_of_ne _ other) ?_
    exact itemAt_eq (Function.update_self _ _ _)
  · exact (linked.back p is_previous).congr fun b _ =>
      links p (kind.previous_setItem p is_previous x n) b
  · rw [← frame b other]
    exact Function.update_of_ne (fun here : b = a => apart a member (here ▸ other)) _ _

/-- One round swaps the items at `k` from both ends. -/
theorem Written.returns_reverseRound (h : Written others free l d heap ys)
    (apart : ∀ a ∈ l, a ∉ others) {k : ℕ} (less : k < l.length) (i : Int) {x y : E}
    (low : ys[k]? = some x) (high : ys[l.length - 1 - k]? = some y) :
    Returns (reverseRound (heap, l[k]?, l.reverse[k]?, i)) fun s =>
      Written others free l d s.1 ((ys.set k y).set (l.length - 1 - k) x) ∧
        s.2 = (l[k + 1]?, l.reverse[k + 1]?, i - 1) := by
  obtain ⟨a, n, x', at_k, at_a, at_x, rfl⟩ := h.1.exists_node less
  obtain ⟨b, m, y', at_k', at_b, at_y, rfl⟩ := h.1.exists_node (show l.length - 1 - k < _ by omega)
  have back := List.getElem?_reverse less
  rw [at_k'] at back
  cases low.symm.trans at_x
  cases high.symm.trans at_y
  dsimp only at at_a at_b
  unfold reverseRound
  simp only [at_k, back, Option.bind_eq_bind, Option.bind_some, at_a, at_b]
  rw [← Option.bind_eq_bind]
  refine (h.returns_setItem apart at_k _).bind fun heap' h' => ?_
  refine (h'.returns_setItem apart at_k' _).bind fun heap'' h'' => ?_
  obtain ⟨n', at_a'⟩ := h''.1.allocated a (List.mem_of_getElem? at_k)
  obtain ⟨m', at_b'⟩ := h''.1.allocated b (List.mem_of_getElem? at_k')
  dsimp only at at_a' at_b'
  have next := h''.1.carries.chain.next_getElem? at_k
  have previous := (h''.1.back previousLink rfl).next_getElem? back
  simp only [at_a', at_b', Option.bind_some, Returns.pure_iff]
  refine ⟨h'', ?_⟩
  rw [← next, ← previous, nextOf_eq at_a', nextOf_eq at_b']
  rfl

/-- The items that come from the other end after `k` rounds. -/
def Swapped (xs ys : List E) (k : ℕ) : Prop :=
  ys.length = xs.length ∧ ∀ j, ys[j]? = if j < k ∨ xs.length ≤ j + k then xs.reverse[j]? else xs[j]?

theorem Swapped.round {k : ℕ} (h : Swapped xs ys k) (less : k < xs.length - 1 - k) :
    ∃ x y, ys[k]? = some x ∧ ys[xs.length - 1 - k]? = some y ∧
      Swapped xs ((ys.set k y).set (xs.length - 1 - k) x) (k + 1) := by
  obtain ⟨length, items⟩ := h
  have low := items k
  have high := items (xs.length - 1 - k)
  rw [if_neg (by omega)] at low high
  refine ⟨xs[k], xs[xs.length - 1 - k], low.trans (List.getElem?_eq_getElem _),
    high.trans (List.getElem?_eq_getElem _), by simp only [List.length_set, length], fun j => ?_⟩
  rw [List.getElem?_set, List.getElem?_set, List.length_set, length]
  by_cases last : xs.length - 1 - k = j
  · rw [if_pos last, if_pos (by omega), if_pos (by omega), List.getElem?_reverse (by omega),
      show xs.length - 1 - j = k by omega, List.getElem?_eq_getElem]
  · rw [if_neg last]
    by_cases first : k = j
    · subst first
      rw [if_pos rfl, if_pos (by omega), if_pos (by omega), List.getElem?_reverse (by omega),
        List.getElem?_eq_getElem]
    · rw [if_neg first, items j]
      exact if_congr (by omega) rfl rfl

theorem Swapped.eq_reverse {k : ℕ} (h : Swapped xs ys k) (half : k = xs.length / 2) :
    ys = xs.reverse := by
  refine List.ext_getElem? fun j => ?_
  rw [h.2 j]
  split
  · rfl
  · rw [List.getElem?_reverse (by omega), show xs.length - 1 - j = j by omega]

theorem turns_reverse : Turns (kind : NodeKind (TwoWayLinkedListNode E) E) reverse := by
  rintro others d xs ⟨l, free, linked, pool, apart⟩
  have upper := linked.upper_eq
  have length := linked.length_eq
  have half : d.upper.tdiv 2 = ((xs.length / 2 : ℕ) : Int) := by
    rw [upper, length]
    rfl
  have init : Written others free l d d.heap xs := ⟨linked, pool, fun _ _ => rfl⟩
  have firstLink : d.firstLink = l[0]? := by
    rw [← List.head?_eq_getElem?]
    exact linked.carries.chain.head_eq
  have lastLink : d.lastLink = l.reverse[0]? := by
    rw [← List.head?_eq_getElem?, List.head?_reverse]
    exact linked.carries.last_eq
  unfold reverse
  rw [Returns.bind_iff]
  refine returns_untilLoop (fun s => ∃ (k : ℕ) (ys : List E), Written others free l d s.1 ys ∧
      s.2 = (l[k]?, l.reverse[k]?, ((xs.length / 2 : ℕ) : Int) - k) ∧ k ≤ xs.length / 2 ∧
      Swapped xs ys k)
    (fun s => s.2.2.2.toNat) ⟨0, xs, init, by rw [half, firstLink, lastLink]; rfl,
      Nat.zero_le _, rfl, fun j => ?_⟩ (by dsimp only; omega) ?_
  · split
    · rw [List.getElem?_eq_none (by omega), List.getElem?_eq_none (by rw [List.length_reverse]; omega)]
    · rfl
  · rintro ⟨heap, low, high, i⟩ ⟨k, ys, h, at_k, le, swapped⟩
    dsimp only at h at_k
    cases at_k
    rw [Returns.some_iff]
    by_cases done : ((xs.length / 2 : ℕ) : Int) - k = 0
    · rw [if_pos (decide_eq_true done), Returns.pure_iff]
      rw [swapped.eq_reverse (by omega)] at h
      exact ⟨⟨l, free, h.1, h.2.1, apart⟩, h.2.2⟩
    · rw [if_neg (by rw [decide_eq_false done]; exact Bool.false_ne_true)]
      obtain ⟨x, y, at_x, at_y, swapped'⟩ := swapped.round (by omega)
      rw [← length] at at_y swapped'
      refine (h.returns_reverseRound apart (by omega) _ at_x at_y).mono ?_
      rintro ⟨heap', state⟩ ⟨h', at_state⟩
      dsimp only at h' at_state
      have rest : ((xs.length / 2 : ℕ) : Int) - k - 1 = ((xs.length / 2 : ℕ) : Int) - (k + 1 : ℕ) := by
        omega
      rw [at_state, rest]
      exact ⟨⟨k + 1, _, h', rfl, by omega, swapped'⟩, by dsimp only; omega⟩

/-- **TWO_WAY_LINKED_LIST stays a sequence in programs that reverse it**, between any other
commands: items that have been swapped from both ends are those of the reversed sequence, and
the links in both directions are as they were. -/
theorem reverses_linkedSequence [Inhabited E] (w : World (TwoWayLinkedListNode E)) (lists : ℕ → List E)
    (reached : World.Reverses routines reverse w lists) (i : ℕ) (object : TwoWayLinkedList E)
    (of_program : w.list i = some object) :
    Answers routines reverse (w.enter object) (lists i) :=
  reached.answers routines_refine turns_reverse of_program

/-- Three items, the middle of which stays where it is. -/
theorem reverses_linkedSequence_turned :
    ∃ (w : World (TwoWayLinkedListNode Int)) (object : TwoWayLinkedList Int),
      w.list 0 = some object ∧ ∃ d', item (w.enter object) 3 = some (d', 5) := by
  have started : World.Reverses (routines : Routines (TwoWayLinkedListNode Int) Int) reverse
      World.start _ := .start
  have made := started.make 0 rfl
  have first := made.step 0 (.addLast 5) rfl trivial rfl
  have second := first.step 0 (.addLast 7) rfl trivial rfl
  have third := second.step 0 (.addLast 9) rfl trivial rfl
  have turned := third.reverse 0 rfl rfl
  obtain ⟨-, items, -⟩ := reverses_linkedSequence _ _ turned 0 _ rfl
  exact ⟨_, _, rfl, items 2 5 rfl⟩

end TwoWayLinkedList

end Liberty
