import Liberty.Storage.LinkedCollection

/-!
# Programs with linked lists

Any number of lists of one class, made and changed in any order, recycle one another's nodes,
and a list may be copied from another one.  The garbage collector may clear the weak reference
to the free nodes at any time.
-/

namespace Liberty

open LinkedNodes NodeHeap

namespace LinkedCollection

variable {α E : Type}

/-! ## Commands -/

/-- The operations on one list; the comparison of `index_of` is that of SAFE_EQUAL. -/
inductive Command (E : Type)
  | addFirst (element : E)
  | addLast (element : E)
  | add (element : E) (index : Int)
  | put (element : E) (index : Int)
  | removeFirst
  | removeLast
  | remove (index : Int)
  | removeHead (n : Int)
  | removeTail (n : Int)
  | clearCount
  | item (index : Int)
  | indexOf (test : E → E → Bool) (x : E) (startIndex : Int)

/-- The precondition of a command; `index_of` reads the item at its start. -/
def Command.Allowed (d : LinkedCollection α) : Command E → Prop
  | .add _ index => 1 ≤ index ∧ index ≤ d.upper + 1
  | .put _ index | .remove index | .item index => 1 ≤ index ∧ index ≤ d.upper
  | .removeFirst | .removeLast => d.firstLink ≠ none
  | .removeHead n | .removeTail n => 0 < n ∧ n ≤ d.upper
  | .indexOf _ _ startIndex => 1 ≤ startIndex
  | _ => True

/-- What a command does to the sequence. -/
def Command.update (xs : List E) : Command E → List E
  | .addFirst x => x :: xs
  | .addLast x => xs ++ [x]
  | .add x index => xs.insertIdx (index - 1).toNat x
  | .put x index => xs.set (index - 1).toNat x
  | .removeFirst => xs.tail
  | .removeLast => xs.dropLast
  | .remove index => xs.eraseIdx (index - 1).toNat
  | .removeHead n => xs.drop n.toNat
  | .removeTail n => xs.take (xs.length - n.toNat)
  | .clearCount => []
  | .item _ | .indexOf _ _ _ => xs

/-- The routines of a class that the two classes write in their own ways. -/
structure Routines (α E : Type) where
  kind : NodeKind α E
  goItem : LinkedCollection α → Int → Option (LinkedCollection α)
  disposeNode : NodeHeap α → ℕ → Option (NodeHeap α × Option ℕ)
  addFirst : LinkedCollection α → E → Option (LinkedCollection α)
  addLast : LinkedCollection α → E → Option (LinkedCollection α)
  add : LinkedCollection α → E → Int → Option (LinkedCollection α)
  removeFirst : LinkedCollection α → Option (LinkedCollection α)
  removeLast : LinkedCollection α → Option (LinkedCollection α)
  remove : LinkedCollection α → Int → Option (LinkedCollection α)

namespace Routines

variable (R : Routines α E)

def item (d : LinkedCollection α) (index : Int) : Option (LinkedCollection α × E) :=
  LinkedCollection.item R.kind R.goItem d index

def execute (d : LinkedCollection α) : Command E → Option (LinkedCollection α)
  | .addFirst element => R.addFirst d element
  | .addLast element => R.addLast d element
  | .add element index => R.add d element index
  | .put element index => LinkedCollection.put R.kind R.goItem d element index
  | .removeFirst => R.removeFirst d
  | .removeLast => R.removeLast d
  | .remove index => R.remove d index
  | .removeHead n => removeTimes R.removeFirst d n
  | .removeTail n => removeTimes R.removeLast d n
  | .clearCount => LinkedCollection.clearCount R.disposeNode d
  | .item index => do return (← R.item d index).1
  | .indexOf test x startIndex => do
      return (← LinkedCollection.indexOf R.kind R.goItem test d x startIndex).1

end Routines

/-- The lists of a program and the heap that they share. -/
structure World (α : Type) where
  heap : NodeHeap α
  list : ℕ → Option (LinkedCollection α)

namespace World

/-- The program before its first list. -/
def start : World α where
  heap := .empty
  list _ := none

/-- A list in the heap of the program. -/
def enter (w : World α) (d : LinkedCollection α) : LinkedCollection α :=
  { d with heap := w.heap }

/-- The program after a routine that leaves the list `d`. -/
def leave (w : World α) (i : ℕ) (d : LinkedCollection α) : World α where
  heap := d.heap
  list := Function.update w.list i (some d)

def run (R : Routines α E) (w : World α) (i : ℕ) (command : Command E) : Option (World α) := do
  let d ← w.list i
  return w.leave i (← R.execute (w.enter d) command)

def item (R : Routines α E) (w : World α) (j : ℕ) (index : Int) : Option (World α × E) := do
  let d ← w.list j
  let (d, x) ← R.item (w.enter d) index
  return (w.leave j d, x)

/-- `copy`, which is `from_collection`: the list `i` is cleared, then it gets the items of
`j`, whose memory moves. -/
def copy (R : Routines α E) (w : World α) (i j : ℕ) : Option (World α) := do
  let w ← w.run R i .clearCount
  let up := (← w.list j).upper
  let (w, _) ← untilLoop (fun s => some (decide (s.2 > up)))
    (fun (w, k) => do
      let (w, x) ← w.item R j k
      return (← w.run R i (.addLast x), k + 1))
    up.toNat (w, (1 : Int))
  return w

/-- The program and the sequences after the same operations; `P` says which copies it makes. -/
inductive Reaches (R : Routines α E) (P : World α → ℕ → ℕ → Prop) : World α → (ℕ → List E) → Prop
  | start : Reaches R P start fun _ => []
  | make {w : World α} {lists : ℕ → List E} (i : ℕ) (before : Reaches R P w lists)
      (new : w.list i = none) :
      Reaches R P (w.leave i (.make w.heap)) (Function.update lists i [])
  | step {w w' : World α} {lists : ℕ → List E} {d : LinkedCollection α} (i : ℕ)
      (command : Command E) (before : Reaches R P w lists) (object : w.list i = some d)
      (allowed : command.Allowed (w.enter d)) (run : w.run R i command = some w') :
      Reaches R P w' (Function.update lists i (command.update (lists i)))
  | copy {w w' : World α} {lists : ℕ → List E} {d d' : LinkedCollection α} (i j : ℕ)
      (before : Reaches R P w lists) (object : w.list i = some d) (other : w.list j = some d')
      (meets : P w i j) (run : w.copy R i j = some w') :
      Reaches R P w' (Function.update lists i (lists j))
  | collect {w : World α} {lists : ℕ → List E} (before : Reaches R P w lists) :
      Reaches R P { w with heap := w.heap.collect } lists

/-- A list is copied onto itself only when it is empty. -/
def CopiesOthers (w : World α) (i j : ℕ) : Prop :=
  i = j → ∀ d, w.list i = some d → d.firstLink = none

end World

/-! ## What the routines of a class do -/

/-- The routines of a class do to the list what the commands do to the sequence. -/
structure Routines.Refine (R : Routines α E) : Prop where
  goes : Goes R.kind R.goItem
  disposes : Disposes R.kind.next R.disposeNode
  addFirst : ∀ {others : Set ℕ} {d : LinkedCollection α} {xs : List E} (x : E),
    Represents R.kind others d xs →
      Returns (R.addFirst d x) fun d' => Represents R.kind others d' (x :: xs) ∧ Keeps others d d'
  addLast : ∀ {others : Set ℕ} {d : LinkedCollection α} {xs : List E} (x : E),
    Represents R.kind others d xs →
      Returns (R.addLast d x) fun d' => Represents R.kind others d' (xs ++ [x]) ∧ Keeps others d d'
  add : ∀ {others : Set ℕ} {d : LinkedCollection α} {xs : List E} (x : E) {k : ℕ},
    Represents R.kind others d xs → k ≤ xs.length →
      Returns (R.add d x ((k : Int) + 1)) fun d' =>
        Represents R.kind others d' (xs.insertIdx k x) ∧ Keeps others d d'
  removeFirst : ∀ {others : Set ℕ} {d : LinkedCollection α} {xs : List E},
    Represents R.kind others d xs → xs ≠ [] →
      Returns (R.removeFirst d) fun d' => Represents R.kind others d' xs.tail ∧ Keeps others d d'
  removeLast : ∀ {others : Set ℕ} {d : LinkedCollection α} {xs : List E},
    Represents R.kind others d xs → xs ≠ [] →
      Returns (R.removeLast d) fun d' => Represents R.kind others d' xs.dropLast ∧ Keeps others d d'
  remove : ∀ {others : Set ℕ} {d : LinkedCollection α} {xs : List E} {k : ℕ},
    Represents R.kind others d xs → k < xs.length →
      Returns (R.remove d ((k : Int) + 1)) fun d' =>
        Represents R.kind others d' (xs.eraseIdx k) ∧ Keeps others d d'

section Execute

variable {R : Routines α E} {d : LinkedCollection α} {xs : List E} {others : Set ℕ}

theorem Represents.returns_execute (refines : R.Refine) (h : Represents R.kind others d xs)
    {command : Command E} (allowed : command.Allowed d) :
    Returns (R.execute d command) fun d' =>
      Represents R.kind others d' (command.update xs) ∧ Keeps others d d' := by
  have upper := h.length_eq
  have nonempty : d.firstLink ≠ none → xs ≠ [] := by
    rintro some rfl
    obtain ⟨l, free, linked, -⟩ := h
    rw [linked.carries.chain.head_eq, List.length_eq_zero_iff.mp linked.length_eq] at some
    exact some rfl
  have position : ∀ index : Int, 1 ≤ index →
      index = (((index - 1).toNat : ℕ) : Int) + 1 := fun index first => by omega
  cases command with
  | addFirst x => exact refines.addFirst x h
  | addLast x => exact refines.addLast x h
  | add x index =>
    obtain ⟨first, last⟩ := allowed
    have added := refines.add x h (show (index - 1).toNat ≤ xs.length by omega)
    rw [← position index first] at added
    exact added
  | put x index =>
    obtain ⟨first, last⟩ := allowed
    have written := h.returns_put refines.goes x (show (index - 1).toNat < xs.length by omega)
    rw [← position index first] at written
    exact written
  | removeFirst => exact refines.removeFirst h (nonempty allowed)
  | removeLast => exact refines.removeLast h (nonempty allowed)
  | remove index =>
    obtain ⟨first, last⟩ := allowed
    have removed := refines.remove h (show (index - 1).toNat < xs.length by omega)
    rw [← position index first] at removed
    exact removed
  | removeHead n =>
    obtain ⟨positive, fits⟩ := allowed
    obtain ⟨n, rfl⟩ : ∃ m : ℕ, n = m := ⟨n.toNat, by omega⟩
    refine Represents.returns_removeTimes (fun m => xs.drop m) (fun d m less held => ?_) h
    rw [← List.tail_drop]
    refine refines.removeFirst held fun empty => ?_
    have := List.drop_eq_nil_iff.mp empty
    omega
  | removeTail n =>
    obtain ⟨positive, fits⟩ := allowed
    obtain ⟨n, rfl⟩ : ∃ m : ℕ, n = m := ⟨n.toNat, by omega⟩
    refine Represents.returns_removeTimes (fun m => xs.take (xs.length - m))
      (fun d m less held => ?_) ?_
    · have cut : xs.take (xs.length - (m + 1)) = (xs.take (xs.length - m)).dropLast := by
        rw [List.dropLast_eq_take, List.length_take, List.take_take]
        congr 1
        omega
      rw [cut]
      refine refines.removeLast held fun empty => ?_
      have lengths := congrArg List.length empty
      rw [List.length_take, List.length_nil] at lengths
      omega
    · rw [Nat.sub_zero, List.take_length]
      exact h
  | clearCount => exact h.returns_clearCount refines.disposes
  | item index =>
    obtain ⟨first, last⟩ := allowed
    rw [position index first]
    refine (h.returns_item refines.goes (show (index - 1).toNat < xs.length by omega)).bind ?_
    exact fun s read => Returns.pure_iff.mpr read.2
  | indexOf test x startIndex =>
    refine (h.returns_indexOf refines.goes test x allowed).bind ?_
    exact fun s found => Returns.pure_iff.mpr found.2

end Execute

namespace World

/-! ## What every program keeps -/

variable {R : Routines α E} {w : World α} {lists : ℕ → List E} {i j : ℕ} {d : LinkedCollection α}

/-- The nodes `mine` are those of the list, which is `xs`. -/
def Fits (K : NodeKind α E) (object : Option (LinkedCollection α)) (xs : List E) (heap : NodeHeap α)
    (_others mine : Set ℕ) (_free : List ℕ) : Prop :=
  match object with
  | none => mine = ∅
  | some d => ∃ l, Linked K { d with heap } l xs ∧ mine = {a | a ∈ l}

/-- The lists of the program are the sequences. -/
def Sound (K : NodeKind α E) (w : World α) (lists : ℕ → List E) : Prop :=
  ∃ own free, Sharing K.next w.heap (fun i => Fits K (w.list i) (lists i)) own free

theorem fits_transports (K : NodeKind α E) (object : Option (LinkedCollection α)) (xs : List E) :
    Transports K.next (Fits K object xs) (Fits K object xs) := by
  intro h h' others others' mine free free' fits same pool apart
  cases object with
  | none => exact fits
  | some d =>
    obtain ⟨l, linked, rfl⟩ := fits
    refine ⟨l, ⟨linked.carries.congr (fun a member => ?_) (fun a member => ?_), fun p is_previous => ?_,
      linked.upper_eq, linked.cursor⟩, rfl⟩
    · exact congrArg (fun o : Option α => o.bind K.next.get) (same a member)
    · exact congrArg (Option.map K.item) (same a member)
    · exact (linked.back p is_previous).congr fun a member =>
        congrArg (fun o : Option α => o.bind p.get) (same a (List.mem_reverse.mp member))

/-- One list changed, and the others as they were. -/
theorem sharing_leave {K : NodeKind α E} {own : ℕ → Set ℕ} {free : List ℕ}
    (s : Sharing K.next w.heap (fun i => Fits K (w.list i) (lists i)) own free)
    {xs : List E} (held : Represents K (othersOf own i) d xs)
    (same : ∀ a ∈ othersOf own i, d.heap.node a = w.heap.node a) :
    Sound K (w.leave i d) (Function.update lists i xs) := by
  obtain ⟨l, free', linked, pool, apart⟩ := held
  refine ⟨_, free', s.change {a | a ∈ l} pool apart ?_ same fun j other => ?_⟩
  · change Fits K (Function.update w.list i (some d) i) (Function.update lists i xs i) _ _ _ _
    rw [Function.update_self, Function.update_self]
    exact ⟨l, linked, rfl⟩
  · change Transports K.next _ (Fits K (Function.update w.list i (some d) j)
      (Function.update lists i xs j))
    rw [Function.update_of_ne other, Function.update_of_ne other]
    exact fits_transports K _ _

theorem represents_of_sharing {K : NodeKind α E} {own : ℕ → Set ℕ} {free : List ℕ}
    (s : Sharing K.next w.heap (fun i => Fits K (w.list i) (lists i)) own free)
    (object : w.list i = some d) : Represents K (othersOf own i) (w.enter d) (lists i) := by
  have fits := s.fits i
  have apart := s.apart i
  have pool := s.pool
  rw [object] at fits
  obtain ⟨l, linked, mine⟩ := fits
  rw [exists_own_iff own i, mine] at pool
  rw [mine] at apart
  exact ⟨l, free, linked, pool, apart⟩

theorem Sound.start (K : NodeKind α E) : Sound K World.start fun _ => [] :=
  ⟨_, _, sharing_empty K.next fun _ => rfl⟩

theorem Sound.make {K : NodeKind α E} (h : Sound K w lists) (new : w.list i = none) :
    Sound K (w.leave i (.make w.heap)) (Function.update lists i []) := by
  obtain ⟨own, free, s⟩ := h
  have pool := s.pool
  have unused : own i = ∅ := by
    have fits := s.fits i
    rw [new] at fits
    exact fits
  have all : {a | ∃ j, a ∈ own j} = othersOf own i := by
    rw [exists_own_iff own i, unused]
    ext a
    exact or_iff_right (Set.notMem_empty a)
  rw [all] at pool
  exact sharing_leave s (represents_make pool) fun _ _ => rfl

theorem Sound.collect {K : NodeKind α E} (h : Sound K w lists) :
    Sound K { w with heap := w.heap.collect } lists := by
  obtain ⟨own, free, s⟩ := h
  exact ⟨own, [], Sharing.collect s fun j => fits_transports K _ _⟩

theorem Sound.returns_run (refines : R.Refine) (h : Sound R.kind w lists)
    (object : w.list i = some d) (command : Command E) (allowed : command.Allowed (w.enter d)) :
    Returns (w.run R i command) fun w' =>
      Sound R.kind w' (Function.update lists i (command.update (lists i))) ∧
        ∃ d', w'.list = Function.update w.list i (some d') := by
  obtain ⟨own, free, s⟩ := h
  unfold run
  rw [object, Option.bind_eq_bind, Option.bind_some]
  refine ((represents_of_sharing s object).returns_execute refines allowed).bind ?_
  rintro d' ⟨held, keeps⟩
  exact Returns.pure_iff.mpr ⟨sharing_leave s held keeps, d', rfl⟩

theorem Sound.returns_item (refines : R.Refine) (h : Sound R.kind w lists)
    (object : w.list j = some d) {k : ℕ} (less : k < (lists j).length) :
    Returns (w.item R j ((k : Int) + 1)) fun s =>
      (lists j)[k]? = some s.2 ∧ Sound R.kind s.1 lists ∧
        ∃ d', s.1.list = Function.update w.list j (some d') := by
  obtain ⟨own, free, s⟩ := h
  unfold item
  rw [object, Option.bind_eq_bind, Option.bind_some]
  refine ((represents_of_sharing s object).returns_item refines.goes less).bind ?_
  rintro ⟨d', x⟩ ⟨at_k, held, keeps⟩
  have sound := sharing_leave s held keeps
  rw [Function.update_eq_self] at sound
  exact Returns.pure_iff.mpr ⟨at_k, sound, d', rfl⟩

theorem Sound.upper_eq {K : NodeKind α E} (h : Sound K w lists) (object : w.list i = some d) :
    d.upper = (lists i).length := by
  obtain ⟨own, free, s⟩ := h
  exact (represents_of_sharing s object).length_eq

/-- The list `i` gets the items of another list. -/
theorem Sound.returns_copy (refines : R.Refine) (h : Sound R.kind w lists) {d' : LinkedCollection α}
    (object : w.list i = some d) (other : w.list j = some d') (apart : j ≠ i) :
    Returns (w.copy R i j) fun w' => Sound R.kind w' (Function.update lists i (lists j)) := by
  refine (h.returns_run refines object .clearCount trivial).bind ?_
  rintro w₁ ⟨sound, e, list⟩
  have object₁ : w₁.list i = some e := by rw [list, Function.update_self]
  have other₁ : w₁.list j = some d' := by rw [list, Function.update_of_ne apart, other]
  have upper := h.upper_eq other
  rw [other₁, Option.bind_eq_bind, Option.bind_some, Returns.bind_iff]
  refine returns_untilLoop
    (fun s : World α × Int => ∃ k : ℕ, k ≤ (lists j).length ∧ s.2 = (k : Int) + 1 ∧
      Sound R.kind s.1 (Function.update lists i ((lists j).take k)) ∧
      (∃ e, s.1.list i = some e) ∧ ∃ e, s.1.list j = some e)
    (fun s => (d'.upper - s.2 + 1).toNat) ⟨0, by omega, rfl, sound, ⟨e, object₁⟩, d', other₁⟩
    (by dsimp only; omega) ?_
  rintro ⟨w₂, index⟩ ⟨k, le, at_k, sound₂, ⟨e₂, object₂⟩, e₃, other₂⟩
  subst at_k
  rw [Returns.some_iff]
  by_cases done : (k : Int) + 1 > d'.upper
  · rw [if_pos (decide_eq_true done), Returns.pure_iff]
    rw [show k = (lists j).length by omega, List.take_length] at sound₂
    exact sound₂
  · rw [if_neg (by rw [decide_eq_false done]; exact Bool.false_ne_true)]
    have there : Function.update lists i ((lists j).take k) j = lists j :=
      Function.update_of_ne apart _ _
    have less : k < (Function.update lists i ((lists j).take k) j).length := by
      rw [there]
      omega
    refine (sound₂.returns_item refines other₂ less).bind ?_
    rintro ⟨w₃, x⟩ ⟨at_x, sound₃, e₄, list₃⟩
    have object₃ : w₃.list i = some e₂ := by
      rw [list₃, Function.update_of_ne apart.symm, object₂]
    have other₃ : w₃.list j = some e₄ := by rw [list₃, Function.update_self]
    refine (sound₃.returns_run refines object₃ (.addLast x) trivial).bind ?_
    rintro w₄ ⟨sound₄, e₅, list₄⟩
    rw [Function.update_self, Function.update_idem] at sound₄
    rw [there] at at_x
    have grown : Command.update ((lists j).take k) (.addLast x) = (lists j).take (k + 1) := by
      rw [List.take_add_one, at_x]
      rfl
    rw [grown] at sound₄
    refine Returns.pure_iff.mpr ⟨⟨k + 1, by omega, rfl, sound₄, ⟨e₅, ?_⟩, e₄, ?_⟩, ?_⟩
    · rw [list₄, Function.update_self]
    · rw [list₄, Function.update_of_ne apart, other₃]
    · dsimp only
      omega

/-- A list that is copied onto itself is cleared. -/
theorem Sound.returns_copySelf (refines : R.Refine) (h : Sound R.kind w lists)
    (object : w.list i = some d) :
    Returns (w.copy R i i) fun w' => Sound R.kind w' (Function.update lists i []) := by
  refine (h.returns_run refines object .clearCount trivial).bind ?_
  rintro w₁ ⟨sound, e, list⟩
  have object₁ : w₁.list i = some e := by rw [list, Function.update_self]
  have upper := sound.upper_eq object₁
  rw [Function.update_self] at upper
  have zero : e.upper = 0 := upper
  rw [object₁, Option.bind_eq_bind, Option.bind_some, Returns.bind_iff, zero]
  exact ⟨_, untilLoop_stopped rfl, Returns.pure_iff.mpr sound⟩

/-- **Every program keeps the sequences**, as long as it copies no list onto itself. -/
theorem Reaches.sound (refines : R.Refine) (reached : Reaches R CopiesOthers w lists) :
    Sound R.kind w lists := by
  induction reached with
  | start => exact .start R.kind
  | make i _ new ih => exact ih.make new
  | step i command _ object allowed run ih =>
    exact ((ih.returns_run refines object command allowed).unique run).1
  | @copy w w' lists d d' i j _ object other meets run ih =>
    by_cases same : i = j
    · subst same
      have empty : lists i = [] := by
        obtain ⟨own, free, s⟩ := ih
        exact (represents_of_sharing s object).eq_nil_of_empty (meets rfl d object)
      rw [empty]
      exact (ih.returns_copySelf refines object).unique run
    · exact (ih.returns_copy refines object other (Ne.symm same)).unique run
  | collect _ ih => exact ih.collect

/-- Where the class has previous links, they are inverse of the next links, from the first link
to the last one. -/
theorem Reaches.mirrored (refines : R.Refine) (reached : Reaches R CopiesOthers w lists)
    (object : w.list i = some d) {p : Link α} (is_previous : p ∈ R.kind.previous) :
    ∃ nodes : List ℕ, nodes.length = (lists i).length ∧ nodes.Nodup ∧
      Chain (nextOf R.kind.next w.heap.node) d.firstLink nodes ∧
      Chain (nextOf p w.heap.node) d.lastLink nodes.reverse ∧
      ∀ a ∈ nodes, ∀ b ∈ nodes,
        nextOf R.kind.next w.heap.node a = some b ↔ nextOf p w.heap.node b = some a := by
  obtain ⟨own, free, s⟩ := reached.sound refines
  obtain ⟨l, -, linked, -⟩ := represents_of_sharing s object
  have chain := linked.carries.chain
  have back := linked.back p is_previous
  exact ⟨l, linked.length_eq, chain.nodup, chain, back, fun a member b member' =>
    chain.next_iff_previous back member member'⟩

theorem Reaches.returns_copy (refines : R.Refine) (reached : Reaches R CopiesOthers w lists)
    {d' : LinkedCollection α} (object : w.list i = some d) (other : w.list j = some d') :
    ∃ w', w.copy R i j = some w' := by
  have sound := reached.sound refines
  by_cases same : i = j
  · subst same
    exact (sound.returns_copySelf refines object).isSome
  · exact (sound.returns_copy refines object other (Ne.symm same)).isSome

/-- **A linked list is a sequence**: what holds of every list of a program. -/
theorem Reaches.refined (refines : R.Refine) (reached : Reaches R CopiesOthers w lists)
    (object : w.list i = some d) :
    (w.enter d).upper = (lists i).length ∧
    (∀ (k : ℕ) (x : E), (lists i)[k]? = some x →
      ∃ d', R.item (w.enter d) ((k : Int) + 1) = some (d', x)) ∧
    d.lastLink = walk (nextOf R.kind.next w.heap.node) d.firstLink ((lists i).length - 1) ∧
    walk (nextOf R.kind.next w.heap.node) d.firstLink (lists i).length = none ∧
    (lists i = [] → d.memIdx = 0 ∧ d.memLnk = none) ∧
    (lists i ≠ [] → 1 ≤ d.memIdx ∧ d.memIdx ≤ (lists i).length ∧ d.memLnk ≠ none ∧
      d.memLnk = walk (nextOf R.kind.next w.heap.node) d.firstLink (d.memIdx - 1).toNat) ∧
    ∀ command : Command E, command.Allowed (w.enter d) →
      ∃ d', R.execute (w.enter d) command = some d' := by
  obtain ⟨own, free, s⟩ := reached.sound refines
  have h := represents_of_sharing s object
  obtain ⟨last, ends, empty, memory⟩ := h.positions
  refine ⟨h.length_eq, fun k x at_k => ?_, last, ends, empty, memory,
    fun command allowed => (h.returns_execute refines allowed).isSome⟩
  obtain ⟨⟨d', y⟩, run, at_y, -⟩ :=
    h.returns_item refines.goes (List.getElem?_eq_some_iff.mp at_k).1
  rw [at_k] at at_y
  cases at_y
  exact ⟨d', run⟩

end World

end LinkedCollection

end Liberty
