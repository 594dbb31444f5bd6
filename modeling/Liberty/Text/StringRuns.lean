import Liberty.Text.StringInsertions
import Mathlib.Logic.Function.Basic

/-!
# Programs with strings

Any number of strings, created in any way and changed in any order, where a string may be an
argument of its own commands.
-/

namespace Liberty

namespace NativelyStoredString

/-! ## Creations and commands -/

/-- The first `n` characters of a block. -/
def external (p : NativeArray Character) (n : Int) : List Character :=
  (List.range n.toNat).map fun k : ℕ => p.cell k

/-- A C string: the last character of the block is its only null one. -/
structure IsCString (p : NativeArray Character) : Prop where
  positive : 0 < p.size
  last : p.cell (p.size - 1) = 0
  others : ∀ i, 0 ≤ i → i < p.size - 1 → p.cell i ≠ 0

/-- The ways to create a string; a string that is an argument is told by its number. -/
inductive Creation
  | make (neededCapacity : Int)
  | makeFilled (c : Character) (n : Int)
  | makeFromString (model : ℕ)
  | copy (other : ℕ)
  | fromExternal (p : NativeArray Character)
  | fromExternalCopy (p : NativeArray Character)
  | fromExternalSized (p : NativeArray Character) (size : Int)
  | fromExternalSizedCopy (p : NativeArray Character) (size : Int)

namespace Creation

def Allowed : Creation → Prop
  | make n | makeFilled _ n => 0 ≤ n
  | makeFromString _ | copy _ => True
  | fromExternal p | fromExternalCopy p => IsCString p
  | fromExternalSized p size => 0 ≤ size ∧ p.size = size
  | fromExternalSizedCopy p size => 0 ≤ size ∧ size ≤ p.size

def execute (strings : ℕ → NativelyStoredString) : Creation → Option NativelyStoredString
  | make n => some (blank.make n)
  | makeFilled c n => blank.makeFilled c n
  | makeFromString model => blank.makeFromString (strings model)
  | copy other => blank.copy (some (strings other))
  | fromExternal p => blank.fromExternal p
  | fromExternalCopy p => blank.fromExternalCopy p
  | fromExternalSized p size => some (blank.fromExternalSized p size)
  | fromExternalSizedCopy p size => blank.fromExternalSizedCopy p size

/-- The characters of a new string. -/
def content (lists : ℕ → List Character) : Creation → List Character
  | make _ => []
  | makeFilled c n => List.replicate n.toNat c
  | makeFromString j | copy j => lists j
  | fromExternal p | fromExternalCopy p => external p (p.size - 1)
  | fromExternalSized p size | fromExternalSizedCopy p size => external p size

end Creation

inductive Command
  | append (s : ℕ)
  | appendSubstring (s : ℕ) (startIndex endIndex : Int)
  | prepend (other : ℕ)
  | insertString (s : ℕ) (i : Int)
  | replaceSubstring (s : ℕ) (startIndex endIndex : Int)
  | insertCharacter (c : Character) (i : Int)
  | addFirst (c : Character)
  | addLast (c : Character)
  | extendMultiple (c : Character) (n : Int)
  | precedeMultiple (c : Character) (n : Int)
  | put (c : Character) (i : Int)
  | removeFirst
  | removeLast
  | removeHead (n : Int)
  | removeTail (n : Int)
  | removeBetween (startIndex endIndex : Int)
  | shrink (minIndex maxIndex : Int)
  | resize (newCount : Int)
  | copy (other : ℕ)
  | clearCount

namespace Command

/-- The precondition of a command on the string number `n`. -/
def Allowed (strings : ℕ → NativelyStoredString) (n : ℕ) : Command → Prop
  | appendSubstring s startIndex endIndex =>
    1 ≤ startIndex ∧ endIndex ≤ (strings s).count ∧ startIndex ≤ endIndex + 1
  | insertString _ i | insertCharacter _ i => 1 ≤ i ∧ i ≤ (strings n).count + 1
  | replaceSubstring _ startIndex endIndex | removeBetween startIndex endIndex
  | shrink startIndex endIndex =>
    1 ≤ startIndex ∧ endIndex ≤ (strings n).count ∧ startIndex ≤ endIndex + 1
  | extendMultiple _ m | removeHead m | removeTail m | resize m => 0 ≤ m
  | put _ i => 1 ≤ i ∧ i ≤ (strings n).count
  | removeFirst | removeLast => (strings n).count ≠ 0
  | _ => True

/-- The string number `s` as an argument of a command on the string number `n`. -/
def argument (strings : ℕ → NativelyStoredString) (n s : ℕ) : Option NativelyStoredString :=
  if s = n then none else some (strings s)

def execute (strings : ℕ → NativelyStoredString) (n : ℕ) : Command → Option NativelyStoredString
  | append s => (strings n).append (argument strings n s)
  | appendSubstring s startIndex endIndex =>
    (strings n).appendSubstring (argument strings n s) startIndex endIndex
  | prepend other => (strings n).prepend (argument strings n other)
  | insertString s i => (strings n).insertString (argument strings n s) i
  | replaceSubstring s startIndex endIndex =>
    (strings n).replaceSubstring (argument strings n s) startIndex endIndex
  | insertCharacter c i => (strings n).insertCharacter c i
  | addFirst c => (strings n).addFirst c
  | addLast c => (strings n).addLast c
  | extendMultiple c m => (strings n).extendMultiple c m
  | precedeMultiple c m => (strings n).precedeMultiple c m
  | put c i => (strings n).put c i
  | removeFirst => some (strings n).removeFirst
  | removeLast => some (strings n).removeLast
  | removeHead m => some ((strings n).removeHead m)
  | removeTail m => some ((strings n).removeTail m)
  | removeBetween startIndex endIndex => (strings n).removeBetween startIndex endIndex
  | shrink minIndex maxIndex => some ((strings n).shrink minIndex maxIndex)
  | resize newCount => (strings n).resize newCount
  | copy other => (strings n).copy (argument strings n other)
  | clearCount => some (strings n).clearCount

/-- What a command does to the list of the characters. -/
def update (lists : ℕ → List Character) (n : ℕ) : Command → List Character
  | append s => lists n ++ lists s
  | appendSubstring s startIndex endIndex =>
    lists n ++ ((lists s).drop (startIndex - 1).toNat).take (endIndex - startIndex + 1).toNat
  | prepend other => lists other ++ lists n
  | insertString s i =>
    (lists n).take (i - 1).toNat ++ (lists s ++ (lists n).drop (i - 1).toNat)
  | replaceSubstring s startIndex endIndex =>
    (lists n).take (startIndex - 1).toNat ++ (lists s ++ (lists n).drop endIndex.toNat)
  | insertCharacter c i => (lists n).take (i - 1).toNat ++ c :: (lists n).drop (i - 1).toNat
  | addFirst c => c :: lists n
  | addLast c => lists n ++ [c]
  | extendMultiple c m => lists n ++ List.replicate m.toNat c
  | precedeMultiple c m => List.replicate m.toNat c ++ lists n
  | put c i => (lists n).set (i - 1).toNat c
  | removeFirst => (lists n).tail
  | removeLast => (lists n).dropLast
  | removeHead m => (lists n).drop m.toNat
  | removeTail m => (lists n).take ((lists n).length - m.toNat)
  | removeBetween startIndex endIndex =>
    (lists n).take (startIndex - 1).toNat ++ (lists n).drop endIndex.toNat
  | shrink minIndex maxIndex =>
    ((lists n).drop (minIndex - 1).toNat).take (maxIndex - minIndex + 1).toNat
  | resize newCount => (lists n).take newCount.toNat ++
      List.replicate (newCount.toNat - (lists n).length) default
  | copy other => lists other
  | clearCount => []

/-- The commands that do what they say; all others always do. -/
def Meets (strings : ℕ → NativelyStoredString) (n : ℕ) : Command → Prop
  | appendSubstring _ _ _ => (strings n).storageLower = 0
  | insertString s i =>
    (s = n → (strings n).count = 0) ∧
      ((strings s).count ≤ (strings n).storageLower → i = (strings n).count + 1 →
        (strings s).count = 0 ∨
          (strings n).storageLower + (strings n).count < (strings n).capacity)
  | replaceSubstring s startIndex endIndex =>
    (s = n → startIndex = 1 ∧ endIndex = (strings n).count) ∧
      (endIndex - startIndex + 1 < (strings s).count →
        ReplacesWell (strings n) startIndex ((strings s).count - (endIndex - startIndex + 1)))
  | precedeMultiple _ m => PrecedesWell (strings n) m
  | resize newCount =>
    (strings n).count < newCount →
      (strings n).capacity < newCount + (strings n).storageLower →
        ∀ i, (strings n).storageLower + (strings n).count ≤ i → i < (strings n).capacity →
          (strings n).storage.cell i = default
  | _ => True

end Command

/-- The strings of a program, and the lists of characters after the same operations; `P` tells
which commands it executes. -/
inductive Reaches (P : (ℕ → NativelyStoredString) → ℕ → Command → Prop) :
    (ℕ → NativelyStoredString) → (ℕ → List Character) → Prop
  | start : Reaches P (fun _ => blank) fun _ => []
  | create {strings : ℕ → NativelyStoredString} {lists : ℕ → List Character}
      {d : NativelyStoredString} (n : ℕ) (creation : Creation) (before : Reaches P strings lists)
      (allowed : creation.Allowed) (run : creation.execute strings = some d) :
      Reaches P (Function.update strings n d) (Function.update lists n (creation.content lists))
  | step {strings : ℕ → NativelyStoredString} {lists : ℕ → List Character}
      {d : NativelyStoredString} (n : ℕ) (command : Command) (before : Reaches P strings lists)
      (allowed : command.Allowed strings n) (meets : P strings n command)
      (run : command.execute strings n = some d) :
      Reaches P (Function.update strings n d) (Function.update lists n (command.update lists n))

/-! ## New strings -/

section Creations

variable {d other : NativelyStoredString} {p : NativeArray Character} {xs ys : List Character} {n : Int}

theorem length_external (p : NativeArray Character) (n : Int) : (external p n).length = n.toNat := by
  unfold external
  rw [List.length_map, List.length_range]

theorem segment_external (p : NativeArray Character) (n : Int) : Segment p.cell 0 (external p n) := by
  intro k x found
  have bound := (List.getElem?_eq_some_iff.mp found).1
  rw [length_external] at bound
  unfold external at found
  rw [List.getElem?_map, List.getElem?_range bound] at found
  rw [Int.zero_add]
  exact Option.some.inj found

/-- The first characters of a block, and the next one. -/
theorem external_succ (p : NativeArray Character) (nonneg : 0 ≤ n) :
    external p (n + 1) = external p n ++ [p.cell n] := by
  unfold external
  rw [show (n + 1).toNat = n.toNat + 1 by omega, List.range_succ, List.map_append, List.map_singleton,
    show ((n.toNat : ℕ) : Int) = n by omega]

theorem represents_make (nonneg : 0 ≤ n) : Represents (blank.make n) [] ∧ n ≤ (blank.make n).capacity ∧
    (blank.make n).storageLower = 0 := by
  unfold make
  split
  · have grown := represents_blank.grown n nonneg
    have h := represents_blank.of_grown grown
    have needed := grown.needed_le
    refine ⟨⟨⟨h.valid.size_eq, h.valid.null, h.valid.lower_nonneg, Int.le_refl _, ?_⟩, rfl,
      segment_nil⟩, needed, grown.lower_eq⟩
    have low := h.valid.fits
    have count := h.count_eq
    exact count ▸ low
  · exact ⟨represents_blank, by change n ≤ 0; omega, rfl⟩

theorem returns_makeFilled (c : Character) (nonneg : 0 ≤ n) :
    Returns (blank.makeFilled c n) fun d => Represents d (List.replicate n.toNat c) := by
  obtain ⟨h, needed, lower⟩ := represents_make nonneg
  have size := h.valid.size_eq
  unfold makeFilled fillWith NativeArray.setAllWith
  rw [Returns.bind_iff]
  refine NativeArray.returns_setSliceWith (fun _ => by dsimp only; omega) ?_
  rw [Returns.pure_iff]
  refine ⟨⟨size, h.valid.null, Int.le_refl _, nonneg, ?_⟩, ?_, segment_replicate fun i low high => if_pos ?_⟩
  · dsimp only
    omega
  · rw [List.length_replicate]
    dsimp only
    omega
  · dsimp only at low high ⊢
    omega

theorem returns_makeFromString (source : Represents other ys) :
    Returns (blank.makeFromString other) fun d => Represents d ys := by
  have count := source.count_eq
  unfold makeFromString
  dsimp only
  split
  · have grown := grown_ensureCapacity (d := { blank with storageLower := 0, count := other.count })
      rfl (Int.le_refl _) (fun _ => rfl) other.count (by omega)
    revert grown
    generalize ensureCapacity _ _ = e
    intro grown
    have size := grown.size_eq
    have lower : e.storageLower = 0 := grown.lower_eq
    have needed := grown.needed_le
    have countE : e.count = other.count := grown.count_eq
    refine returns_sliceCopy_all source (by omega) (by omega) fun storage size' copied kept => ?_
    refine ⟨⟨size'.trans size, grown.null, ?_, ?_, ?_⟩, countE.trans count, ?_⟩
    · dsimp only
      omega
    · dsimp only
      omega
    · dsimp only
      omega
    · rwa [Int.zero_add] at copied
  · have none : ys = [] := List.length_eq_zero_iff.mp (by omega)
    have zero : other.count = 0 := by
      rw [count, none]
      rfl
    rw [Returns.some_iff, zero, none]
    exact represents_blank

theorem returns_fromExternal (cString : IsCString p) :
    Returns (blank.fromExternal p) fun d => Represents d (external p (p.size - 1)) := by
  have positive := cString.positive
  unfold fromExternal
  rw [Returns.bind_iff]
  refine returns_untilLoop (fun count => 0 ≤ count ∧ count ≤ p.size - 1)
    (fun count => (p.size - count).toNat) ⟨Int.le_refl _, by omega⟩ (by omega) ?_
  intro count ⟨low, high⟩
  rw [NativeArray.item_of_inBounds (by omega), Returns.bind_iff, Returns.some_iff, Returns.pure_iff]
  by_cases zero : p.cell count = 0
  · have last : count = p.size - 1 := by
      by_contra before
      exact cString.others count low (by omega) zero
    rw [if_pos (decide_eq_true zero), Returns.pure_iff, last]
    have length := length_external p (p.size - 1)
    exact ⟨⟨by dsimp only; omega, nofun, Int.le_refl _, by dsimp only; omega, by dsimp only; omega⟩,
      by dsimp only; omega, segment_external p _⟩
  · rw [if_neg (by rw [decide_eq_false zero]; exact Bool.false_ne_true), Returns.some_iff]
    have before : count ≠ p.size - 1 := fun same => zero (same ▸ cString.last)
    exact ⟨⟨by omega, by omega⟩, by omega⟩

theorem returns_fromExternalCopy (cString : IsCString p) :
    Returns (blank.fromExternalCopy p) fun d => Represents d (external p (p.size - 1)) := by
  have positive := cString.positive
  unfold fromExternalCopy
  rw [Returns.bind_iff]
  refine returns_untilLoop
    (fun t : NativelyStoredString × Int => 0 ≤ t.2 ∧ t.2 ≤ p.size - 1 ∧ Represents t.1 (external p t.2))
    (fun t => (p.size - t.2).toNat) ⟨Int.le_refl _, by dsimp only; omega, represents_blank⟩
    (by dsimp only; omega) ?_
  rintro ⟨e, i⟩ ⟨low, high, h⟩
  dsimp only at low high h ⊢
  rw [NativeArray.item_of_inBounds (by omega), Returns.bind_iff, Returns.some_iff, Returns.pure_iff]
  by_cases zero : p.cell i = 0
  · have last : i = p.size - 1 := by
      by_contra before
      exact cString.others i low (by omega) zero
    rw [if_pos (decide_eq_true zero), Returns.pure_iff, ← last]
    exact h
  · have before : i ≠ p.size - 1 := fun same => zero (same ▸ cString.last)
    rw [if_neg (by rw [decide_eq_false zero]; exact Bool.false_ne_true), Returns.bind_iff,
      Returns.some_iff, Returns.bind_iff]
    refine h.returns_addLast.mono fun e' ⟨h', _⟩ => ?_
    rw [Returns.pure_iff]
    refine ⟨⟨by omega, by omega, ?_⟩, by omega⟩
    rw [external_succ p low]
    exact h'

theorem represents_fromExternalSized (nonneg : 0 ≤ n) (size : p.size = n) :
    Represents (blank.fromExternalSized p n) (external p n) := by
  have length := length_external p n
  refine ⟨⟨size, nofun, Int.le_refl _, nonneg, ?_⟩, ?_, segment_external p n⟩
  · unfold fromExternalSized
    dsimp only
    omega
  · unfold fromExternalSized
    dsimp only
    omega

theorem returns_fromExternalSizedCopy (nonneg : 0 ≤ n) (size : n ≤ p.size) :
    Returns (blank.fromExternalSizedCopy p n) fun d => Represents d (external p n) := by
  unfold fromExternalSizedCopy
  dsimp only
  have grown := grown_ensureCapacity (d := { blank with storageLower := 0 }) rfl (Int.le_refl _)
    (fun _ => rfl) n nonneg
  revert grown
  generalize ensureCapacity _ _ = e
  intro grown
  have sizeE := grown.size_eq
  have lower : e.storageLower = 0 := grown.lower_eq
  have needed := grown.needed_le
  refine returns_untilLoop
    (fun d : NativelyStoredString => d.capacity = e.capacity ∧ d.count ≤ n ∧ d.storageLower = 0 ∧
      Represents d (external p d.count))
    (fun d => (n - d.count).toNat) ⟨rfl, nonneg, lower, ?_⟩ (by dsimp only; omega) ?_
  · exact ⟨⟨sizeE, grown.null, Int.le_of_eq lower.symm, Int.le_refl _, by dsimp only; omega⟩, rfl,
      segment_nil⟩
  intro d ⟨capacity, high, start, h⟩
  have low := h.valid.count_nonneg
  have sizeD := h.valid.size_eq
  rw [Returns.some_iff]
  by_cases all : d.count = n
  · rw [if_pos (decide_eq_true all)]
    rwa [all] at h
  · rw [if_neg (by rw [decide_eq_false all]; exact Bool.false_ne_true),
      NativeArray.item_of_inBounds (by omega), Returns.bind_iff, Returns.some_iff, Returns.bind_iff,
      NativeArray.returns_put]
    refine ⟨by omega, ?_⟩
    rw [Returns.pure_iff]
    have length := length_external p d.count
    refine ⟨⟨capacity, by dsimp only; omega, start, ⟨⟨sizeD, h.valid.null, h.valid.lower_nonneg, ?_, ?_⟩,
      ?_, ?_⟩⟩, by dsimp only; omega⟩
    · dsimp only
      omega
    · dsimp only
      omega
    · rw [length_external]
      dsimp only
      omega
    · dsimp only
      rw [external_succ p low, segment_append, segment_singleton]
      refine ⟨h.segment.congr fun i _ _ => NativeArray.cell_set_of_ne _ _ (by omega), ?_⟩
      rw [show d.storageLower + ((external p d.count).length : Int) = d.count by omega]
      exact NativeArray.cell_set_self _ _ _

theorem Creation.returns_execute {strings : ℕ → NativelyStoredString} {lists : ℕ → List Character}
    (h : ∀ n, Represents (strings n) (lists n)) (creation : Creation) (allowed : creation.Allowed) :
    Returns (creation.execute strings) fun d => Represents d (creation.content lists) := by
  cases creation with
  | make n => exact Returns.some_iff.mpr (represents_make allowed).1
  | makeFilled c n => exact returns_makeFilled c allowed
  | makeFromString j => exact returns_makeFromString (h j)
  | copy j => exact represents_blank.returns_copy (s := some (strings j)) (h j)
  | fromExternal p => exact returns_fromExternal allowed
  | fromExternalCopy p => exact returns_fromExternalCopy allowed
  | fromExternalSized p size => exact Returns.some_iff.mpr (represents_fromExternalSized allowed.1 allowed.2)
  | fromExternalSizedCopy p size => exact returns_fromExternalSizedCopy allowed.1 allowed.2

end Creations

/-! ## Steps -/

section Steps

variable {strings : ℕ → NativelyStoredString} {lists : ℕ → List Character}

theorem Command.argument_argument (h : ∀ n, Represents (strings n) (lists n)) (n s : ℕ) :
    Argument (argument strings n s) (lists n) (lists s) := by
  unfold argument
  split
  · rename_i same
    rw [same]
    rfl
  · exact h s

theorem Command.returns_execute (h : ∀ n, Represents (strings n) (lists n)) {n : ℕ} {command : Command}
    (allowed : command.Allowed strings n) (meets : command.Meets strings n) :
    Returns (command.execute strings n) fun d => Represents d (command.update lists n) := by
  have count := (h n).count_eq
  have counts := fun s => (h s).count_eq
  have argument := Command.argument_argument h n
  -- the characters before the position `i` and those from it on
  have split : ∀ k : ℕ, Represents (strings n) ((lists n).take k ++ (lists n).drop k) := fun k => by
    rw [List.take_append_drop]
    exact h n
  have taken : ∀ i : Int, 1 ≤ i → i ≤ (strings n).count + 1 →
      i = ((lists n).take (i - 1).toNat).length + 1 := fun i low high => by
    rw [List.length_take]
    omega
  have split3 : ∀ a b : Int, 1 ≤ a → a ≤ b + 1 → Represents (strings n)
      ((lists n).take (a - 1).toNat ++ (((lists n).drop (a - 1).toNat).take (b - a + 1).toNat ++
        (lists n).drop b.toNat)) := fun a b low interval => by
    have rest : (lists n).drop b.toNat = ((lists n).drop (a - 1).toNat).drop (b - a + 1).toNat := by
      rw [List.drop_drop]
      congr 1
      omega
    rw [rest, List.take_append_drop, List.take_append_drop]
    exact h n
  have mid : ∀ a b : Int, 1 ≤ a → b ≤ (strings n).count → a ≤ b + 1 →
      ((((lists n).drop (a - 1).toNat).take (b - a + 1).toNat).length : Int) = b - a + 1 :=
    fun a b low high interval => by
      rw [List.length_take, List.length_drop]
      omega
  cases command with
  | append s => exact (h n).returns_append (argument s)
  | appendSubstring s a b =>
    obtain ⟨low, high, interval⟩ := allowed
    have := counts s
    exact (h n).returns_appendSubstring (argument s) low (by omega) interval meets
  | prepend s => exact (h n).returns_prepend (argument s)
  | insertString s i =>
    obtain ⟨low, high⟩ := allowed
    obtain ⟨others, readable⟩ := meets
    have countS := counts s
    change Returns ((strings n).insertString (Command.argument strings n s) i) _
    unfold Command.argument
    by_cases same : s = n
    · have zero := others same
      have none : lists n = [] := List.length_eq_zero_iff.mp (by omega)
      have first : i = 1 := by omega
      subst same first
      have start := h s
      rw [none] at start
      rw [if_pos rfl]
      change Returns _ fun d => Represents d ((lists s).take 0 ++ (lists s ++ (lists s).drop 0))
      rw [none]
      exact start.returns_insertString_self
    · rw [if_neg same]
      refine (split (i - 1).toNat).returns_insertString (h s) (taken i low high) ?_
      intro fits last
      have := List.drop_eq_nil_iff.mp last
      rcases readable (by omega) (by omega) with empty | room
      · exact .inl (List.length_eq_zero_iff.mp (by omega))
      · exact .inr room
  | replaceSubstring s a b =>
    obtain ⟨low, high, interval⟩ := allowed
    obtain ⟨others, well⟩ := meets
    have countS := counts s
    have length := mid a b low high interval
    change Returns ((strings n).replaceSubstring (Command.argument strings n s) a b) _
    unfold Command.argument
    by_cases same : s = n
    · obtain ⟨first, last⟩ := others same
      subst same first
      rw [if_pos rfl]
      change Returns _ fun d =>
        Represents d ((lists s).take 0 ++ (lists s ++ (lists s).drop b.toNat))
      rw [List.drop_eq_nil_of_le (by omega), List.append_nil, List.take_zero, List.nil_append,
        show b = (lists s).length by omega]
      exact (h s).returns_replaceSubstring_self
    · rw [if_neg same]
      refine (split3 a b low interval).returns_replaceSubstring (h s) (taken a low (by omega)) ?_ ?_
      · have := taken a low (by omega)
        omega
      · intro longer
        rw [length, ← countS]
        exact well (by omega)
  | insertCharacter c i =>
    exact ((split (i - 1).toNat).returns_insertCharacter (taken i allowed.1 allowed.2)).mono
      fun d inserted => inserted.1
  | addFirst c => exact (h n).returns_addFirst
  | addLast c => exact (h n).returns_addLast.mono fun d added => added.1
  | extendMultiple c m => exact ((h n).returns_extendMultiple allowed).mono fun d extended => extended.1
  | precedeMultiple c m => exact (h n).returns_precedeMultiple meets
  | put c i => exact (h n).returns_put allowed.1 (by have := allowed.2; omega)
  | removeFirst =>
    have nonempty : (strings n).count ≠ 0 := allowed
    exact Returns.some_iff.mpr ((h n).removeFirst fun none => nonempty (by rw [count, none]; rfl))
  | removeLast =>
    have nonempty : (strings n).count ≠ 0 := allowed
    exact Returns.some_iff.mpr ((h n).removeLast fun none => nonempty (by rw [count, none]; rfl))
  | removeHead m => exact Returns.some_iff.mpr ((h n).removeHead allowed)
  | removeTail m => exact Returns.some_iff.mpr ((h n).removeTail allowed)
  | removeBetween a b =>
    obtain ⟨low, high, interval⟩ := allowed
    have length := mid a b low high interval
    have start := taken a low (by omega)
    exact (split3 a b low interval).returns_removeBetween start (by omega)
  | shrink a b =>
    obtain ⟨low, high, interval⟩ := allowed
    exact Returns.some_iff.mpr ((h n).shrink low (by omega) interval)
  | resize m => exact (h n).returns_resize allowed meets
  | copy s => exact (h n).returns_copy (argument s)
  | clearCount => exact Returns.some_iff.mpr (h n).clearCount

theorem represents_update (h : ∀ n, Represents (strings n) (lists n)) {n : ℕ} {d : NativelyStoredString}
    {xs : List Character} (new : Represents d xs) (m : ℕ) :
    Represents (Function.update strings n d m) (Function.update lists n xs m) := by
  by_cases same : m = n
  · subst same
    rw [Function.update_self, Function.update_self]
    exact new
  · rw [Function.update_of_ne same, Function.update_of_ne same]
    exact h m

/-- Every string of the program stands for its list. -/
theorem Reaches.represents (reached : Reaches (fun strings n command => command.Meets strings n)
    strings lists) (n : ℕ) : Represents (strings n) (lists n) := by
  induction reached generalizing n with
  | start => exact represents_blank
  | create m creation before allowed run ih =>
    exact represents_update ih ((Creation.returns_execute ih creation allowed).unique run) n
  | step m command before allowed meets run ih =>
    exact represents_update ih ((Command.returns_execute ih allowed meets).unique run) n

end Steps

/-- **STRING is a list of characters** in the programs whose commands are all of the kinds that
do what they say.  The next creation returns, and so does the next such command: no write is
outside the storage, which has `capacity` cells. -/
theorem reaches_characters {strings : ℕ → NativelyStoredString} {lists : ℕ → List Character}
    (reached : Reaches (fun strings n command => command.Meets strings n) strings lists) (n : ℕ) :
    (strings n).count = (lists n).length ∧
    (∀ (k : ℕ) (c : Character), (lists n)[k]? = some c → (strings n).item (k + 1) = some c) ∧
    (strings n).storage.size = (strings n).capacity ∧
    (strings n).storageLower + (strings n).count ≤ (strings n).capacity ∧
    (∀ creation : Creation, creation.Allowed → ∃ d, creation.execute strings = some d) ∧
    ∀ command : Command, command.Allowed strings n → command.Meets strings n →
      ∃ d, command.execute strings n = some d := by
  have h := reached.represents
  exact ⟨(h n).count_eq, fun k c found => (h n).item_eq found, (h n).valid.size_eq, (h n).valid.fits,
    fun creation allowed => (Creation.returns_execute h creation allowed).isSome,
    fun command allowed meets => (Command.returns_execute h allowed meets).isSome⟩

/-- A string prepended to itself after a removal at its beginning. -/
theorem reaches_characters_shifted :
    ∃ (strings : ℕ → NativelyStoredString) (lists : ℕ → List Character),
      Reaches (fun strings n command => command.Meets strings n) strings lists ∧
        (strings 0).storageLower = 1 ∧ (strings 0).count = 2 ∧ (strings 0).item 2 = some 98 := by
  have created := (Reaches.start (P := fun strings n command => command.Meets strings n)).create 0
    (.makeFilled 98 2) (show (0 : Int) ≤ 2 by decide) rfl
  have removed := created.step 0 .removeFirst (show (2 : Int) ≠ 0 by decide) trivial rfl
  have prepended := removed.step 0 (.prepend 0) trivial trivial rfl
  obtain ⟨count, items, -⟩ := reaches_characters prepended 0
  exact ⟨_, _, prepended, rfl, count, items 1 98 rfl⟩

/-- `append_substring` after a removal at the beginning of the string makes it too long. -/
theorem not_reaches_characters :
    ¬∀ (strings : ℕ → NativelyStoredString) (lists : ℕ → List Character),
      Reaches (fun _ _ _ => True) strings lists → ∀ n, (strings n).count = (lists n).length := by
  intro claim
  have created := (Reaches.start (P := fun _ _ _ => True)).create 0 (.makeFilled 97 2)
    (show (0 : Int) ≤ 2 by decide) rfl
  have other := created.create 1 (.makeFilled 98 1) (show (0 : Int) ≤ 1 by decide) rfl
  have removed := other.step 0 .removeFirst (show (2 : Int) ≠ 0 by decide) trivial rfl
  have appended := removed.step 0 (.appendSubstring 1 1 1)
    ⟨Int.le_refl _, Int.le_refl _, show (1 : Int) ≤ 1 + 1 by decide⟩ trivial rfl
  exact absurd (claim _ _ appended 0) (by decide)

end NativelyStoredString

end Liberty
