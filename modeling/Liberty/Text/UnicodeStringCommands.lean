import Liberty.Text.UnicodeStringEdits

/-!
# The code points of a UNICODE_STRING

A string and the list of its code points after the same commands.  They agree as long as no
supplementary code point is written: `extend`, `put` and `fill_with` store one without the
mark that `item` looks for.
-/

namespace Liberty

namespace UnicodeString

open Stored

inductive Command
  | extend (unicode : Int)
  | put (unicode i : Int)
  | fillWith (unicode : Int)
  | addFirst (unicode : Int)

def execute (u : UnicodeString) : Command → Option UnicodeString
  | .extend unicode => u.extend unicode
  | .put unicode i => u.put unicode i
  | .fillWith unicode => u.fillWith unicode
  | .addFirst unicode => u.addFirst unicode

namespace Command

def unicode : Command → Int
  | .extend unicode | .put unicode _ | .fillWith unicode | .addFirst unicode => unicode

/-- The precondition of a command on a string of `count` characters. -/
def Allowed (count : Int) (command : Command) : Prop :=
  ValidUnicode command.unicode ∧
    match command with
    | .put _ i => 1 ≤ i ∧ i ≤ count
    | _ => True

/-- The same command on a list of code points. -/
def edit (points : List Int) : Command → List Int
  | .extend unicode => points ++ [unicode]
  | .put unicode i => points.set (i - 1).toNat unicode
  | .fillWith unicode => .replicate points.length unicode
  | .addFirst unicode => unicode :: points

/-- No supplementary code point is stored. -/
def Short (count : Int) (command : Command) : Prop :=
  command.unicode < 65536 ∨ match command with
    | .fillWith _ => count = 0
    | _ => False

end Command

/-- The strings that the commands reach, each with its list of code points.  `P` is a
condition on the code points written: on those of a new string filled with `n` copies of
one, and on those of a command. -/
inductive Reaches (P : Int → Command → Prop) : UnicodeString → List Int → Prop
  | make (neededCapacity : Int) (allowed : 0 ≤ neededCapacity) :
      Reaches P (blank.make neededCapacity) []
  | makeFilled {u : UnicodeString} (unicode n : Int) (nonneg : 0 ≤ n)
      (valid : ValidUnicode unicode) (condition : P n (.fillWith unicode))
      (run : blank.makeFilled unicode n = some u) : Reaches P u (.replicate n.toNat unicode)
  | copy {s u : UnicodeString} {points : List Int} (other : Reaches P s points)
      (run : blank.copy s = some u) : Reaches P u points
  | append {s u u' : UnicodeString} {points points' : List Int} (before : Reaches P u points)
      (other : Reaches P s points') (run : u.append (some s) = some u') :
      Reaches P u' (points ++ points')
  | appendCurrent {u u' : UnicodeString} {points : List Int} (before : Reaches P u points)
      (run : u.append none = some u') : Reaches P u' (points ++ points)
  | step {u u' : UnicodeString} {points : List Int} (command : Command)
      (before : Reaches P u points) (allowed : command.Allowed u.count)
      (condition : P u.count command) (run : u.execute command = some u') :
      Reaches P u' (command.edit points)

/-- The string `u` stores the code points `points`, each of them in one cell. -/
def Holds (u : UnicodeString) (points : List Int) : Prop :=
  ∃ cs, Represents u cs ∧ cs.map Stored.unicode = points ∧ ∀ c ∈ cs, c.low = none

section Steps

variable {u s : UnicodeString} {points points' : List Int}

theorem Holds.count_eq (h : Holds u points) : u.count = points.length := by
  rcases h with ⟨cs, held, rfl, -⟩
  rw [List.length_map]
  exact held.count_eq

theorem Holds.item_eq (h : Holds u points) {i : Int} (low : 1 ≤ i) (high : i ≤ u.count) :
    u.item i = points[(i - 1).toNat]? ∧ ∃ x, u.item i = some x := by
  have count := h.count_eq
  rcases h with ⟨cs, held, rfl, -⟩
  rw [List.length_map] at count
  have inside : (i - 1).toNat < cs.length := by omega
  have split : cs = cs.take (i - 1).toNat ++ cs[(i - 1).toNat] :: cs.drop ((i - 1).toNat + 1) := by
    rw [List.getElem_cons_drop, List.take_append_drop]
  have position : i = (cs.take (i - 1).toNat).length + 1 := by
    rw [List.length_take]
    omega
  rw [split] at held
  have read := returns_item held position
  refine ⟨?_, _, read⟩
  rw [read, List.getElem?_map, List.getElem?_eq_getElem inside]
  rfl

theorem OneCell.map_replicate {n : Int} (short : OneCell n) (k : ℕ) :
    (List.replicate k short.stored).map Stored.unicode = .replicate k n := by
  rw [List.map_replicate, short.unicode_stored]

theorem returns_holds_replicate {x : Option UnicodeString} {n : Int} (short : OneCell n) {k : ℕ}
    (run : Returns x fun u' => Represents u' (.replicate k short.stored)) :
    Returns x fun u' => Holds u' (.replicate k n) := by
  refine run.mono fun u' held => ⟨_, held, short.map_replicate k, fun c mem => ?_⟩
  rw [(List.mem_replicate.mp mem).2]
  rfl

theorem returns_holds_fillWith {cs : List Stored} (held : Represents u cs) {unicode : Int}
    (valid : ValidUnicode unicode) (condition : Command.Short u.count (.fillWith unicode)) :
    Returns (u.fillWith unicode) fun u' => Holds u' (.replicate cs.length unicode) := by
  rcases condition with short | (empty : u.count = 0)
  · have oneCell := OneCell.of_valid valid short
    exact returns_holds_replicate oneCell (returns_fillWith held oneCell)
  · have count := held.count_eq
    have none : cs = [] := List.length_eq_zero_iff.mp (by omega)
    subst none
    exact (returns_fillWith_nil held unicode).mono fun u' held' => ⟨[], held', rfl, nofun⟩

/-- One command does the same to the string and to the list of code points. -/
theorem Holds.execute (h : Holds u points) {command : Command}
    (allowed : command.Allowed u.count) (condition : command.Short u.count) :
    Returns (u.execute command) fun u' => Holds u' (command.edit points) := by
  rcases h with ⟨cs, held, rfl, plain⟩
  have count := held.count_eq
  cases command with
  | extend unicode =>
    have short := OneCell.of_valid allowed.1 (condition.resolve_right id)
    refine (returns_extend held short).mono fun u' held' => ⟨_, held', ?_, fun c mem => ?_⟩
    · rw [List.map_append, List.map_singleton, short.unicode_stored]
      rfl
    · rcases List.mem_append.mp mem with old | new
      · exact plain c old
      · rw [List.mem_singleton.mp new]
        rfl
  | put unicode i =>
    have short := OneCell.of_valid allowed.1 (condition.resolve_right id)
    have range := allowed.2
    have inside : (i - 1).toNat < cs.length := by omega
    have split :
        cs = cs.take (i - 1).toNat ++ cs[(i - 1).toNat] :: cs.drop ((i - 1).toNat + 1) := by
      rw [List.getElem_cons_drop, List.take_append_drop]
    have position : i = (cs.take (i - 1).toNat).length + 1 := by
      rw [List.length_take]
      omega
    have edited : cs.set (i - 1).toNat short.stored =
        cs.take (i - 1).toNat ++ short.stored :: cs.drop ((i - 1).toNat + 1) :=
      List.set_eq_take_append_cons_drop.trans (if_pos inside)
    rw [split] at held
    refine (returns_put held short position).mono fun u' held' => ⟨_, held', ?_, fun c mem => ?_⟩
    · rw [← edited, List.map_set, short.unicode_stored]
      rfl
    · rw [← edited] at mem
      rcases List.mem_or_eq_of_mem_set mem with old | new
      · exact plain c old
      · rw [new]
        rfl
  | fillWith unicode =>
    refine (returns_holds_fillWith held allowed.1 condition).mono fun u' held' => ?_
    unfold Command.edit
    rwa [List.length_map]
  | addFirst unicode =>
    have short := OneCell.of_valid allowed.1 (condition.resolve_right id)
    refine (returns_addFirst held short).mono fun u' held' => ⟨_, held', ?_, fun c mem => ?_⟩
    · rw [List.map_cons, short.unicode_stored]
      rfl
    · rcases List.mem_cons.mp mem with new | old
      · rw [new]
        rfl
      · exact plain c old

theorem Holds.append (h : Holds u points) (h' : Holds s points') :
    Returns (u.append (some s)) fun u' => Holds u' (points ++ points') := by
  rcases h with ⟨cs, held, rfl, plain⟩
  rcases h' with ⟨ds, held', rfl, plain'⟩
  refine (returns_append held held').mono fun u' whole =>
    ⟨_, whole, List.map_append, fun c mem => ?_⟩
  exact (List.mem_append.mp mem).elim (plain c) (plain' c)

theorem Holds.appendCurrent (h : Holds u points) :
    Returns (u.append none) fun u' => Holds u' (points ++ points) := by
  rcases h with ⟨cs, held, rfl, plain⟩
  refine (returns_append_current held plain).mono fun u' whole =>
    ⟨_, whole, List.map_append, fun c mem => ?_⟩
  exact (List.mem_append.mp mem).elim (plain c) (plain c)

theorem returns_makeFilled {unicode n : Int} (nonneg : 0 ≤ n) (valid : ValidUnicode unicode)
    (condition : Command.Short n (.fillWith unicode)) :
    Returns (blank.makeFilled unicode n) fun u => Holds u (.replicate n.toNat unicode) := by
  have filled := returns_holds_fillWith (represents_make_count nonneg) valid condition
  rwa [List.length_replicate] at filled

theorem Holds.copy (h : Holds s points) : Returns (blank.copy s) fun u => Holds u points := by
  rcases h with ⟨cs, held, rfl, plain⟩
  exact (returns_copy held).mono fun u held' => ⟨cs, held', rfl, plain⟩

end Steps

/-! ## Runs -/

theorem Reaches.holds {u : UnicodeString} {points : List Int}
    (reached : Reaches Command.Short u points) : Holds u points := by
  induction reached with
  | make needed allowed => exact ⟨[], represents_make allowed, rfl, nofun⟩
  | makeFilled unicode n nonneg valid condition run =>
    exact (returns_makeFilled nonneg valid condition).unique run
  | copy _ run ih => exact ih.copy.unique run
  | append _ _ run ih ih' => exact (ih.append ih').unique run
  | appendCurrent _ run ih => exact ih.appendCurrent.unique run
  | step command _ allowed condition run ih => exact (ih.execute allowed condition).unique run

/-- **A UNICODE_STRING is its list of code points**, along every run that stores no
supplementary one: each index gives the code point of the list, and the next command, a
copy, an append and a creation return. -/
theorem reaches_items {u : UnicodeString} {points : List Int} (reached : Reaches Command.Short u points) :
    u.count = points.length ∧
      (∀ i, 1 ≤ i → i ≤ u.count →
        u.item i = points[(i - 1).toNat]? ∧ ∃ x, u.item i = some x) ∧
      (∃ u', blank.copy u = some u') ∧ (∃ u', u.append none = some u') ∧
      (∀ s points', Reaches Command.Short s points' → ∃ u', u.append (some s) = some u') ∧
      (∀ command : Command, command.Allowed u.count → command.Short u.count →
        ∃ u', u.execute command = some u') ∧
      ∀ unicode n, 0 ≤ n → ValidUnicode unicode → Command.Short n (.fillWith unicode) →
        ∃ u', blank.makeFilled unicode n = some u' := by
  have h := reached.holds
  exact ⟨h.count_eq, fun i low high => h.item_eq low high, h.copy.isSome,
    h.appendCurrent.isSome, fun s points' other => (h.append other.holds).isSome,
    fun command allowed condition => (h.execute allowed condition).isSome,
    fun unicode n nonneg valid condition => (returns_makeFilled nonneg valid condition).isSome⟩

/-- Two characters of which the second is put before the first. -/
theorem reaches_items_two :
    ∃ u, Reaches Command.Short u [0x20AC, 0x41] ∧ u.item 1 = some 0x20AC := by
  have empty := Reaches.make (P := Command.Short) 0 (Int.le_refl 0)
  have first := empty.step (.extend 0x41) ⟨by decide, trivial⟩ (.inl (by decide)) rfl
  have second := first.step (.addFirst 0x20AC) ⟨by decide, trivial⟩ (.inl (by decide)) rfl
  have items := (reaches_items second).2.1 1 (by decide) (by decide)
  exact ⟨_, second, items.1⟩

/-- `extend` with U+1F600 stores 61 and no mark. -/
theorem not_reaches_items :
    ¬∀ (u : UnicodeString) (points : List Int), Reaches (fun _ _ => True) u points →
      ∀ i, 1 ≤ i → i ≤ u.count → u.item i = points[(i - 1).toNat]? := by
  intro claim
  have empty := Reaches.make (P := fun _ _ => True) 0 (Int.le_refl 0)
  have extended := empty.step (.extend 0x1F600) ⟨by decide, trivial⟩ trivial rfl
  have wrong := claim _ _ extended 1 (by decide) (by decide)
  exact absurd wrong (by decide)

end UnicodeString

end Liberty
