import Liberty.Text.UnicodeParserBuffer

/-!
# Positions of UNICODE_PARSER_BUFFER

A parser goes on and back in the characters that have been decoded, and saves and restores its
position.  `next` counts a newline when it arrives there; `previous` tells other lines and columns at
a newline, behind one, and at the end of the input.
-/

namespace Liberty

/-- The attributes of a UNICODE_PARSER_POSITION. -/
structure UnicodeParserPosition where
  index : Int
  line : Int
  column : Int

namespace UnicodeParserBuffer

/-! ## The source -/

/-- The loop of `previous` at a newline. -/
def columnBefore (backlog : List Int) (index : Int) : Option Int := do
  let (_, column) ← untilLoop
    (fun ((i, _) : Int × Int) => do
      if i = 0 then return true
      return decide ((← FastArray.item backlog i) = (10 : Int)))
    (fun (i, column) => some (i - 1, column + 1)) index.toNat (index, 0)
  return column

def previous (b : UnicodeParserBuffer) : Option UnicodeParserBuffer := do
  let b := { b with index := b.index - 1 }
  if (← b.code) = (10 : Int) then
    return { b with line := b.line - 1, column := ← columnBefore b.backlog b.index }
  else
    return { b with column := b.column - 1 }

def savePosition (b : UnicodeParserBuffer) : UnicodeParserPosition :=
  ⟨b.index, b.line, b.column⟩

def restorePosition (b : UnicodeParserBuffer) (position : UnicodeParserPosition) : UnicodeParserBuffer :=
  { b with index := position.index, line := position.line, column := position.column }

/-! ## Lines and columns -/

/-- The characters up to the index. -/
def passed (backlog : List Int) (index : Int) : List Int :=
  backlog.take (index + 1).toNat

/-- One more than the newlines among the characters. -/
def lineAfter (characters : List Int) : Int :=
  1 + characters.count 10

/-- One more than the distance from the last newline, or from the start. -/
def columnAfter (characters : List Int) : Int :=
  1 + (characters.reverse.takeWhile (· ≠ 10)).length

/-- The line and the column are those of the characters up to the index. -/
def Tells (backlog : List Int) (position : UnicodeParserPosition) : Prop :=
  position.line = lineAfter (passed backlog position.index) ∧
    position.column = columnAfter (passed backlog position.index)

theorem lineAfter_newline (characters : List Int) :
    lineAfter (characters ++ [10]) = lineAfter characters + 1 := by
  unfold lineAfter
  rw [List.count_append, List.count_singleton_self]
  omega

theorem columnAfter_newline (characters : List Int) : columnAfter (characters ++ [10]) = 1 := by
  simp [columnAfter]

theorem lineAfter_other (characters : List Int) {c : Int} (other : c ≠ 10) :
    lineAfter (characters ++ [c]) = lineAfter characters := by
  unfold lineAfter
  rw [List.count_append, List.count_singleton, if_neg (by simpa using other), Nat.add_zero]

theorem columnAfter_other (characters : List Int) {c : Int} (other : c ≠ 10) :
    columnAfter (characters ++ [c]) = columnAfter characters + 1 := by
  unfold columnAfter
  rw [List.reverse_append, List.reverse_singleton, List.singleton_append,
    List.takeWhile_cons_of_pos (by simpa using other), List.length_cons]
  omega

section Passed

variable {backlog more : List Int} {index c : Int}

theorem passed_succ (low : -1 ≤ index) (here : FastArray.item backlog (index + 1) = some c) :
    passed backlog (index + 1) = passed backlog index ++ [c] := by
  obtain ⟨n, at_n⟩ := Int.eq_ofNat_of_zero_le (show 0 ≤ index + 1 by omega)
  unfold passed
  rw [at_n] at here ⊢
  rw [FastArray.item_natCast] at here
  rw [Int.toNat_natCast, show ((n : Int) + 1).toNat = n + 1 from rfl, List.take_add_one, here]
  rfl

theorem passed_all (behind : (backlog.length : Int) ≤ index + 1) : passed backlog index = backlog :=
  List.take_of_length_le (by omega)

theorem passed_append (inside : index < backlog.length) : passed (backlog ++ more) index = passed backlog index :=
  List.take_append_of_le_length (by omega)

end Passed

/-! ## What is read -/

section Read

variable {b b' : UnicodeParserBuffer} {input input' : StringInputStream}

theorem endOfInput_read (ended : input.endOfInput = true) : input.filteredReadCharacter.endOfInput = true :=
  decide_eq_true (Nat.lt_succ_of_lt (of_decide_eq_true ended))

/-- At the end of the stream nothing is decoded; before it, at most one character. -/
theorem decode_cases {decoded : List Int} (run : decode input = some (input', decoded)) :
    decoded = [] ∧ input'.endOfInput = true ∨ input.endOfInput = false ∧ ∃ c, decoded = [c] := by
  unfold decode at run
  dsimp only at run
  split at run
  · rename_i ended
    cases run
    exact .inl ⟨rfl, ended⟩
  · rename_i going
    have before : input.endOfInput = false := by
      cases test : input.endOfInput with
      | false => rfl
      | true => exact absurd (endOfInput_read test) going
    obtain ⟨n, -, run⟩ := Option.bind_eq_some_iff.mp run
    split at run
    · cases run
      exact .inr ⟨before, _, rfl⟩
    · split at run
      · rename_i ended
        cases run
        exact .inl ⟨rfl, ended⟩
      · obtain ⟨t, -, run⟩ := Option.bind_eq_some_iff.mp run
        cases run
        exact .inr ⟨before, _, rfl⟩

/-- What `read` adds to the backlog: one character, or none at the end of the stream or at a character
that is not allowed. -/
theorem read_cases (run : b.read = some b') : ∃ more, b' = { b with
      input := b'.input, backlog := b.backlog ++ more, atError := b'.atError } ∧
    (more = [] ∧ b'.input.endOfInput = true ∧ b'.atError = b.atError ∨
      more = [] ∧ b.input.endOfInput = false ∧ b'.atError = true ∨
      b.input.endOfInput = false ∧ b'.atError = b.atError ∧ ∃ c, more = [c]) := by
  have nothing : b.backlog = b.backlog ++ [] := (List.append_nil _).symm
  have before (going : ¬b.input.filteredReadCharacter.endOfInput = true) : b.input.endOfInput = false := by
    cases test : b.input.endOfInput with
    | false => rfl
    | true => exact absurd (endOfInput_read test) going
  unfold read at run
  split at run
  · dsimp only at run
    split at run
    · rename_i ended
      cases run
      exact ⟨[], by rw [List.append_nil], .inl ⟨rfl, ended, rfl⟩⟩
    · rename_i going
      obtain ⟨n, -, run⟩ := Option.bind_eq_some_iff.mp run
      split at run
      · cases run
        exact ⟨[], by rw [List.append_nil], .inr (.inl ⟨rfl, before going, rfl⟩)⟩
      · cases run
        exact ⟨[n.toInt], rfl, .inr (.inr ⟨before going, rfl, _, rfl⟩)⟩
  split at run
  · dsimp only at run
    split at run
    · rename_i ended
      cases run
      exact ⟨[], by rw [List.append_nil], .inl ⟨rfl, ended, rfl⟩⟩
    · rename_i going
      obtain ⟨n, -, run⟩ := Option.bind_eq_some_iff.mp run
      cases run
      exact ⟨[n.toInt], rfl, .inr (.inr ⟨before going, rfl, _, rfl⟩)⟩
  split at run
  · obtain ⟨⟨input, decoded⟩, decodes, run⟩ := Option.bind_eq_some_iff.mp run
    cases run
    refine ⟨decoded, rfl, ?_⟩
    rcases decode_cases decodes with ⟨none, ended⟩ | ⟨going, single⟩
    · exact .inl ⟨none, ended, rfl⟩
    · exact .inr (.inr ⟨going, rfl, single⟩)
  · cases run

end Read

/-! ## Steps -/

section Steps

variable {b b' : UnicodeParserBuffer} {p : UnicodeParserPosition}

/-- A position in the backlog, or behind it when the stream has ended. -/
structure Within (backlog : List Int) (input : StringInputStream) (index : Int) : Prop where
  low : -1 ≤ index
  high : index ≤ backlog.length
  ended : index = backlog.length → input.endOfInput = true

/-- What holds of the position of the buffer and of the saved ones. -/
structure Located (backlog : List Int) (input : StringInputStream) (p : UnicodeParserPosition) : Prop where
  within : Within backlog input p.index
  tells : Tells backlog p

theorem read_keeps (run : b.read = some b') (h : Located b.backlog b.input p) :
    Located b'.backlog b'.input p := by
  obtain ⟨more, eq, cases⟩ := read_cases run
  obtain ⟨⟨low, high, ended⟩, tells⟩ := h
  have backlog : b'.backlog = b.backlog ++ more := by rw [eq]
  rcases cases with ⟨rfl, ended', -⟩ | ⟨rfl, going, -⟩ | ⟨going, -, c, rfl⟩
  · rw [List.append_nil] at backlog
    exact ⟨⟨low, backlog ▸ high, fun _ => ended'⟩, backlog ▸ tells⟩
  · rw [List.append_nil] at backlog
    refine ⟨⟨low, backlog ▸ high, fun last => ?_⟩, backlog ▸ tells⟩
    rw [backlog] at last
    rw [ended last] at going
    cases going
  · have inside : p.index < b.backlog.length := by
      rcases Int.lt_or_eq_of_le high with less | last
      · exact less
      · rw [ended last] at going
        cases going
    refine ⟨⟨low, ?_, fun last => ?_⟩, ?_⟩
    · rw [backlog, List.length_append]
      omega
    · rw [backlog, List.length_append, List.length_singleton] at last
      omega
    · unfold Tells
      rw [backlog, passed_append inside]
      exact tells

theorem located_step (low : -1 ≤ b.index) (inside : b.index < b.backlog.length) (tells : Tells b.backlog b.savePosition)
    (ended : b.index + 1 = b.backlog.length → b.input.endOfInput = true)
    (run : (let b := { b with index := b.index + 1 }
      if b.endOfInput then some b
      else do
        if (← b.code) = 10 then
          return { b with line := b.line + 1, column := 1 }
        else
          return { b with column := b.column + 1 }) = some b') :
    ∃ line column, b' = { b with index := b.index + 1, line, column } ∧
      Located b'.backlog b'.input b'.savePosition := by
  dsimp only at run
  split at run
  · rename_i last
    have behind : (b.backlog.length : Int) ≤ b.index + 1 := by
      have := of_decide_eq_true ((Bool.and_eq_true _ _).mp last).1
      unfold FastArray.upper at this
      dsimp only at this
      omega
    cases run
    refine ⟨b.line, b.column, rfl, ⟨by dsimp only [savePosition]; omega, by dsimp only [savePosition]; omega,
      fun _ => ended (by omega)⟩, ?_⟩
    unfold Tells at tells ⊢
    dsimp only [savePosition] at tells ⊢
    rw [passed_all (by omega)] at tells ⊢
    exact tells
  · obtain ⟨c, here, run⟩ := Option.bind_eq_some_iff.mp run
    have more := passed_succ low here
    have within : Within b.backlog b.input (b.index + 1) := ⟨by omega, by omega, ended⟩
    unfold Tells at tells
    dsimp only [savePosition] at tells
    split at run
    · rename_i newline
      cases run
      refine ⟨_, _, rfl, within, ?_⟩
      unfold Tells
      dsimp only [savePosition]
      rw [more, newline, lineAfter_newline, columnAfter_newline, tells.1]
      exact ⟨rfl, rfl⟩
    · rename_i other
      cases run
      refine ⟨_, _, rfl, within, ?_⟩
      unfold Tells
      dsimp only [savePosition]
      rw [more, lineAfter_other _ other, columnAfter_other _ other, tells.1, tells.2]
      exact ⟨rfl, rfl⟩

theorem inside_of_going (h : Located b.backlog b.input b.savePosition) (going : b.endOfInput = false) :
    b.index < b.backlog.length := by
  rcases Int.lt_or_eq_of_le h.within.high with less | last
  · exact less
  · have past : b.endOfInput = true := by
      unfold endOfInput FastArray.upper
      rw [h.within.ended last, Bool.and_true]
      have : b.index = b.backlog.length := last
      exact decide_eq_true (by omega)
    rw [past] at going
    cases going

/-- A character that is read comes right behind the backlog. -/
theorem next_cases (h : Located b.backlog b.input b.savePosition) (going : b.endOfInput = false)
    (valid : b.atError = false) (run : b.next = some b') :
    (∀ p, Located b.backlog b.input p → Located b'.backlog b'.input p) ∧
      Located b'.backlog b'.input b'.savePosition ∧ (∃ more, b'.backlog = b.backlog ++ more) ∧
      (b'.atError = false → b'.index = b.index + 1) := by
  have inside := inside_of_going h going
  unfold next at run
  obtain ⟨b₁, reads, run⟩ := Option.bind_eq_some_iff.mp run
  split at reads
  · rename_i last
    have kept := fun p => read_keeps (p := p) reads
    have here := kept _ h
    obtain ⟨more, eq, cases⟩ := read_cases reads
    have backlog : b₁.backlog = b.backlog ++ more := by rw [eq]
    have index : b₁.index = b.index := by rw [eq]
    have position : b₁.savePosition = b.savePosition := by
      rw [eq]
      rfl
    have length := congrArg List.length backlog
    rw [List.length_append] at length
    unfold FastArray.upper at last
    split at run
    · rename_i error
      cases run
      exact ⟨kept, position ▸ here, ⟨more, backlog⟩, fun right => absurd error (by rw [right]; decide)⟩
    · rename_i right
      have behind : b₁.index + 1 = b₁.backlog.length → b₁.input.endOfInput = true := by
        intro all
        rcases cases with ⟨-, ended, -⟩ | ⟨-, -, error⟩ | ⟨-, -, c, rfl⟩
        · exact ended
        · exact absurd error right
        · rw [List.length_singleton] at length
          omega
      obtain ⟨line, column, rfl, located⟩ := located_step (by rw [index]; exact h.within.low) (by omega)
        (by rw [position]; exact here.tells) behind run
      exact ⟨kept, located, ⟨more, backlog⟩, fun _ => by dsimp only; rw [index]⟩
  · rename_i notLast
    cases reads
    rw [if_neg (by rw [valid]; decide)] at run
    unfold FastArray.upper at notLast
    obtain ⟨line, column, rfl, located⟩ := located_step h.within.low inside h.tells (by omega) run
    exact ⟨fun _ h => h, located, ⟨[], (List.append_nil _).symm⟩, fun _ => rfl⟩

/-- Neither the character at the index nor the one before is a newline. -/
def StaysOnLine (b : UnicodeParserBuffer) : Prop :=
  (∃ c, b.code = some c ∧ c ≠ 10) ∧ ∃ c, FastArray.item b.backlog (b.index - 1) = some c ∧ c ≠ 10

theorem located_previous (h : Located b.backlog b.input b.savePosition) (positive : 0 < b.index)
    (stays : StaysOnLine b) (run : b.previous = some b') :
    b' = { b with index := b.index - 1, column := b.column - 1 } ∧
      Located b'.backlog b'.input b'.savePosition := by
  obtain ⟨⟨c, here, other⟩, d, before, other'⟩ := stays
  have eq : b' = { b with index := b.index - 1, column := b.column - 1 } := by
    unfold previous code at run
    dsimp only at run
    rw [before, Returns.some_bind, if_neg other'] at run
    exact (Option.some.inj run).symm
  have inside : b.index < b.backlog.length := by
    obtain ⟨n, at_n⟩ := Int.eq_ofNat_of_zero_le (Int.le_of_lt positive)
    unfold code at here
    rw [at_n, FastArray.item_natCast] at here
    have := (List.getElem?_eq_some_iff.mp here).1
    omega
  have here' : FastArray.item b.backlog (b.index - 1 + 1) = some c := by
    rw [Int.sub_add_cancel]
    exact here
  have passes := passed_succ (by omega) here'
  rw [Int.sub_add_cancel] at passes
  obtain ⟨line, column⟩ := h.tells
  dsimp only [savePosition] at line column
  rw [passes, lineAfter_other _ other] at line
  rw [passes, columnAfter_other _ other] at column
  rw [eq]
  refine ⟨rfl, ⟨by dsimp only [savePosition]; omega, by dsimp only [savePosition]; omega, ?_⟩, line, ?_⟩
  · dsimp only [savePosition]
    omega
  · dsimp only [savePosition]
    omega

theorem returns_previous (positive : 0 < b.index) (inside : b.index ≤ b.backlog.length) :
    Returns b.previous fun b' => b'.index = b.index - 1 ∧ b'.backlog = b.backlog := by
  have item : ∀ i, 0 ≤ i → i < b.index → ∃ c, FastArray.item b.backlog i = some c := fun i low less =>
    ⟨_, FastArray.item_of_lt low (by omega)⟩
  obtain ⟨c, here⟩ := item (b.index - 1) (by omega) (by omega)
  have column : Returns (columnBefore b.backlog (b.index - 1)) fun _ => True := by
    refine Returns.bind (P := fun _ => True) (returns_untilLoop (fun t => 0 ≤ t.1 ∧ t.1 < b.index)
      (fun t => t.1.toNat) ⟨by dsimp only; omega, by dsimp only; omega⟩ (Nat.le_refl _) ?_)
      fun t _ => Returns.pure_iff.mpr trivial
    intro (i, column) ⟨low, less⟩
    obtain ⟨d, found⟩ := item i low less
    dsimp only at low less ⊢
    by_cases zero : i = 0
    · rw [if_pos zero]
      exact Returns.pure_iff.mpr trivial
    · rw [if_neg zero, found, Returns.some_bind, Returns.pure_iff]
      split
      · trivial
      · exact Returns.some_iff.mpr ⟨⟨by dsimp only; omega, by dsimp only; omega⟩, by dsimp only; omega⟩
  unfold previous code
  dsimp only
  rw [here, Returns.some_bind]
  split
  · exact column.bind fun _ _ => Returns.pure_iff.mpr ⟨rfl, rfl⟩
  · exact Returns.pure_iff.mpr ⟨rfl, rfl⟩

end Steps

/-! ## Runs -/

/-- The buffers that a parser comes to in the text of `input`, with the positions that it has saved. -/
inductive Reaches (allowed : UnicodeParserBuffer → Prop) (input : StringInputStream) (encoding : Option Encoding) :
    UnicodeParserBuffer → List UnicodeParserPosition → Prop
  | connectTo {b : UnicodeParserBuffer} (run : connectTo input encoding = some b) :
      Reaches allowed input encoding b []
  | next {b b' : UnicodeParserBuffer} {saved : List UnicodeParserPosition}
      (before : Reaches allowed input encoding b saved) (going : b.endOfInput = false)
      (valid : b.atError = false) (run : b.next = some b') : Reaches allowed input encoding b' saved
  | previous {b b' : UnicodeParserBuffer} {saved : List UnicodeParserPosition}
      (before : Reaches allowed input encoding b saved) (positive : 0 < b.index) (step : allowed b)
      (run : b.previous = some b') : Reaches allowed input encoding b' saved
  | savePosition {b : UnicodeParserBuffer} {saved : List UnicodeParserPosition}
      (before : Reaches allowed input encoding b saved) :
      Reaches allowed input encoding b (b.savePosition :: saved)
  | restorePosition {b : UnicodeParserBuffer} {p : UnicodeParserPosition} {saved : List UnicodeParserPosition}
      (before : Reaches allowed input encoding b saved) (found : p ∈ saved) :
      Reaches allowed input encoding (b.restorePosition p) saved

section Runs

variable {b b' : UnicodeParserBuffer} {saved : List UnicodeParserPosition} {input : StringInputStream}
  {encoding : Option Encoding}

theorem located_connectTo (run : connectTo input encoding = some b) :
    Located b.backlog b.input b.savePosition := by
  have first : ∃ size, next ⟨input, size, [], -1, 1, 1, false⟩ = some b := by
    unfold connectTo at run
    split at run
    · obtain ⟨size, -, run⟩ := Option.bind_eq_some_iff.mp run
      exact ⟨size, run⟩
    · exact ⟨0, run⟩
  obtain ⟨size, run⟩ := first
  have origin : Located [] input ⟨-1, 1, 1⟩ :=
    ⟨⟨Int.le_refl _, by decide, fun last => absurd last (by decide)⟩, rfl, rfl⟩
  exact (next_cases origin rfl rfl run).2.1

theorem Reaches.located (reached : Reaches StaysOnLine input encoding b saved) :
    Located b.backlog b.input b.savePosition ∧ ∀ p ∈ saved, Located b.backlog b.input p := by
  induction reached with
  | connectTo run => exact ⟨located_connectTo run, nofun⟩
  | next _ going valid run ih =>
    obtain ⟨kept, here, -, -⟩ := next_cases ih.1 going valid run
    exact ⟨here, fun p mem => kept p (ih.2 p mem)⟩
  | previous _ positive step run ih =>
    obtain ⟨eq, here⟩ := located_previous ih.1 positive step run
    refine ⟨here, fun p mem => ?_⟩
    rw [eq]
    exact ih.2 p mem
  | savePosition _ ih =>
    refine ⟨ih.1, fun p mem => ?_⟩
    rcases List.mem_cons.mp mem with same | before
    · rw [same]
      exact ih.1
    · exact ih.2 p before
  | restorePosition _ found ih => exact ⟨ih.2 _ found, ih.2⟩

/-- **Lines and columns.**  In every run in which `previous` neither leaves a newline or the end of the
input nor comes to a newline, the line and the column are those of the characters up to the index, and
so are those of each saved position; and `previous` undoes a `next` that comes to a character or to the
end. -/
theorem Reaches.tracks (reached : Reaches StaysOnLine input encoding b saved) :
    Tells b.backlog b.savePosition ∧
      (∀ p ∈ saved, (b.restorePosition p).savePosition = p ∧ Tells b.backlog p) ∧
      (b.endOfInput = false → b.atError = false → 0 ≤ b.index → ∀ b₁, b.next = some b₁ → b₁.atError = false →
        Returns b₁.previous fun b₂ => b₂.index = b.index ∧ b₂.code = b.code) := by
  obtain ⟨here, all⟩ := reached.located
  refine ⟨here.tells, fun p mem => ⟨rfl, (all p mem).tells⟩, fun going valid low b₁ run right => ?_⟩
  obtain ⟨-, here', ⟨more, backlog⟩, index⟩ := next_cases here going valid run
  have inside := inside_of_going here going
  have next : b₁.index = b.index + 1 := index right
  refine (returns_previous (by omega) here'.within.high).mono fun b₂ back => ?_
  have same : b₂.index = b.index := by omega
  refine ⟨same, ?_⟩
  unfold code
  rw [same, back.2, backlog, FastArray.item_of_lt low (by rw [List.length_append]; omega),
    FastArray.item_of_lt low (by omega), List.getElem_append_left]

/-- In the text `ab`, the start is saved, and restored after a step on and back. -/
theorem Reaches.tracks_start : ∃ (b : UnicodeParserBuffer) (p : UnicodeParserPosition), b.savePosition = ⟨0, 1, 2⟩ ∧ p = ⟨0, 1, 2⟩ ∧
    Tells b.backlog b.savePosition ∧ (b.restorePosition p).savePosition = p := by
  have start : Reaches StaysOnLine (.fromString [97, 98]) (some .other) _ [] := .connectTo rfl
  have second := (start.savePosition.next rfl rfl rfl).previous (by decide)
    ⟨⟨98, rfl, by decide⟩, 97, rfl, by decide⟩ rfl
  obtain ⟨here, all, -⟩ := second.tracks
  exact ⟨_, _, rfl, rfl, here, (all _ List.mem_cons_self).1⟩

/-- In a text with a newline as its second character, a step on and back from there tells another line
and another column. -/
theorem not_tracks : ∃ b b' : UnicodeParserBuffer,
    Reaches (fun _ => True) (.fromString [97, 10, 98]) none b [] ∧
    Reaches (fun _ => True) (.fromString [97, 10, 98]) none b' [] ∧
    b.index = 1 ∧ b'.index = 1 ∧ passed b'.backlog 1 = passed b.backlog 1 ∧
    b.line = 2 ∧ b.column = 1 ∧ b'.line = 1 ∧ b'.column = 0 := by
  have start : Reaches (fun _ => True) (.fromString [97, 10, 98]) none _ [] := .connectTo rfl
  have second := start.next rfl rfl rfl
  have back := (second.next rfl rfl rfl).previous (by decide) trivial rfl
  exact ⟨_, _, second, back, rfl, rfl, rfl, rfl, rfl, rfl, rfl⟩

end Runs

end UnicodeParserBuffer

end Liberty
