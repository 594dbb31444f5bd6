import Liberty.Json.JsonParser
import Mathlib.Data.List.DropRight

/-!
# JSON_PARSER terminates

Each value that is begun reads a character.  A loop of `parse_array` goes on for ever where its next item
begins no value: neither the item nor the end of the loop is reached.
-/

namespace Liberty

namespace JsonParser

/-! ## What is read -/

/-- What is left to read. -/
def ahead (context : JsonParseContext) : ℕ :=
  context.data.length

theorem ahead_next (context : JsonParseContext) : ahead context.next = ahead context - 1 :=
  List.length_tail

theorem ahead_skipBlanks (context : JsonParseContext) : ahead context.skipBlanks ≤ ahead context :=
  (List.dropWhile_sublist _).length_le

theorem ahead_pos {context : JsonParseContext} (valid : context.isValid = true) : 0 < ahead context :=
  List.length_pos_of_ne_nil (JsonParseContext.isValid_iff.mp valid)

theorem length_stringLoop (state : StringState) (str : List Int) (data : List Character) :
    (stringLoop state str data).2.length ≤ data.length := by
  induction data generalizing state str with
  | nil => exact Nat.le_refl _
  | cons item rest ih =>
    rw [stringLoop]
    split
    · exact (ih _ _).trans (Nat.le_succ _)
    · exact Nat.le_succ _
    · exact Nat.le_succ _

theorem ahead_parseString (context : JsonParseContext) :
    ahead (parseString context).2 ≤ ahead context - 1 := by
  have bound := length_stringLoop .normal [] context.next.data
  rw [← ahead_next]
  unfold parseString
  split
  · rename_i run
    rw [run] at bound
    exact bound
  · rename_i run
    rw [run] at bound
    exact bound

theorem length_numberLoop (state : NumberState) (s : NumberLocals) (data : List Character) :
    (numberLoop state s data).2.length ≤ data.length := by
  induction data generalizing state s with
  | nil => exact Nat.le_refl _
  | cons item rest ih =>
    rw [numberLoop]
    split
    · exact (ih _ _).trans (Nat.le_succ _)
    · exact Nat.le_refl _
    · exact Nat.le_refl _

theorem length_numberDigits_of_isDigit {context : JsonParseContext} (digit : context.item.isDecimalDigit = true) :
    (numberDigits context).2.length ≤ ahead context - 1 := by
  have next : context.next.data.length = ahead context - 1 := ahead_next context
  have next' : context.next.next.data.length ≤ context.next.data.length :=
    (ahead_next context.next).trans_le (Nat.sub_le _ _)
  rw [← next]
  unfold numberDigits
  by_cases valid : context.isValid = true
  · rw [if_pos valid]
    by_cases zero : context.item = '0'.toUInt8
    · rw [if_pos zero]
      dsimp only
      split
      · exact (length_numberLoop _ _ _).trans next'
      · split
        · exact (length_numberLoop _ _ _).trans next'
        · split
          · exact Nat.le_refl _
          · exact Nat.le_refl _
    · rw [if_neg zero, if_pos digit]
      exact length_numberLoop _ _ _
  · rw [if_neg valid, next]
    have nothing : context.data = [] := JsonParseContext.isValid_eq_false_iff.mp (Bool.eq_false_iff.mpr valid)
    rw [nothing]
    exact Nat.zero_le _

theorem length_numberDigits (context : JsonParseContext) : (numberDigits context).2.length ≤ ahead context := by
  by_cases digit : context.item.isDecimalDigit = true
  · exact (length_numberDigits_of_isDigit digit).trans (Nat.sub_le _ _)
  · unfold numberDigits
    by_cases valid : context.isValid = true
    · have zero : context.item ≠ '0'.toUInt8 := by
        intro zero
        rw [zero] at digit
        exact digit (by decide)
      rw [if_pos valid, if_neg zero, if_neg digit]
      exact Nat.le_refl _
    · rw [if_neg valid]
      exact Nat.le_refl _

theorem ahead_parseNumber {context : JsonParseContext}
    (begins : context.item.isDecimalDigit = true ∨ context.item = '-'.toUInt8) :
    ahead (parseNumber context).2 ≤ ahead context - 1 := by
  have bound : (numberDigits (if context.item = '-'.toUInt8 then context.next else context)).2.length ≤
      ahead context - 1 := by
    by_cases negative : context.item = '-'.toUInt8
    · rw [if_pos negative, ← ahead_next]
      exact length_numberDigits _
    · rw [if_neg negative]
      exact length_numberDigits_of_isDigit (begins.resolve_right negative)
  unfold parseNumber
  dsimp only
  split
  · rename_i run
    rw [run] at bound
    exact bound
  · rename_i run
    rw [run] at bound
    exact bound

theorem ahead_skip (word : List Character) (context : JsonParseContext) :
    ahead (context.skip word).2 ≤ ahead context := by
  induction word generalizing context with
  | nil => exact Nat.le_refl _
  | cons character word ih =>
    have next := ahead_next context
    rw [JsonParseContext.skip]
    split
    · exact (ih _).trans (by omega)
    · change ahead context.next ≤ _
      omega

theorem ahead_parseWord {character : Character} (word : List Character) (value : JsonValue) (e : JsonError)
    (context : JsonParseContext) :
    ahead (parseWord (character :: word) value e context).2 ≤ ahead context - 1 := by
  have bound : ahead (context.skip (character :: word)).2 ≤ ahead context - 1 := by
    rw [JsonParseContext.skip, ← ahead_next]
    split
    · exact ahead_skip _ _
    · exact Nat.le_refl _
  unfold parseWord
  split
  · rename_i run
    rw [run] at bound
    exact bound
  · rename_i run
    rw [run] at bound
    exact bound

/-- A value that is begun reads a character. -/
theorem ahead_parseSimple {context : JsonParseContext} (begins : beginsValue context.item = true)
    (object : context.item ≠ '\x7b'.toUInt8) (array : context.item ≠ '['.toUInt8) :
    ahead (parseSimple true context).2 ≤ ahead context - 1 := by
  unfold parseSimple
  split
  · exact ahead_parseString context
  · split
    · rename_i number
      exact ahead_parseNumber number
    · split
      · exact ahead_parseWord _ _ _ context
      · split
        · exact ahead_parseWord _ _ _ context
        · split
          · exact ahead_parseWord _ _ _ context
          · unfold beginsValue at begins
            rw [decide_eq_true_eq] at begins
            tauto

theorem ahead_parseSimple_le (nested : Bool) (context : JsonParseContext) :
    ahead (parseSimple nested context).2 ≤ ahead context := by
  have word : ∀ (c : Character) (word : List Character) (value : JsonValue) (e : JsonError),
      ahead (parseWord (c :: word) value e context).2 ≤ ahead context - 1 :=
    fun _ word value e => ahead_parseWord word value e context
  have less := Nat.sub_le (ahead context) 1
  unfold parseSimple
  split
  · split
    · exact (ahead_parseString context).trans less
    · exact Nat.le_refl _
  · split
    · split
      · rename_i number _
        exact (ahead_parseNumber number).trans less
      · exact Nat.le_refl _
    · split
      · split
        · exact (word _ _ _ _).trans less
        · exact Nat.le_refl _
      · split
        · split
          · exact (word _ _ _ _).trans less
          · exact Nat.le_refl _
        · split
          · split
            · exact (word _ _ _ _).trans less
            · exact Nat.le_refl _
          · exact Nat.le_refl _

/-! ## The parse with a watch -/

/-- The next item of the array neither begins a value nor ends the array. -/
def Stuck (s : ContainerState JsonValue) : Prop :=
  s.context.skipBlanks.isValid = true ∧ s.context.skipBlanks.item ≠ ']'.toUInt8 ∧
    beginsValue s.context.skipBlanks.item = false

instance (s : ContainerState JsonValue) : Decidable (Stuck s) :=
  inferInstanceAs (Decidable (_ ∧ _ ∧ _))

/-- A round of `parse_array` that is stopped where the next item begins no value. -/
def watchedRound (parse : Bool → JsonParseContext → JsonParsed) (nested : Bool) (s : ContainerState JsonValue) :
    Except JsonStop (ContainerState JsonValue) :=
  if Stuck s then .error .stuck else arrayRound parse nested s

/-- `parse_json_text` with that watch. -/
def watchJsonText (fuel : ℕ) (text : List Character) (afterEnd : Character) : JsonParsed := do
  return textOf (← parseValueWith watchedRound fuel false (.make text afterEnd))

/-! ## What the rounds read -/

section Rounds

variable {parse : Bool → JsonParseContext → JsonParsed} {nested : Bool}

/-- Each value reads forward, and a nested one that is begun reads a character. -/
def ReadsAhead (parse : Bool → JsonParseContext → JsonParsed) : Prop :=
  ∀ nested context, Yields (parse nested context) fun r => ahead r.2 ≤ ahead context ∧
    (nested = true → beginsValue context.skipBlanks.item = true → context.skipBlanks.isValid = true →
      ahead r.2 < ahead context)

theorem skipBlanks_skipBlanks (context : JsonParseContext) :
    context.skipBlanks.skipBlanks = context.skipBlanks := by
  unfold JsonParseContext.skipBlanks
  rw [List.dropWhile_idempotent]

theorem stops_fails {α : Type} (s : ContainerState α) (e : JsonError) : (s.fails e).stops = true :=
  Bool.or_true _

theorem ahead_closes {α : Type} (s : ContainerState α) (nested : Bool) :
    ahead (s.closes nested).context ≤ ahead s.context := by
  have next := ahead_next s.context
  change ahead (if nested = true then s.context.next else s.context) ≤ _
  split <;> omega

theorem ahead_afterMember {α : Type} (s : ContainerState α) (closing : Character) (e : JsonError) (nested : Bool) :
    ahead (s.afterMember closing e nested).context ≤ ahead s.context := by
  have blanks := ahead_skipBlanks s.context
  unfold ContainerState.afterMember
  dsimp only
  split
  · split
    · exact (ahead_closes _ _).trans blanks
    · split
      · have next := ahead_next s.context.skipBlanks
        change ahead s.context.skipBlanks.next ≤ _
        omega
      · exact blanks
  · exact blanks

theorem yields_arrayRound (reads : ReadsAhead parse) (nested : Bool) (s : ContainerState JsonValue) :
    Yields (arrayRound parse nested s) fun s' => ahead s'.context ≤ ahead s.context ∧
      (¬Stuck s → s'.stops = false → ahead s'.context < ahead s.context) := by
  have blanks := ahead_skipBlanks s.context
  unfold arrayRound
  dsimp only
  split
  · rename_i valid
    split
    · refine Yields.pure ⟨(ahead_closes _ _).trans blanks, fun _ going => ?_⟩
      cases going
    · rename_i other
      refine (reads true s.context.skipBlanks).bind fun r read => ?_
      obtain ⟨value, context⟩ := r
      obtain ⟨le, less⟩ := read
      rw [skipBlanks_skipBlanks] at less
      have strict : ¬Stuck s → ahead context < ahead s.context := by
        intro free
        have begins : beginsValue s.context.skipBlanks.item = true :=
          Bool.not_eq_false _ ▸ fun not => free ⟨valid, other, not⟩
        exact (less rfl begins valid).trans_le blanks
      cases value with
      | none => exact Yields.pure ⟨le.trans blanks, fun free _ => strict free⟩
      | some value =>
        have after := ahead_afterMember
          { s with members := s.members ++ [value], context } ']'.toUInt8 .unfinishedArray nested
        exact Yields.pure ⟨after.trans (le.trans blanks), fun free _ => after.trans_lt (strict free)⟩
  · refine Yields.pure ⟨blanks, fun _ going => ?_⟩
    rw [stops_fails] at going
    cases going

theorem yields_memberRound (reads : ReadsAhead parse) (nested : Bool) (key : List Int)
    (s : ContainerState (List Int × JsonValue)) :
    Yields (memberRound parse nested key s) fun s' => ahead s'.context ≤ ahead s.context := by
  have blanks := ahead_skipBlanks s.context.next
  have next := ahead_next s.context
  refine (reads true s.context.next.skipBlanks).bind fun r read => ?_
  obtain ⟨value, context⟩ := r
  have le : ahead context ≤ ahead s.context := read.1.trans (by omega)
  cases value with
  | none => exact Yields.pure le
  | some value =>
    dsimp only
    split
    · exact Yields.pure le
    · exact Yields.pure ((ahead_afterMember
        { s with members := s.members ++ [(key, value)], context } '\x7d'.toUInt8 .unfinishedObject nested).trans le)

/-- A round of `parse_object` reads at least the quote of a key, or it is the last one. -/
theorem yields_objectRound (reads : ReadsAhead parse) (nested : Bool) (s : ContainerState (List Int × JsonValue)) :
    Yields (objectRound parse nested s) fun s' => ahead s'.context ≤ ahead s.context ∧
      (s'.stops = false → ahead s'.context < ahead s.context) := by
  have blanks := ahead_skipBlanks s.context
  unfold objectRound
  dsimp only
  split
  · rename_i valid
    have positive := ahead_pos valid
    split
    · refine Yields.pure ⟨(ahead_closes _ _).trans blanks, fun going => ?_⟩
      cases going
    · split
      · have read := ahead_parseString s.context.skipBlanks
        generalize parseString s.context.skipBlanks = r at read ⊢
        obtain ⟨key, context⟩ := r
        change ahead context ≤ _ at read
        have more := ahead_skipBlanks context
        cases key with
        | none =>
          refine Yields.pure ⟨?_, fun _ => ?_⟩
          · change ahead context ≤ _
            omega
          · change ahead context < _
            omega
        | some key =>
          dsimp only
          split
          · refine (yields_memberRound reads nested _ _).mono fun s' le => ?_
            dsimp only at le
            exact ⟨by omega, fun _ => by omega⟩
          · refine Yields.pure ⟨?_, fun going => ?_⟩
            · change ahead context.skipBlanks ≤ _
              omega
            · rw [stops_fails] at going
              cases going
      · refine Yields.pure ⟨blanks, fun going => ?_⟩
        rw [stops_fails] at going
        cases going
  · refine Yields.pure ⟨blanks, fun going => ?_⟩
    rw [stops_fails] at going
    cases going

end Rounds

/-! ## What a parse reads -/

/-- A loop of a container reads its first character. -/
theorem yields_parseContainer {α : Type} {round : ContainerState α → Except JsonStop (ContainerState α)}
    (reads : ∀ s, Yields (round s) fun s' => ahead s'.context ≤ ahead s.context) (make : List α → JsonValue)
    (rounds : ℕ) {context : JsonParseContext} (valid : context.isValid = true) :
    Yields (parseContainer round make rounds context) fun r => ahead r.2 < ahead context := by
  have positive := ahead_pos valid
  have next := ahead_next context
  refine (yields_watchedLoop (fun s => ahead s.context ≤ ahead context.next)
    (fun s le _ => (reads s).mono fun s' le' => le'.trans le) (Nat.le_refl _)).bind fun s ended => ?_
  refine Yields.pure ?_
  dsimp only
  omega

theorem yields_watchedRound {parse : Bool → JsonParseContext → JsonParsed} (reads : ReadsAhead parse)
    (nested : Bool) (s : ContainerState JsonValue) :
    Yields (watchedRound parse nested s) fun s' => ahead s'.context ≤ ahead s.context ∧
      (s'.stops = false → ahead s'.context < ahead s.context) := by
  unfold watchedRound
  split
  · exact Yields.error
  · rename_i free
    exact (yields_arrayRound reads nested s).mono fun s' read => ⟨read.1, read.2 free⟩

theorem readsAhead_parseValueWith {round : (Bool → JsonParseContext → JsonParsed) → Bool → ContainerState JsonValue →
    Except JsonStop (ContainerState JsonValue)}
    (reads : ∀ parse nested s, ReadsAhead parse → Yields (round parse nested s) fun s' =>
      ahead s'.context ≤ ahead s.context) (fuel : ℕ) : ReadsAhead (parseValueWith round fuel) := by
  induction fuel with
  | zero => exact fun nested context => Yields.error
  | succ fuel ih =>
    intro nested context
    have blanks := ahead_skipBlanks context
    rw [parseValueWith]
    unfold valueWith
    dsimp only
    split
    · rename_i valid
      split
      · refine (yields_parseContainer (fun s => (yields_objectRound ih nested s).mono fun s' read => read.1) _ _
          valid).mono fun r less => ?_
        exact ⟨by omega, fun _ _ _ => by omega⟩
      · split
        · refine (yields_parseContainer (fun s => reads _ nested s ih) _ _ valid).mono fun r less => ?_
          exact ⟨by omega, fun _ _ _ => by omega⟩
        · rename_i object array
          refine Yields.pure ⟨(ahead_parseSimple_le nested _).trans blanks, fun inner begins _ => ?_⟩
          have less := ahead_parseSimple begins object array
          have positive := ahead_pos valid
          rw [inner]
          omega
    · rename_i invalid
      split
      · exact Yields.pure ⟨blanks, fun _ _ valid => absurd valid invalid⟩
      · exact Yields.pure ⟨blanks, fun _ _ valid => absurd valid invalid⟩

theorem readsAhead_watched (fuel : ℕ) : ReadsAhead (parseValueWith watchedRound fuel) :=
  readsAhead_parseValueWith (fun _ nested s reads => (yields_watchedRound reads nested s).mono fun _ read => read.1)
    fuel

/-! ## Programs of the same shape -/

section Congruence

variable {R : ∀ {α : Type}, Except JsonStop α → Except JsonStop α → Prop} (congruent : SequenceCongruence R)
variable {parse parse' : Bool → JsonParseContext → JsonParsed}
  (same : ∀ nested context, R (parse nested context) (parse' nested context))

include congruent same

theorem arrayRound_congr (nested : Bool) (s : ContainerState JsonValue) :
    R (arrayRound parse nested s) (arrayRound parse' nested s) := by
  unfold arrayRound
  dsimp only
  split
  · split
    · exact congruent.refl _
    · exact congruent.bind (same _ _) fun _ => congruent.refl _
  · exact congruent.refl _

theorem objectRound_congr (nested : Bool) (s : ContainerState (List Int × JsonValue)) :
    R (objectRound parse nested s) (objectRound parse' nested s) := by
  unfold objectRound
  dsimp only
  split
  · split
    · exact congruent.refl _
    · split
      · generalize parseString s.context.skipBlanks = r
        obtain ⟨key, context⟩ := r
        cases key with
        | none => exact congruent.refl _
        | some key =>
          dsimp only
          split
          · exact congruent.bind (same _ _) fun _ => congruent.refl _
          · exact congruent.refl _
      · exact congruent.refl _
  · exact congruent.refl _

omit same in
theorem valueWith_congr {parseObject parseObject' parseArray parseArray' : JsonParseContext → JsonParsed}
    (object : ∀ context, R (parseObject context) (parseObject' context))
    (array : ∀ context, R (parseArray context) (parseArray' context)) (nested : Bool) (context : JsonParseContext) :
    R (valueWith parseObject parseArray nested context) (valueWith parseObject' parseArray' nested context) := by
  unfold valueWith
  dsimp only
  split
  · split
    · exact object _
    · split
      · exact array _
      · exact congruent.refl _
  · split
    · exact congruent.refl _
    · exact congruent.refl _

end Congruence

/-! ## The watch -/

theorem parseSimple_unexpected {context : JsonParseContext} (unexpected : beginsValue context.item = false)
    (nested : Bool) :
    parseSimple nested context = (none, context.error (.unexpectedCharacter context.item)) := by
  unfold beginsValue at unexpected
  rw [decide_eq_false_iff_not] at unexpected
  unfold parseSimple
  rw [if_neg (by tauto), if_neg (by tauto), if_neg (by tauto), if_neg (by tauto), if_neg (by tauto)]

/-- A round where the array is stuck reads nothing and leaves it stuck. -/
theorem stuck_arrayRound {fuel : ℕ} {nested : Bool} {s s' : ContainerState JsonValue} (stuck : Stuck s)
    (going : s.stops = false) (run : arrayRound (parseValue fuel) nested s = .ok s') :
    Stuck s' ∧ s'.stops = false := by
  obtain ⟨valid, other, unexpected⟩ := stuck
  have apart : ∀ item, beginsValue item = true → s.context.skipBlanks.item ≠ item := by
    intro item begins same
    rw [same, begins] at unexpected
    cases unexpected
  cases fuel with
  | zero =>
    unfold arrayRound at run
    rw [if_pos valid, if_neg other] at run
    cases run
  | succ fuel =>
    have value : parseValue (fuel + 1) true s.context.skipBlanks =
        .ok (none, s.context.skipBlanks.error (.unexpectedCharacter s.context.skipBlanks.item)) := by
      unfold parseValue
      rw [parseValueWith]
      unfold valueWith
      rw [skipBlanks_skipBlanks, if_pos valid, if_neg (apart _ (by decide)),
        if_neg (apart _ (by decide)), parseSimple_unexpected unexpected]
    unfold arrayRound at run
    rw [if_pos valid, if_neg other, value] at run
    cases run
    have same : (s.context.skipBlanks.error (.unexpectedCharacter s.context.skipBlanks.item)).skipBlanks =
        s.context.skipBlanks.error (.unexpectedCharacter s.context.skipBlanks.item) := by
      change s.context.skipBlanks.skipBlanks.error _ = _
      rw [skipBlanks_skipBlanks]
    refine ⟨?_, going⟩
    unfold Stuck
    rw [same]
    exact ⟨valid, other, unexpected⟩

/-- Where the parser returns it has not been stuck. -/
theorem follows_watched (fuel : ℕ) (nested : Bool) (context : JsonParseContext) :
    Follows (fun _ => False) (parseValueWith watchedRound fuel nested context) (parseValue fuel nested context) := by
  have congruent := congruent_follows (fun _ : JsonStop => False)
  induction fuel generalizing nested context with
  | zero => exact .refl _
  | succ fuel ih =>
    refine valueWith_congr congruent (fun context => ?_) (fun context => ?_) nested context
    · refine congruent.bind (follows_watchedLoop (fun s _ _ _ _ => ?_) _ _) fun _ => .refl _
      exact objectRound_congr congruent ih nested s
    · refine congruent.bind (follows_watchedLoop (fun s rounds s' going run => ?_) _ _) fun _ => .refl _
      unfold watchedRound
      split
      · rename_i stuck
        refine absurd run (watchedLoop_ne_ok (fun s => Stuck s ∧ s.stops = false) (fun s again => again.2)
          (fun s s' again run => ?_) ⟨stuck, going⟩)
        exact stuck_arrayRound again.1 again.2 run
      · exact arrayRound_congr congruent ih nested s

/-- Where the parse with a watch returns, the parser does. -/
theorem follows_parseValue (fuel : ℕ) (nested : Bool) (context : JsonParseContext) :
    Follows (fun _ => False) (parseValue fuel nested context) (parseValueWith watchedRound fuel nested context) := by
  have congruent := congruent_follows (fun _ : JsonStop => False)
  induction fuel generalizing nested context with
  | zero => exact .refl _
  | succ fuel ih =>
    refine valueWith_congr congruent (fun context => ?_) (fun context => ?_) nested context
    · refine congruent.bind (follows_watchedLoop (fun s _ _ _ _ => ?_) _ _) fun _ => .refl _
      exact objectRound_congr congruent ih nested s
    · refine congruent.bind (follows_watchedLoop (fun s _ _ _ _ => ?_) _ _) fun _ => .refl _
      unfold watchedRound
      split
      · exact .of_error
      · exact arrayRound_congr congruent ih nested s

/-- More fuel changes nothing once the watched parse is not cut. -/
theorem extends_watched {fuel fuel' : ℕ} (le : fuel ≤ fuel') (nested : Bool) (context : JsonParseContext) :
    Extends .unfinished (parseValueWith watchedRound fuel nested context)
      (parseValueWith watchedRound fuel' nested context) := by
  have congruent := congruent_extends JsonStop.unfinished
  induction fuel generalizing fuel' nested context with
  | zero => exact fun ends => absurd rfl ends
  | succ fuel ih =>
    obtain ⟨fuel', rfl⟩ : ∃ n, fuel' = n + 1 := ⟨fuel' - 1, by omega⟩
    have le : fuel ≤ fuel' := by omega
    refine valueWith_congr congruent (fun context => ?_) (fun context => ?_) nested context
    · refine congruent.bind (extends_watchedLoop (fun s => ?_) le _) fun _ => congruent.refl _
      exact objectRound_congr congruent (fun nested context => ih le nested context) nested s
    · refine congruent.bind (extends_watchedLoop (fun s => ?_) le _) fun _ => congruent.refl _
      unfold watchedRound
      split
      · exact congruent.refl _
      · exact arrayRound_congr congruent (fun nested context => ih le nested context) nested s

/-! ## The watched parse comes to an end -/

section Settles

variable {bound : ℕ} (settles : ∀ nested context, ahead context < bound →
  Settles .unfinished fun fuel => parseValueWith watchedRound fuel nested context)

include settles

theorem settles_watchedRound (nested : Bool) {s : ContainerState JsonValue} (inside : ahead s.context < bound) :
    Settles .unfinished fun fuel => watchedRound (parseValueWith watchedRound fuel) nested s := by
  have blanks := ahead_skipBlanks s.context
  refine .ite (fun _ => .const (nomatch ·)) fun _ => ?_
  refine .ite (fun _ => .ite (fun _ => .const (nomatch ·)) fun _ => ?_) fun _ => .const (nomatch ·)
  refine (settles true s.context.skipBlanks (by omega)).bind fun fuel r _ => .const ?_
  obtain ⟨value, context⟩ := r
  cases value <;> exact (nomatch ·)

theorem settles_memberRound (nested : Bool) (key : List Int) {s : ContainerState (List Int × JsonValue)}
    (inside : ahead s.context < bound) :
    Settles .unfinished fun fuel => memberRound (parseValueWith watchedRound fuel) nested key s := by
  have blanks := ahead_skipBlanks s.context.next
  have next := ahead_next s.context
  refine (settles true s.context.next.skipBlanks (by omega)).bind fun fuel r _ => .const ?_
  obtain ⟨value, context⟩ := r
  cases value with
  | none => exact (nomatch ·)
  | some value =>
    dsimp only
    split <;> exact (nomatch ·)

theorem settles_objectRound (nested : Bool) {s : ContainerState (List Int × JsonValue)}
    (inside : ahead s.context < bound) :
    Settles .unfinished fun fuel => objectRound (parseValueWith watchedRound fuel) nested s := by
  have blanks := ahead_skipBlanks s.context
  have read := ahead_parseString s.context.skipBlanks
  refine .ite (fun _ => .ite (fun _ => .const (nomatch ·)) fun _ => .ite (fun _ => ?_) fun _ => .const (nomatch ·))
    fun _ => .const (nomatch ·)
  generalize parseString s.context.skipBlanks = r at read ⊢
  obtain ⟨key, context⟩ := r
  change ahead context ≤ _ at read
  have more := ahead_skipBlanks context
  cases key with
  | none => exact .const (nomatch ·)
  | some key =>
    refine .ite (fun _ => settles_memberRound settles nested key ?_) fun _ => .const (nomatch ·)
    change ahead context.skipBlanks < bound
    omega

omit settles in
/-- The loop of a container, each of whose rounds reads a character or is the last one. -/
theorem settles_parseContainer {α : Type} {round : ℕ → ContainerState α → Except JsonStop (ContainerState α)}
    (settles : ∀ s, ahead s.context < bound → Settles .unfinished fun fuel => round fuel s)
    (reads : ∀ fuel s, Yields (round fuel s) fun s' => ahead s'.context ≤ ahead s.context ∧
      (s'.stops = false → ahead s'.context < ahead s.context)) (make : List α → JsonValue)
    {context : JsonParseContext} (inside : ahead context.next < bound) :
    Settles .unfinished fun fuel => parseContainer (round fuel) make fuel context := by
  refine (settles_watchedLoop (fun s : ContainerState α => ahead s.context < bound)
    (fun s => if s.stops then 0 else ahead s.context + 1) (fun s inside _ => settles s inside)
    (fun fuel s inside going => (reads fuel s).mono fun s' read => ⟨by omega, ?_⟩) inside).bind
      fun _ _ _ => .const (nomatch ·)
  rw [going, if_neg Bool.false_ne_true]
  cases last : s'.stops with
  | true => exact Nat.succ_pos _
  | false =>
    have less := read.2 last
    rw [if_neg Bool.false_ne_true]
    omega

end Settles

theorem settles_watched (nested : Bool) (context : JsonParseContext) :
    Settles .unfinished fun fuel => parseValueWith watchedRound fuel nested context := by
  induction same : ahead context using Nat.strongRecOn generalizing nested context with
  | _ size ih =>
    have inner : ∀ nested context, ahead context < size →
        Settles .unfinished fun fuel => parseValueWith watchedRound fuel nested context :=
      fun nested context less => ih _ less nested context rfl
    have blanks := ahead_skipBlanks context
    have next := ahead_next context.skipBlanks
    refine .of_succ ?_
    refine .ite (fun valid => ?_) fun _ => .ite (fun _ => .const (nomatch ·)) fun _ => .const (nomatch ·)
    have positive := ahead_pos valid
    refine .ite (fun _ => ?_) fun _ => .ite (fun _ => ?_) fun _ => .const (nomatch ·)
    · exact settles_parseContainer (fun s less => settles_objectRound inner nested less)
        (fun fuel s => yields_objectRound (readsAhead_watched fuel) nested s) _ (by omega)
    · exact settles_parseContainer (fun s less => settles_watchedRound inner nested less)
        (fun fuel s => yields_watchedRound (readsAhead_watched fuel) nested s) _ (by omega)

/-! ## Termination -/

/-- **JSON parsing ends.**  For every text, whatever is read behind its end, the parser returns exactly
when it never comes to an array whose next item neither begins a value nor ends the array. -/
theorem parseJsonText_returns_iff (text : List Character) (afterEnd : Character) :
    (∃ fuel r, parseJsonText fuel text afterEnd = .ok r) ↔
      ∀ fuel, watchJsonText fuel text afterEnd ≠ .error .stuck := by
  have stops : ∀ fuel, watchJsonText fuel text afterEnd = .error .stuck →
      parseValueWith watchedRound fuel false (.make text afterEnd) = .error .stuck := by
    intro fuel stop
    unfold watchJsonText at stop
    generalize parseValueWith watchedRound fuel false (.make text afterEnd) = x at stop ⊢
    cases x with
    | ok a => cases stop
    | error e => exact congrArg _ (Except.error.inj stop)
  constructor
  · intro returns fuel stop
    obtain ⟨enough, r, run⟩ := returns
    unfold parseJsonText at run
    cases parsed : parseValue enough false (.make text afterEnd) with
    | error e =>
      rw [parsed] at run
      cases run
    | ok a =>
      have watched := (follows_watched enough false _).ok parsed
      have more := extends_watched (Nat.le_max_left enough fuel) false (.make text afterEnd)
        (by rw [watched]; exact (nomatch ·))
      have stuck := extends_watched (Nat.le_max_right enough fuel) false (.make text afterEnd)
        (by rw [stops fuel stop]; exact (nomatch ·))
      rw [stops fuel stop, more, watched] at stuck
      cases stuck
  · intro free
    obtain ⟨fuel, a, run⟩ := (settles_watched false (.make text afterEnd)).returns fun fuel e run => by
      cases e with
      | unfinished => rfl
      | stuck =>
        refine absurd ?_ (free fuel)
        unfold watchJsonText
        rw [run]
        rfl
    refine ⟨fuel, textOf a, ?_⟩
    unfold parseJsonText
    rw [(follows_parseValue fuel false _).ok run]
    rfl

/-- In the text `[x]` the item `x` is never left. -/
theorem not_parseJsonText_returns :
    ¬∃ fuel r, parseJsonText fuel ['['.toUInt8, 'x'.toUInt8, ']'.toUInt8] 0 = .ok r := by
  intro returns
  obtain ⟨fuel, r, run⟩ := returns
  unfold parseJsonText at run
  cases parsed : parseValue fuel false (.make ['['.toUInt8, 'x'.toUInt8, ']'.toUInt8] 0) with
  | error e =>
    rw [parsed] at run
    cases run
  | ok a =>
    have watched := (follows_watched fuel false _).ok parsed
    cases fuel with
    | zero => cases watched
    | succ fuel =>
      cases fuel with
      | zero => cases watched
      | succ fuel => cases watched

end JsonParser

end Liberty
