import Liberty.Text.RealLiteral
import Liberty.Library.WatchedProgram
import Liberty.Numeric.Integer64

/-!
# JSON_PARSE_CONTEXT

The characters that a JSON parser has still to read, and the errors that it has told its handler.
Lines and columns are left out.
-/

namespace Liberty

/-- The messages of the parser. -/
inductive JsonError
  | invalidJsonText
  | unexpectedStringAtTopLevel
  | unexpectedNumberAtTopLevel
  | unexpectedTrueAtTopLevel
  | unexpectedFalseAtTopLevel
  | unexpectedNullAtTopLevel
  | unexpectedCharacter (item : Character)
  | noValue
  | unfinishedObject
  | expectedString
  | expectedColon
  | duplicateKey (key : List Int)
  | expectedComma
  | unfinishedArray
  | unfinishedString
  | invalidRawCharacter
  | invalidEscapeSequence
  | expectedFourHexadecimalDigits (got : ℕ)
  | unfinishedNumber
  | invalidNumber
  | expectedTrue
  | expectedFalse
  | expectedNull

/-- The data is what is left of the stream from `last_character` on.  `afterEnd` is what
`last_character` answers when the stream has ended. -/
structure JsonParseContext where
  data : List Character
  afterEnd : Character
  errors : List JsonError

namespace JsonParseContext

/-- `make`, which reads the first character. -/
def make (text : List Character) (afterEnd : Character) : JsonParseContext where
  data := text
  afterEnd
  errors := []

def isValid (c : JsonParseContext) : Bool :=
  !c.data.isEmpty

def item (c : JsonParseContext) : Character :=
  c.data.headD c.afterEnd

def next (c : JsonParseContext) : JsonParseContext :=
  { c with data := c.data.tail }

def skipBlanks (c : JsonParseContext) : JsonParseContext :=
  { c with data := c.data.dropWhile Character.isSeparator }

/-- `skip`, from the next character of the word on. -/
def skip : List Character → JsonParseContext → Bool × JsonParseContext
  | [], c => (true, c)
  | character :: word, c =>
    if c.isValid ∧ character = c.item then skip word c.next else (false, c.next)

def error (c : JsonParseContext) (str : JsonError) : JsonParseContext :=
  { c with errors := c.errors ++ [str] }

@[simp] theorem data_next (c : JsonParseContext) : c.next.data = c.data.tail := rfl

theorem isValid_iff {c : JsonParseContext} : c.isValid = true ↔ c.data ≠ [] := by
  unfold isValid
  rw [Bool.not_eq_true', List.isEmpty_eq_false_iff]

theorem isValid_eq_false_iff {c : JsonParseContext} : c.isValid = false ↔ c.data = [] := by
  unfold isValid
  rw [Bool.not_eq_false', List.isEmpty_iff]

end JsonParseContext

/-!
## JSON_PARSER

The loops of `parse_string` and `parse_number` read what is left of the data.  Those of `parse_array`
and `parse_object` go on after an error of a nested value; they are cut after a number of rounds.
-/

/-! ## Values -/

/-- The attributes of a JSON_NUMBER. -/
structure JsonNumber where
  sign : Int
  int : ℕ
  frac : ℕ
  fracExp : Int
  exp : Int

/-- JSON_VALUE: the keys and the strings are told by the codes that they have been extended by, the
members of an object in the order in which they have been added. -/
inductive JsonValue
  | object (members : List (List Int × JsonValue))
  | array (items : List JsonValue)
  | string (codes : List Int)
  | number (number : JsonNumber)
  | true
  | false
  | null

/-- `?:=` for a JSON_TEXT -/
def JsonValue.isText : JsonValue → Bool
  | .object _ => Bool.true
  | .array _ => Bool.true
  | _ => Bool.false

namespace JsonParser

/-! ## Strings -/

/-- The escapes of one letter. -/
def escaped (letter : Character) : Option Int :=
  if letter = '"'.toUInt8 ∨ letter = '/'.toUInt8 then some letter.code
  else if letter = 'b'.toUInt8 then some 8
  else if letter = 'f'.toUInt8 then some 12
  else if letter = 'n'.toUInt8 then some 10
  else if letter = 'r'.toUInt8 then some 13
  else if letter = 't'.toUInt8 then some 9
  else none

def isHexadecimalDigit (c : Character) : Bool :=
  c.isDecimalDigit ∨ ('a'.toUInt8 ≤ c ∧ c ≤ 'f'.toUInt8) ∨ ('A'.toUInt8 ≤ c ∧ c ≤ 'F'.toUInt8)

def hexadecimalValue (c : Character) : Int :=
  if c.code < Character.code 'A'.toUInt8 then c.code - 48
  else if c.code < Character.code 'a'.toUInt8 then c.code - 55
  else c.code - 87

/-- The state of `parse_string`: 0, 1, and 2 to 5 with the value of the digits that have been read. -/
inductive StringState
  | normal
  | escape
  | hexadecimal (read : ℕ) (unicode : Int)

/-- What a round of a loop that reads characters comes to. -/
inductive Round (σ ρ : Type)
  | next (state : σ)
  | done (result : ρ)
  | error (str : JsonError)

/-- The `inspect` of the loop of `parse_string`. -/
def stringRound (item : Character) : StringState → List Int → Round (StringState × List Int) (List Int)
  | .normal, str =>
    if item = '\\'.toUInt8 then .next (.escape, str)
    else if item = '"'.toUInt8 then .done str
    else if item.code < 32 then .error .invalidRawCharacter
    else .next (.normal, str ++ [item.code])
  | .escape, str =>
    match escaped item with
    | some unicode => .next (.normal, str ++ [unicode])
    | none =>
      if item = 'u'.toUInt8 then .next (.hexadecimal 0 0, str)
      else .error .invalidEscapeSequence
  | .hexadecimal read unicode, str =>
    if isHexadecimalDigit item then
      let unicode := unicode * 16 + hexadecimalValue item
      if read = 3 then .next (.normal, str ++ [unicode]) else .next (.hexadecimal (read + 1) unicode, str)
    else .error (.expectedFourHexadecimalDigits read)

/-- The loop of `parse_string`: each round reads a character. -/
def stringLoop (state : StringState) (str : List Int) : List Character → Except JsonError (List Int) × List Character
  | [] => (.error .unfinishedString, [])
  | item :: rest =>
    match stringRound item state str with
    | .next (state, str) => stringLoop state str rest
    | .done str => (.ok str, rest)
    | .error e => (.error e, rest)

def parseString (context : JsonParseContext) : Option (List Int) × JsonParseContext :=
  match stringLoop .normal [] context.next.data with
  | (.ok str, rest) => (some str, { context with data := rest })
  | (.error e, rest) => (none, { context with data := rest }.error e)

/-! ## Numbers -/

/-- The state of `parse_number`: 0, 10, 11, 20, 21, 22. -/
inductive NumberState
  | integral
  | fractionalFirst
  | fractional
  | exponential
  | exponentialSigned
  | exponentialNext

/-- The locals of `parse_number`. -/
structure NumberLocals where
  int : ℕ
  frac : ℕ
  fracExp : Int
  exp : Int
  expneg : Int

/-- The `inspect` of the loop of `parse_number`. -/
def numberRound (item : Character) (s : NumberLocals) : NumberState → Round (NumberState × NumberLocals) NumberLocals
  | .integral =>
    if item = '.'.toUInt8 then .next (.fractionalFirst, s)
    else if item = 'e'.toUInt8 ∨ item = 'E'.toUInt8 then .next (.exponential, s)
    else if item.isDecimalDigit then
      .next (.integral, { s with int := naturalWrap64 (naturalWrap64 (s.int * 10) + item.decimalValue.toNat) })
    else .done s
  | .fractionalFirst =>
    if item.isDecimalDigit then .next (.fractional, { s with frac := item.decimalValue.toNat, fracExp := 1 })
    else .error .invalidNumber
  | .fractional =>
    if item.isDecimalDigit then
      .next (.fractional, { s with
        frac := naturalWrap64 (naturalWrap64 (s.frac * 10) + item.decimalValue.toNat)
        fracExp := s.fracExp + 1 })
    else if item = 'e'.toUInt8 ∨ item = 'E'.toUInt8 then .next (.exponential, s)
    else .done s
  | .exponential =>
    if item = '+'.toUInt8 then .next (.exponentialSigned, { s with expneg := 1 })
    else if item = '-'.toUInt8 then .next (.exponentialSigned, { s with expneg := -1 })
    else if item.isDecimalDigit then .next (.exponentialNext, { s with exp := item.decimalValue, expneg := 1 })
    else .error .invalidNumber
  | .exponentialSigned =>
    if item.isDecimalDigit then .next (.exponentialNext, { s with exp := item.decimalValue })
    else .error .invalidNumber
  | .exponentialNext =>
    if item.isDecimalDigit then
      .next (.exponentialNext, { s with exp := wrap64 (wrap64 (s.exp * 10) + item.decimalValue) })
    else .done s

/-- The loop of `parse_number`: the round that ends it reads no character. -/
def numberLoop (state : NumberState) (s : NumberLocals) :
    List Character → Except JsonError NumberLocals × List Character
  | [] => (.error .unfinishedNumber, [])
  | item :: rest =>
    match numberRound item s state with
    | .next (state, s) => numberLoop state s rest
    | .done s => (.ok s, item :: rest)
    | .error e => (.error e, item :: rest)

/-- The locals before the first digit. -/
def NumberLocals.blank : NumberLocals where
  int := 0
  frac := 0
  fracExp := 0
  exp := 0
  expneg := 0

/-- `parse_number` from the first digit on.  After a first `0` the item is read whether or not the stream
has ended. -/
def numberDigits (context : JsonParseContext) : Except JsonError NumberLocals × List Character :=
  if context.isValid then
    if context.item = '0'.toUInt8 then
      let context := context.next
      if context.item = '.'.toUInt8 then numberLoop .fractionalFirst .blank context.next.data
      else if context.item = 'e'.toUInt8 ∨ context.item = 'E'.toUInt8 then
        numberLoop .exponential .blank context.next.data
      else if context.item.isDecimalDigit then (.error .invalidNumber, context.data)
      else (.ok .blank, context.data)
    else if context.item.isDecimalDigit then
      numberLoop .integral { NumberLocals.blank with int := context.item.decimalValue.toNat } context.next.data
    else (.error .invalidNumber, context.data)
  else (.error .unfinishedNumber, context.data)

def parseNumber (context : JsonParseContext) : Option JsonNumber × JsonParseContext :=
  let negative := context.item = '-'.toUInt8
  match numberDigits (if negative then context.next else context) with
  | (.ok s, rest) =>
    (some {
      sign := if negative then -1 else 1
      int := s.int
      frac := s.frac
      fracExp := s.fracExp
      exp := wrap64 (s.expneg * s.exp) }, { context with data := rest })
  | (.error e, rest) => (none, { context with data := rest }.error e)

/-! ## Words -/

def parseWord (word : List Character) (value : JsonValue) (e : JsonError) (context : JsonParseContext) :
    Option JsonValue × JsonParseContext :=
  match context.skip word with
  | (.true, context) => (some value, context)
  | (.false, context) => (none, context.error e)

def parseTrue (context : JsonParseContext) : Option JsonValue × JsonParseContext :=
  parseWord ("true".toList.map Char.toUInt8) .true .expectedTrue context

def parseFalse (context : JsonParseContext) : Option JsonValue × JsonParseContext :=
  parseWord ("false".toList.map Char.toUInt8) .false .expectedFalse context

def parseNull (context : JsonParseContext) : Option JsonValue × JsonParseContext :=
  parseWord ("null".toList.map Char.toUInt8) .null .expectedNull context

/-! ## Arrays, objects and values -/

/-- Why a parse has no result yet: its fuel is used up, or it has been stopped where it would go on for
ever. -/
inductive JsonStop
  | unfinished
  | stuck

/-- What a parse gives: a value or Void, and the context. -/
abbrev JsonParsed : Type :=
  Except JsonStop (Option JsonValue × JsonParseContext)

/-- The locals of the loops of `parse_array` and `parse_object`. -/
structure ContainerState (α : Type) where
  members : List α
  context : JsonParseContext
  done : Bool
  error : Bool

namespace ContainerState

variable {α : Type}

def stops (s : ContainerState α) : Bool :=
  s.done || s.error

def fails (s : ContainerState α) (e : JsonError) : ContainerState α :=
  { s with context := s.context.error e, error := true }

/-- The closing character is only read where the container is nested. -/
def closes (s : ContainerState α) (nested : Bool) : ContainerState α :=
  { s with context := if nested then s.context.next else s.context, done := true }

/-- What the round does after a member: `closing` ends the container. -/
def afterMember (s : ContainerState α) (closing : Character) (unfinished : JsonError) (nested : Bool) :
    ContainerState α :=
  let s := { s with context := s.context.skipBlanks }
  if s.context.isValid then
    if s.context.item = closing then s.closes nested
    else if s.context.item = ','.toUInt8 then { s with context := s.context.next }
    else s.fails .expectedComma
  else s.fails unfinished

end ContainerState

section Containers

variable (parseValue : Bool → JsonParseContext → JsonParsed)

/-- A round of `parse_array`. -/
def arrayRound (nested : Bool) (s : ContainerState JsonValue) : Except JsonStop (ContainerState JsonValue) :=
  let s := { s with context := s.context.skipBlanks }
  if s.context.isValid then
    if s.context.item = ']'.toUInt8 then .ok (s.closes nested)
    else do
      let (value, context) ← parseValue true s.context
      match value with
      | some value =>
        return { s with members := s.members ++ [value], context }.afterMember ']'.toUInt8 .unfinishedArray nested
      | none => return { s with context }
  else .ok (s.fails .unfinishedArray)

/-- A round of `parse_object` behind a key and its colon. -/
def memberRound (nested : Bool) (key : List Int) (s : ContainerState (List Int × JsonValue)) :
    Except JsonStop (ContainerState (List Int × JsonValue)) := do
  let (value, context) ← parseValue true s.context.next.skipBlanks
  match value with
  | some value =>
    if s.members.any fun member => member.1 = key then
      return { s with context }.fails (.duplicateKey key)
    else
      return { s with members := s.members ++ [(key, value)], context }.afterMember '\x7d'.toUInt8
        .unfinishedObject nested
  | none => return { s with context }

/-- A round of `parse_object`. -/
def objectRound (nested : Bool) (s : ContainerState (List Int × JsonValue)) :
    Except JsonStop (ContainerState (List Int × JsonValue)) :=
  let s := { s with context := s.context.skipBlanks }
  if s.context.isValid then
    if s.context.item = '\x7d'.toUInt8 then .ok (s.closes nested)
    else if s.context.item = '"'.toUInt8 then
      match parseString s.context with
      | (some key, context) =>
        let s := { s with context := context.skipBlanks }
        if s.context.isValid ∧ s.context.item = ':'.toUInt8 then memberRound parseValue nested key s
        else .ok (s.fails .expectedColon)
      | (none, context) => .ok { s with context }
    else .ok (s.fails .expectedString)
  else .ok (s.fails .unfinishedObject)

end Containers

/-- The loop of a container, behind its first character. -/
def parseContainer {α : Type} (round : ContainerState α → Except JsonStop (ContainerState α))
    (make : List α → JsonValue) (rounds : ℕ) (context : JsonParseContext) : JsonParsed := do
  let s ← watchedLoop .unfinished ContainerState.stops round rounds ⟨[], context.next, false, false⟩
  return (if s.done then some (make s.members) else none, s.context)

/-- The characters that `parse_value` takes for the beginning of a value. -/
def beginsValue (item : Character) : Bool :=
  item = '\x7b'.toUInt8 ∨ item = '['.toUInt8 ∨ item = '"'.toUInt8 ∨ item.isDecimalDigit ∨ item = '-'.toUInt8 ∨
    item = 't'.toUInt8 ∨ item = 'f'.toUInt8 ∨ item = 'n'.toUInt8

/-- The branches of `parse_value` that do not go into a container. -/
def parseSimple (nested : Bool) (context : JsonParseContext) : Option JsonValue × JsonParseContext :=
  if context.item = '"'.toUInt8 then
    if nested then
      let (str, context) := parseString context
      (str.map .string, context)
    else (none, context.error .unexpectedStringAtTopLevel)
  else if context.item.isDecimalDigit ∨ context.item = '-'.toUInt8 then
    if nested then
      let (number, context) := parseNumber context
      (number.map .number, context)
    else (none, context.error .unexpectedNumberAtTopLevel)
  else if context.item = 't'.toUInt8 then
    if nested then parseTrue context else (none, context.error .unexpectedTrueAtTopLevel)
  else if context.item = 'f'.toUInt8 then
    if nested then parseFalse context else (none, context.error .unexpectedFalseAtTopLevel)
  else if context.item = 'n'.toUInt8 then
    if nested then parseNull context else (none, context.error .unexpectedNullAtTopLevel)
  else (none, context.error (.unexpectedCharacter context.item))

/-- `parse_value`, with what it does for an array. -/
def valueWith (parseObject parseArray : JsonParseContext → JsonParsed) (nested : Bool) (context : JsonParseContext) :
    JsonParsed :=
  let context := context.skipBlanks
  if context.isValid then
    if context.item = '\x7b'.toUInt8 then parseObject context
    else if context.item = '['.toUInt8 then parseArray context
    else .ok (parseSimple nested context)
  else if nested then .ok (none, context.error .noValue)
  else .ok (none, context)

/-- `parse_value`, with the rounds of the arrays; the nested values have one unit of fuel less. -/
def parseValueWith (round : (Bool → JsonParseContext → JsonParsed) → Bool → ContainerState JsonValue →
    Except JsonStop (ContainerState JsonValue)) : ℕ → Bool → JsonParseContext → JsonParsed
  | 0, _, _ => .error .unfinished
  | fuel + 1, nested, context =>
    let parseValue := parseValueWith round fuel
    valueWith (parseContainer (objectRound parseValue nested) .object fuel)
      (parseContainer (round parseValue nested) .array fuel) nested context

/-- `parse_value` -/
def parseValue : ℕ → Bool → JsonParseContext → JsonParsed :=
  parseValueWith arrayRound

/-- What `parse_json_text` does with the value. -/
def textOf : Option JsonValue × JsonParseContext → Option JsonValue × JsonParseContext
  | (some value, context) =>
    if value.isText then (some value, context) else (none, context.error .invalidJsonText)
  | (none, context) => (none, context)

/-- `parse_json_text`, with `fuel` for the loops and the recursive calls. -/
def parseJsonText (fuel : ℕ) (text : List Character) (afterEnd : Character) : JsonParsed := do
  return textOf (← parseValue fuel false (.make text afterEnd))

end JsonParser

end Liberty
