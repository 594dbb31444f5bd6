import Liberty.Io.Base64RoundTrip

/-!
# QUOTED_PRINTABLE_OUTPUT_STREAM and QUOTED_PRINTABLE_INPUT_STREAM

The encoder writes some characters as `=` and two hexadecimal digits and leaves the others as they are;
the decoder takes each `=` for the beginning of such a group.  The underlying streams are those of
strings.
-/

namespace Liberty

section

namespace QuotedPrintable

def equals : Character :=
  '='.toUInt8

/-- `hexadecimal_digit` of an INTEGER_16. -/
def hexadecimalDigit (value : Int) : Character :=
  if value ≤ 9 then UInt8.ofNat (value + Character.code '0'.toUInt8).toNat
  else UInt8.ofNat (Character.code 'A'.toUInt8 + (value - 10)).toNat

/-- `to_hexadecimal_in`, with `timez` digits left to write. -/
def toHexadecimalIn : ℕ → Int → List Character
  | 0, _ => []
  | timez + 1, value => toHexadecimalIn timez (value / 16) ++ [hexadecimalDigit (value % 16)]

end QuotedPrintable

open QuotedPrintable

/-! ## The encoder -/

/-- The attributes of a QUOTED_PRINTABLE_OUTPUT_STREAM: what the underlying stream has got. -/
structure QuotedPrintableOutputStream where
  stream : List Character

namespace QuotedPrintableOutputStream

/-- `filtered_put_character` of the underlying stream. -/
def streamPut (s : QuotedPrintableOutputStream) (c : Character) : QuotedPrintableOutputStream :=
  { s with stream := s.stream ++ [c] }

def putQuotedCharacter (s : QuotedPrintableOutputStream) (c : Character) : Option QuotedPrintableOutputStream := do
  -- The code is an INTEGER_16: four digits.
  let text := toHexadecimalIn 4 c.code
  let s := s.streamPut equals
  let s := s.streamPut (← text[text.length - 2]?)
  return s.streamPut (← text.getLast?)

def filteredPutCharacter (s : QuotedPrintableOutputStream) (c : Character) :
    Option QuotedPrintableOutputStream :=
  if c.code ≤ 9 ∨ (11 ≤ c.code ∧ c.code ≤ 31) ∨ 128 ≤ c.code then s.putQuotedCharacter c
  else some (s.streamPut c)

end QuotedPrintableOutputStream

/-- What the underlying stream gets when a sequence of characters is put. -/
def QuotedPrintable.encode (bytes : List Character) : Option (List Character) := do
  return (← bytes.foldlM QuotedPrintableOutputStream.filteredPutCharacter ⟨[]⟩).stream

/-! ## The decoder -/

namespace StringInputStream

def validLastCharacter (s : StringInputStream) : Bool :=
  1 ≤ s.offset ∧ s.offset ≤ s.string.length

def filteredUnreadCharacter (s : StringInputStream) : StringInputStream :=
  { s with offset := s.offset - 1 }

end StringInputStream

/-- The attributes of a QUOTED_PRINTABLE_INPUT_STREAM. -/
structure QuotedPrintableInputStream where
  stream : StringInputStream
  lastCharacterFlag : Bool
  filteredLastCharacter : Character
  lastCharacterSwap : Character

namespace QuotedPrintableInputStream

def connectTo (stream : StringInputStream) : QuotedPrintableInputStream where
  stream
  lastCharacterFlag := false
  filteredLastCharacter := 0
  lastCharacterSwap := 0

def endOfInput (s : QuotedPrintableInputStream) : Bool :=
  s.stream.endOfInput

def swapLastCharacter (s : QuotedPrintableInputStream) : QuotedPrintableInputStream :=
  { s with
    filteredLastCharacter := s.lastCharacterSwap
    lastCharacterSwap := s.filteredLastCharacter }

/-- The branches of `from_hexadecimal` for the hexadecimal digits. -/
def hexadecimalValue (c : Character) : Option Int :=
  if '0'.toUInt8 ≤ c ∧ c ≤ '9'.toUInt8 then some (c.code - Character.code '0'.toUInt8)
  else if 'a'.toUInt8 ≤ c ∧ c ≤ 'f'.toUInt8 then some (c.code - Character.code 'a'.toUInt8 + 10)
  else if 'A'.toUInt8 ≤ c ∧ c ≤ 'F'.toUInt8 then some (c.code - Character.code 'A'.toUInt8 + 10)
  else none

/-- The loop of `from_hexadecimal`: another character than a digit ends it, after the round. -/
def fromHexadecimalLoop : List Character → (n result : Int) → Int
  | [], _, result => result
  | c :: rest, n, result =>
    match hexadecimalValue c with
    | some n => fromHexadecimalLoop rest n (result * 16 + n)
    | none => result * 16 + n

def fromHexadecimal (s : List Character) : Int :=
  fromHexadecimalLoop s 0 0

/-- `read_quoted_character`; a character that the underlying stream does not have fails. -/
def readQuotedCharacter (s : QuotedPrintableInputStream) : Option (QuotedPrintableInputStream × Bool) := do
  let stream := s.stream.filteredReadCharacter
  let first ← stream.filteredLastCharacter
  if stream.endOfInput then return ({ s with stream := stream.filteredUnreadCharacter }, false)
  let stream := stream.filteredReadCharacter
  let second ← stream.filteredLastCharacter
  let i := fromHexadecimal [first, second]
  return ({ s with stream, filteredLastCharacter := UInt8.ofNat i.toNat }, true)

/-- What `filtered_read_character` does with a valid character of the underlying stream. -/
def decode (s : QuotedPrintableInputStream) (c : Character) : Option QuotedPrintableInputStream :=
  if c ≠ equals ∨ s.stream.endOfInput = true then some { s with filteredLastCharacter := c }
  else do
    let (s, read) ← s.readQuotedCharacter
    return if read then s else { s with filteredLastCharacter := c }

def filteredReadCharacter (s : QuotedPrintableInputStream) : Option QuotedPrintableInputStream :=
  if s.lastCharacterFlag then some { s.swapLastCharacter with lastCharacterFlag := false }
  else
    let s := { s with stream := s.stream.filteredReadCharacter }
    if s.stream.validLastCharacter then do s.decode (← s.stream.filteredLastCharacter)
    else some s

def filteredUnreadCharacter (s : QuotedPrintableInputStream) : QuotedPrintableInputStream :=
  { s.swapLastCharacter with lastCharacterFlag := true }

end QuotedPrintableInputStream

/-! ## A reader -/

namespace QuotedPrintable

open QuotedPrintableInputStream

/-- One round of a reader that keeps what it reads. -/
def readNext (state : QuotedPrintableInputStream × List Character) :
    Option (QuotedPrintableInputStream × List Character) := do
  return (← state.1.filteredReadCharacter, state.2 ++ [state.1.filteredLastCharacter])

/-- What a reader gets that reads up to the end of the input. -/
def readAll (fuel : ℕ) (text : List Character) : Option (List Character) := do
  let s ← (connectTo (.fromString text)).filteredReadCharacter
  return (← untilLoop (fun state => some state.1.endOfInput) readNext fuel (s, [])).2

/-- Reading back what was written delivers the bytes. -/
def RoundTrips (bytes : List Character) : Prop :=
  ∃ text, encode bytes = some text ∧ ∃ fuel, readAll fuel text = some bytes

end QuotedPrintable

end

/-!
## The quoted-printable encoding, there and back

The encoder leaves `=` as it is, and the decoder takes it for the beginning of a group.  Where there is no
`=` in the bytes, the decoder gives them back; where there is one, it delivers something else or it fails
at the end of the text.
-/

theorem StringInputStream.last_of_nil {s : StringInputStream} (rest : s.rest = []) :
    s.filteredReadCharacter.filteredLastCharacter = none := by
  have le : s.string.length ≤ s.offset := List.drop_eq_nil_iff.mp rest
  exact List.getElem?_eq_none le

namespace QuotedPrintable

open QuotedPrintableInputStream

/-! ## The digits -/

theorem hexadecimalValue_digit {value : Int} (positive : 0 ≤ value) (less : value < 16) :
    hexadecimalValue (hexadecimalDigit value) = some value := by
  have all : ∀ v : Fin 16, hexadecimalValue (hexadecimalDigit v) = some (v : Int) := by decide
  obtain ⟨v, rfl⟩ := Int.eq_ofNat_of_zero_le positive
  exact all ⟨v, by omega⟩

theorem hexadecimalDigit_ne_equals {value : Int} (positive : 0 ≤ value) (less : value < 16) :
    hexadecimalDigit value ≠ equals := by
  have all : ∀ v : Fin 16, hexadecimalDigit v ≠ equals := by decide
  obtain ⟨v, rfl⟩ := Int.eq_ofNat_of_zero_le positive
  exact all ⟨v, by omega⟩

/-- The character of a group. -/
def grouped (x y : Character) : Character :=
  UInt8.ofNat (fromHexadecimal [x, y]).toNat

theorem grouped_digits (c : Character) :
    grouped (hexadecimalDigit (c.code / 16)) (hexadecimalDigit (c.code % 16)) = c := by
  have nonneg := c.code_nonneg
  have less := c.code_lt
  have value : fromHexadecimal [hexadecimalDigit (c.code / 16), hexadecimalDigit (c.code % 16)] = c.code := by
    unfold fromHexadecimal fromHexadecimalLoop
    rw [hexadecimalValue_digit (by omega) (by omega)]
    unfold fromHexadecimalLoop
    rw [hexadecimalValue_digit (by omega) (by omega)]
    dsimp only
    unfold fromHexadecimalLoop
    omega
  unfold grouped
  rw [value]
  exact UInt8.ofNat_toNat

theorem grouped_equals (x : Character) : grouped equals x ≠ equals ∧ grouped x equals ≠ equals := by
  have all : ∀ code : Fin 256, grouped equals (UInt8.ofNat code) ≠ equals ∧
      grouped (UInt8.ofNat code) equals ≠ equals := by decide +kernel
  have here := all ⟨x.toNat, x.toNat_lt⟩
  rw [UInt8.ofNat_toNat] at here
  exact here

/-! ## What is written -/

def Quoted (c : Character) : Prop :=
  c.code ≤ 9 ∨ (11 ≤ c.code ∧ c.code ≤ 31) ∨ 128 ≤ c.code

instance (c : Character) : Decidable (Quoted c) :=
  inferInstanceAs (Decidable (_ ∨ _))

def encodingOf (c : Character) : List Character :=
  if Quoted c then [equals, hexadecimalDigit (c.code / 16), hexadecimalDigit (c.code % 16)] else [c]

def encoding (bytes : List Character) : List Character :=
  bytes.flatMap encodingOf

theorem encoding_quoted {c : Character} (quoted : Quoted c) (bytes : List Character) :
    encoding (c :: bytes) =
      equals :: hexadecimalDigit (c.code / 16) :: hexadecimalDigit (c.code % 16) :: encoding bytes := by
  unfold encoding
  rw [List.flatMap_cons, encodingOf, if_pos quoted]
  rfl

theorem encoding_plain {c : Character} (plain : ¬Quoted c) (bytes : List Character) :
    encoding (c :: bytes) = c :: encoding bytes := by
  unfold encoding
  rw [List.flatMap_cons, encodingOf, if_neg plain]
  rfl

theorem toHexadecimalIn_four (c : Character) : ∃ high middle, toHexadecimalIn 4 c.code =
    [high, middle, hexadecimalDigit (c.code / 16), hexadecimalDigit (c.code % 16)] := by
  have nonneg := c.code_nonneg
  have less := c.code_lt
  have small : c.code / 16 % 16 = c.code / 16 := by omega
  refine ⟨hexadecimalDigit (c.code / 16 / 16 / 16 % 16), hexadecimalDigit (c.code / 16 / 16 % 16), ?_⟩
  simp only [toHexadecimalIn, List.nil_append, List.cons_append, small]

theorem filteredPutCharacter_eq (s : QuotedPrintableOutputStream) (c : Character) :
    s.filteredPutCharacter c = some ⟨s.stream ++ encodingOf c⟩ := by
  unfold QuotedPrintableOutputStream.filteredPutCharacter encodingOf
  by_cases quoted : Quoted c
  · obtain ⟨high, middle, digits⟩ := toHexadecimalIn_four c
    rw [if_pos quoted, if_pos (show c.code ≤ 9 ∨ _ from quoted)]
    unfold QuotedPrintableOutputStream.putQuotedCharacter QuotedPrintableOutputStream.streamPut
    rw [digits]
    simp
  · rw [if_neg quoted, if_neg (show ¬(c.code ≤ 9 ∨ _) from quoted)]
    rfl

theorem foldlM_put (bytes : List Character) (s : QuotedPrintableOutputStream) :
    bytes.foldlM QuotedPrintableOutputStream.filteredPutCharacter s = some ⟨s.stream ++ encoding bytes⟩ := by
  induction bytes generalizing s with
  | nil =>
    unfold encoding
    rw [List.flatMap_nil, List.append_nil]
    rfl
  | cons c bytes ih =>
    rw [List.foldlM_cons, filteredPutCharacter_eq, Returns.some_bind, ih]
    unfold encoding
    rw [List.flatMap_cons, List.append_assoc]

theorem encode_eq_encoding (bytes : List Character) : encode bytes = some (encoding bytes) := by
  unfold encode
  rw [foldlM_put]
  rfl

/-! ## What is read -/

/-- What a reader makes of a text. -/
def decoding : List Character → Option (List Character)
  | [] => some []
  | [c] => if c = equals then none else some [c]
  | [c, x] => if c = equals then none else (decoding [x]).map (c :: ·)
  | c :: x :: y :: text =>
    if c = equals then (decoding text).map (grouped x y :: ·) else (decoding (x :: y :: text)).map (c :: ·)

theorem decoding_plain {c : Character} (plain : c ≠ equals) (text : List Character) :
    decoding (c :: text) = (decoding text).map (c :: ·) := by
  match text with
  | [] => exact if_neg plain
  | [_] => exact if_neg plain
  | _ :: _ :: _ => exact if_neg plain

theorem decoding_group (x y : Character) (text : List Character) :
    decoding (equals :: x :: y :: text) = (decoding text).map (grouped x y :: ·) :=
  if_pos rfl

theorem decoding_equals : decoding [equals] = none :=
  rfl

theorem decoding_equals_one (x : Character) : decoding [equals, x] = none :=
  if_pos rfl

section Reader

variable {s : QuotedPrintableInputStream} {c : Character} {text : List Character}

theorem read_end (fresh : s.lastCharacterFlag = false) (rest : s.stream.rest = []) :
    ∃ s', s.filteredReadCharacter = some s' ∧ s'.endOfInput = true := by
  obtain ⟨-, ended⟩ := StringInputStream.read_nil rest
  have invalid : s.stream.filteredReadCharacter.validLastCharacter = false := by
    have less : s.stream.filteredReadCharacter.string.length < s.stream.filteredReadCharacter.offset :=
      decide_eq_true_iff.mp ended
    exact decide_eq_false fun valid => by omega
  refine ⟨{ s with stream := s.stream.filteredReadCharacter }, ?_, ended⟩
  unfold filteredReadCharacter
  rw [fresh]
  dsimp only
  rw [invalid]
  rfl

/-- A read that has a character of the underlying stream to decode. -/
theorem read_character (fresh : s.lastCharacterFlag = false) (rest : s.stream.rest = c :: text) :
    ∃ stream, stream.rest = text ∧ stream.endOfInput = false ∧
      s.filteredReadCharacter = ({ s with stream } : QuotedPrintableInputStream).decode c := by
  obtain ⟨behind, last, going⟩ := StringInputStream.read_cons rest
  refine ⟨s.stream.filteredReadCharacter, behind, going, ?_⟩
  have le : ¬s.stream.filteredReadCharacter.string.length < s.stream.filteredReadCharacter.offset :=
    decide_eq_false_iff_not.mp going
  have valid : s.stream.filteredReadCharacter.validLastCharacter = true :=
    decide_eq_true ⟨Nat.le_add_left 1 s.stream.offset, Nat.le_of_not_lt le⟩
  unfold filteredReadCharacter
  rw [fresh]
  dsimp only
  rw [valid, last]
  rfl

theorem decode_plain (plain : c ≠ equals) : s.decode c = some { s with filteredLastCharacter := c } :=
  if_pos (.inl plain)

theorem decode_group {x y : Character} (going : s.stream.endOfInput = false)
    (rest : s.stream.rest = x :: y :: text) : ∃ stream, stream.rest = text ∧ stream.endOfInput = false ∧
      s.decode equals = some { s with stream, filteredLastCharacter := grouped x y } := by
  obtain ⟨behind, first, going'⟩ := StringInputStream.read_cons rest
  obtain ⟨behind', second, going''⟩ := StringInputStream.read_cons behind
  refine ⟨_, behind', going'', ?_⟩
  have branch : ¬(equals ≠ equals ∨ s.stream.endOfInput = true) := by
    rw [going]
    decide
  unfold decode readQuotedCharacter
  rw [if_neg branch]
  simp only [first, second, going', Option.bind_eq_bind, Option.bind_some]
  rfl

/-- A group that the end of the text cuts off. -/
theorem decode_cut (going : s.stream.endOfInput = false) (short : s.stream.rest.length < 2) :
    s.decode equals = none := by
  have branch : ¬(equals ≠ equals ∨ s.stream.endOfInput = true) := by
    rw [going]
    decide
  unfold decode readQuotedCharacter
  rw [if_neg branch]
  match rest : s.stream.rest, short with
  | [], _ =>
    have missing := StringInputStream.last_of_nil rest
    simp only [missing, Option.bind_eq_bind, Option.bind_none]
  | [x], _ =>
    obtain ⟨behind, first, going'⟩ := StringInputStream.read_cons rest
    have missing := StringInputStream.last_of_nil behind
    simp only [first, going', missing, Option.bind_eq_bind, Option.bind_some, Option.bind_none]
    rfl

/-- A read comes to the end, fails where the decoding fails, or delivers the next character. -/
theorem read_cases (fresh : s.lastCharacterFlag = false) :
    (s.stream.rest = [] ∧ ∃ s', s.filteredReadCharacter = some s' ∧ s'.endOfInput = true) ∨
      (decoding s.stream.rest = none ∧ s.filteredReadCharacter = none) ∨
        ∃ s', s.filteredReadCharacter = some s' ∧ s'.endOfInput = false ∧ s'.lastCharacterFlag = false ∧
          decoding s.stream.rest = (decoding s'.stream.rest).map (s'.filteredLastCharacter :: ·) ∧
            s'.stream.rest.length < s.stream.rest.length := by
  cases rest : s.stream.rest with
  | nil => exact .inl ⟨rfl, read_end fresh rest⟩
  | cons c text =>
    obtain ⟨stream, behind, going, run⟩ := read_character fresh rest
    by_cases plain : c ≠ equals
    · rw [decode_plain plain] at run
      refine .inr (.inr ⟨_, run, going, fresh, ?_, ?_⟩)
      · rw [decoding_plain plain, ← behind]
      · rw [← behind]
        exact Nat.lt_succ_self _
    · obtain rfl := Decidable.not_not.mp plain
      match text, behind with
      | [], behind =>
        refine .inr (.inl ⟨decoding_equals, run.trans (decode_cut going ?_)⟩)
        rw [behind]
        exact Nat.zero_lt_two
      | [x], behind =>
        refine .inr (.inl ⟨decoding_equals_one x, run.trans (decode_cut going ?_)⟩)
        rw [behind]
        exact Nat.one_lt_two
      | x :: y :: text, behind =>
        obtain ⟨stream', behind', going', decoded⟩ :=
          decode_group (s := { s with stream }) going behind
        refine .inr (.inr ⟨_, run.trans decoded, going', fresh, ?_, ?_⟩)
        · rw [decoding_group, ← behind']
        · rw [← behind', List.length_cons, List.length_cons, List.length_cons]
          dsimp only
          omega

theorem loop_ended {fuel : ℕ} {bytes : List Character} (ended : s.endOfInput = true) :
    untilLoop (fun state => some state.1.endOfInput) readNext fuel (s, bytes) = some (s, bytes) :=
  untilLoop_stopped (congrArg some ended)

theorem loop_eq {fuel : ℕ} {bytes : List Character} (fresh : s.lastCharacterFlag = false)
    (going : s.endOfInput = false) (enough : s.stream.rest.length < fuel) :
    (untilLoop (fun state => some state.1.endOfInput) readNext fuel (s, bytes)).map Prod.snd =
      (decoding s.stream.rest).map fun rest => bytes ++ s.filteredLastCharacter :: rest := by
  induction fuel generalizing s bytes with
  | zero => exact absurd enough (Nat.not_lt_zero _)
  | succ fuel ih =>
    have round : untilLoop (fun state => some state.1.endOfInput) readNext (fuel + 1) (s, bytes) =
        s.filteredReadCharacter >>= fun s' => untilLoop (fun state => some state.1.endOfInput) readNext fuel
          (s', bytes ++ [s.filteredLastCharacter]) := by
      rw [untilLoop, going]
      cases run : s.filteredReadCharacter with
      | none => simp [readNext, run]
      | some s' => simp [readNext, run]
    rw [round]
    rcases read_cases fresh with ⟨rest, s', run, ended⟩ | ⟨fails, run⟩ | ⟨s', run, going', fresh', same, less⟩
    · rw [run, rest, Returns.some_bind, loop_ended ended]
      rfl
    · rw [run, fails]
      rfl
    · rw [run, Returns.some_bind, ih fresh' going' (by omega), same, Option.map_map]
      refine congrArg (Option.map · _) (funext fun rest => ?_)
      rw [List.append_assoc]
      rfl

end Reader

/-- With enough fuel, a reader gets the decoding of the text. -/
theorem readAll_eq_decoding {fuel : ℕ} {text : List Character} (enough : text.length < fuel) :
    readAll fuel text = decoding text := by
  have fresh : (connectTo (.fromString text)).lastCharacterFlag = false := rfl
  have whole : (connectTo (.fromString text)).stream.rest = text := rfl
  unfold readAll
  rcases read_cases fresh with ⟨rest, s', run, ended⟩ | ⟨fails, run⟩ | ⟨s', run, going, fresh', same, less⟩
  · rw [whole] at rest
    rw [run, Returns.some_bind, loop_ended ended, rest]
    rfl
  · rw [whole] at fails
    rw [run, fails]
    rfl
  · rw [whole] at same less
    have loop := @loop_eq s' fuel [] fresh' going (Nat.lt_trans less enough)
    rw [same, run, Returns.some_bind]
    simp only [List.nil_append] at loop
    rw [← loop]
    cases untilLoop (fun state => some state.1.endOfInput) readNext fuel (s', []) <;> rfl

theorem readAll_iff {text bytes : List Character} :
    (∃ fuel, readAll fuel text = some bytes) ↔ decoding text = some bytes := by
  constructor
  · rintro ⟨fuel, run⟩
    obtain ⟨s, start, loop⟩ := Option.bind_eq_some_iff.mp run
    obtain ⟨state, ended, rfl⟩ := Option.map_eq_some_iff.mp ((Option.map_eq_bind).trans loop)
    have more := untilLoop_mono (fun _ _ round => round) (Nat.le_max_left fuel (text.length + 1)) ended
    rw [← readAll_eq_decoding (Nat.lt_of_lt_of_le (Nat.lt_succ_self _) (Nat.le_max_right fuel (text.length + 1)))]
    unfold readAll
    rw [start, Returns.some_bind, more]
    rfl
  · intro found
    exact ⟨text.length + 1, (readAll_eq_decoding (Nat.lt_succ_self _)).trans found⟩

/-! ## There and back -/

theorem decoding_encoding_append {bytes : List Character} (absent : equals ∉ bytes) (text : List Character) :
    decoding (encoding bytes ++ text) = (decoding text).map (bytes ++ ·) := by
  induction bytes with
  | nil => exact Option.map_id'.symm
  | cons c bytes ih =>
    obtain ⟨ne, absent⟩ := List.ne_and_not_mem_of_not_mem_cons absent
    have rest := ih absent
    by_cases quoted : Quoted c
    · rw [encoding_quoted quoted, List.cons_append, List.cons_append, List.cons_append, decoding_group,
        grouped_digits, rest, Option.map_map]
      rfl
    · rw [encoding_plain quoted, List.cons_append, decoding_plain ne.symm, rest, Option.map_map]
      rfl

/-- The characters after a `=`: a group, then some characters of a group that was written, and the encoding
of some bytes. -/
theorem exists_group {bytes result : List Character}
    (found : decoding (equals :: encoding bytes) = some result) :
    ∃ x y plain tail, equals ∉ plain ∧ encoding bytes = x :: y :: (plain ++ encoding tail) ∧
      plain.length + tail.length ≤ bytes.length ∧
        (grouped x y ≠ equals ∨ plain.length + tail.length < bytes.length) := by
  match bytes with
  | [] => cases found
  | c :: bytes =>
    have digits (c : Character) : hexadecimalDigit (c.code / 16) ≠ equals ∧
        hexadecimalDigit (c.code % 16) ≠ equals := by
      have nonneg := c.code_nonneg
      have less := c.code_lt
      exact ⟨hexadecimalDigit_ne_equals (by omega) (by omega), hexadecimalDigit_ne_equals (by omega) (by omega)⟩
    by_cases quoted : Quoted c
    · refine ⟨equals, hexadecimalDigit (c.code / 16), [hexadecimalDigit (c.code % 16)], bytes, ?_,
        encoding_quoted quoted bytes, ?_, .inl (grouped_equals _).1⟩
      · exact fun occurs => (digits c).2 (List.mem_singleton.mp occurs).symm
      · rw [List.length_singleton, List.length_cons]
        omega
    · match bytes with
      | [] =>
        rw [encoding_plain quoted] at found
        cases (decoding_equals_one c).symm.trans found
      | c' :: bytes =>
        by_cases quoted' : Quoted c'
        · refine ⟨c, equals, [hexadecimalDigit (c'.code / 16), hexadecimalDigit (c'.code % 16)], bytes, ?_,
            ?_, ?_, .inl (grouped_equals c).2⟩
          · intro occurs
            rcases List.mem_cons.mp occurs with first | occurs
            · exact (digits c').1 first.symm
            · exact (digits c').2 (List.mem_singleton.mp occurs).symm
          · rw [encoding_plain quoted, encoding_quoted quoted']
            rfl
          · simp only [List.length_cons, List.length_nil]
            omega
        · refine ⟨c, c', [], bytes, List.not_mem_nil, ?_, ?_, .inr ?_⟩
          · rw [encoding_plain quoted, encoding_plain quoted']
            rfl
          · rw [List.length_nil, List.length_cons, List.length_cons]
            omega
          · rw [List.length_nil, List.length_cons, List.length_cons]
            omega

/-- No more characters come back than bytes were written, wherever a group of the decoder begins. -/
theorem length_decoding_le (bytes : List Character) : ∀ plain result : List Character, equals ∉ plain →
    decoding (plain ++ encoding bytes) = some result → result.length ≤ plain.length + bytes.length := by
  induction length : bytes.length using Nat.strongRecOn generalizing bytes with
  | _ n ih =>
    intro plain
    induction plain with
    | cons a plain front =>
      intro result absent found
      obtain ⟨ne, absent⟩ := List.ne_and_not_mem_of_not_mem_cons absent
      rw [List.cons_append, decoding_plain ne.symm] at found
      obtain ⟨rest, decoded, rfl⟩ := Option.map_eq_some_iff.mp found
      have le := front rest absent decoded
      rw [List.length_cons, List.length_cons]
      omega
    | nil =>
      intro result _ found
      rw [List.nil_append] at found
      match bytes, length with
      | [], _ =>
        cases found
        exact Nat.zero_le _
      | c :: bytes, length =>
        rw [List.length_cons] at length
        by_cases quoted : Quoted c
        · rw [encoding_quoted quoted, decoding_group] at found
          obtain ⟨rest, decoded, rfl⟩ := Option.map_eq_some_iff.mp found
          have le := ih _ (by omega) bytes rfl [] rest List.not_mem_nil decoded
          rw [List.length_nil] at le
          rw [List.length_cons, List.length_nil]
          omega
        · by_cases ne : c ≠ equals
          · rw [encoding_plain quoted, decoding_plain ne] at found
            obtain ⟨rest, decoded, rfl⟩ := Option.map_eq_some_iff.mp found
            have le := ih _ (by omega) bytes rfl [] rest List.not_mem_nil decoded
            rw [List.length_nil] at le
            rw [List.length_cons, List.length_nil]
            omega
          · obtain rfl := Decidable.not_not.mp ne
            rw [encoding_plain quoted] at found
            obtain ⟨x, y, plain, tail, absent, parts, fewer, -⟩ := exists_group found
            rw [parts, decoding_group] at found
            obtain ⟨rest, decoded, rfl⟩ := Option.map_eq_some_iff.mp found
            have le := ih _ (by omega) tail rfl plain rest absent decoded
            rw [List.length_cons, List.length_nil]
            omega

/-- A `=` is the beginning of another character than itself, or bytes are missing. -/
theorem decoding_equals_ne (bytes : List Character) :
    decoding (equals :: encoding bytes) ≠ some (equals :: bytes) := by
  intro found
  obtain ⟨x, y, plain, tail, absent, parts, fewer, same⟩ := exists_group found
  rw [parts, decoding_group] at found
  obtain ⟨rest, decoded, whole⟩ := Option.map_eq_some_iff.mp found
  obtain ⟨head, rfl⟩ := List.cons.inj whole
  rcases same with differs | less
  · exact differs head
  · have le := length_decoding_le tail plain rest absent decoded
    omega

/-- **The decoder delivers the bytes from what the encoder wrote for them exactly when no byte is the code
of `=`.** -/
theorem roundTrips_iff (bytes : List Character) : RoundTrips bytes ↔ equals ∉ bytes := by
  unfold RoundTrips
  rw [encode_eq_encoding]
  constructor
  · rintro ⟨text, written, delivers⟩ occurs
    cases written
    obtain ⟨front, behind, rfl, absent⟩ := List.eq_append_cons_of_mem occurs
    have found := readAll_iff.mp delivers
    have parts : encoding (front ++ equals :: behind) = encoding front ++ equals :: encoding behind := by
      exact List.flatMap_append
    rw [parts, decoding_encoding_append absent] at found
    obtain ⟨rest, decoded, same⟩ := Option.map_eq_some_iff.mp found
    rw [List.append_cancel_left same] at decoded
    exact decoding_equals_ne behind decoded
  · intro absent
    have whole := decoding_encoding_append absent []
    rw [List.append_nil] at whole
    refine ⟨encoding bytes, rfl, readAll_iff.mpr (whole.trans ?_)⟩
    change some (bytes ++ []) = _
    rw [List.append_nil]

/-- The text `=41` is delivered as `A`. -/
theorem not_roundTrips_equals : ¬∀ bytes, RoundTrips bytes := by
  intro claim
  obtain ⟨text, written, delivers⟩ := claim [61, 52, 49]
  cases written
  have found := readAll_iff.mp delivers
  revert found
  decide

end QuotedPrintable

end Liberty
