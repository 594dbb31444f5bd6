import Liberty.Library.Returns
import Liberty.Text.NativelyStoredString
import Mathlib.Algebra.Group.Nat.Defs

/-!
# BASE64_OUTPUT_STREAM and BASE64_INPUT_STREAM

Both filters carry bits from one character to the next: the state tells how many characters of a
group have gone through.  The underlying streams are those of strings.
-/

namespace Liberty

section

namespace Base64

def alphabet : List Character :=
  "ABCDEFGHIJKLMNOPQRSTUVWXYZabcdefghijklmnopqrstuvwxyz0123456789+/".toList.map Char.toUInt8

def newline : Character :=
  '\n'.toUInt8

def padding : Character :=
  '='.toUInt8

/-- `t2b`: the item of the alphabet at `code + 1`. -/
def t2b (code : ℕ) : Option Character :=
  alphabet[code]?

end Base64

open Base64

/-! ## The encoder -/

/-- The attributes of a BASE64_OUTPUT_STREAM; `stream` is what the underlying stream has got. -/
structure Base64OutputStream where
  stream : List Character
  state : ℕ
  previousCharacter : Character

namespace Base64OutputStream

def connectTo (stream : List Character) : Base64OutputStream where
  stream
  state := 0
  previousCharacter := 0

/-- `filtered_put_character` of the underlying stream. -/
def streamPut (s : Base64OutputStream) (c : Character) : Base64OutputStream :=
  { s with stream := s.stream ++ [c] }

def filteredPutCharacter (s : Base64OutputStream) (c : Character) : Option Base64OutputStream :=
  match s.state with
  | 0 => do
      let k := c.toNat >>> 2
      return { s.streamPut (← t2b k) with state := 1, previousCharacter := c }
  | 1 => do
      let k := ((s.previousCharacter.toNat &&& 3) <<< 4) ||| (c.toNat >>> 4)
      return { s.streamPut (← t2b k) with state := 2, previousCharacter := c }
  | 2 => do
      let k := ((s.previousCharacter.toNat &&& 15) <<< 2) ||| (c.toNat >>> 6)
      let s := s.streamPut (← t2b k)
      let k := c.toNat &&& 63
      return { s.streamPut (← t2b k) with state := 0, previousCharacter := c }
  | _ => none

def disconnect (s : Base64OutputStream) : Option Base64OutputStream :=
  match s.state with
  | 0 => some s
  | 1 => do
      let k := (s.previousCharacter.toNat &&& 3) <<< 4
      return { ((s.streamPut (← t2b k)).streamPut padding).streamPut padding with state := 0 }
  | 2 => do
      let k := (s.previousCharacter.toNat &&& 15) <<< 2
      return { (s.streamPut (← t2b k)).streamPut padding with state := 0 }
  | _ => none

end Base64OutputStream

/-- What the underlying stream gets when a sequence of characters is put and the filter disconnected. -/
def Base64.encode (bytes : List Character) : Option (List Character) := do
  let s ← bytes.foldlM Base64OutputStream.filteredPutCharacter (.connectTo [])
  return (← s.disconnect).stream

/-! ## The decoder -/

/-- The attributes of a STRING_INPUT_STREAM; `offset` is 0 before the first character. -/
structure StringInputStream where
  string : List Character
  offset : ℕ

namespace StringInputStream

def fromString (string : List Character) : StringInputStream where
  string
  offset := 0

def endOfInput (s : StringInputStream) : Bool :=
  s.offset > s.string.length

def filteredReadCharacter (s : StringInputStream) : StringInputStream :=
  { s with offset := s.offset + 1 }

def filteredLastCharacter (s : StringInputStream) : Option Character :=
  if s.offset = 0 then none else s.string[s.offset - 1]?

end StringInputStream

/-- The attributes of a BASE64_INPUT_STREAM, with a boolean for each of its flags. -/
structure Base64InputStream where
  stream : StringInputStream
  state : ℕ
  accu : ℕ
  filteredLastCharacter : Character
  unreadBuffer : Character
  canUnreadCharacter : Bool
  hasUnreadCharacter : Bool
  endOfBase64 : Bool

namespace Base64InputStream

def connectTo (stream : StringInputStream) : Base64InputStream where
  stream
  state := 0
  accu := 0
  filteredLastCharacter := 0
  unreadBuffer := 0
  canUnreadCharacter := false
  hasUnreadCharacter := false
  endOfBase64 := false

def endOfInput (s : Base64InputStream) : Bool :=
  s.endOfBase64 || s.stream.endOfInput

def swapUnreadBuffer (s : Base64InputStream) : Base64InputStream :=
  { s with unreadBuffer := s.filteredLastCharacter, filteredLastCharacter := s.unreadBuffer }

/-- The branches of `b2t` for the alphabet, in an inspect without an else part. -/
def valueOf (c : Character) : Option ℕ :=
  if 'A'.toUInt8 ≤ c ∧ c ≤ 'Z'.toUInt8 then some (Character.code c - Character.code 'A'.toUInt8).toNat
  else if 'a'.toUInt8 ≤ c ∧ c ≤ 'z'.toUInt8 then some (Character.code c - (Character.code 'a'.toUInt8 - 26)).toNat
  else if '0'.toUInt8 ≤ c ∧ c ≤ '9'.toUInt8 then some (Character.code c - (Character.code '0'.toUInt8 - 52)).toNat
  else if c = '+'.toUInt8 then some 62
  else if c = '/'.toUInt8 then some 63
  else none

def b2t (s : Base64InputStream) (c : Character) : Option (Base64InputStream × ℕ) :=
  if c = padding then some ({ s with endOfBase64 := true }, 0)
  else do return (s, ← valueOf c)

/-- The loop that reads up to a character that is no newline. -/
def readSkippingNewlines (stream : StringInputStream) : Option StringInputStream :=
  untilLoop (fun stream => if stream.endOfInput then some true else do
      return (← stream.filteredLastCharacter) != newline)
    (fun stream => some stream.filteredReadCharacter) (stream.string.length + 1) stream.filteredReadCharacter

/-- The `inspect` over the state, with the value of the character that has been read. -/
def decode (s : Base64InputStream) (c : ℕ) : Option Base64InputStream :=
  match s.state with
  | 0 => do
      let s := { s with accu := c <<< 2, stream := s.stream.filteredReadCharacter }
      if s.stream.endOfInput then return s
      let (s, c) ← s.b2t (← s.stream.filteredLastCharacter)
      let accu := s.accu ||| (c >>> 4)
      return { s with filteredLastCharacter := UInt8.ofNat accu, accu := (c &&& 15) <<< 4, state := 1 }
  | 1 =>
    let accu := s.accu ||| (c >>> 2)
    some { s with filteredLastCharacter := UInt8.ofNat accu, accu := (c &&& 3) <<< 6, state := 2 }
  | 2 =>
    let accu := s.accu ||| c
    some { s with filteredLastCharacter := UInt8.ofNat accu, accu, state := 0 }
  | _ => none

def setCanUnreadCharacter (s : Base64InputStream) : Base64InputStream :=
  { s with canUnreadCharacter := !s.endOfInput }

def filteredReadCharacter (s : Base64InputStream) : Option Base64InputStream :=
  if s.hasUnreadCharacter then
    some { s with hasUnreadCharacter := false }.swapUnreadBuffer.setCanUnreadCharacter
  else do
    let s := { s with unreadBuffer := s.filteredLastCharacter, stream := ← readSkippingNewlines s.stream }
    if s.stream.endOfInput then return s.setCanUnreadCharacter
    let (s, c) ← s.b2t (← s.stream.filteredLastCharacter)
    return (← s.decode c).setCanUnreadCharacter

def filteredUnreadCharacter (s : Base64InputStream) : Base64InputStream :=
  { s with hasUnreadCharacter := true, canUnreadCharacter := false }.swapUnreadBuffer

end Base64InputStream

/-! ## A reader -/

/-- What a reader does with an input stream. -/
inductive ReaderCommand
  | read
  | unread

namespace Base64InputStream

/-- What a reader gets from each read: a character, or the end of the input.  It may unread a character
only where the stream tells so. -/
def delivers : List ReaderCommand → Base64InputStream → Option (List (Option Character))
  | [], _ => some []
  | .read :: commands, s => do
      let s ← s.filteredReadCharacter
      return (if s.endOfInput then none else some s.filteredLastCharacter) :: (← delivers commands s)
  | .unread :: commands, s =>
    if s.canUnreadCharacter then delivers commands s.filteredUnreadCharacter else none

end Base64InputStream

end

/-!
## The Base64 encoding

The encoding takes three bytes as a number of 24 bits and writes it as four digits; the last group is
padded.  The encoder writes the digits of that number as the bytes come.
-/

namespace Base64

/-! ## The encoding -/

/-- The character of the alphabet that stands for six bits. -/
def digit (k : ℕ) : Character :=
  alphabet.getD k 0

/-- Three bytes as a number of 24 bits. -/
def group (a b c : Character) : ℕ :=
  a.toNat * 65536 + b.toNat * 256 + c.toNat

def encoding : List Character → List Character
  | [] => []
  | [a] => [digit (group a 0 0 / 2 ^ 18 % 64), digit (group a 0 0 / 2 ^ 12 % 64), padding, padding]
  | [a, b] =>
    [digit (group a b 0 / 2 ^ 18 % 64), digit (group a b 0 / 2 ^ 12 % 64), digit (group a b 0 / 2 ^ 6 % 64),
      padding]
  | a :: b :: c :: bytes =>
    digit (group a b c / 2 ^ 18 % 64) :: digit (group a b c / 2 ^ 12 % 64) ::
      digit (group a b c / 2 ^ 6 % 64) :: digit (group a b c % 64) :: encoding bytes

/-- The four first bits of some bytes. -/
def highFour : List Character → ℕ
  | [] => 0
  | c :: _ => c.toNat / 16

/-- The two first bits of some bytes. -/
def highTwo : List Character → ℕ
  | [] => 0
  | c :: _ => c.toNat / 64

/-- What follows when one byte and two bits of the next one stand already in the last group. -/
def encodingAfterTwo : List Character → List Character
  | [] => [padding]
  | c :: bytes => digit (c.toNat % 64) :: encoding bytes

/-- What follows when one byte and four bits of the next one stand already in the last group. -/
def encodingAfterOne : List Character → List Character
  | [] => [padding, padding]
  | b :: bytes => digit (b.toNat % 16 * 4 + highTwo bytes) :: encodingAfterTwo bytes

theorem highFour_lt (bytes : List Character) : highFour bytes < 16 := by
  cases bytes with
  | nil => decide
  | cons c bytes =>
    have := c.toNat_lt
    change c.toNat / 16 < 16
    omega

theorem highTwo_lt (bytes : List Character) : highTwo bytes < 4 := by
  cases bytes with
  | nil => decide
  | cons c bytes =>
    have := c.toNat_lt
    change c.toNat / 64 < 4
    omega

theorem encoding_cons (a : Character) (bytes : List Character) : encoding (a :: bytes) =
    digit (a.toNat / 4) :: digit (a.toNat % 4 * 16 + highFour bytes) :: encodingAfterOne bytes := by
  have first := a.toNat_lt
  rcases bytes with _ | ⟨b, _ | ⟨c, bytes⟩⟩
  · unfold encoding group highFour encodingAfterOne
    change [digit ((a.toNat * 65536 + 0 * 256 + 0) / 2 ^ 18 % 64),
      digit ((a.toNat * 65536 + 0 * 256 + 0) / 2 ^ 12 % 64), padding, padding] = _
    rw [show (a.toNat * 65536 + 0 * 256 + 0) / 2 ^ 18 % 64 = a.toNat / 4 by omega,
      show (a.toNat * 65536 + 0 * 256 + 0) / 2 ^ 12 % 64 = a.toNat % 4 * 16 + 0 by omega]
  · have second := b.toNat_lt
    unfold encoding group highFour encodingAfterOne highTwo encodingAfterTwo
    change [digit ((a.toNat * 65536 + b.toNat * 256 + 0) / 2 ^ 18 % 64),
      digit ((a.toNat * 65536 + b.toNat * 256 + 0) / 2 ^ 12 % 64),
      digit ((a.toNat * 65536 + b.toNat * 256 + 0) / 2 ^ 6 % 64), padding] = _
    rw [show (a.toNat * 65536 + b.toNat * 256 + 0) / 2 ^ 18 % 64 = a.toNat / 4 by omega,
      show (a.toNat * 65536 + b.toNat * 256 + 0) / 2 ^ 12 % 64 = a.toNat % 4 * 16 + b.toNat / 16 by omega,
      show (a.toNat * 65536 + b.toNat * 256 + 0) / 2 ^ 6 % 64 = b.toNat % 16 * 4 + 0 by omega]
  · have second := b.toNat_lt
    have third := c.toNat_lt
    unfold encoding group highFour encodingAfterOne highTwo encodingAfterTwo
    rw [show (a.toNat * 65536 + b.toNat * 256 + c.toNat) / 2 ^ 18 % 64 = a.toNat / 4 by omega,
      show (a.toNat * 65536 + b.toNat * 256 + c.toNat) / 2 ^ 12 % 64 = a.toNat % 4 * 16 + b.toNat / 16 by omega,
      show (a.toNat * 65536 + b.toNat * 256 + c.toNat) / 2 ^ 6 % 64 = b.toNat % 16 * 4 + c.toNat / 64 by omega,
      show (a.toNat * 65536 + b.toNat * 256 + c.toNat) % 64 = c.toNat % 64 by omega]

/-! ## Bits -/

theorem or_eq_add {high low i : ℕ} (less : low < 2 ^ i) : (high <<< i) ||| low = high * 2 ^ i + low := by
  rw [← Nat.shiftLeft_add_eq_or_of_lt less, Nat.shiftLeft_eq]

theorem lowTwo (k : ℕ) : k &&& 3 = k % 4 :=
  Nat.and_two_pow_sub_one_eq_mod k 2

theorem lowFour (k : ℕ) : k &&& 15 = k % 16 :=
  Nat.and_two_pow_sub_one_eq_mod k 4

theorem lowSix (k : ℕ) : k &&& 63 = k % 64 :=
  Nat.and_two_pow_sub_one_eq_mod k 6

theorem t2b_eq {k : ℕ} (less : k < 64) : t2b k = some (digit k) := by
  have length : alphabet.length = 64 := rfl
  unfold t2b digit
  rw [List.getD_eq_getElem?_getD, List.getElem?_eq_getElem (by omega)]
  rfl

theorem b2t_digit (s : Base64InputStream) {k : ℕ} (less : k < 64) : s.b2t (digit k) = some (s, k) := by
  have values : ∀ k < 64, digit k ≠ padding ∧ Base64InputStream.valueOf (digit k) = some k := by decide +kernel
  obtain ⟨noPadding, value⟩ := values k less
  unfold Base64InputStream.b2t
  rw [if_neg noPadding, value]
  rfl

/-! ## The encoder -/

section Encoder

variable {s : Base64OutputStream} {c : Character}

theorem filteredPutCharacter_zero (state : s.state = 0) (c : Character) : s.filteredPutCharacter c =
    some ⟨s.stream ++ [digit (c.toNat / 4)], 1, c⟩ := by
  have less := c.toNat_lt
  have put : t2b (c.toNat >>> 2) = some (digit (c.toNat / 4)) := by
    rw [Nat.shiftRight_eq_div_pow, show 2 ^ 2 = 4 from rfl]
    exact t2b_eq (by omega)
  unfold Base64OutputStream.filteredPutCharacter
  rw [state]
  dsimp only
  rw [put]
  rfl

theorem filteredPutCharacter_one (state : s.state = 1) (c : Character) : s.filteredPutCharacter c =
    some ⟨s.stream ++ [digit (s.previousCharacter.toNat % 4 * 16 + c.toNat / 16)], 2, c⟩ := by
  have less := c.toNat_lt
  have bits : ((s.previousCharacter.toNat &&& 3) <<< 4) ||| (c.toNat >>> 4) =
      s.previousCharacter.toNat % 4 * 16 + c.toNat / 16 := by
    rewrite [Nat.shiftRight_eq_div_pow, or_eq_add (by omega), lowTwo]
    omega
  have put : t2b (s.previousCharacter.toNat % 4 * 16 + c.toNat / 16) = some (digit _) := t2b_eq (by omega)
  unfold Base64OutputStream.filteredPutCharacter
  rw [state]
  dsimp only
  rw [bits, put]
  rfl

theorem filteredPutCharacter_two (state : s.state = 2) (c : Character) : s.filteredPutCharacter c =
    some ⟨s.stream ++ [digit (s.previousCharacter.toNat % 16 * 4 + c.toNat / 64), digit (c.toNat % 64)], 0,
      c⟩ := by
  have less := c.toNat_lt
  have bits : ((s.previousCharacter.toNat &&& 15) <<< 2) ||| (c.toNat >>> 6) =
      s.previousCharacter.toNat % 16 * 4 + c.toNat / 64 := by
    rewrite [Nat.shiftRight_eq_div_pow, or_eq_add (by omega), lowFour]
    omega
  have put : t2b (s.previousCharacter.toNat % 16 * 4 + c.toNat / 64) = some (digit _) := t2b_eq (by omega)
  have put' : t2b (c.toNat &&& 63) = some (digit (c.toNat % 64)) := by
    rw [lowSix]
    exact t2b_eq (by omega)
  unfold Base64OutputStream.filteredPutCharacter
  rw [state]
  dsimp only
  rw [bits, put, put']
  simp only [Base64OutputStream.streamPut, List.append_assoc, List.cons_append, List.nil_append]
  rfl

theorem disconnect_one (state : s.state = 1) : s.disconnect = some ⟨s.stream ++
    [digit (s.previousCharacter.toNat % 4 * 16), padding, padding], 0, s.previousCharacter⟩ := by
  have put : t2b ((s.previousCharacter.toNat &&& 3) <<< 4) =
      some (digit (s.previousCharacter.toNat % 4 * 16)) := by
    rw [lowTwo, Nat.shiftLeft_eq]
    exact t2b_eq (by omega)
  unfold Base64OutputStream.disconnect
  rw [state]
  dsimp only
  rw [put]
  simp only [Base64OutputStream.streamPut, List.append_assoc, List.cons_append, List.nil_append]
  rfl

theorem disconnect_two (state : s.state = 2) : s.disconnect = some ⟨s.stream ++
    [digit (s.previousCharacter.toNat % 16 * 4), padding], 0, s.previousCharacter⟩ := by
  have put : t2b ((s.previousCharacter.toNat &&& 15) <<< 2) =
      some (digit (s.previousCharacter.toNat % 16 * 4)) := by
    rw [lowFour, Nat.shiftLeft_eq]
    exact t2b_eq (by omega)
  unfold Base64OutputStream.disconnect
  rw [state]
  dsimp only
  rw [put]
  simp only [Base64OutputStream.streamPut, List.append_assoc, List.cons_append, List.nil_append]
  rfl

/-- What the encoder adds to its underlying stream, whatever the bytes. -/
theorem encode_from (bytes : List Character) (s : Base64OutputStream) (state : s.state = 0) :
    ∃ s' s'', bytes.foldlM Base64OutputStream.filteredPutCharacter s = some s' ∧
      s'.disconnect = some s'' ∧ s''.stream = s.stream ++ encoding bytes := by
  induction bytes using encoding.induct generalizing s with
  | case1 =>
    refine ⟨s, s, rfl, ?_, (List.append_nil _).symm⟩
    unfold Base64OutputStream.disconnect
    rw [state]
    rfl
  | case2 a =>
    have first := filteredPutCharacter_zero state a
    refine ⟨⟨s.stream ++ [digit (a.toNat / 4)], 1, a⟩, _, ?_, disconnect_one rfl, ?_⟩
    · rw [List.foldlM_cons, first]
      rfl
    · rw [encoding_cons, List.append_assoc]
      rfl
  | case3 a b =>
    have first := filteredPutCharacter_zero state a
    refine ⟨⟨s.stream ++ [digit (a.toNat / 4)] ++ [digit (a.toNat % 4 * 16 + b.toNat / 16)], 2, b⟩, _, ?_,
      disconnect_two rfl, ?_⟩
    · rw [List.foldlM_cons, first, Option.bind_eq_bind, Option.bind_some, List.foldlM_cons,
        filteredPutCharacter_one rfl b]
      rfl
    · rw [encoding_cons, List.append_assoc, List.append_assoc]
      rfl
  | case4 a b c bytes ih =>
    have first := filteredPutCharacter_zero state a
    obtain ⟨s', s'', put, closed, stream⟩ := ih
      ⟨s.stream ++ [digit (a.toNat / 4)] ++ [digit (a.toNat % 4 * 16 + b.toNat / 16)] ++
        [digit (b.toNat % 16 * 4 + c.toNat / 64), digit (c.toNat % 64)], 0, c⟩ rfl
    refine ⟨s', s'', ?_, closed, ?_⟩
    · rw [List.foldlM_cons, first, Option.bind_eq_bind, Option.bind_some, List.foldlM_cons,
        filteredPutCharacter_one rfl b, Option.bind_eq_bind, Option.bind_some, List.foldlM_cons,
        filteredPutCharacter_two rfl c, Option.bind_eq_bind, Option.bind_some]
      exact put
    · rw [stream, encoding_cons, List.append_assoc, List.append_assoc, List.append_assoc]
      rfl

/-- The characters produced are the encoding of the bytes. -/
theorem encode_eq (bytes : List Character) : encode bytes = some (encoding bytes) := by
  obtain ⟨s, s', put, closed, stream⟩ := encode_from bytes (.connectTo []) rfl
  unfold encode
  rw [put, Option.bind_eq_bind, Option.bind_some, closed]
  exact congrArg some stream

end Encoder

end Base64

end Liberty
