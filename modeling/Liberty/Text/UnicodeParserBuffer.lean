import Liberty.Io.Base64RoundTrip
import Liberty.Library.Loops
import Liberty.Text.Utf8Parser
import Liberty.Text.Utf8Validation

/-!
# UNICODE_PARSER_BUFFER

The buffer decodes the characters of a stream one by one, as a parser goes on with `next`.  In the
encoding UTF-8 a byte is read too many behind the first byte of a sequence, so that a sequence of
several bytes is never decoded: it becomes the unknown character, and takes the first byte of what
follows with it.
-/

namespace Liberty

/-- The attributes of a UNICODE_PARSER_BUFFER; `input` is the one of its URL. -/
structure UnicodeParserBuffer where
  input : StringInputStream
  size : Int
  backlog : List Int
  index : Int
  line : Int
  column : Int
  atError : Bool

namespace UnicodeParserBuffer

/-! ## The source -/

/-- `unknown_character` -/
def unknownCharacter : Int := 0xFFFD

/-- The names of encodings that `set_encoding` tells apart. -/
inductive Encoding
  | utf8
  | utf16
  | other

/-- `input.last_character.code` -/
def lastCode (input : StringInputStream) : Option (BitVec 32) := do
  return .ofInt 32 (← input.filteredLastCharacter).code

/-- After the first byte of two, `n`. -/
def twoBytes (n : BitVec 32) (input : StringInputStream) : Option (StringInputStream × Int) := do
  let y := n
  let input := input.filteredReadCharacter
  if input.endOfInput then
    return (input, unknownCharacter)
  else
    let z ← lastCode input
    if z &&& 0x000000C0#32 = 0x00000080#32 then
      let y := y &&& 0x0000001F#32
      let z := z &&& 0x0000003F#32
      let b1 := y >>> 2
      let b2 := ((y &&& 0x00000003#32) <<< 6) &&& z
      return (input, (b1 ||| b2).toInt)
    else
      return (input, unknownCharacter)

/-- After the first byte of three, `n`. -/
def threeBytes (n : BitVec 32) (input : StringInputStream) : Option (StringInputStream × Int) := do
  let x := n
  let input := input.filteredReadCharacter
  if input.endOfInput then
    return (input, unknownCharacter)
  else
    let y ← lastCode input
    if y &&& 0x000000C0#32 = 0x00000080#32 then
      let input := input.filteredReadCharacter
      if input.endOfInput then
        return (input, unknownCharacter)
      else
        let z ← lastCode input
        if z &&& 0x000000C0#32 = 0x00000080#32 then
          let x := x &&& 0x0000000F#32
          let y := y &&& 0x0000003F#32
          let z := z &&& 0x0000003F#32
          let b1 := (x <<< 4) &&& (y >>> 2)
          let b2 := ((y &&& 0x00000003#32) <<< 6) &&& z
          return (input, (b1 ||| b2).toInt)
        else
          return (input, unknownCharacter)
    else
      return (input, unknownCharacter)

/-- After the first byte of four, `n`. -/
def fourBytes (n : BitVec 32) (input : StringInputStream) : Option (StringInputStream × Int) := do
  let w := n
  let input := input.filteredReadCharacter
  if input.endOfInput then
    return (input, unknownCharacter)
  else
    -- no test of the second byte
    let x ← lastCode input
    let input := input.filteredReadCharacter
    if input.endOfInput then
      return (input, unknownCharacter)
    else
      let y ← lastCode input
      if y &&& 0x000000C0#32 = 0x00000080#32 then
        let input := input.filteredReadCharacter
        if input.endOfInput then
          return (input, unknownCharacter)
        else
          let z ← lastCode input
          if z &&& 0x000000C0#32 = 0x00000080#32 then
            let w := w &&& 0x00000007#32
            let x := x &&& 0x0000003F#32
            let y := y &&& 0x0000003F#32
            let z := z &&& 0x0000003F#32
            let b1 := (w <<< 2) ||| (x >>> 4)
            let b2 := ((x &&& 0x0000000F#32) <<< 4) ||| y.sshiftRight 2
            let b3 := ((y &&& 0x00000003#32) <<< 6) &&& z
            return (input, (b1 ||| b2 ||| b3).toInt)
          else
            return (input, unknownCharacter)
      else
        return (input, unknownCharacter)

/-- The branch of `next` for UTF-8: the stream, and what is added to the backlog. -/
def decode (input : StringInputStream) : Option (StringInputStream × List Int) := do
  let input := input.filteredReadCharacter
  if input.endOfInput then
    return (input, [])
  else
    let n ← lastCode input
    if n.toInt < 0x80 then
      return (input, [n.toInt])
    else
      -- one more byte, which no branch looks at
      let input := input.filteredReadCharacter
      if input.endOfInput then
        return (input, [])
      else
        let (input, c) ←
          (if n &&& 0x000000E0#32 = 0x000000C0#32 then twoBytes n input
          else if n &&& 0x000000F0#32 = 0x000000E0#32 then threeBytes n input
          else if n &&& 0x000000F8#32 = 0x000000F0#32 then fourBytes n input
          else some (input, unknownCharacter))
        return (input, [c])

def endOfInput (b : UnicodeParserBuffer) : Bool :=
  decide (b.index > FastArray.upper b.backlog) && b.input.endOfInput

def code (b : UnicodeParserBuffer) : Option Int :=
  FastArray.item b.backlog b.index

/-- What `next` reads from the stream, by the size of the encoding. -/
def read (b : UnicodeParserBuffer) : Option UnicodeParserBuffer :=
  if b.size = 0 then do
    -- no encoding set, it is an error to have a character that is not ASCII
    let input := b.input.filteredReadCharacter
    if input.endOfInput then
      return { b with input }
    else
      let n ← lastCode input
      if n.toInt > 0x7F then
        return { b with input, atError := true }
      else
        return { b with input, backlog := FastArray.addLast b.backlog n.toInt }
  else if b.size = 1 then do
    let input := b.input.filteredReadCharacter
    if input.endOfInput then
      return { b with input }
    else
      return { b with input, backlog := FastArray.addLast b.backlog (← lastCode input).toInt }
  else if b.size = 4 then do
    let (input, decoded) ← decode b.input
    return { b with input, backlog := b.backlog ++ decoded }
  else
    none

def next (b : UnicodeParserBuffer) : Option UnicodeParserBuffer := do
  let b ← (if b.index = FastArray.upper b.backlog then b.read else some b)
  if b.atError then
    return b
  else
    let b := { b with index := b.index + 1 }
    if b.endOfInput then
      return b
    else if (← b.code) = 10 then
      return { b with line := b.line + 1, column := 1 }
    else
      return { b with column := b.column + 1 }

/-- `set_encoding`: the size of the encoding.  UTF-16 is not yet implemented. -/
def setEncoding : Encoding → Option Int
  | .utf8 => some 4
  | .utf16 => none
  | .other => some 1

def connectTo (input : StringInputStream) (encoding : Option Encoding) :
    Option UnicodeParserBuffer := do
  let size ←
    match encoding with
    | some encoding => setEncoding encoding
    | none => some 0
  next { input, size, backlog := [], index := -1, line := 1, column := 1, atError := false }

/-- A reader takes the current character and goes on with `next`, until `end_of_input`. -/
def readOn (b : UnicodeParserBuffer) (taken : List Int) (fuel : Nat) :
    Option (UnicodeParserBuffer × List Int) :=
  untilLoop (fun t => some t.1.endOfInput)
    (fun (b, taken) => do
      let c ← b.code
      return (← b.next, taken ++ [c]))
    fuel (b, taken)

/-- All the characters of the stream. -/
def characters (input : StringInputStream) (encoding : Option Encoding) (fuel : Nat) :
    Option (List Int) := do
  let b ← connectTo input encoding
  let (_, taken) ← b.readOn [] fuel
  return taken

/-! ## Bytes -/

/-- The codes of the characters that have not been read. -/
def unread (input : StringInputStream) : List Int :=
  input.rest.map Character.code

/-- The text goes on with a first byte, if it goes on. -/
def Starts (bytes : List Int) : Prop :=
  ∀ z ∈ bytes.head?, ¬UnicodeString.Trails z

section Bytes

variable {input : StringInputStream} {bytes : List Int} {n : Int}

/-- What the masks of the decoder tell of a byte. -/
theorem masks (low : 0 ≤ n) (high : n < 256) :
    (BitVec.ofInt 32 n).toInt = n ∧
    (BitVec.ofInt 32 n &&& 0x000000C0#32 = 0x00000080#32 ↔ UnicodeString.Trails n) ∧
    (BitVec.ofInt 32 n &&& 0x000000E0#32 = 0x000000C0#32 ↔ 0xC0 ≤ n ∧ n ≤ 0xDF) ∧
    (BitVec.ofInt 32 n &&& 0x000000F0#32 = 0x000000E0#32 ↔ 0xE0 ≤ n ∧ n ≤ 0xEF) ∧
    (BitVec.ofInt 32 n &&& 0x000000F8#32 = 0x000000F0#32 ↔ 0xF0 ≤ n ∧ n ≤ 0xF7) := by
  have all : ∀ k : Fin 256,
      (BitVec.ofInt 32 k.val).toInt = k.val ∧
      (BitVec.ofInt 32 k.val &&& 0x000000C0#32 = 0x00000080#32 ↔
        0x80 ≤ (k.val : Int) ∧ (k.val : Int) ≤ 0xBF) ∧
      (BitVec.ofInt 32 k.val &&& 0x000000E0#32 = 0x000000C0#32 ↔
        0xC0 ≤ (k.val : Int) ∧ (k.val : Int) ≤ 0xDF) ∧
      (BitVec.ofInt 32 k.val &&& 0x000000F0#32 = 0x000000E0#32 ↔
        0xE0 ≤ (k.val : Int) ∧ (k.val : Int) ≤ 0xEF) ∧
      (BitVec.ofInt 32 k.val &&& 0x000000F8#32 = 0x000000F0#32 ↔
        0xF0 ≤ (k.val : Int) ∧ (k.val : Int) ≤ 0xF7) := by
    decide +kernel
  obtain ⟨k, rfl⟩ := Int.eq_ofNat_of_zero_le low
  exact all ⟨k, by omega⟩

theorem read_code (text : unread input = n :: bytes) :
    input.filteredReadCharacter.endOfInput = false ∧
      lastCode input.filteredReadCharacter = some (.ofInt 32 n) ∧
      unread input.filteredReadCharacter = bytes ∧ 0 ≤ n ∧ n < 256 := by
  obtain ⟨c, rest, parts, same, behind⟩ := List.map_eq_cons_iff.mp text
  obtain ⟨left, last, going⟩ := StringInputStream.read_cons parts
  refine ⟨going, ?_, by rw [unread, left, behind], ?_, ?_⟩
  · rw [lastCode, last, ← same]
    rfl
  · rw [← same]
    exact Int.natCast_nonneg _
  · rw [← same]
    exact Int.ofNat_lt.mpr c.toNat_lt

theorem read_end (text : unread input = []) :
    input.filteredReadCharacter.endOfInput = true ∧ unread input.filteredReadCharacter = [] := by
  obtain ⟨left, ended⟩ := StringInputStream.read_nil (List.map_eq_nil_iff.mp text)
  exact ⟨ended, by rw [unread, left, List.map_nil]⟩

/-- The last byte that is read is not one of the sequence. -/
theorem twoBytes_starts (starts : Starts bytes) (text : unread input = bytes) (w : BitVec 32) :
    ∃ input', twoBytes w input = some (input', unknownCharacter) ∧ unread input' = bytes.tail := by
  unfold twoBytes
  cases bytes with
  | nil =>
    obtain ⟨ended, left⟩ := read_end text
    exact ⟨_, by simp only [ended, if_true]; rfl, left⟩
  | cons z bytes =>
    obtain ⟨going, last, left, low, high⟩ := read_code text
    have other : ¬(BitVec.ofInt 32 z &&& 0x000000C0#32 = 0x00000080#32) :=
      mt (masks low high).2.1.mp (starts z rfl)
    refine ⟨_, ?_, left⟩
    simp only [going, last, Bool.false_eq_true, if_false, Option.bind_eq_bind, Option.bind_some,
      if_neg other]
    rfl

theorem threeBytes_starts (starts : Starts bytes) {y : Int} (trails : UnicodeString.Trails y)
    (text : unread input = y :: bytes) (w : BitVec 32) :
    ∃ input', threeBytes w input = some (input', unknownCharacter) ∧ unread input' = bytes.tail := by
  obtain ⟨going, last, left, low, high⟩ := read_code text
  have second := (masks low high).2.1.mpr trails
  unfold threeBytes
  simp only [going, last, Bool.false_eq_true, if_false, Option.bind_eq_bind, Option.bind_some,
    if_pos second]
  cases bytes with
  | nil =>
    obtain ⟨ended, left'⟩ := read_end left
    exact ⟨_, by simp only [ended, if_true]; rfl, left'⟩
  | cons z bytes =>
    obtain ⟨going', last', left', low', high'⟩ := read_code left
    have other : ¬(BitVec.ofInt 32 z &&& 0x000000C0#32 = 0x00000080#32) :=
      mt (masks low' high').2.1.mp (starts z rfl)
    refine ⟨_, ?_, left'⟩
    simp only [going', last', Bool.false_eq_true, if_false, Option.bind_some, if_neg other]
    rfl

theorem fourBytes_starts (starts : Starts bytes) {x y : Int} (trails : UnicodeString.Trails y)
    (text : unread input = x :: y :: bytes) (w : BitVec 32) :
    ∃ input', fourBytes w input = some (input', unknownCharacter) ∧ unread input' = bytes.tail := by
  obtain ⟨going₁, last₁, left₁, -, -⟩ := read_code text
  obtain ⟨going, last, left, low, high⟩ := read_code left₁
  have third := (masks low high).2.1.mpr trails
  unfold fourBytes
  simp only [going₁, last₁, going, last, Bool.false_eq_true, if_false, Option.bind_eq_bind,
    Option.bind_some, if_pos third]
  cases bytes with
  | nil =>
    obtain ⟨ended, left'⟩ := read_end left
    exact ⟨_, by simp only [ended, if_true]; rfl, left'⟩
  | cons z bytes =>
    obtain ⟨going', last', left', low', high'⟩ := read_code left
    have other : ¬(BitVec.ofInt 32 z &&& 0x000000C0#32 = 0x00000080#32) :=
      mt (masks low' high').2.1.mp (starts z rfl)
    refine ⟨_, ?_, left'⟩
    simp only [going', last', Bool.false_eq_true, if_false, Option.bind_some, if_neg other]
    rfl

/-! ## One character -/

theorem decode_end (text : unread input = []) :
    ∃ input', decode input = some (input', []) ∧ input'.endOfInput = true := by
  obtain ⟨ended, -⟩ := read_end text
  exact ⟨_, by unfold decode; simp only [ended, if_true]; rfl, ended⟩

theorem decode_ascii (ascii : n < 0x80) (text : unread input = n :: bytes) :
    ∃ input', decode input = some (input', [n]) ∧ unread input' = bytes := by
  obtain ⟨going, last, left, low, high⟩ := read_code text
  have value := (masks low high).1
  refine ⟨_, ?_, left⟩
  unfold decode
  simp only [going, last, Bool.false_eq_true, if_false, Option.bind_eq_bind, Option.bind_some, value,
    if_pos ascii]
  rfl

/-- A byte behind which the text ends leaves nothing. -/
theorem decode_cut (long : 0x80 ≤ n) (text : unread input = [n]) :
    ∃ input', decode input = some (input', []) ∧ input'.endOfInput = true := by
  obtain ⟨going, last, left, low, high⟩ := read_code text
  obtain ⟨ended, -⟩ := read_end left
  have value := (masks low high).1
  refine ⟨_, ?_, ended⟩
  unfold decode
  simp only [going, last, Bool.false_eq_true, if_false, Option.bind_eq_bind, Option.bind_some, value,
    if_neg (Int.not_lt.mpr long), ended, if_true]
  rfl

/-- A continuation byte and the byte behind it are one unknown character. -/
theorem decode_trails (trails : UnicodeString.Trails n) {m : Int}
    (text : unread input = n :: m :: bytes) :
    ∃ input', decode input = some (input', [unknownCharacter]) ∧ unread input' = bytes := by
  obtain ⟨going, last, left, low, high⟩ := read_code text
  obtain ⟨going', -, left', -, -⟩ := read_code left
  obtain ⟨value, -, two, three, four⟩ := masks low high
  unfold UnicodeString.Trails at trails
  refine ⟨_, ?_, left'⟩
  unfold decode
  simp only [going, last, going', Bool.false_eq_true, if_false, Option.bind_eq_bind,
    Option.bind_some, value, if_neg (show ¬n < 0x80 by omega), if_neg (mt two.mp (by omega)),
    if_neg (mt three.mp (by omega)), if_neg (mt four.mp (by omega))]
  rfl

/-- A sequence of several bytes and the byte behind it are one unknown character. -/
theorem decode_sequence {c : Int} (scalar : UnicodeString.Scalar c) (long : 0x80 ≤ c)
    (starts : Starts bytes) (text : unread input = UnicodeString.bytesOf c ++ bytes) :
    ∃ input', decode input = some (input', [unknownCharacter]) ∧ unread input' = bytes.tail := by
  have most := scalar.1.2
  have first : ∀ {b m : Int} {rest : List Int}, 0xC0 ≤ b → unread input = b :: m :: rest →
      ∃ input', unread input' = rest ∧ b < 256 ∧ decode input = do
        let (input, c) ←
          (if 0xC0 ≤ b ∧ b ≤ 0xDF then twoBytes (.ofInt 32 b) input'
          else if 0xE0 ≤ b ∧ b ≤ 0xEF then threeBytes (.ofInt 32 b) input'
          else if 0xF0 ≤ b ∧ b ≤ 0xF7 then fourBytes (.ofInt 32 b) input'
          else some (input', unknownCharacter))
        return (input, [c]) := by
    intro b m rest lead text
    obtain ⟨going, last, left, low, high⟩ := read_code text
    obtain ⟨going', -, left', -, -⟩ := read_code left
    obtain ⟨value, -, two, three, four⟩ := masks low high
    refine ⟨_, left', high, ?_⟩
    unfold decode
    simp only [going, last, going', Bool.false_eq_true, if_false, Option.bind_eq_bind,
      Option.bind_some, value, if_neg (show ¬b < 0x80 by omega), two, three, four]
  rcases UnicodeString.bytesOf_cases c with ⟨size, list⟩ | ⟨size, list⟩ | ⟨size, list⟩ | ⟨size, list⟩
  · omega
  · rw [list, List.cons_append, List.cons_append, List.nil_append] at text
    obtain ⟨input₁, left, -, run⟩ := first (by omega) text
    obtain ⟨input', run', left'⟩ := twoBytes_starts starts left (.ofInt 32 (c / 64 + 192))
    rw [if_pos (by omega), run'] at run
    exact ⟨input', run, left'⟩
  · rw [list, List.cons_append, List.cons_append, List.cons_append, List.nil_append] at text
    obtain ⟨input₁, left, -, run⟩ := first (by omega) text
    obtain ⟨input', run', left'⟩ := threeBytes_starts starts (by unfold UnicodeString.Trails; omega)
      left (.ofInt 32 (c / 4096 + 224))
    rw [if_neg (by omega), if_pos (by omega), run'] at run
    exact ⟨input', run, left'⟩
  · rw [list, List.cons_append, List.cons_append, List.cons_append, List.cons_append,
      List.nil_append] at text
    obtain ⟨input₁, left, -, run⟩ := first (by omega) text
    obtain ⟨input', run', left'⟩ := fourBytes_starts starts (by unfold UnicodeString.Trails; omega)
      left (.ofInt 32 (c / 262144 + 240))
    rw [if_neg (by omega), if_neg (by omega), if_pos (by omega), run'] at run
    exact ⟨input', run, left'⟩

end Bytes

/-! ## Next -/

section Next

variable {b : UnicodeParserBuffer} {input : StringInputStream}

/-- The buffer is at its last character, in UTF-8, and `bytes` are left in the stream. -/
structure AtLast (b : UnicodeParserBuffer) (bytes : List Int) : Prop where
  size_eq : b.size = 4
  atError_eq : b.atError = false
  index_eq : b.index = FastArray.upper b.backlog
  unread_eq : unread b.input = bytes

variable {bytes bytes' : List Int} {c : Int}

theorem AtLast.next_end (h : AtLast b bytes) (run : decode b.input = some (input, []))
    (ended : input.endOfInput = true) : Returns b.next fun b' => b'.endOfInput = true := by
  have read : b.read = some { b with input, backlog := b.backlog ++ [] } := by
    unfold UnicodeParserBuffer.read
    rw [if_neg (by rw [h.size_eq]; decide), if_neg (by rw [h.size_eq]; decide), if_pos h.size_eq, run]
    rfl
  have past : endOfInput { b with input, index := b.index + 1 } = true := by
    unfold endOfInput
    rw [Bool.and_eq_true, decide_eq_true_eq]
    have index := h.index_eq
    exact ⟨by dsimp only; omega, ended⟩
  unfold next
  rw [if_pos h.index_eq, read, List.append_nil, Returns.some_bind]
  dsimp only
  rw [if_neg (by rw [h.atError_eq]; decide), past, if_pos rfl, Returns.pure_iff]
  exact past

theorem AtLast.next_code (h : AtLast b bytes) (run : decode b.input = some (input, [c]))
    (left : unread input = bytes') :
    Returns b.next fun b' => AtLast b' bytes' ∧ b'.code = some c ∧ b'.endOfInput = false := by
  have read : b.read = some { b with input, backlog := b.backlog ++ [c] } := by
    unfold UnicodeParserBuffer.read
    rw [if_neg (by rw [h.size_eq]; decide), if_neg (by rw [h.size_eq]; decide), if_pos h.size_eq, run]
    rfl
  have index := h.index_eq
  unfold FastArray.upper at index
  have upper : FastArray.upper (b.backlog ++ [c]) = b.index + 1 := by
    unfold FastArray.upper
    rw [List.length_append, List.length_singleton]
    omega
  have here : FastArray.item (b.backlog ++ [c]) (b.index + 1) = some c := by
    rw [show b.index + 1 = (b.backlog.length : ℕ) by omega, FastArray.item_natCast]
    simp
  have inside : ∀ line column, endOfInput { b with
      input, backlog := b.backlog ++ [c], index := b.index + 1, line, column } = false := by
    intro line column
    unfold endOfInput
    rw [decide_eq_false (by rw [upper]; exact Int.lt_irrefl _), Bool.false_and]
  unfold next
  rw [if_pos h.index_eq, read, Returns.some_bind]
  dsimp only
  rw [if_neg (by rw [h.atError_eq]; decide), inside, if_neg Bool.false_ne_true]
  unfold code
  rw [here, Returns.some_bind]
  split
  · exact Returns.pure_iff.mpr ⟨⟨h.size_eq, h.atError_eq, upper.symm, left⟩, here, inside _ _⟩
  · exact Returns.pure_iff.mpr ⟨⟨h.size_eq, h.atError_eq, upper.symm, left⟩, here, inside _ _⟩

end Next

/-! ## A text -/

/-- What is read of a text of code points, when the first byte that is read is one of `pending`
continuation bytes of the code point before them. -/
inductive Outputs : ℕ → List Int → List Int → Prop
  | finish : Outputs 0 [] []
  | cut : Outputs 1 [] []
  | ascii {c : Int} {points out : List Int} (short : c < 0x80) (rest : Outputs 0 points out) :
      Outputs 0 (c :: points) (c :: out)
  | last {c : Int} (long : 0x80 ≤ c) : Outputs 0 [c] [unknownCharacter]
  | lost {c d : Int} {points out : List Int} (long : 0x80 ≤ c)
      (rest : Outputs (UnicodeString.lead d).2.length points out) :
      Outputs 0 (c :: d :: points) (unknownCharacter :: out)
  | pair {k : ℕ} {points out : List Int} (rest : Outputs k points out) :
      Outputs (k + 2) points (unknownCharacter :: out)
  | single {d : Int} {points out : List Int}
      (rest : Outputs (UnicodeString.lead d).2.length points out) :
      Outputs 1 (d :: points) (unknownCharacter :: out)

section Text

variable {b : UnicodeParserBuffer} {points out : List Int} {c : Int}

/-- Going on from the buffer reads `out`. -/
def GoesOn (b : UnicodeParserBuffer) (out : List Int) : Prop :=
  ∃ b', b.next = some b' ∧ ∀ taken, ∃ b'', Completes (b'.readOn taken) (b'', taken ++ out)

theorem goesOn_nil (ended : Returns b.next fun b' => b'.endOfInput = true) : GoesOn b [] := by
  obtain ⟨b', run, ended⟩ := ended
  refine ⟨b', run, fun taken => ⟨b', .of_eq fun fuel => ?_⟩⟩
  rw [List.append_nil]
  exact untilLoop_stopped (congrArg some ended)

theorem goesOn_cons {bytes : List Int}
    (read : Returns b.next fun b' => AtLast b' bytes ∧ b'.code = some c ∧ b'.endOfInput = false)
    (rest : ∀ b', AtLast b' bytes → GoesOn b' out) : GoesOn b (c :: out) := by
  obtain ⟨b', run, atLast, current, going⟩ := read
  obtain ⟨b₂, next, completes⟩ := rest b' atLast
  refine ⟨b', run, fun taken => ?_⟩
  obtain ⟨b₃, completes⟩ := completes (taken ++ [c])
  rw [List.append_assoc, List.singleton_append] at completes
  refine ⟨b₃, .of_succ (completes.congr fun fuel => ?_)⟩
  simp [readOn, untilLoop, going, current, next]

theorem starts_flatMap (scalars : ∀ c ∈ points, UnicodeString.Scalar c) :
    Starts (points.flatMap UnicodeString.bytesOf) := by
  intro z first
  cases points with
  | nil => cases first
  | cons c points =>
    unfold UnicodeString.Trails
    rw [List.flatMap_cons] at first
    rcases UnicodeString.bytesOf_cases c with ⟨size, list⟩ | ⟨size, list⟩ | ⟨size, list⟩ |
      ⟨size, list⟩ <;>
    · rw [list] at first
      cases first
      omega

/-- Behind the first byte of a code point are its continuation bytes. -/
theorem tail_bytesOf (scalar : UnicodeString.Scalar c) (bytes : List Int) :
    ∃ trailing, (UnicodeString.bytesOf c ++ bytes).tail = trailing ++ bytes ∧
      trailing.length = (UnicodeString.lead c).2.length ∧ ∀ n ∈ trailing, UnicodeString.Trails n := by
  have most := scalar.1.2
  refine ⟨(UnicodeString.lead c).2.map (· + 128), rfl, List.length_map _, fun n member => ?_⟩
  obtain ⟨digit, mem, rfl⟩ := List.mem_map.mp member
  have six := (UnicodeString.lead_digits c digit mem).resolve_right (by omega)
  unfold UnicodeString.Trails
  omega

/-- The buffer reads what is said of the text. -/
theorem Outputs.goesOn {k : ℕ} (outputs : Outputs k points out)
    (scalars : ∀ c ∈ points, UnicodeString.Scalar c) {trailing : List Int}
    (length : trailing.length = k) (trails : ∀ n ∈ trailing, UnicodeString.Trails n)
    (atLast : AtLast b (trailing ++ points.flatMap UnicodeString.bytesOf)) : GoesOn b out := by
  induction outputs generalizing b trailing with
  | finish =>
    obtain rfl := List.length_eq_zero_iff.mp length
    obtain ⟨input, run, ended⟩ := decode_end atLast.unread_eq
    exact goesOn_nil (atLast.next_end run ended)
  | cut =>
    obtain ⟨n, rfl⟩ := List.length_eq_one_iff.mp length
    have long := (trails n List.mem_cons_self).1
    obtain ⟨input, run, ended⟩ := decode_cut long atLast.unread_eq
    exact goesOn_nil (atLast.next_end run ended)
  | @ascii c points out short rest ih =>
    obtain rfl := List.length_eq_zero_iff.mp length
    have one : UnicodeString.bytesOf c = [c] := by
      rcases UnicodeString.bytesOf_cases c with ⟨-, list⟩ | ⟨size, -⟩ | ⟨size, -⟩ | ⟨size, -⟩
      · exact list
      all_goals omega
    rw [List.nil_append, List.flatMap_cons, one, List.singleton_append] at atLast
    obtain ⟨input, run, left⟩ := decode_ascii short atLast.unread_eq
    exact goesOn_cons (atLast.next_code run left) fun b' atLast' =>
      @ih b' (fun d member => scalars d (List.mem_cons_of_mem c member)) [] rfl nofun atLast'
  | @last c long =>
    obtain rfl := List.length_eq_zero_iff.mp length
    obtain ⟨input, run, left⟩ := @decode_sequence _ [] c (scalars c List.mem_cons_self) long
      nofun atLast.unread_eq
    refine goesOn_cons (atLast.next_code run left) fun b' atLast' => ?_
    obtain ⟨input, run, ended⟩ := decode_end atLast'.unread_eq
    exact goesOn_nil (atLast'.next_end run ended)
  | @lost c d points out long rest ih =>
    obtain rfl := List.length_eq_zero_iff.mp length
    have scalarD := scalars d (List.mem_cons_of_mem c List.mem_cons_self)
    have starts := starts_flatMap fun e member => scalars e (List.mem_cons_of_mem c member)
    obtain ⟨input, run, left⟩ := decode_sequence (scalars c List.mem_cons_self) long starts
      atLast.unread_eq
    obtain ⟨trailing, same, length', trails'⟩ :=
      tail_bytesOf scalarD (points.flatMap UnicodeString.bytesOf)
    rw [List.flatMap_cons, same] at left
    exact goesOn_cons (atLast.next_code run left) fun b' atLast' =>
      ih (fun e member => scalars e (List.mem_cons_of_mem c (List.mem_cons_of_mem d member)))
        length' trails' atLast'
  | @pair k points out rest ih =>
    cases trailing with
    | nil => cases length
    | cons n trailing =>
      cases trailing with
      | nil => cases length
      | cons m trailing =>
        obtain ⟨input, run, left⟩ := decode_trails (trails n List.mem_cons_self)
          atLast.unread_eq
        exact goesOn_cons (atLast.next_code run left) fun b' atLast' =>
          ih scalars (Nat.add_right_cancel (Nat.add_right_cancel length))
            (fun x member => trails x (List.mem_cons_of_mem n (List.mem_cons_of_mem m member)))
            atLast'
  | @single d points out rest ih =>
    obtain ⟨n, rfl⟩ := List.length_eq_one_iff.mp length
    obtain ⟨trailing, same, length', trails'⟩ := tail_bytesOf
      (scalars d List.mem_cons_self) (points.flatMap UnicodeString.bytesOf)
    obtain ⟨input, run, left⟩ := decode_trails (trails n List.mem_cons_self) atLast.unread_eq
    have behind := left.trans same
    exact goesOn_cons (atLast.next_code run behind) fun b' atLast' =>
      ih (fun e member => scalars e (List.mem_cons_of_mem d member)) length' trails' atLast'

end Text

/-- A text that is read as it is: ASCII characters and pairs of unknown characters, and one of
these at the end. -/
inductive Survives : List Int → Prop
  | nil : Survives []
  | last : Survives [unknownCharacter]
  | ascii {c : Int} {points : List Int} (short : c < 0x80) (rest : Survives points) :
      Survives (c :: points)
  | pair {points : List Int} (rest : Survives points) :
      Survives (unknownCharacter :: unknownCharacter :: points)

/-! ## What is read as it is -/

section Survives

variable {points out : List Int} {k : ℕ}

theorem exists_outputs (points : List Int) (k : ℕ) : ∃ out, Outputs k points out := by
  have all : ∀ n (points : List Int), points.length ≤ n → ∀ k, ∃ out, Outputs k points out := by
    intro n
    induction n with
    | zero =>
      intro points short k
      obtain rfl := List.length_eq_zero_iff.mp (Nat.le_zero.mp short)
      induction k using Nat.strongRecOn with
      | ind k ih =>
        match k with
        | 0 => exact ⟨_, .finish⟩
        | 1 => exact ⟨_, .cut⟩
        | k + 2 =>
          obtain ⟨out, outputs⟩ := ih k (by omega)
          exact ⟨_, .pair outputs⟩
    | succ n ihn =>
      intro points short k
      induction k using Nat.strongRecOn with
      | ind k ih =>
        match k with
        | 0 =>
          cases points with
          | nil => exact ⟨_, .finish⟩
          | cons c points =>
            rw [List.length_cons] at short
            by_cases ascii : c < 0x80
            · obtain ⟨out, outputs⟩ := ihn points (by omega) 0
              exact ⟨_, .ascii ascii outputs⟩
            · cases points with
              | nil => exact ⟨_, .last (by omega)⟩
              | cons d points =>
                rw [List.length_cons] at short
                obtain ⟨out, outputs⟩ := ihn points (by omega) (UnicodeString.lead d).2.length
                exact ⟨_, .lost (by omega) outputs⟩
        | 1 =>
          cases points with
          | nil => exact ⟨_, .cut⟩
          | cons d points =>
            rw [List.length_cons] at short
            obtain ⟨out, outputs⟩ := ihn points (by omega) (UnicodeString.lead d).2.length
            exact ⟨_, .single outputs⟩
        | k + 2 =>
          obtain ⟨out, outputs⟩ := ih k (by omega)
          exact ⟨_, .pair outputs⟩
  exact all points.length points (Nat.le_refl _) k

/-- Nothing but ASCII and unknown characters is read. -/
theorem Outputs.plain (outputs : Outputs k points out) :
    ∀ c ∈ out, c < 0x80 ∨ c = unknownCharacter := by
  induction outputs with
  | finish => exact nofun
  | cut => exact nofun
  | ascii short rest ih => exact List.forall_mem_cons.mpr ⟨.inl short, ih⟩
  | last long => exact List.forall_mem_cons.mpr ⟨.inr rfl, nofun⟩
  | lost long rest ih => exact List.forall_mem_cons.mpr ⟨.inr rfl, ih⟩
  | pair rest ih => exact List.forall_mem_cons.mpr ⟨.inr rfl, ih⟩
  | single rest ih => exact List.forall_mem_cons.mpr ⟨.inr rfl, ih⟩

theorem Survives.outputs (survives : Survives points) : Outputs 0 points points := by
  induction survives with
  | nil => exact .finish
  | last => exact .last (by decide)
  | ascii short rest ih => exact .ascii short ih
  | pair rest ih => exact .lost (by decide) (.pair ih)

/-- The continuation bytes of the characters that can be read. -/
theorem trailing_plain {c : Int} (plain : c < 0x80 ∨ c = unknownCharacter) :
    (UnicodeString.lead c).2.length = if c < 0x80 then 0 else 2 := by
  rcases plain with short | rfl
  · rw [if_pos short]
    unfold UnicodeString.lead
    rw [if_pos short]
    rfl
  · rfl

/-- A text of such characters does not get longer. -/
theorem Outputs.length_le (outputs : Outputs k points out)
    (plain : ∀ c ∈ points, c < 0x80 ∨ c = unknownCharacter) (even : k = 0 ∨ k = 2) :
    out.length ≤ points.length + k / 2 := by
  induction outputs with
  | finish => exact Nat.le_refl _
  | cut => omega
  | ascii short rest ih =>
    have shorter := ih (fun d member => plain d (List.mem_cons_of_mem _ member)) (.inl rfl)
    rw [List.length_cons, List.length_cons]
    omega
  | last long => exact Nat.le_refl _
  | @lost c d points out long rest ih =>
    have trailing := trailing_plain (plain d (List.mem_cons_of_mem c List.mem_cons_self))
    have shorter := ih
      (fun e member => plain e (List.mem_cons_of_mem c (List.mem_cons_of_mem d member))) (by
        rw [trailing]
        split <;> omega)
    have most : (UnicodeString.lead d).2.length / 2 ≤ 1 := by
      rw [trailing]
      split <;> omega
    rw [List.length_cons, List.length_cons, List.length_cons]
    omega
  | pair rest ih =>
    have shorter := ih plain (by omega)
    rw [List.length_cons]
    omega
  | single rest ih => omega

theorem Outputs.survives (outputs : Outputs 0 points points) : Survives points := by
  have plain := outputs.plain
  induction h : points.length using Nat.strongRecOn generalizing points with
  | ind n ih =>
    cases outputs with
    | finish => exact .nil
    | @ascii c points _ short rest =>
      exact .ascii short (ih points.length (by rw [← h, List.length_cons]; omega) rest
        (fun d member => plain d (List.mem_cons_of_mem c member)) rfl)
    | last long => exact .last
    | @lost c d points _ long rest =>
      have plainD := plain d (List.mem_cons_of_mem _ List.mem_cons_self)
      have plain' : ∀ e ∈ points, e < 0x80 ∨ e = unknownCharacter := fun e member =>
        plain e (List.mem_cons_of_mem _ (List.mem_cons_of_mem d member))
      have trailing := trailing_plain plainD
      rcases plainD with short | rfl
      · rw [if_pos short] at trailing
        rw [trailing] at rest
        have shorter := rest.length_le plain' (.inl rfl)
        rw [List.length_cons] at shorter
        omega
      · rw [trailing, if_neg (by decide)] at rest
        cases rest with
        | pair rest =>
          exact .pair (ih points.length (by
            rw [← h, List.length_cons, List.length_cons]
            omega) rest plain' rfl)

end Survives

theorem completes_characters {bytes : List Character} {points out : List Int}
    (encoded : bytes.map Character.code = points.flatMap UnicodeString.bytesOf)
    (scalars : ∀ c ∈ points, UnicodeString.Scalar c) (outputs : Outputs 0 points out) :
    Completes (characters (.fromString bytes) (some .utf8)) out := by
  have atLast : AtLast ⟨.fromString bytes, 4, [], -1, 1, 1, false⟩
      ([] ++ points.flatMap UnicodeString.bytesOf) := ⟨rfl, rfl, rfl, encoded⟩
  obtain ⟨b, run, completes⟩ := @Outputs.goesOn _ _ _ _ outputs scalars [] rfl nofun atLast
  obtain ⟨b', completes⟩ := completes []
  have connected : connectTo (.fromString bytes) (some .utf8) = some b := run
  refine (@Completes.bind _ _ _ (fun _ t => some t.2) _ _ completes (.of_eq fun fuel => rfl)).congr
    fun fuel => ?_
  unfold characters
  rw [connected]
  rfl

/-- **The buffer as a decoder.**  The characters of a text in UTF-8, which UTF8_PARSER decodes, are
read as they are exactly when they are ASCII characters and pairs of unknown characters, with at
most one more of these at the end. -/
theorem characters_iff (points : List Int) (valid : ∀ c ∈ points, ValidUnicode c)
    (bytes : List Character)
    (encoded : bytes.map Character.code = points.flatMap UnicodeString.bytesOf) :
    (∀ s : NativelyStoredString, s.Valid → Utf8Parser.leadingCodes s = bytes.map Character.code →
      ∀ (p : Utf8Parser) (u : UnicodeString), UnicodeString.Valid u → ∃ t, p.decode s u = some t ∧
        t.1.isOk = true ∧ points.foldlM UnicodeString.extend u = some t.2) ∧
      (Completes (characters (.fromString bytes) (some .utf8)) points ↔ Survives points) := by
  constructor
  · intro s validS held p u validU
    have room : u.Room := ⟨validU.size_eq, validU.count_nonneg, validU.count_le⟩
    have run := Utf8Parser.decode_eq validS p u
    rw [held, encoded] at run
    obtain ⟨r, decoded, ok, folded⟩ := UnicodeString.utf8DecodeFrom_bytesOf room valid
    rw [decoded] at run
    obtain ⟨t, parsed, seen⟩ := Option.map_eq_some_iff.mp run
    subst seen
    exact ⟨t, parsed, ok, folded⟩
  · have scalars : ∀ c ∈ points, UnicodeString.Scalar c := fun c member =>
      (UnicodeString.validUnicode_iff.mp (valid c member)).1
    obtain ⟨out, outputs⟩ := exists_outputs points 0
    have completes := completes_characters encoded scalars outputs
    constructor
    · intro same
      obtain rfl := completes.unique same
      exact outputs.survives
    · intro survives
      exact completes_characters encoded scalars survives.outputs

/-- The text `hi`. -/
theorem characters_iff_ascii :
    Completes (characters (.fromString [104, 105]) (some .utf8)) [104, 105] :=
  (characters_iff [104, 105] (by decide) [104, 105] (by decide)).2.mpr
    (.ascii (by decide) (.ascii (by decide) .nil))

/-- The two bytes of U+00E9 are read as one unknown character. -/
theorem not_characters :
    ∃ (points : List Int) (bytes : List Character), (∀ c ∈ points, ValidUnicode c) ∧
      bytes.map Character.code = points.flatMap UnicodeString.bytesOf ∧
      ¬Completes (characters (.fromString bytes) (some .utf8)) points := by
  have encoded : [(0xC3 : Character), 0xA9].map Character.code =
      [0xE9].flatMap UnicodeString.bytesOf := by decide
  refine ⟨[0xE9], [0xC3, 0xA9], by decide, encoded, fun completes => ?_⟩
  have scalars : ∀ c ∈ [0xE9], UnicodeString.Scalar c := fun c member => by
    rw [List.mem_singleton.mp member]
    unfold UnicodeString.Scalar
    decide
  exact absurd (completes.unique (completes_characters encoded scalars (.last (by decide))))
    (by decide)

end UnicodeParserBuffer

end Liberty
