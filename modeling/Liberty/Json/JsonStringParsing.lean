import Liberty.Json.JsonStringLiteral
import Mathlib.Tactic.IntervalCases

/-!
# What parse_string gives

The code points of a JSON string, and those of the UNICODE_STRING that `parse_string` extends by one
code for each character, escape or four digits.
-/

namespace Liberty

namespace JsonParser

open UnicodeString

/-! ## Literals that denote code points -/

section Denotation

variable {raw letter : Character → Prop} {unit : Int → Prop} {s text : List Character} {points codes : List Int}

theorem Spelled.append_inv (h : Spelled raw letter unit (text ++ s) codes) (ne : ∀ b ∈ text, b ≠ '\\'.toUInt8) :
    ∃ codes', codes = text.map Character.code ++ codes' ∧ (∀ b ∈ text, raw b) ∧ Spelled raw letter unit s codes' := by
  induction text generalizing codes with
  | nil => exact ⟨codes, rfl, fun _ mem => (List.not_mem_nil mem).elim, h⟩
  | cons b text ih =>
    obtain ⟨codes, rfl, -, allowed, rest⟩ := h.byte_inv (ne b List.mem_cons_self)
    obtain ⟨codes', rfl, all, rest'⟩ := ih rest fun b mem => ne b (List.mem_cons_of_mem _ mem)
    refine ⟨codes', rfl, fun b' mem => ?_, rest'⟩
    rcases List.mem_cons.mp mem with rfl | mem
    · exact allowed
    · exact all b' mem

theorem Spelled.append_raw (h : Spelled raw letter unit s codes) (isRaw : ∀ b ∈ text, IsRaw b)
    (allowed : ∀ b ∈ text, raw b) : Spelled raw letter unit (text ++ s) (text.map Character.code ++ codes) := by
  induction text with
  | nil => exact h
  | cons b text ih =>
    exact .byte (isRaw b List.mem_cons_self) (allowed b List.mem_cons_self)
      (ih (fun b mem => isRaw b (List.mem_cons_of_mem _ mem)) fun b mem => allowed b (List.mem_cons_of_mem _ mem))

/-- The bytes of a code point that stands for itself: itself, or bytes above those of ASCII. -/
theorem bytesOf_unescaped {c : Int} (unescaped : Unescaped c) :
    (c < 128 ∧ bytesOf c = [c]) ∨ (2 ≤ (bytesOf c).length ∧ ∀ b ∈ bytesOf c, 128 ≤ b) := by
  unfold bytesOf lead
  by_cases ascii : c < 128
  · rw [if_pos ascii]
    exact .inl ⟨ascii, rfl⟩
  · rw [if_neg ascii]
    right
    split
    · refine ⟨Nat.le_refl _, fun b mem => ?_⟩
      simp only [List.map_cons, List.map_nil, List.mem_cons, List.not_mem_nil, or_false] at mem
      omega
    · split
      · refine ⟨by simp, fun b mem => ?_⟩
        simp only [List.map_cons, List.map_nil, List.mem_cons, List.not_mem_nil, or_false] at mem
        omega
      · refine ⟨by simp, fun b mem => ?_⟩
        simp only [List.map_cons, List.map_nil, List.mem_cons, List.not_mem_nil, or_false] at mem
        omega

theorem isRaw_of_bytesOf {c : Int} (unescaped : Unescaped c) (encodes : text.map Character.code = bytesOf c) :
    ∀ b ∈ text, IsRaw b := by
  intro b mem
  have member : b.code ∈ bytesOf c := encodes ▸ List.mem_map_of_mem mem
  have apart : b.code ≠ 34 → b.code ≠ 92 → 32 ≤ b.code → IsRaw b := by
    intro quote slash low
    refine ⟨low, fun same => quote ?_, fun same => slash ?_⟩
    · rw [same]
      rfl
    · rw [same]
      rfl
  rcases bytesOf_unescaped unescaped with ⟨-, self⟩ | ⟨-, above⟩
  · rw [self, List.mem_singleton] at member
    obtain ⟨⟨low, -⟩, quote, slash, -⟩ := unescaped
    exact apart (member ▸ quote) (member ▸ slash) (member ▸ low)
  · have high := above _ member
    exact apart (by omega) (by omega) (by omega)

theorem Denotes.literal (h : Denotes s points) : ∃ codes, Literal s codes := by
  induction h with
  | nil => exact ⟨[], .nil⟩
  | raw unescaped encodes _ ih =>
    obtain ⟨codes, rest⟩ := ih
    exact ⟨_, rest.append_raw (isRaw_of_bytesOf unescaped encodes) fun _ _ => trivial⟩
  | escape short _ ih =>
    obtain ⟨codes, rest⟩ := ih
    exact ⟨_, .escape short trivial rest⟩
  | pair first second _ _ _ ih =>
    obtain ⟨codes, rest⟩ := ih
    exact ⟨_, .digits first trivial (.digits second trivial rest)⟩
  | unit first _ _ ih =>
    obtain ⟨codes, rest⟩ := ih
    exact ⟨_, .digits first trivial rest⟩

/-- A string has at most one code point for each code of its literal, and the same ones if there are as
many: then every raw character is one of ASCII. -/
theorem Denotes.points_of_codes (h : Denotes s points) (literal : Literal s codes) :
    points.length ≤ codes.length ∧ (points.length = codes.length → points = codes ∧
      Spelled (fun b => b.code < 128) (fun _ => True) (fun _ => True) s codes) := by
  induction h generalizing codes with
  | nil =>
    cases literal
    exact ⟨Nat.le_refl _, fun _ => ⟨rfl, .nil⟩⟩
  | @raw c text s points unescaped encodes _ ih =>
    have isRaw := isRaw_of_bytesOf unescaped encodes
    obtain ⟨codes, rfl, -, rest⟩ := literal.append_inv fun b mem => (isRaw b mem).2.2
    obtain ⟨le, same⟩ := ih rest
    have length : text.length = (bytesOf c).length := by
      rw [← encodes, List.length_map]
    rw [List.length_cons, List.length_append, List.length_map]
    rcases bytesOf_unescaped unescaped with ⟨ascii, self⟩ | ⟨more, -⟩
    · rw [self] at encodes length
      refine ⟨by rw [length, List.length_singleton]; omega, fun lengths => ?_⟩
      rw [length, List.length_singleton] at lengths
      obtain ⟨rfl, spelled⟩ := same (by omega)
      rw [encodes]
      refine ⟨rfl, ?_⟩
      have whole := spelled.append_raw isRaw fun b mem => by
        have member : b.code ∈ [c] := encodes ▸ List.mem_map_of_mem mem
        rw [List.mem_singleton] at member
        rw [member]
        exact ascii
      rwa [encodes] at whole
    · exact ⟨by omega, fun lengths => by omega⟩
  | escape short _ ih =>
    obtain ⟨c', codes, rfl, short', -, rest⟩ := literal.escape_inv (shortEscape_ne_u short)
    cases short.symm.trans short'
    obtain ⟨le, same⟩ := ih rest
    rw [List.length_cons, List.length_cons]
    refine ⟨by omega, fun lengths => ?_⟩
    obtain ⟨rfl, spelled⟩ := same (by omega)
    exact ⟨rfl, .escape short trivial spelled⟩
  | pair first second _ _ _ ih =>
    obtain ⟨a, b, c, d, s, u, codes, same, rfl, value, -, rest⟩ := literal.digits_inv
    cases same
    obtain ⟨a, b, c, d, s, u', codes, same, rfl, value', -, rest⟩ := rest.digits_inv
    cases same
    obtain ⟨le, -⟩ := ih rest
    simp only [List.length_cons]
    exact ⟨by omega, fun lengths => by omega⟩
  | unit first _ _ ih =>
    obtain ⟨a, b, c, d, s, u, codes, same, rfl, value, -, rest⟩ := literal.digits_inv
    cases same
    cases first.symm.trans value
    obtain ⟨le, same⟩ := ih rest
    rw [List.length_cons, List.length_cons]
    refine ⟨by omega, fun lengths => ?_⟩
    obtain ⟨rfl, spelled⟩ := same (by omega)
    exact ⟨rfl, .digits value trivial spelled⟩

theorem Spelled.literal (h : Spelled raw letter unit s codes) : Literal s codes :=
  h.mono (fun _ _ => trivial) (fun _ _ => trivial) fun _ _ => trivial

theorem Plain.unslashed (h : Plain s codes) : Unslashed s codes :=
  h.mono (fun _ _ => trivial) (fun _ allowed => allowed) fun _ _ => trivial

theorem Plain.denotes (h : Plain s codes) : Denotes s codes := by
  induction h with
  | nil => exact .nil
  | @byte b s codes isRaw ascii _ ih =>
    have quote : b.code ≠ 34 := fun same => isRaw.2.1 (UInt8.toNat_inj.mp (Int.ofNat_inj.mp same))
    have slash : b.code ≠ 92 := fun same => isRaw.2.2 (UInt8.toNat_inj.mp (Int.ofNat_inj.mp same))
    have low := isRaw.1
    refine @Denotes.raw b.code [b] s codes ⟨⟨low, by omega⟩, quote, slash, by omega⟩ ?_ ih
    unfold bytesOf lead
    rw [if_pos ascii]
    rfl
  | escape short _ _ ih => exact .escape short ih
  | digits value allowed _ ih =>
    exact .unit value (fun high => absurd high allowed.1) ih

theorem Denotes.eq_of_plain (h : Denotes s points) (plain : Plain s codes) : points = codes := by
  induction h generalizing codes with
  | nil =>
    cases plain
    rfl
  | @raw c text s points unescaped encodes _ ih =>
    obtain ⟨codes, rfl, ascii, rest⟩ := plain.append_inv fun b mem => (isRaw_of_bytesOf unescaped encodes b mem).2.2
    rw [ih rest, encodes]
    rcases bytesOf_unescaped unescaped with ⟨-, self⟩ | ⟨more, above⟩
    · rw [self]
      rfl
    · cases text with
      | nil =>
        rw [← encodes] at more
        exact absurd more (by decide)
      | cons b text =>
        have low := ascii b List.mem_cons_self
        have high := above b.code (encodes ▸ List.mem_cons_self)
        omega
  | escape short _ ih =>
    obtain ⟨c', codes, rfl, short', -, rest⟩ := plain.escape_inv (shortEscape_ne_u short)
    cases short.symm.trans short'
    rw [ih rest]
  | pair first second isHigh _ _ ih =>
    obtain ⟨a, b, c, d, s, u, codes, same, rfl, value, allowed, rest⟩ := plain.digits_inv
    cases same
    cases first.symm.trans value
    exact absurd isHigh allowed.1
  | unit first _ _ ih =>
    obtain ⟨a, b, c, d, s, u, codes, same, rfl, value, -, rest⟩ := plain.digits_inv
    cases same
    cases first.symm.trans value
    rw [ih rest]

end Denotation

/-! ## The string -/

/-- The UNICODE_STRING that `parse_string` makes. -/
def stringOf (codes : List Int) : Option UnicodeString :=
  codes.foldlM UnicodeString.extend (blank.make 0)

/-- The string extended by the codes has exactly the code points. -/
def HasPoints (codes points : List Int) : Prop :=
  ∃ u, stringOf codes = some u ∧ u.count = points.length ∧
    ∀ (k : ℕ) (c : Int), points[k]? = some c → u.item (k + 1) = some c

section Points

variable {s : List Character} {codes points : List Int}

theorem hexDigit_bounds {c : Character} {v : Int} (found : hexDigit c = some v) : 0 ≤ v ∧ v < 16 := by
  have bounds : ∀ d : Character, d ≤ c → d.code ≤ c.code := by
    intro d le
    exact Int.ofNat_le.mpr (UInt8.le_iff_toNat_le.mp le)
  have bounds' : ∀ d : Character, c ≤ d → c.code ≤ d.code := by
    intro d le
    exact Int.ofNat_le.mpr (UInt8.le_iff_toNat_le.mp le)
  unfold hexDigit at found
  split at found
  · rename_i digit
    have low : 48 ≤ c.code := bounds _ digit.1
    have high : c.code ≤ 57 := bounds' _ digit.2
    cases found
    omega
  · split at found
    · rename_i digit
      have low : 97 ≤ c.code := bounds _ digit.1
      have high : c.code ≤ 102 := bounds' _ digit.2
      cases found
      omega
    · split at found
      · rename_i digit
        have low : 65 ≤ c.code := bounds _ digit.1
        have high : c.code ≤ 70 := bounds' _ digit.2
        cases found
        omega
      · cases found

theorem codeUnit_bounds {a b c d : Character} {u : Int} (value : codeUnit a b c d = some u) : 0 ≤ u ∧ u < 65536 := by
  obtain ⟨first, foundA, value⟩ := Option.bind_eq_some_iff.mp value
  obtain ⟨second, foundB, value⟩ := Option.bind_eq_some_iff.mp value
  obtain ⟨third, foundC, value⟩ := Option.bind_eq_some_iff.mp value
  obtain ⟨fourth, foundD, value⟩ := Option.bind_eq_some_iff.mp value
  cases value
  have boundA := hexDigit_bounds foundA
  have boundB := hexDigit_bounds foundB
  have boundC := hexDigit_bounds foundC
  have boundD := hexDigit_bounds foundD
  omega

theorem shortEscape_bounds {l : Character} {c : Int} (short : shortEscape l = some c) : 0 ≤ c ∧ c < 128 := by
  unfold shortEscape escaped at short
  split at short
  · cases short
    decide
  · split at short
    · rename_i self
      cases short
      rcases self with rfl | rfl
      · decide
      · decide
    · split at short
      · cases short
        decide
      · split at short
        · cases short
          decide
        · split at short
          · cases short
            decide
          · split at short
            · cases short
              decide
            · split at short
              · cases short
                decide
              · cases short

theorem Literal.bounds (h : Literal s codes) : ∀ c ∈ codes, 0 ≤ c ∧ c < 65536 := by
  induction h with
  | nil => exact fun c mem => (List.not_mem_nil mem).elim
  | @byte b s codes _ _ _ ih =>
    intro c mem
    rcases List.mem_cons.mp mem with rfl | mem
    · have low := b.code_nonneg
      have high := b.code_lt
      omega
    · exact ih c mem
  | escape short _ _ ih =>
    intro c mem
    rcases List.mem_cons.mp mem with rfl | mem
    · have bounds := shortEscape_bounds short
      omega
    · exact ih c mem
  | digits value _ _ ih =>
    intro c mem
    rcases List.mem_cons.mp mem with rfl | mem
    · exact codeUnit_bounds value
    · exact ih c mem

theorem extended_stringOf (codes : List Int) :
    Returns (stringOf codes) fun u => Extended (blank.make 0) codes u :=
  Room.foldlM_extend ⟨rfl, Int.le_refl _, Int.le_refl _⟩ codes

theorem isSurrogate_low16 {n : Int} (low : 0xD800 ≤ n) (high : n ≤ 0xDFFF) : IsSurrogate (low16 n) := by
  have value := toNat_low16 (show 0 ≤ n by omega) (by omega)
  have split : (low16 n).toNat = 2 ^ 11 * 27 ||| (n.toNat - 55296) := by
    rw [← Nat.two_pow_add_eq_or_of_lt (by omega)]
    omega
  have small : n.toNat - 55296 < 2 ^ 11 := by omega
  -- the mask has none of the last eleven bits
  have zero : (n.toNat - 55296) &&& (0xF800#16).toNat = 0 := by
    refine Nat.eq_of_testBit_eq fun i => ?_
    rw [Nat.testBit_and, Nat.zero_testBit]
    by_cases last : i < 11
    · have clear : (0xF800#16).toNat.testBit i = false := by
        interval_cases i <;> rfl
      rw [clear, Bool.and_false]
    · have less := Nat.lt_of_lt_of_le small (Nat.pow_le_pow_right (show 0 < 2 by decide) (Nat.not_lt.mp last))
      rw [Nat.testBit_lt_two_pow less, Bool.false_and]
  refine BitVec.eq_of_toNat_eq ?_
  rw [BitVec.toNat_and, split, Nat.and_or_distrib_right, zero]
  rfl

theorem lowValues_of_short (short : ∀ c ∈ codes, c < 65536) : lowValues codes = [] := by
  induction codes with
  | nil => rfl
  | cons c codes ih =>
    rw [lowValues_cons, if_neg (by have := short c List.mem_cons_self; omega)]
    exact ih fun c mem => short c (List.mem_cons_of_mem _ mem)

/-- What is read of a string that codes of one cell have been put in: a surrogate is not read. -/
theorem item_of_extended {u : UnicodeString} (h : Extended (blank.make 0) codes u) {k : ℕ} {c : Int}
    (found : codes[k]? = some c) (bounds : ∀ c ∈ codes, 0 ≤ c ∧ c < 65536) :
    u.item (k + 1) = some c ↔ ¬(0xD800 ≤ c ∧ c ≤ 0xDFFF) := by
  have inside := (List.getElem?_eq_some_iff.mp found).1
  obtain ⟨low, high⟩ := bounds c (List.mem_of_getElem? found)
  have size := h.room.size_eq
  have count := h.count_eq
  have le := h.room.count_le
  have nothing : (blank.make 0).count = 0 := rfl
  have cell := h.cell_eq k c found
  rw [cellOf, if_neg (by omega)] at cell
  have place : (k : Int) + 1 - 1 = (blank.make 0).count + k := by
    omega
  have read : u.storage.item ((k : Int) + 1 - 1) = some (low16 c) := by
    rw [place, NativeArray.item_of_inBounds (by omega), cell]
  by_cases surrogate : 0xD800 ≤ c ∧ c ≤ 0xDFFF
  · refine iff_of_false ?_ (fun plain => plain surrogate)
    have values := h.values_eq
    rw [lowValues_of_short fun c mem => (bounds c mem).2] at values
    have absent : u.lowSurrogateValue (k + 1) = none := by
      unfold lowSurrogateValue FastArray.item
      rw [values]
      split <;> rfl
    unfold UnicodeString.item
    rw [read, Option.bind_eq_bind, Option.bind_some]
    rw [if_pos ((signExtend_marked_iff _).mpr (isSurrogate_low16 surrogate.1 surrogate.2)), absent]
    exact (Option.some_ne_none c).symm
  · refine iff_of_true ?_ surrogate
    unfold UnicodeString.item
    rw [read, Option.bind_eq_bind, Option.bind_some]
    rw [if_neg (mt (signExtend_marked_iff _).mp (not_isSurrogate_low16 low high surrogate))]
    exact congrArg some (Stored.unicode_plain low high surrogate)

/-- The string has the code points when each of them is one code, and no surrogate. -/
theorem hasPoints_iff (literal : Literal s codes) :
    HasPoints codes codes ↔ ∀ c ∈ codes, ¬(0xD800 ≤ c ∧ c ≤ 0xDFFF) := by
  have bounds := literal.bounds
  obtain ⟨u, run, extended⟩ := extended_stringOf codes
  constructor
  · intro has c mem
    obtain ⟨u', run', -, items⟩ := has
    cases run.symm.trans run'
    obtain ⟨k, found⟩ := List.mem_iff_getElem?.mp mem
    exact (item_of_extended extended found bounds).mp (items k c found)
  · intro plain
    refine ⟨u, run, extended.count_eq.trans (Int.zero_add _), fun k c found => ?_⟩
    exact (item_of_extended extended found bounds).mpr (plain c (List.mem_of_getElem? found))

theorem HasPoints.length_eq (h : HasPoints codes points) : points.length = codes.length := by
  obtain ⟨u, run, count, -⟩ := h
  obtain ⟨u', run', extended⟩ := extended_stringOf codes
  cases run.symm.trans run'
  have other := extended.count_eq
  have nothing : (blank.make 0).count = 0 := rfl
  omega

/-- No code of a plain literal is a surrogate. -/
theorem Plain.not_surrogate (h : Plain s codes) : ∀ c ∈ codes, ¬(0xD800 ≤ c ∧ c ≤ 0xDFFF) := by
  induction h with
  | nil => exact fun c mem => (List.not_mem_nil mem).elim
  | byte _ ascii _ ih =>
    intro c mem
    rcases List.mem_cons.mp mem with rfl | mem
    · omega
    · exact ih c mem
  | escape short _ _ ih =>
    intro c mem
    rcases List.mem_cons.mp mem with rfl | mem
    · have bounds := shortEscape_bounds short
      omega
    · exact ih c mem
  | digits _ allowed _ ih =>
    intro c mem
    rcases List.mem_cons.mp mem with rfl | mem
    · unfold HighSurrogate LowSurrogate at allowed
      omega
    · exact ih c mem

theorem Spelled.unit_of_codes {raw letter : Character → Prop} {unit P : Int → Prop}
    (h : Spelled raw letter unit s codes) (all : ∀ c ∈ codes, P c) : Spelled raw letter P s codes := by
  induction h with
  | nil => exact .nil
  | byte isRaw allowed _ ih => exact .byte isRaw allowed (ih fun c mem => all c (List.mem_cons_of_mem _ mem))
  | escape short allowed _ ih => exact .escape short allowed (ih fun c mem => all c (List.mem_cons_of_mem _ mem))
  | digits value _ _ ih =>
    exact .digits value (all _ List.mem_cons_self) (ih fun c mem => all c (List.mem_cons_of_mem _ mem))

/-- Where the string of the codes has the code points that the literal denotes, the literal is plain. -/
theorem plain_of_hasPoints (denotes : Denotes s points) (unslashed : Unslashed s codes)
    (has : HasPoints codes points) : Plain s codes := by
  obtain ⟨-, same⟩ := denotes.points_of_codes unslashed.literal
  obtain ⟨rfl, ascii⟩ := same has.length_eq
  have apart := (hasPoints_iff unslashed.literal).mp has
  refine ((ascii.and unslashed).2.unit_of_codes apart).mono (fun _ both => both.1) (fun _ both => both.2)
    fun u plain => ?_
  unfold HighSurrogate LowSurrogate
  omega

theorem Plain.hasPoints (plain : Plain s codes) : HasPoints codes codes :=
  (hasPoints_iff plain.literal).mpr plain.not_surrogate

end Points

/-! ## parse_string -/

section Parsing

variable {s body rest : List Character} {codes points : List Int} {context context' : JsonParseContext}

theorem stringLoop_of_parseString (run : parseString context = (some codes, context')) :
    stringLoop .normal [] context.next.data = (.ok codes, context'.data) := by
  unfold parseString at run
  split at run
  · rename_i loop
    cases run
    exact loop
  · cases run

theorem parseString_of_stringLoop (loop : stringLoop .normal [] context.next.data = (.ok codes, rest)) :
    parseString context = (some codes, { context with data := rest }) := by
  unfold parseString
  rw [loop]

/-- What `parse_string` is to do behind a quote: it accepts the JSON strings, and gives the code points that
they denote. -/
def ParsesString (context : JsonParseContext) (body : List Character) : Prop :=
  ((∃ codes context', parseString context = (some codes, context')) ↔
    ∃ s points rest, body = s ++ '"'.toUInt8 :: rest ∧ Denotes s points) ∧
  ∀ s points rest codes context', body = s ++ '"'.toUInt8 :: rest → Denotes s points →
    parseString context = (some codes, context') → HasPoints codes points ∧ context'.data = rest

/-- The literal at the beginning, if there is one, is plain, or it has an escaped backslash and is not a
string in UTF-8 anyway. -/
def BeginsPlain (body : List Character) : Prop :=
  ∀ s codes rest, body = s ++ '"'.toUInt8 :: rest → Literal s codes →
    Plain s codes ∨ (¬∃ points, Denotes s points) ∧ ¬Unslashed s codes

/-- **JSON strings.**  Behind a quote, `parse_string` accepts exactly the JSON strings and gives the code
points that they denote if and only if the literal that stands there is plain: ASCII, without an escaped
backslash and without escaped surrogates. -/
theorem parseString_iff (body : List Character) (afterEnd : Character) (errors : List JsonError) :
    ParsesString ⟨'"'.toUInt8 :: body, afterEnd, errors⟩ body ↔ BeginsPlain body := by
  have accepts : ∀ {s codes rest}, body = s ++ '"'.toUInt8 :: rest → Unslashed s codes →
      parseString ⟨'"'.toUInt8 :: body, afterEnd, errors⟩ = (some codes, ⟨rest, afterEnd, errors⟩) := by
    intro s codes rest same unslashed
    refine parseString_of_stringLoop ?_
    change stringLoop .normal [] body = _
    rw [same, stringLoop_of_unslashed unslashed]
    rfl
  have accepted : ∀ {codes context'}, parseString ⟨'"'.toUInt8 :: body, afterEnd, errors⟩ = (some codes, context') →
      ∃ s, body = s ++ '"'.toUInt8 :: context'.data ∧ Unslashed s codes := by
    intro codes context' run
    obtain ⟨s, codes', same, unslashed, rfl⟩ := unslashed_of_stringLoop (stringLoop_of_parseString run)
    exact ⟨s, same, unslashed⟩
  constructor
  · intro parses s codes rest same literal
    obtain ⟨accept, gives⟩ := parses
    by_cases unslashed : Unslashed s codes
    · left
      have run := accepts same unslashed
      obtain ⟨s', points, rest', same', denotes⟩ := accept.mp ⟨_, _, run⟩
      obtain ⟨codes', literal'⟩ := denotes.literal
      obtain ⟨rfl, rfl⟩ := literal.unique literal' (same.symm.trans same')
      exact plain_of_hasPoints denotes unslashed (gives s points _ _ _ same denotes run).1
    · right
      refine ⟨fun denotes => ?_, unslashed⟩
      obtain ⟨points, denotes⟩ := denotes
      obtain ⟨codes', context', run⟩ := accept.mpr ⟨s, points, rest, same, denotes⟩
      obtain ⟨s', same', unslashed'⟩ := accepted run
      obtain ⟨rfl, -⟩ := literal.unique unslashed'.literal (same.symm.trans same')
      obtain ⟨rfl, -⟩ := literal.and unslashed'
      exact unslashed unslashed'
  · intro plain
    refine ⟨⟨fun parsed => ?_, fun denoted => ?_⟩, fun s points rest codes context' same denotes run => ?_⟩
    · obtain ⟨codes, context', run⟩ := parsed
      obtain ⟨s, same, unslashed⟩ := accepted run
      rcases plain s codes _ same unslashed.literal with plain | ⟨-, slashed⟩
      · exact ⟨s, codes, _, same, plain.denotes⟩
      · exact absurd unslashed slashed
    · obtain ⟨s, points, rest, same, denotes⟩ := denoted
      obtain ⟨codes, literal⟩ := denotes.literal
      rcases plain s codes rest same literal with plain | ⟨none, -⟩
      · exact ⟨_, _, accepts same plain.unslashed⟩
      · exact absurd ⟨points, denotes⟩ none
    · obtain ⟨s', same', unslashed⟩ := accepted run
      obtain ⟨codes', literal⟩ := denotes.literal
      obtain ⟨rfl, ends⟩ := literal.unique unslashed.literal (same.symm.trans same')
      obtain ⟨rfl, -⟩ := literal.and unslashed
      rcases plain s codes' rest same literal with plain | ⟨none, -⟩
      · rw [denotes.eq_of_plain plain]
        exact ⟨plain.hasPoints, ends.symm⟩
      · exact absurd ⟨points, denotes⟩ none

/-- The string of one backslash is not accepted, and the escaped surrogates of U+1F600 give two codes. -/
theorem not_parsesString :
    ¬ParsesString ⟨"\"\\\\\"".toList.map Char.toUInt8, 0, []⟩ ("\\\\\"".toList.map Char.toUInt8) ∧
      ¬ParsesString ⟨"\"\\uD83D\\uDE00\"".toList.map Char.toUInt8, 0, []⟩
        ("\\uD83D\\uDE00\"".toList.map Char.toUInt8) := by
  constructor
  · intro parses
    have denotes : Denotes ("\\\\".toList.map Char.toUInt8) [92] := .escape rfl .nil
    obtain ⟨codes, context', run⟩ := parses.1.mpr ⟨_, _, [], rfl, denotes⟩
    cases run
  · intro parses
    have denotes : Denotes ("\\uD83D\\uDE00".toList.map Char.toUInt8) [0x1F600] :=
      @Denotes.pair _ _ _ _ _ _ _ _ 0xD83D 0xDE00 [] [] rfl rfl ⟨by decide, by decide⟩ ⟨by decide, by decide⟩ .nil
    have has := (parses.2 _ _ [] _ _ rfl denotes rfl).1
    exact absurd has.length_eq (by decide)

end Parsing

end JsonParser

end Liberty
