import Liberty.Json.JsonParser
import Liberty.Text.Utf8Decoding

/-!
# JSON strings

The grammar of JSON strings, in UTF-8, and what `parse_string` accepts.
-/

namespace Liberty

namespace JsonParser

/-! ## The grammar -/

/-- The value of a hexadecimal digit. -/
def hexDigit (c : Character) : Option Int :=
  if '0'.toUInt8 ≤ c ∧ c ≤ '9'.toUInt8 then some (c.code - 48)
  else if 'a'.toUInt8 ≤ c ∧ c ≤ 'f'.toUInt8 then some (c.code - 87)
  else if 'A'.toUInt8 ≤ c ∧ c ≤ 'F'.toUInt8 then some (c.code - 55)
  else none

/-- The value of the four digits of an escape. -/
def codeUnit (a b c d : Character) : Option Int := do
  return (((← hexDigit a) * 16 + (← hexDigit b)) * 16 + (← hexDigit c)) * 16 + (← hexDigit d)

/-- The eight escapes of one letter. -/
def shortEscape (letter : Character) : Option Int :=
  if letter = '\\'.toUInt8 then some 92 else escaped letter

def HighSurrogate (u : Int) : Prop :=
  0xD800 ≤ u ∧ u ≤ 0xDBFF

def LowSurrogate (u : Int) : Prop :=
  0xDC00 ≤ u ∧ u ≤ 0xDFFF

/-- The code points that stand for themselves in a string. -/
def Unescaped (c : Int) : Prop :=
  (32 ≤ c ∧ c ≤ 0x10FFFF) ∧ c ≠ 34 ∧ c ≠ 92 ∧ ¬(0xD800 ≤ c ∧ c ≤ 0xDFFF)

/-- The characters between the quotes of a JSON string, and the code points that they denote. -/
inductive Denotes : List Character → List Int → Prop
  | nil : Denotes [] []
  | raw {c : Int} {text s : List Character} {points : List Int} (unescaped : Unescaped c)
      (encodes : text.map Character.code = UnicodeString.bytesOf c) (rest : Denotes s points) :
      Denotes (text ++ s) (c :: points)
  | escape {letter : Character} {c : Int} {s : List Character} {points : List Int}
      (short : shortEscape letter = some c) (rest : Denotes s points) :
      Denotes ('\\'.toUInt8 :: letter :: s) (c :: points)
  | pair {a b c d a' b' c' d' : Character} {high low : Int} {s : List Character} {points : List Int}
      (first : codeUnit a b c d = some high) (second : codeUnit a' b' c' d' = some low)
      (isHigh : HighSurrogate high) (isLow : LowSurrogate low) (rest : Denotes s points) :
      Denotes ('\\'.toUInt8 :: 'u'.toUInt8 :: a :: b :: c :: d ::
          '\\'.toUInt8 :: 'u'.toUInt8 :: a' :: b' :: c' :: d' :: s)
        (((high - 0xD800) * 1024 + (low - 0xDC00) + 0x10000) :: points)
  | unit {a b c d : Character} {u : Int} {s : List Character} {points : List Int}
      (first : codeUnit a b c d = some u)
      (single : HighSurrogate u → ∀ a' b' c' d' low s',
        s = '\\'.toUInt8 :: 'u'.toUInt8 :: a' :: b' :: c' :: d' :: s' →
          codeUnit a' b' c' d' = some low → ¬LowSurrogate low)
      (rest : Denotes s points) :
      Denotes ('\\'.toUInt8 :: 'u'.toUInt8 :: a :: b :: c :: d :: s) (u :: points)

/-! ## Literals of characters -/

/-- A character that `parse_string` may take as it is. -/
def IsRaw (b : Character) : Prop :=
  32 ≤ b.code ∧ b ≠ '"'.toUInt8 ∧ b ≠ '\\'.toUInt8

/-- The characters between two quotes, without regard to UTF-8: raw ones, escapes of one letter and
escapes of four digits, with the code of each. -/
inductive Spelled (raw letter : Character → Prop) (unit : Int → Prop) : List Character → List Int → Prop
  | nil : Spelled raw letter unit [] []
  | byte {b : Character} {s : List Character} {codes : List Int} (isRaw : IsRaw b) (allowed : raw b)
      (rest : Spelled raw letter unit s codes) : Spelled raw letter unit (b :: s) (b.code :: codes)
  | escape {l : Character} {c : Int} {s : List Character} {codes : List Int} (short : shortEscape l = some c)
      (allowed : letter l) (rest : Spelled raw letter unit s codes) :
      Spelled raw letter unit ('\\'.toUInt8 :: l :: s) (c :: codes)
  | digits {a b c d : Character} {u : Int} {s : List Character} {codes : List Int}
      (value : codeUnit a b c d = some u) (allowed : unit u) (rest : Spelled raw letter unit s codes) :
      Spelled raw letter unit ('\\'.toUInt8 :: 'u'.toUInt8 :: a :: b :: c :: d :: s) (u :: codes)

/-- Any literal. -/
def Literal : List Character → List Int → Prop :=
  Spelled (fun _ => True) (fun _ => True) (fun _ => True)

/-- A literal without an escaped backslash. -/
def Unslashed : List Character → List Int → Prop :=
  Spelled (fun _ => True) (fun l => l ≠ '\\'.toUInt8) (fun _ => True)

/-- A literal of ASCII characters without an escaped backslash and without escaped surrogates. -/
def Plain : List Character → List Int → Prop :=
  Spelled (fun b => b.code < 128) (fun l => l ≠ '\\'.toUInt8) (fun u => ¬HighSurrogate u ∧ ¬LowSurrogate u)

section Literals

variable {raw letter raw' letter' : Character → Prop} {unit unit' : Int → Prop} {s s' rest rest' : List Character}
  {codes codes' : List Int} {b l : Character}

theorem Spelled.mono (h : Spelled raw letter unit s codes) (rawTo : ∀ b, raw b → raw' b)
    (letterTo : ∀ l, letter l → letter' l) (unitTo : ∀ u, unit u → unit' u) : Spelled raw' letter' unit' s codes := by
  induction h with
  | nil => exact .nil
  | byte isRaw allowed _ ih => exact .byte isRaw (rawTo _ allowed) ih
  | escape short allowed _ ih => exact .escape short (letterTo _ allowed) ih
  | digits value allowed _ ih => exact .digits value (unitTo _ allowed) ih

theorem shortEscape_ne_u {c : Int} (short : shortEscape l = some c) : l ≠ 'u'.toUInt8 := by
  intro same
  rw [same] at short
  cases short

theorem Spelled.byte_inv (h : Spelled raw letter unit (b :: s) codes) (ne : b ≠ '\\'.toUInt8) :
    ∃ codes', codes = b.code :: codes' ∧ IsRaw b ∧ raw b ∧ Spelled raw letter unit s codes' := by
  generalize same : b :: s = text at h
  cases h with
  | nil => cases same
  | byte isRaw allowed rest =>
    cases same
    exact ⟨_, rfl, isRaw, allowed, rest⟩
  | escape short allowed rest =>
    cases same
    exact absurd rfl ne
  | digits value allowed rest =>
    cases same
    exact absurd rfl ne

theorem Spelled.escape_inv (h : Spelled raw letter unit ('\\'.toUInt8 :: l :: s) codes) (ne : l ≠ 'u'.toUInt8) :
    ∃ c codes', codes = c :: codes' ∧ shortEscape l = some c ∧ letter l ∧ Spelled raw letter unit s codes' := by
  generalize same : '\\'.toUInt8 :: l :: s = text at h
  cases h with
  | nil => cases same
  | byte isRaw allowed rest =>
    cases same
    exact absurd rfl isRaw.2.2
  | escape short allowed rest =>
    cases same
    exact ⟨_, _, rfl, short, allowed, rest⟩
  | digits value allowed rest =>
    cases same
    exact absurd rfl ne

theorem Spelled.digits_inv {text : List Character}
    (h : Spelled raw letter unit ('\\'.toUInt8 :: 'u'.toUInt8 :: text) codes) :
    ∃ a b c d s u codes', text = a :: b :: c :: d :: s ∧ codes = u :: codes' ∧ codeUnit a b c d = some u ∧ unit u ∧
      Spelled raw letter unit s codes' := by
  generalize same : '\\'.toUInt8 :: 'u'.toUInt8 :: text = all at h
  cases h with
  | nil => cases same
  | byte isRaw allowed rest =>
    cases same
    exact absurd rfl isRaw.2.2
  | escape short allowed rest =>
    cases same
    exact absurd rfl (shortEscape_ne_u short)
  | digits value allowed rest =>
    cases same
    exact ⟨_, _, _, _, _, _, _, rfl, rfl, value, allowed, rest⟩

theorem Spelled.and (h : Spelled raw letter unit s codes) (h' : Spelled raw' letter' unit' s codes') :
    codes = codes' ∧
      Spelled (fun b => raw b ∧ raw' b) (fun l => letter l ∧ letter' l) (fun u => unit u ∧ unit' u) s codes := by
  induction h generalizing codes' with
  | nil =>
    cases h'
    exact ⟨rfl, .nil⟩
  | byte isRaw allowed _ ih =>
    obtain ⟨codes', rfl, -, allowed', rest'⟩ := h'.byte_inv isRaw.2.2
    obtain ⟨rfl, both⟩ := ih rest'
    exact ⟨rfl, .byte isRaw ⟨allowed, allowed'⟩ both⟩
  | escape short allowed _ ih =>
    obtain ⟨c', codes', rfl, short', allowed', rest'⟩ := h'.escape_inv (shortEscape_ne_u short)
    obtain ⟨rfl, both⟩ := ih rest'
    cases short.symm.trans short'
    exact ⟨rfl, .escape short ⟨allowed, allowed'⟩ both⟩
  | digits value allowed _ ih =>
    obtain ⟨a, b, c, d, s, u, codes', same, rfl, value', allowed', rest'⟩ := h'.digits_inv
    cases same
    obtain ⟨rfl, both⟩ := ih rest'
    cases value.symm.trans value'
    exact ⟨rfl, .digits value ⟨allowed, allowed'⟩ both⟩

/-- A literal ends at the first quote that is not escaped. -/
theorem Literal.unique (h : Literal s codes) (h' : Literal s' codes')
    (same : s ++ '"'.toUInt8 :: rest = s' ++ '"'.toUInt8 :: rest') : s = s' ∧ rest = rest' := by
  induction h generalizing s' codes' with
  | nil =>
    cases h' with
    | nil =>
      cases same
      exact ⟨rfl, rfl⟩
    | byte isRaw => exact absurd (List.cons.inj same).1.symm isRaw.2.1
    | escape => exact absurd (List.cons.inj same).1 (by decide)
    | digits => exact absurd (List.cons.inj same).1 (by decide)
  | byte isRaw _ _ ih =>
    cases h' with
    | nil => exact absurd (List.cons.inj same).1 isRaw.2.1
    | byte isRaw' allowed' rest' =>
      obtain ⟨rfl, tail⟩ := List.cons.inj same
      obtain ⟨rfl, ends⟩ := ih rest' tail
      exact ⟨rfl, ends⟩
    | escape => exact absurd (List.cons.inj same).1 isRaw.2.2
    | digits => exact absurd (List.cons.inj same).1 isRaw.2.2
  | escape short _ _ ih =>
    cases h' with
    | nil => exact absurd (List.cons.inj same).1 (by decide)
    | byte isRaw' => exact absurd (List.cons.inj same).1.symm isRaw'.2.2
    | escape short' allowed' rest' =>
      obtain ⟨rfl, tail⟩ := List.cons.inj (List.cons.inj same).2
      obtain ⟨rfl, ends⟩ := ih rest' tail
      exact ⟨rfl, ends⟩
    | digits => exact absurd (List.cons.inj (List.cons.inj same).2).1 (shortEscape_ne_u short)
  | digits _ _ _ ih =>
    cases h' with
    | nil => exact absurd (List.cons.inj same).1 (by decide)
    | byte isRaw' => exact absurd (List.cons.inj same).1.symm isRaw'.2.2
    | escape short' => exact absurd (List.cons.inj (List.cons.inj same).2).1.symm (shortEscape_ne_u short')
    | digits value' allowed' rest' =>
      injection same with _ same
      injection same with _ same
      injection same with first same
      injection same with second same
      injection same with third same
      injection same with fourth same
      obtain ⟨rfl, ends⟩ := ih rest' same
      subst first second third fourth
      exact ⟨rfl, ends⟩

end Literals

/-! ## The loop -/

section Loop

variable {s data rest : List Character} {str codes result : List Int} {item : Character}

theorem hexDigit_eq (c : Character) :
    hexDigit c = if isHexadecimalDigit c = true then some (hexadecimalValue c) else none := by
  have bounds : ∀ d : Character, d ≤ c ↔ d.code ≤ c.code := by
    intro d
    unfold Character.code
    rw [UInt8.le_iff_toNat_le]
    omega
  have bounds' : ∀ d : Character, c ≤ d ↔ c.code ≤ d.code := by
    intro d
    unfold Character.code
    rw [UInt8.le_iff_toNat_le]
    omega
  have digit_iff : isHexadecimalDigit c = true ↔
      (48 ≤ c.code ∧ c.code ≤ 57) ∨ (97 ≤ c.code ∧ c.code ≤ 102) ∨ (65 ≤ c.code ∧ c.code ≤ 70) := by
    unfold isHexadecimalDigit Character.isDecimalDigit
    rw [decide_eq_true_eq, Bool.and_eq_true, decide_eq_true_eq, decide_eq_true_eq, bounds, bounds', bounds, bounds']
    exact Iff.rfl
  have value : hexadecimalValue c =
      if c.code < 65 then c.code - 48 else if c.code < 97 then c.code - 55 else c.code - 87 := rfl
  unfold hexDigit
  rw [value]
  by_cases digit : '0'.toUInt8 ≤ c ∧ c ≤ '9'.toUInt8
  · have inside : 48 ≤ c.code ∧ c.code ≤ 57 := ⟨(bounds _).mp digit.1, (bounds' _).mp digit.2⟩
    rw [if_pos digit, if_pos (digit_iff.mpr (.inl inside)), if_pos (by omega)]
  · rw [if_neg digit]
    by_cases lower : 'a'.toUInt8 ≤ c ∧ c ≤ 'f'.toUInt8
    · have inside : 97 ≤ c.code ∧ c.code ≤ 102 := ⟨(bounds _).mp lower.1, (bounds' _).mp lower.2⟩
      rw [if_pos lower, if_pos (digit_iff.mpr (.inr (.inl inside))), if_neg (by omega), if_neg (by omega)]
    · rw [if_neg lower]
      by_cases upper : 'A'.toUInt8 ≤ c ∧ c ≤ 'F'.toUInt8
      · have inside : 65 ≤ c.code ∧ c.code ≤ 70 := ⟨(bounds _).mp upper.1, (bounds' _).mp upper.2⟩
        rw [if_pos upper, if_pos (digit_iff.mpr (.inr (.inr inside))), if_neg (by omega), if_pos (by omega)]
      · rw [if_neg upper, if_neg fun hex => ?_]
        rw [bounds, bounds'] at digit lower upper
        rcases digit_iff.mp hex with inside | inside | inside
        · exact digit inside
        · exact lower inside
        · exact upper inside

theorem stringLoop_cons (state : StringState) (str : List Int) (item : Character) (data : List Character) :
    stringLoop state str (item :: data) =
      match stringRound item state str with
      | .next (state, str) => stringLoop state str data
      | .done str => (.ok str, data)
      | .error e => (.error e, data) :=
  rfl

theorem stringLoop_raw (isRaw : IsRaw item) :
    stringLoop .normal str (item :: data) = stringLoop .normal (str ++ [item.code]) data := by
  rw [stringLoop_cons, stringRound, if_neg isRaw.2.2, if_neg isRaw.2.1, if_neg (Int.not_lt.mpr isRaw.1)]

theorem stringLoop_escape {c : Int} (short : escaped item = some c) :
    stringLoop .normal str ('\\'.toUInt8 :: item :: data) = stringLoop .normal (str ++ [c]) data := by
  rw [stringLoop_cons, stringRound, if_pos rfl]
  dsimp only
  rw [stringLoop_cons, stringRound, short]

theorem stringLoop_hexadecimal (read : ℕ) (unicode : Int) (str : List Int) (item : Character) (data : List Character) :
    stringLoop (.hexadecimal read unicode) str (item :: data) =
      match hexDigit item with
      | none => (.error (.expectedFourHexadecimalDigits read), data)
      | some v =>
        if read = 3 then stringLoop .normal (str ++ [unicode * 16 + v]) data
        else stringLoop (.hexadecimal (read + 1) (unicode * 16 + v)) str data := by
  rw [stringLoop_cons, stringRound, hexDigit_eq]
  by_cases digit : isHexadecimalDigit item = true
  · rw [if_pos digit, if_pos digit]
    dsimp only
    by_cases last : read = 3
    · rw [if_pos last, if_pos last]
    · rw [if_neg last, if_neg last]
  · rw [if_neg digit, if_neg digit]

/-- What the loop does with an escape of four digits. -/
theorem stringLoop_digits (str : List Int) (a b c d : Character) (data : List Character) {u : Int}
    (value : codeUnit a b c d = some u) :
    stringLoop .normal str ('\\'.toUInt8 :: 'u'.toUInt8 :: a :: b :: c :: d :: data) =
      stringLoop .normal (str ++ [u]) data := by
  obtain ⟨first, foundA, value⟩ := Option.bind_eq_some_iff.mp value
  obtain ⟨second, foundB, value⟩ := Option.bind_eq_some_iff.mp value
  obtain ⟨third, foundC, value⟩ := Option.bind_eq_some_iff.mp value
  obtain ⟨fourth, foundD, value⟩ := Option.bind_eq_some_iff.mp value
  cases value
  rw [stringLoop_cons, stringRound, if_pos rfl]
  dsimp only
  rw [stringLoop_cons, stringRound, show escaped 'u'.toUInt8 = none from rfl]
  rw [if_pos rfl]
  dsimp only
  rw [stringLoop_hexadecimal, foundA]
  dsimp only
  rw [if_neg (by decide), stringLoop_hexadecimal, foundB]
  dsimp only
  rw [if_neg (by decide), stringLoop_hexadecimal, foundC]
  dsimp only
  rw [if_neg (by decide), stringLoop_hexadecimal, foundD]
  dsimp only
  rw [if_pos rfl, Int.zero_mul, Int.zero_add]

theorem escaped_of_shortEscape {l : Character} {c : Int} (short : shortEscape l = some c) (ne : l ≠ '\\'.toUInt8) :
    escaped l = some c := by
  unfold shortEscape at short
  rwa [if_neg ne] at short

/-- The loop reads a literal without an escaped backslash. -/
theorem stringLoop_of_unslashed (h : Unslashed s codes) (str : List Int) (rest : List Character) :
    stringLoop .normal str (s ++ '"'.toUInt8 :: rest) = (.ok (str ++ codes), rest) := by
  induction h generalizing str with
  | nil =>
    rw [List.nil_append, List.append_nil]
    rfl
  | byte isRaw _ _ ih =>
    rw [List.cons_append, stringLoop_raw isRaw, ih, List.append_assoc]
    rfl
  | escape short allowed _ ih =>
    rw [List.cons_append, List.cons_append, stringLoop_escape (escaped_of_shortEscape short allowed), ih,
      List.append_assoc]
    rfl
  | digits value _ _ ih =>
    change stringLoop .normal str ('\\'.toUInt8 :: 'u'.toUInt8 :: _ :: _ :: _ :: _ :: (_ ++ _)) = _
    rw [stringLoop_digits str _ _ _ _ _ value, ih, List.append_assoc]
    rfl

theorem shortEscape_of_escaped {l : Character} {c : Int} (short : escaped l = some c) :
    shortEscape l = some c ∧ l ≠ '\\'.toUInt8 := by
  have ne : l ≠ '\\'.toUInt8 := by
    intro same
    rw [same] at short
    cases short
  refine ⟨?_, ne⟩
  unfold shortEscape
  rwa [if_neg ne]

/-- The digits of an escape that the loop has gone through. -/
theorem digits_of_stringLoop (run : stringLoop (.hexadecimal 0 0) str data = (.ok result, rest)) :
    ∃ a b c d u data', data = a :: b :: c :: d :: data' ∧ codeUnit a b c d = some u ∧
      stringLoop .normal (str ++ [u]) data' = (.ok result, rest) := by
  have next : ∀ {read : ℕ} {unicode : Int} {data : List Character}, read ≠ 3 →
      stringLoop (.hexadecimal read unicode) str data = (.ok result, rest) → ∃ a v data', data = a :: data' ∧
        hexDigit a = some v ∧ stringLoop (.hexadecimal (read + 1) (unicode * 16 + v)) str data' = (.ok result, rest) := by
    intro read unicode data less run
    cases data with
    | nil => cases run
    | cons item data =>
      rw [stringLoop_hexadecimal] at run
      cases found : hexDigit item with
      | none =>
        rw [found] at run
        cases run
      | some v =>
        rw [found] at run
        dsimp only at run
        rw [if_neg less] at run
        exact ⟨item, v, data, rfl, found, run⟩
  obtain ⟨a, first, data, rfl, foundA, run⟩ := next (by decide) run
  obtain ⟨b, second, data, rfl, foundB, run⟩ := next (by decide) run
  obtain ⟨c, third, data, rfl, foundC, run⟩ := next (by decide) run
  cases data with
  | nil => cases run
  | cons d data =>
    rw [stringLoop_hexadecimal] at run
    cases foundD : hexDigit d with
    | none =>
      rw [foundD] at run
      cases run
    | some fourth =>
      rw [foundD] at run
      refine ⟨a, b, c, d, _, data, rfl, ?_, run⟩
      unfold codeUnit
      rw [foundA, foundB, foundC, foundD, Int.zero_mul, Int.zero_add]
      rfl

/-- What the loop has read is a literal without an escaped backslash. -/
theorem unslashed_of_stringLoop (run : stringLoop .normal str data = (.ok result, rest)) :
    ∃ s codes, data = s ++ '"'.toUInt8 :: rest ∧ Unslashed s codes ∧ result = str ++ codes := by
  induction size : data.length using Nat.strongRecOn generalizing data str with
  | _ size ih =>
    cases data with
    | nil => cases run
    | cons item data =>
      rw [List.length_cons] at size
      by_cases slash : item = '\\'.toUInt8
      · subst slash
        cases data with
        | nil => cases run
        | cons letter data =>
          rw [List.length_cons] at size
          cases short : escaped letter with
          | some c =>
            rw [stringLoop_escape short] at run
            obtain ⟨s, codes, rfl, literal, rfl⟩ := ih data.length (by omega) run rfl
            obtain ⟨known, ne⟩ := shortEscape_of_escaped short
            exact ⟨_ :: _ :: s, c :: codes, rfl, .escape known ne literal, by rw [List.append_assoc]; rfl⟩
          | none =>
            rw [stringLoop_cons, stringRound, if_pos rfl] at run
            dsimp only at run
            rw [stringLoop_cons, stringRound, short] at run
            by_cases unit : letter = 'u'.toUInt8
            · subst unit
              obtain ⟨a, b, c, d, u, data', rfl, value, run⟩ := digits_of_stringLoop run
              simp only [List.length_cons] at size
              obtain ⟨s, codes, rfl, literal, rfl⟩ := ih data'.length (by omega) run rfl
              exact ⟨_ :: _ :: a :: b :: c :: d :: s, u :: codes, rfl, .digits value trivial literal,
                by rw [List.append_assoc]; rfl⟩
            · rw [if_neg unit] at run
              cases run
      · rw [stringLoop_cons, stringRound, if_neg slash] at run
        by_cases quote : item = '"'.toUInt8
        · rw [if_pos quote] at run
          cases run
          exact ⟨[], [], by rw [quote]; rfl, .nil, (List.append_nil _).symm⟩
        · rw [if_neg quote] at run
          by_cases control : item.code < 32
          · rw [if_pos control] at run
            cases run
          · rw [if_neg control] at run
            obtain ⟨s, codes, rfl, literal, rfl⟩ := ih data.length (by omega) run rfl
            exact ⟨item :: s, item.code :: codes, rfl, .byte ⟨Int.not_lt.mp control, quote, slash⟩ trivial literal,
              by rw [List.append_assoc]; rfl⟩

end Loop

end JsonParser

end Liberty
