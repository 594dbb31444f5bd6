import Liberty.Library.Positional
import Liberty.Numeric.MutableBigInteger.Product

/-!
# Creation from a STRING

`from_string` reads a decimal numeral, one multiplication by ten and one addition for each
digit after the first one.
-/

namespace Liberty

namespace MutableBigInteger

/-! ## The source -/

/-- `is_separator`: space, tab, new line, carriage return, null and form feed. -/
def isSeparator (c : Char) : Bool :=
  c == ' ' || c == '\t' || c == '\n' || c == '\r' || c.toNat == 0 || c.toNat == 12

/-- `value`, for a digit. -/
def charValue (c : Char) : Word :=
  BitVec.ofNat 32 (c.toNat - 48)

/-- Whether there is a minus sign, the first digit and what follows. -/
def readSign (str : List Char) : Option (Bool × Char × List Char) :=
  match str.dropWhile isSeparator with
  | '+' :: cc :: rest => if cc.isDigit then some (false, cc, rest) else none
  | '-' :: cc :: rest => if cc.isDigit then some (true, cc, rest) else none
  | cc :: rest => if cc.isDigit then some (false, cc, rest) else none
  | [] => none

/-- The digits that follow, up to the end or another character. -/
def readDigits (ten : MutableBigInteger) :
    List Char → MutableBigInteger → MutableBigInteger →
      Option (MutableBigInteger × MutableBigInteger)
  | [], m, register1 => some (m, register1)
  | cc :: rest, m, register1 =>
    if cc.isDigit then do
      let (m, register1) ← m.multiply ten register1
      let m ← m.addInteger (charValue cc)
      readDigits ten rest m register1
    else
      some (m, register1)

/-- `from_string`: the object and `register1`. -/
def fromString (m : MutableBigInteger) (str : List Char) (register1 : MutableBigInteger) :
    Option (MutableBigInteger × MutableBigInteger) := do
  let ten ← blank.fromInteger 10
  let (neg, cc, rest) ← readSign str
  let m ← m.fromInteger (charValue cc)
  let (m, register1) ← readDigits ten rest m register1
  if neg then
    return (m.negate, register1)
  else
    return (m, register1)

/-! ## Exactness -/

section Exactness

variable {m register1 : MutableBigInteger}

/-- The value of a numeral that begins with `v`. -/
def decimal (v : ℤ) : List Char → ℤ
  | [] => v
  | cc :: rest => if cc.isDigit then decimal (v * 10 + (charValue cc).toInt) rest else v

theorem Valid.negate_holds (hm : Valid m) : Holds m.negate (-m.value) := by
  rw [negate]
  split
  · rename_i some
    have holds := hm.setNegative_holds (!m.negative) fun _ => some
    refine { holds with value_eq := holds.value_eq.trans ?_ }
    rw [value_eq_signed]
    cases m.negative
    · rfl
    · exact (neg_neg _).symm
  · rename_i zero
    rw [not_not] at zero
    exact { hm with value_eq := by rw [value_of_zero zero]; rfl }

theorem returns_readDigits {ten : MutableBigInteger} (hten : Holds ten 10) (str : List Char)
    {v : ℤ} (hm : Holds m v) (h₁ : Valid register1) :
    Returns (readDigits ten str m register1) fun (r, register1) =>
      Holds r (decimal v str) ∧ Valid register1 := by
  induction str generalizing m register1 v with
  | nil => exact Returns.some_iff.mpr ⟨hm, h₁⟩
  | cons cc rest ih =>
    rw [readDigits, decimal]
    split
    · refine (returns_multiply hm.toValid hten.toValid h₁).bind ?_
      rintro ⟨product, register1'⟩ ⟨holds, h₁'⟩
      refine (returns_addInteger holds.toValid (charValue cc)).bind fun sum hsum => ih ?_ h₁'
      rwa [holds.value_eq, hm.value_eq, hten.value_eq] at hsum
    · exact Returns.some_iff.mpr ⟨hm, h₁⟩

theorem returns_fromString (hm : Fits m) (h₁ : Valid register1) {str rest : List Char}
    {neg : Bool} {cc : Char} (numeral : readSign str = some (neg, cc, rest)) :
    Returns (m.fromString str register1) fun (r, register1) =>
      Holds r (signed neg (decimal (charValue cc).toInt rest)) ∧ Valid register1 := by
  refine (returns_fromInteger fits_blank 10).bind fun ten ⟨hten, _⟩ => ?_
  rw [numeral, Returns.some_bind]
  refine (returns_fromInteger hm (charValue cc)).bind fun first ⟨hfirst, _⟩ => ?_
  refine (returns_readDigits hten rest hfirst h₁).bind ?_
  rintro ⟨r, register1'⟩ ⟨holds, h₁'⟩
  dsimp only
  split
  · rename_i negative
    refine Returns.pure_iff.mpr ⟨?_, h₁'⟩
    rw [negative, signed_true, ← holds.value_eq]
    exact holds.toValid.negate_holds
  · rename_i positive
    rw [Bool.eq_false_iff.mpr positive, signed_false]
    exact Returns.pure_iff.mpr ⟨holds, h₁'⟩

end Exactness

/-! ## Numerals -/

/-- The texts that `from_string` takes, and what they stand for: separators, a sign, digits, and
what does not go on with a digit. -/
inductive Accepts : List Char → ℤ → Prop
  | numeral {separators sign digits tail : List Char} {neg : Bool}
      (separate : ∀ c ∈ separators, isSeparator c = true)
      (signs : (sign = [] ∨ sign = ['+']) ∧ neg = false ∨ sign = ['-'] ∧ neg = true)
      (some : digits ≠ []) (isDigit : ∀ c ∈ digits, c.isDigit = true)
      (ends : ∀ c, tail.head? = .some c → c.isDigit = false) :
      Accepts (separators ++ (sign ++ (digits ++ tail))) (signed neg (DecimalNumeral.value digits))

section Numerals

open DecimalNumeral

variable {cc : Char} {str digits tail : List Char} {v : ℤ}

theorem toInt_charValue (isDigit : cc.isDigit = true) : (charValue cc).toInt = digitValue cc := by
  have range : 48 ≤ cc.toNat ∧ cc.toNat ≤ 57 := by
    unfold Char.isDigit at isDigit
    rw [Bool.and_eq_true, decide_eq_true_iff, decide_eq_true_iff] at isDigit
    exact ⟨isDigit.1, isDigit.2⟩
  unfold charValue digitValue
  rw [BitVec.toInt_eq_toNat_of_lt (by rw [BitVec.toNat_ofNat]; omega), BitVec.toNat_ofNat]
  omega

theorem decimal_append (isDigit : ∀ c ∈ digits, c.isDigit = true)
    (ends : ∀ c, tail.head? = some c → c.isDigit = false) (v : ℤ) :
    decimal v (digits ++ tail) = v * 10 ^ digits.length + DecimalNumeral.value digits := by
  induction digits generalizing v with
  | nil =>
    rw [List.nil_append, List.length_nil, pow_zero, mul_one, value_nil, Nat.cast_zero, add_zero]
    cases tail with
    | nil => rfl
    | cons c tail => rw [decimal, ends c rfl, if_neg Bool.false_ne_true]
  | cons c digits ih =>
    have first := isDigit c List.mem_cons_self
    rw [List.cons_append, decimal, if_pos first,
      ih (fun c mem => isDigit c (List.mem_cons_of_mem _ mem)), toInt_charValue first, value_cons,
      List.length_cons]
    push_cast
    ring

theorem isSeparator_of_isDigit (isDigit : cc.isDigit = true) : isSeparator cc = false := by
  have range : 48 ≤ cc.toNat := by
    unfold Char.isDigit at isDigit
    rw [Bool.and_eq_true, decide_eq_true_iff, decide_eq_true_iff] at isDigit
    exact isDigit.1
  have other (c : Char) (less : c.toNat < 48) : (cc == c) = false := by
    rw [beq_eq_false_iff_ne]
    rintro rfl
    omega
  unfold isSeparator
  rw [other ' ' (by decide), other '\t' (by decide), other '\n' (by decide), other '\r' (by decide),
    beq_eq_false_iff_ne.mpr (by omega), beq_eq_false_iff_ne.mpr (by omega)]
  rfl

theorem Accepts.readSign_eq (accepts : Accepts str v) : ∃ neg cc rest,
    readSign str = some (neg, cc, rest) ∧ v = signed neg (decimal (charValue cc).toInt rest) := by
  obtain ⟨separate, signs, some, isDigit, ends⟩ := accepts
  rename_i separators sign digits tail neg
  cases digits with
  | nil => exact absurd rfl some
  | cons cc digits =>
    have first := isDigit cc List.mem_cons_self
    have notSeparator := isSeparator_of_isDigit first
    have value : (DecimalNumeral.value (cc :: digits) : ℤ) =
        decimal (charValue cc).toInt (digits ++ tail) := by
      rw [decimal_append (fun c mem => isDigit c (List.mem_cons_of_mem _ mem)) ends,
        toInt_charValue first, value_cons]
      rfl
    refine ⟨neg, cc, digits ++ tail, ?_, congrArg _ value⟩
    unfold readSign
    rw [List.dropWhile_append_of_pos separate]
    rcases signs with ⟨rfl | rfl, rfl⟩ | ⟨rfl, rfl⟩
    · rw [List.nil_append, List.cons_append, List.dropWhile_cons_of_neg (by rw [notSeparator]; decide)]
      split
      · rename_i same
        rw [(List.cons.inj same).1] at first
        exact absurd first (by decide)
      · rename_i same
        rw [(List.cons.inj same).1] at first
        exact absurd first (by decide)
      · rename_i same
        cases same
        rw [if_pos first]
      · rename_i same
        cases same
    · rw [List.singleton_append, List.dropWhile_cons_of_neg (by decide)]
      exact if_pos first
    · rw [List.singleton_append, List.dropWhile_cons_of_neg (by decide)]
      exact if_pos first

theorem accepts_ofInt (v : ℤ) : Accepts (ofInt v) v := by
  have digits (neg : Bool) (sign : List Char)
      (signs : (sign = [] ∨ sign = ['+']) ∧ neg = false ∨ sign = ['-'] ∧ neg = true) :
      Accepts (sign ++ ofNat v.natAbs) (signed neg v.natAbs) := by
    have numeral : Accepts ([] ++ (sign ++ (ofNat v.natAbs ++ []))) _ :=
      .numeral (fun c mem => absurd mem List.not_mem_nil) signs (ofNat_ne_nil v.natAbs)
        (fun c mem => isDigit_ofNat mem) (fun c none => by cases none)
    rwa [List.nil_append, List.append_nil, value_ofNat] at numeral
  unfold ofInt
  split
  · have numeral := digits true ['-'] (.inr ⟨rfl, rfl⟩)
    rwa [signed_true, show -(v.natAbs : ℤ) = v by omega] at numeral
  · have numeral := digits false [] (.inl ⟨.inl rfl, rfl⟩)
    rwa [signed_false, show (v.natAbs : ℤ) = v by omega] at numeral

theorem Accepts.returns_fromString {m register1 : MutableBigInteger} (accepts : Accepts str v)
    (hm : Fits m) (h₁ : Valid register1) :
    Returns (m.fromString str register1) fun (r, register1) => Holds r v ∧ Valid register1 := by
  obtain ⟨neg, cc, rest, numeral, rfl⟩ := accepts.readSign_eq
  exact MutableBigInteger.returns_fromString hm h₁ numeral

end Numerals

end MutableBigInteger

end Liberty
