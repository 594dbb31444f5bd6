import Liberty.Json.JsonNumberParsing
import Mathlib.Algebra.Field.Rat
import Mathlib.Algebra.Order.Field.Power
import Mathlib.Algebra.Order.Ring.Rat
import Mathlib.Tactic.FieldSimp
import Mathlib.Tactic.Linarith
import Mathlib.Tactic.NormNum

/-!
# JSON_NUMBER

Whether `is_integer` and `to_integer` tell the value of the literal that has been read.
-/

namespace Liberty

namespace JsonNumber

def isInteger (n : JsonNumber) : Bool :=
  n.fracExp ≤ n.exp

def toInteger (n : JsonNumber) : Option Int := do
  let intPower ← integer64Power 10 n.exp
  let fracPower ← integer64Power 10 (wrap64 (n.exp - n.fracExp))
  return wrap64 (wrap64 (wrap64 (n.sign * wrap64 n.int) * intPower) +
    wrap64 (wrap64 (n.sign * wrap64 n.frac) * fracPower))

end JsonNumber

/-- The rational numbers that are INTEGER_64. -/
def IsInteger64 (v : ℚ) : Prop :=
  ∃ n : Int, -2 ^ 63 ≤ n ∧ n < 2 ^ 63 ∧ (n : ℚ) = v

namespace JsonParser

namespace NumberLiteral

/-- The exponent that is written. -/
def exponentValue (l : NumberLiteral) : Int :=
  match l.exponent with
  | none => 0
  | some e => e.sign.value * digitsFrom 0 e.digits

/-- The exact decimal value. -/
def value (l : NumberLiteral) : ℚ :=
  l.sign * (digitsFrom 0 l.int + digitsFrom 0 l.frac / 10 ^ l.frac.length) * 10 ^ l.exponentValue

/-- `is_integer` and `to_integer` tell the value of the literal. -/
def Agrees (l : NumberLiteral) (number : JsonNumber) : Prop :=
  (number.isInteger = true ↔ IsInteger64 l.value) ∧
    (IsInteger64 l.value → ∃ n, number.toInteger = some n ∧ (n : ℚ) = l.value)

/-- Where the exponent, in 64 bits, is at least the number of the digits behind the point, it is the one that
is written and the value has 64 bits, or the value is zero; elsewhere the value is not an integer of 64 bits. -/
def Fits (l : NumberLiteral) : Prop :=
  if (l.frac.length : Int) ≤ wrap64 l.exponentValue then
    l.value = 0 ∨ (wrap64 l.exponentValue = l.exponentValue ∧ IsInteger64 l.value)
  else ¬IsInteger64 l.value

/-- All digits of the literal as one number, with its sign. -/
def mantissa (l : NumberLiteral) : Int :=
  l.sign * (digitsFrom 0 l.int * 10 ^ l.frac.length + digitsFrom 0 l.frac)

theorem value_eq (l : NumberLiteral) :
    l.value = l.mantissa * (10 : ℚ) ^ (l.exponentValue - l.frac.length) := by
  have nonzero : (10 : ℚ) ≠ 0 := by norm_num
  unfold value mantissa
  rw [zpow_sub₀ nonzero, zpow_natCast]
  push_cast
  field_simp

/-- The exponent of the number is the one that is written, wrapped around. -/
theorem number_exp (l : NumberLiteral) : l.number.exp = wrap64 l.exponentValue := by
  change wrap64 (signLocal l.exponent * exponentLocal l.exponent) = _
  unfold exponentValue
  cases l.exponent with
  | none => rfl
  | some e => exact wrap64_mul_wrap64 _ _

theorem isInteger_iff (l : NumberLiteral) :
    l.number.isInteger = true ↔ (l.frac.length : Int) ≤ wrap64 l.exponentValue := by
  unfold JsonNumber.isInteger
  rw [decide_eq_true_iff, number_exp]
  exact Iff.rfl

end NumberLiteral

theorem wrap64_naturalWrap64 (n : ℕ) : wrap64 (naturalWrap64 n : ℕ) = wrap64 n := by
  unfold wrap64 naturalWrap64
  rw [Int.natCast_emod]
  exact Int.emod_bmod _ _

namespace NumberLiteral

/-- What `to_integer` computes: the digits before the power of ten, wrapped around. -/
theorem toInteger_eq {l : NumberLiteral} (integer : (l.frac.length : Int) ≤ wrap64 l.exponentValue) :
    l.number.toInteger =
      some (wrap64 (l.mantissa * 10 ^ (wrap64 l.exponentValue - l.frac.length).toNat)) := by
  have range := wrap64_inRange l.exponentValue
  have difference : wrap64 (wrap64 l.exponentValue - l.frac.length) = wrap64 l.exponentValue - l.frac.length :=
    wrap64_of_inRange (by omega) (by omega)
  have power : integer64Power 10 l.number.exp = some (wrap64 (10 ^ (wrap64 l.exponentValue).toNat)) := by
    rw [number_exp]
    exact integer64Power_eq 10 (by omega)
  have power' : integer64Power 10 (wrap64 (l.number.exp - l.number.fracExp)) =
      some (wrap64 (10 ^ (wrap64 l.exponentValue - l.frac.length).toNat)) := by
    rw [number_exp]
    change integer64Power 10 (wrap64 (wrap64 l.exponentValue - l.frac.length)) = _
    rw [difference]
    exact integer64Power_eq 10 (by omega)
  have part : ∀ (s p : Int) (n : ℕ), wrap64 (wrap64 (s * wrap64 (naturalWrap64 n : ℕ)) * wrap64 p) = wrap64 (s * n * p) := by
    intro s p n
    rw [wrap64_naturalWrap64, wrap64_mul_wrap64 s, wrap64_mul_wrap64, wrap64_wrap64_mul]
  unfold JsonNumber.toInteger
  rw [power, power']
  change some (wrap64 (wrap64 (wrap64 (l.sign * wrap64 (naturalWrap64 (digitsFrom 0 l.int) : ℕ)) * _) +
    wrap64 (wrap64 (l.sign * wrap64 (naturalWrap64 (digitsFrom 0 l.frac) : ℕ)) * _))) = _
  rw [part, part, wrap64_wrap64_add, wrap64_add_wrap64]
  unfold mantissa
  congr 2
  rw [show (wrap64 l.exponentValue).toNat = (wrap64 l.exponentValue - l.frac.length).toNat + l.frac.length by omega]
  ring

end NumberLiteral

/-- An exponent that does not wrap to itself is far away from what it wraps to. -/
theorem wrap64_far {n : Int} (wraps : wrap64 n ≠ n) : n + 2 ^ 64 ≤ wrap64 n ∨ wrap64 n + 2 ^ 64 ≤ n := by
  unfold wrap64 at wraps ⊢
  rw [Int.bmod_def] at wraps ⊢
  split <;> omega

theorem wrap64_mul_pow (n : Int) {q : ℕ} (many : 64 ≤ q) : wrap64 (n * 10 ^ q) = 0 := by
  refine Int.bmod_eq_zero_of_dvd ?_
  have powers : (2 : Int) ^ 64 ∣ 10 ^ q :=
    (pow_dvd_pow 2 many).trans (pow_dvd_pow_of_dvd (by decide) q)
  exact dvd_mul_of_dvd_right powers n

/-- A nonzero multiple of a large power of ten is not in 64 bits. -/
theorem not_inRange_of_pow {n : Int} (nonzero : n ≠ 0) {q : ℕ} (many : 64 ≤ q) :
    ¬(-2 ^ 63 ≤ n * 10 ^ q ∧ n * 10 ^ q < 2 ^ 63) := by
  intro range
  have power : (10 : Int) ^ 64 ≤ 10 ^ q := pow_le_pow_right₀ (by decide) many
  rcases lt_or_gt_of_ne nonzero with negative | positive
  · have below : n * 10 ^ q ≤ -1 * 10 ^ q := Int.mul_le_mul_of_nonneg_right (by omega) (by omega)
    omega
  · have above : 1 * 10 ^ q ≤ n * 10 ^ q := Int.mul_le_mul_of_nonneg_right (by omega) (by omega)
    omega

namespace NumberLiteral

/-- Where the exponent is large enough, the value is an integer. -/
theorem value_of_le {l : NumberLiteral} (large : (l.frac.length : Int) ≤ l.exponentValue) :
    l.value = (l.mantissa * 10 ^ (l.exponentValue - l.frac.length).toNat : Int) := by
  rw [value_eq]
  push_cast
  rw [← zpow_natCast, Int.toNat_of_nonneg (by omega)]

theorem value_eq_zero_iff (l : NumberLiteral) : l.value = 0 ↔ l.mantissa = 0 := by
  rw [value_eq, mul_eq_zero, Int.cast_eq_zero]
  exact or_iff_left (zpow_ne_zero _ (by norm_num))

/-- An exponent that wraps around gives the value of no other number than zero. -/
theorem value_eq_zero_of_wraps {l : NumberLiteral} {n : Int}
    (integer : (l.frac.length : Int) ≤ wrap64 l.exponentValue) (wraps : wrap64 l.exponentValue ≠ l.exponentValue)
    (low : -2 ^ 63 ≤ n) (high : n < 2 ^ 63) (value : (n : ℚ) = l.value)
    (computed : wrap64 (l.mantissa * 10 ^ (wrap64 l.exponentValue - l.frac.length).toNat) = n) : l.value = 0 := by
  rcases wrap64_far wraps with above | below
  · -- the digits are the value before so many zeros that nothing is left of it
    have shift : (l.mantissa : ℚ) * 10 ^ (wrap64 l.exponentValue - l.frac.length) =
        n * 10 ^ (wrap64 l.exponentValue - l.exponentValue) := by
      rw [value, value_eq, mul_assoc, ← zpow_add₀ (by norm_num)]
      congr 2
      ring
    have shifted : l.mantissa * 10 ^ (wrap64 l.exponentValue - l.frac.length).toNat =
        n * 10 ^ (wrap64 l.exponentValue - l.exponentValue).toNat := by
      rw [← Int.toNat_of_nonneg (show 0 ≤ wrap64 l.exponentValue - l.frac.length by omega),
        ← Int.toNat_of_nonneg (show 0 ≤ wrap64 l.exponentValue - l.exponentValue by omega), zpow_natCast,
        zpow_natCast] at shift
      exact_mod_cast shift
    rw [shifted, wrap64_mul_pow n (by omega)] at computed
    rw [← value, ← computed, Int.cast_zero]
  · by_contra nonzero
    have large : (l.frac.length : Int) ≤ l.exponentValue := by omega
    rw [value_of_le large, Int.cast_inj] at value
    rw [value] at low high
    exact not_inRange_of_pow (fun zero => nonzero (l.value_eq_zero_iff.mpr zero)) (by omega) ⟨low, high⟩

/-- The number tells the value of the literal where the literal fits, and only there. -/
theorem agrees_iff (l : NumberLiteral) : l.Agrees l.number ↔ l.Fits := by
  unfold Agrees Fits
  by_cases integer : (l.frac.length : Int) ≤ wrap64 l.exponentValue
  · rw [if_pos integer, isInteger_iff, toInteger_eq integer]
    constructor
    · intro agrees
      obtain ⟨represented, told⟩ := agrees
      have is64 := represented.mp integer
      by_cases wraps : wrap64 l.exponentValue = l.exponentValue
      · exact .inr ⟨wraps, is64⟩
      · left
        obtain ⟨n, low, high, value⟩ := is64
        obtain ⟨n', computed, value'⟩ := told ⟨n, low, high, value⟩
        obtain rfl : n = n' := Int.cast_inj.mp (value.trans value'.symm)
        exact value_eq_zero_of_wraps integer wraps low high value (Option.some.inj computed)
    · intro fits
      rcases fits with zero | ⟨wraps, n, low, high, value⟩
      · have none := l.value_eq_zero_iff.mp zero
        rw [zero, none, Int.zero_mul]
        exact ⟨iff_of_true integer ⟨0, by decide, by decide, Int.cast_zero⟩, fun _ => ⟨0, rfl, Int.cast_zero⟩⟩
      · refine ⟨iff_of_true integer ⟨n, low, high, value⟩, fun _ => ⟨n, ?_, value⟩⟩
        rw [wraps] at integer ⊢
        rw [value_of_le integer, Int.cast_inj] at value
        rw [← value, wrap64_of_inRange low high]
  · rw [if_neg integer, isInteger_iff]
    constructor
    · intro agrees is64
      exact integer (agrees.1.mpr is64)
    · intro fails
      exact ⟨iff_of_false integer fails, fun is64 => absurd is64 fails⟩

end NumberLiteral

/-! ## parse_number -/

section Parsing

variable {context context' : JsonParseContext} {rest : List Character} {l l' : NumberLiteral}

/-- What `parse_number` is to do: it accepts exactly the JSON numbers, and the number tells the value of the
literal. -/
def ParsesNumber (context : JsonParseContext) : Prop :=
  (∀ l rest, context.data = NumberLiteral.text l ++ rest → l.Ends rest →
    ∃ number, parseNumber context = (some number, { context with data := rest }) ∧ l.Agrees number) ∧
  ∀ number context', parseNumber context = (some number, context') →
    ∃ l : NumberLiteral, context.data = l.text ++ context'.data ∧ l.Ends context'.data

/-- The number at the beginning, if there is one, is not at the end of the data, unless it is a zero with which
the character there does not go on, and its value is told by the attributes of a JSON_NUMBER. -/
def BeginsFitting (context : JsonParseContext) : Prop :=
  ∀ l rest, context.data = NumberLiteral.text l ++ rest → l.Ends rest →
    l.Delimited rest context.afterEnd ∧ l.Fits

theorem NumberLiteral.Delimited.ends {afterEnd : Character} (h : l.Delimited rest afterEnd) : l.Ends rest := by
  intro c first
  rcases h with ⟨d, tail, rfl, stop⟩ | ⟨rfl, -⟩
  · cases first
    exact stop
  · cases first

/-- A literal with the text of a zero is a zero. -/
theorem NumberLiteral.IsZero.of_text (zero : l'.IsZero) (same : context.data = l.text ++ rest)
    (same' : context.data = l'.text ++ rest) : l.IsZero := by
  have negative : l.negative = l'.negative :=
    Bool.eq_iff_iff.mpr ((item_iff_negative same).symm.trans (item_iff_negative same'))
  have texts := same.symm.trans same'
  rw [l.text_eq, l'.text_eq, negative, List.append_cancel_left_eq, zero.1, zero.2.1, zero.2.2] at texts
  cases first : l.int with
  | nil => exact absurd first l.intNonempty
  | cons c digits =>
    rw [first] at texts
    obtain ⟨rfl, behind⟩ := List.cons.inj texts
    obtain rfl := l.noZero digits first
    have nothing : fractionText l.frac ++ exponentText l.exponent = [] :=
      List.append_cancel_right (List.append_assoc _ _ rest ▸ behind)
    obtain ⟨noFraction, noExponent⟩ := List.append_eq_nil_iff.mp nothing
    refine ⟨first, ?_, ?_⟩
    · cases frac : l.frac with
      | nil => rfl
      | cons d digits =>
        rw [frac] at noFraction
        cases noFraction
    · cases exponent : l.exponent with
      | none => rfl
      | some e =>
        rw [exponent] at noExponent
        cases noExponent

theorem parseNumber_of_delimited (same : context.data = l.text ++ rest)
    (delimited : l.Delimited rest context.afterEnd) :
    parseNumber context = (some l.number, { context with data := rest }) :=
  parseNumber_iff.mpr ⟨l, same, delimited, rfl, rfl⟩

/-- **JSON numbers.**  `parse_number` accepts exactly the JSON numbers, and `is_integer` and `to_integer` tell
their values, if and only if the number that stands there is followed by another character, or is a zero, and
its value is told by its digits and its exponent in 64 bits. -/
theorem parsesNumber_iff (context : JsonParseContext) : ParsesNumber context ↔ BeginsFitting context := by
  constructor
  · intro parses l rest same ends
    obtain ⟨number, run, agrees⟩ := parses.1 l rest same ends
    obtain ⟨l', same', delimited', rfl, -⟩ := parseNumber_iff.mp run
    have delimited : l.Delimited rest context.afterEnd := by
      cases rest with
      | cons c tail => exact .inl ⟨c, tail, rfl, ends c rfl⟩
      | nil =>
        rcases delimited' with ⟨c, tail, atRest, -⟩ | ⟨-, zero', stop⟩
        · cases atRest
        · have zero := zero'.of_text same same'
          refine .inr ⟨rfl, zero, ?_⟩
          rw [NumberLiteral.not_continues_iff] at stop ⊢
          rw [zero.2.1, zero.2.2]
          rw [zero'.2.1, zero'.2.2] at stop
          exact stop
    have number_eq := (Prod.mk.inj ((parseNumber_of_delimited same delimited).symm.trans run)).1
    rw [← Option.some.inj number_eq] at agrees
    exact ⟨delimited, l.agrees_iff.mp agrees⟩
  · intro fitting
    constructor
    · intro l rest same ends
      obtain ⟨delimited, fits⟩ := fitting l rest same ends
      exact ⟨_, parseNumber_of_delimited same delimited, l.agrees_iff.mpr fits⟩
    · intro number context' run
      obtain ⟨l, same, delimited, -, -⟩ := parseNumber_iff.mp run
      exact ⟨l, same, delimited.ends⟩

theorem allDigits_of_all {text : List Character} (all : text.all Character.isDecimalDigit = true) : AllDigits text :=
  List.all_eq_true.mp all

/-- `1.0` is not told to be an integer, `1e20` is told to be one, and `12` is not accepted at the end of the
data. -/
theorem not_parsesNumber :
    ¬ParsesNumber ⟨"1.0,".toList.map Char.toUInt8, 0, []⟩ ∧
      ¬ParsesNumber ⟨"1e20,".toList.map Char.toUInt8, 0, []⟩ ∧
        ¬ParsesNumber ⟨"12".toList.map Char.toUInt8, 0, []⟩ := by
  have ends : ∀ l : NumberLiteral, l.Ends [','.toUInt8] := by
    intro l c first continues
    cases first
    rcases continues with digit | ⟨point, -⟩ | ⟨mark, -⟩
    · exact absurd digit (by decide)
    · exact absurd point (by decide)
    · exact absurd mark (by decide)
  refine ⟨fun parses => ?_, fun parses => ?_, fun parses => ?_⟩
  · let l : NumberLiteral := ⟨false, ['1'.toUInt8], ['0'.toUInt8], none, List.cons_ne_nil _ _, allDigits_of_all rfl,
      fun rest same => (List.cons.inj same).2.symm, allDigits_of_all rfl⟩
    obtain ⟨number, run, agrees⟩ := parses.1 l _ rfl (ends l)
    cases run
    have one : l.value = 1 := by
      change ((1 : Int) : ℚ) * ((1 : ℕ) + (0 : ℕ) / 10 ^ 1) * 10 ^ (0 : Int) = 1
      norm_num
    have isInteger := agrees.1.mpr ⟨1, by decide, by decide, one.symm ▸ Int.cast_one⟩
    cases isInteger
  · let e : Exponent := ⟨'e'.toUInt8, .none, ['2'.toUInt8, '0'.toUInt8], .inl rfl, List.cons_ne_nil _ _,
      allDigits_of_all rfl⟩
    let l : NumberLiteral := ⟨false, ['1'.toUInt8], [], some e, List.cons_ne_nil _ _, allDigits_of_all rfl,
      fun rest same => (List.cons.inj same).2.symm, allDigits_of_all rfl⟩
    obtain ⟨number, run, agrees⟩ := parses.1 l _ rfl (ends l)
    cases run
    obtain ⟨n, -, high, value⟩ := agrees.1.mp rfl
    have large : l.value = ((10 ^ 20 : Int) : ℚ) := by
      change ((1 : Int) : ℚ) * ((1 : ℕ) + (0 : ℕ) / 10 ^ 0) * 10 ^ (20 : Int) = _
      norm_num
    rw [large, Int.cast_inj] at value
    omega
  · let l : NumberLiteral := ⟨false, ['1'.toUInt8, '2'.toUInt8], [], none, List.cons_ne_nil _ _, allDigits_of_all rfl,
      fun rest same => absurd (List.cons.inj same).1 (by decide), allDigits_of_all rfl⟩
    obtain ⟨number, run, -⟩ := parses.1 l [] rfl (fun c found => nomatch found)
    cases run

end Parsing

end JsonParser

end Liberty
