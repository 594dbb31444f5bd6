import Liberty.Library.Returns
import Liberty.Library.TruncatedDivision
import Mathlib.Data.Int.Notation
import Mathlib.Data.Nat.Notation
import Mathlib.Tactic.Ring
import Mathlib.Data.Int.GCD
import Mathlib.Tactic.Linarith

/-!
# INTEGER_64 and NATURAL_64

The operations that wrap around, on integers, and `infix "^"`.
-/

namespace Liberty

/-- An INTEGER_64 after an operation that wraps around. -/
def wrap64 (n : Int) : Int :=
  n.bmod (2 ^ 64)

/-- A NATURAL_64 after an operation that wraps around. -/
def naturalWrap64 (n : ℕ) : ℕ :=
  n % 2 ^ 64

/-- `infix "^"` of INTEGER_64 -/
def integer64Power (base exp : Int) : Option Int :=
  if exp = 0 then
    some 1
  else do
    let (_, result, k) ← untilLoop (fun s => some (decide (s.1 ≤ 1)))
      (fun (i, result, k) =>
        some (i / 2, wrap64 (result * result), if i % 2 = 1 then wrap64 (k * result) else k))
      exp.toNat (exp, base, (1 : Int))
    return wrap64 (result * k)

/-! ## Congruences -/

theorem wrap64_wrap64_mul (m n : Int) : wrap64 (wrap64 m * n) = wrap64 (m * n) :=
  Int.bmod_mul_bmod

theorem wrap64_mul_wrap64 (m n : Int) : wrap64 (m * wrap64 n) = wrap64 (m * n) :=
  Int.mul_bmod_bmod

theorem wrap64_wrap64_add (m n : Int) : wrap64 (wrap64 m + n) = wrap64 (m + n) :=
  Int.bmod_add_bmod

theorem wrap64_add_wrap64 (m n : Int) : wrap64 (m + wrap64 n) = wrap64 (m + n) :=
  Int.add_bmod_bmod

theorem wrap64_of_inRange {n : Int} (low : -2 ^ 63 ≤ n) (high : n < 2 ^ 63) : wrap64 n = n :=
  Int.bmod_eq_of_le (by omega) (by omega)

theorem wrap64_inRange (n : Int) : -2 ^ 63 ≤ wrap64 n ∧ wrap64 n < 2 ^ 63 := by
  unfold wrap64
  rw [Int.bmod_def]
  split <;> omega

/-- The factors of a power may wrap around. -/
theorem wrap64_pow_mul (m n : Int) (q : ℕ) : wrap64 (wrap64 m ^ q * n) = wrap64 (m ^ q * n) := by
  induction q generalizing n with
  | zero => rw [pow_zero, pow_zero]
  | succ q ih =>
    rw [pow_succ, pow_succ, mul_assoc, ih, mul_left_comm, wrap64_wrap64_mul, mul_assoc, mul_left_comm]

/-! ## Powers -/

/-- The power is the one of the integers, wrapped around. -/
theorem integer64Power_eq (base : Int) {exp : Int} (nonneg : 0 ≤ exp) :
    integer64Power base exp = some (wrap64 (base ^ exp.toNat)) := by
  have general : Returns (integer64Power base exp) fun result => result = wrap64 (base ^ exp.toNat) := by
    unfold integer64Power
    by_cases zero : exp = 0
    · rw [if_pos zero, Returns.some_iff, zero, Int.toNat_zero, pow_zero,
        wrap64_of_inRange (by decide) (by decide)]
    · rw [if_neg zero, Returns.bind_iff]
      -- what is left to multiply, together with the odd factors
      refine returns_untilLoop (fun s : Int × Int × Int => 1 ≤ s.1 ∧
          wrap64 (s.2.1 ^ s.1.toNat * s.2.2) = wrap64 (base ^ exp.toNat))
        (fun s => s.1.toNat) ⟨by dsimp only; omega, by rw [mul_one]⟩ (Nat.le_refl _) ?_
      intro s inv
      obtain ⟨i, result, k⟩ := s
      obtain ⟨low, product⟩ := inv
      dsimp only at low product ⊢
      rw [Returns.some_iff]
      split
      · rename_i stopped
        rw [decide_eq_true_eq] at stopped
        obtain rfl : i = 1 := by omega
        rw [Returns.pure_iff, ← product, show Int.toNat 1 = 1 from rfl, pow_one]
      · rename_i going
        rw [decide_eq_true_eq] at going
        rw [Returns.some_iff]
        refine ⟨⟨by dsimp only; omega, ?_⟩, by dsimp only; omega⟩
        dsimp only
        rw [wrap64_pow_mul, ← product]
        by_cases odd : i % 2 = 1
        · rw [if_pos odd, wrap64_mul_wrap64, show i.toNat = 2 * (i / 2).toNat + 1 by omega]
          congr 1
          ring
        · rw [if_neg odd, show i.toNat = 2 * (i / 2).toNat by omega, pow_mul, sq]
  obtain ⟨result, run, rfl⟩ := general
  exact run

/-!
## Division of INTEGER_64

The Euclidean division and the greatest common divisor of INTEGER_GENERAL, on words of 64 bits.  The
division of the machine has no result for a zero divisor and for the minimum divided by -1.
-/

namespace Integer64

/-! ## The source -/

/-- `Minimum_integer_64` -/
def minimum : BitVec 64 := 0x8000000000000000

/-- `Maximum_integer_64` -/
def maximum : BitVec 64 := 0x7FFFFFFFFFFFFFFF

/-- The machine traps. -/
def Traps (a b : BitVec 64) : Prop :=
  b = 0 ∨ a = minimum ∧ b = -1

instance (a b : BitVec 64) : Decidable (Traps a b) :=
  inferInstanceAs (Decidable (_ ∨ _))

/-- `infix "#//"` -/
def truncatedQuotient (a b : BitVec 64) : Option (BitVec 64) :=
  if Traps a b then none else some (a.sdiv b)

/-- `infix "#\\"` -/
def truncatedRemainder (a b : BitVec 64) : Option (BitVec 64) :=
  if Traps a b then none else some (a.srem b)

/-- `infix "//"` -/
def quotient (a b : BitVec 64) : Option (BitVec 64) :=
  if 0 ≤ a.toInt then truncatedQuotient a b
  else if 0 < b.toInt then do return (← truncatedQuotient (a + 1) b) - 1
  else do return (← truncatedQuotient (a + 1) b) + 1

/-- `infix "\\"` -/
def remainder (a b : BitVec 64) : Option (BitVec 64) := do
  let result ← truncatedRemainder a b
  if result.toInt < 0 then
    if 0 < b.toInt then return result + b else return result - b
  else return result

def abs (a : BitVec 64) : BitVec 64 :=
  if a.toInt < 0 then -a else a

/-- `gcd`, cut after a number of calls. -/
def gcdWithin : ℕ → BitVec 64 → BitVec 64 → Option (BitVec 64)
  | 0, _, _ => none
  | fuel + 1, a, b => if b = 0 then some (abs a) else do gcdWithin fuel b (← remainder a b)

def gcd (a b : BitVec 64) : Option (BitVec 64) :=
  gcdWithin (b.toInt.natAbs + 1) a b

/-! ## Values -/

section Values

variable {a b : BitVec 64}

theorem toInt_range (a : BitVec 64) : -9223372036854775808 ≤ a.toInt ∧ a.toInt < 9223372036854775808 := by
  have low := BitVec.le_toInt a
  have high := BitVec.toInt_lt (x := a)
  omega

theorem bmod_of_range {n : Int} (low : -9223372036854775808 ≤ n) (high : n < 9223372036854775808) :
    n.bmod (2 ^ 64) = n :=
  Int.bmod_eq_of_le (by omega) (by omega)

theorem toInt_add_of_range (low : -9223372036854775808 ≤ a.toInt + b.toInt)
    (high : a.toInt + b.toInt < 9223372036854775808) : (a + b).toInt = a.toInt + b.toInt := by
  rw [BitVec.toInt_add, bmod_of_range low high]

theorem toInt_sub_of_range (low : -9223372036854775808 ≤ a.toInt - b.toInt)
    (high : a.toInt - b.toInt < 9223372036854775808) : (a - b).toInt = a.toInt - b.toInt := by
  rw [BitVec.toInt_sub, bmod_of_range low high]

theorem eq_minimum_iff : a = minimum ↔ a.toInt = -9223372036854775808 := by
  rw [← BitVec.toInt_inj]
  rfl

theorem toInt_neg_of_ne (differ : a ≠ minimum) : (-a).toInt = -a.toInt := by
  have range := toInt_range a
  rw [Ne, eq_minimum_iff] at differ
  rw [BitVec.toInt_neg, bmod_of_range (by omega) (by omega)]

theorem eq_zero_iff : a = 0 ↔ a.toInt = 0 := by
  rw [← BitVec.toInt_inj]
  rfl

theorem eq_neg_one_iff : a = -1 ↔ a.toInt = -1 := by
  rw [← BitVec.toInt_inj]
  rfl

theorem toInt_one : (1 : BitVec 64).toInt = 1 :=
  rfl

theorem toInt_neg_one : (-1 : BitVec 64).toInt = -1 := by
  decide

theorem returns_truncatedQuotient (safe : ¬Traps a b) :
    Returns (truncatedQuotient a b) fun q => q.toInt = a.toInt.tdiv b.toInt := by
  rw [truncatedQuotient, if_neg safe, Returns.some_iff]
  refine BitVec.toInt_sdiv_of_ne_or_ne a b ?_
  by_contra both
  rw [not_or, not_not, not_not] at both
  exact safe (.inr both)

theorem returns_truncatedRemainder (safe : ¬Traps a b) :
    Returns (truncatedRemainder a b) fun r => r.toInt = a.toInt.tmod b.toInt := by
  rw [truncatedRemainder, if_neg safe, Returns.some_iff]
  exact BitVec.toInt_srem a b

/-- The next number of one that is negative is no trap. -/
theorem not_traps_add_one (negative : a.toInt < 0) (nonzero : b ≠ 0) :
    ¬Traps (a + 1) b ∧ (a + 1).toInt = a.toInt + 1 := by
  have range := toInt_range a
  have next : (a + 1).toInt = a.toInt + 1 := by
    rw [toInt_add_of_range (by rw [toInt_one]; omega) (by rw [toInt_one]; omega), toInt_one]
  refine ⟨fun traps => ?_, next⟩
  rcases traps with zero | ⟨least, -⟩
  · exact nonzero zero
  · rw [eq_minimum_iff] at least
    omega

/-- `infix "//"` is the Euclidean quotient. -/
theorem returns_quotient (nonzero : b ≠ 0) (safe : ¬(a = minimum ∧ b = -1)) :
    Returns (quotient a b) fun q => q.toInt = a.toInt / b.toInt := by
  have nonzero' : b.toInt ≠ 0 := fun zero => nonzero (eq_zero_iff.mpr zero)
  have range := toInt_range a
  unfold quotient
  split
  · rename_i nonneg
    refine (returns_truncatedQuotient fun traps => traps.elim nonzero safe).mono fun q same => ?_
    rw [same, Int.tdiv_eq_ediv_of_nonneg nonneg]
  · rename_i negative
    obtain ⟨free, next⟩ := not_traps_add_one (a := a) (by omega) nonzero
    have one := toInt_one
    split
    · rename_i positive
      have exact := TruncatedDivision.ediv_of_neg_of_pos (n := a.toInt) (by omega) positive
      have least := Int.natAbs_ediv_le_natAbs a.toInt b.toInt
      have high : a.toInt / b.toInt < 0 := Int.ediv_neg_of_neg_of_pos (by omega) positive
      refine (returns_truncatedQuotient free).bind fun q same => Returns.pure_iff.mpr ?_
      rw [next] at same
      rw [toInt_sub_of_range (by omega) (by omega), one, exact, same]
    · rename_i notPositive
      have negative' : b.toInt < 0 := by omega
      have exact := TruncatedDivision.ediv_of_neg_of_neg (n := a.toInt) (by omega) negative'
      have positive : 0 < a.toInt / b.toInt := Int.ediv_pos_of_neg_of_neg (by omega) negative'
      have less : a.toInt / b.toInt < 9223372036854775808 := by
        have most := Int.natAbs_ediv_le_natAbs a.toInt b.toInt
        rcases Decidable.em (a = minimum) with least | more
        · have other : b.toInt ≠ -1 := fun one => safe ⟨least, eq_neg_one_iff.mpr one⟩
          rw [eq_minimum_iff] at least
          have less := TruncatedDivision.ediv_lt_neg (n := a.toInt) (d := b.toInt) (by omega) (by omega)
          omega
        · rw [eq_minimum_iff] at more
          omega
      refine (returns_truncatedQuotient free).bind fun q same => Returns.pure_iff.mpr ?_
      rw [next] at same
      rw [toInt_add_of_range (by omega) (by omega), one, exact, same]

/-- `infix "\\"` is the Euclidean remainder. -/
theorem returns_remainder (nonzero : b ≠ 0) (safe : ¬(a = minimum ∧ b = -1)) :
    Returns (remainder a b) fun r => r.toInt = a.toInt % b.toInt := by
  have nonzero' : b.toInt ≠ 0 := fun zero => nonzero (eq_zero_iff.mpr zero)
  have range := toInt_range b
  have free : ¬Traps a b := fun traps => traps.elim nonzero safe
  have corrected := TruncatedDivision.emod_eq (n := a.toInt) nonzero'
  have low := Int.emod_nonneg a.toInt nonzero'
  have high := Int.emod_lt_abs a.toInt nonzero'
  refine (returns_truncatedRemainder free).bind fun r same => ?_
  rw [← same] at corrected
  split
  · rename_i negative
    rw [if_pos negative] at corrected
    split
    · rename_i positive
      rw [if_pos positive] at corrected
      rw [abs_of_pos positive] at high
      rw [Returns.pure_iff, corrected, toInt_add_of_range (by omega) (by omega)]
    · rename_i notPositive
      rw [if_neg notPositive] at corrected
      rw [abs_of_nonpos (by omega)] at high
      rw [Returns.pure_iff, corrected, toInt_sub_of_range (by omega) (by omega)]
  · rename_i nonneg
    rw [if_neg nonneg] at corrected
    exact Returns.pure_iff.mpr corrected.symm

/-! ## Greatest common divisor -/

theorem natAbs_abs (a : BitVec 64) : (abs a).toInt.natAbs = a.toInt.natAbs := by
  unfold abs
  split
  · rcases Decidable.em (a = minimum) with least | more
    · subst least
      rfl
    · rw [toInt_neg_of_ne more, Int.natAbs_neg]
  · rfl

/-- The only number whose absolute value is negative. -/
theorem abs_nonneg_or (a : BitVec 64) : 0 ≤ (abs a).toInt ∨ abs a = minimum := by
  unfold abs
  split
  · rcases Decidable.em (a = minimum) with least | more
    · subst least
      exact .inr rfl
    · rw [toInt_neg_of_ne more]
      exact .inl (by omega)
  · exact .inl (by omega)

theorem returns_gcdWithin {fuel : ℕ} (enough : b.toInt.natAbs < fuel) (safe : ¬(a = minimum ∧ b = -1)) :
    Returns (gcdWithin fuel a b) fun g => g.toInt.natAbs = Int.gcd a.toInt b.toInt ∧
      (0 ≤ g.toInt ∨ g = minimum) := by
  induction fuel generalizing a b with
  | zero => omega
  | succ fuel ih =>
    rw [gcdWithin]
    split
    · rename_i zero
      refine Returns.some_iff.mpr ⟨?_, abs_nonneg_or a⟩
      rw [natAbs_abs, eq_zero_iff.mp zero, Int.gcd_zero_right]
    · rename_i nonzero
      have nonzero' : b.toInt ≠ 0 := fun zero => nonzero (eq_zero_iff.mpr zero)
      refine (returns_remainder nonzero safe).bind fun r same => ?_
      have low := Int.emod_nonneg a.toInt nonzero'
      have high := Int.emod_lt_abs a.toInt nonzero'
      rw [Int.abs_eq_natAbs] at high
      refine (ih (by omega) fun least => ?_).mono fun g ⟨divisor, sign⟩ => ⟨?_, sign⟩
      · rw [eq_neg_one_iff] at least
        omega
      · calc g.toInt.natAbs = Int.gcd b.toInt r.toInt := divisor
          _ = Int.gcd b.toInt (a.toInt % b.toInt + b.toInt * (a.toInt / b.toInt)) := by
              rw [same, Int.gcd_add_mul_left_right]
          _ = Int.gcd a.toInt b.toInt := by rw [Int.emod_add_mul_ediv, Int.gcd_comm]

/-- `gcd` is the greatest common divisor, or its opposite when that is no number of 64 bits. -/
theorem returns_gcd (safe : ¬(a = minimum ∧ b = -1)) :
    Returns (gcd a b) fun g => g.toInt.natAbs = Int.gcd a.toInt b.toInt ∧ (0 ≤ g.toInt ∨ g = minimum) :=
  returns_gcdWithin (Nat.lt_succ_self _) safe

end Values

end Integer64

end Liberty
