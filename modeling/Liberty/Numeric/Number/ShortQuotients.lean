import Liberty.Numeric.Number.Products

/-!
# Quotients by an INTEGER_64

`infix "@/"` is the quotient in canonical form, but for a fraction whose numerator is the minimum and that is
divided by the minimum: the divisor of both comes out as a negative number, and the denominator of the result is
negative.
-/

namespace Liberty

open Calculation MutableBigInteger

namespace Integer64

/-- The opposite has the same magnitude, even when it overflows. -/
theorem natAbs_neg (a : BitVec 64) : (-a).toInt.natAbs = a.toInt.natAbs := by
  rcases Decidable.em (a = minimum) with least | more
  · subst least
    rfl
  · rw [toInt_neg_of_ne more, Int.natAbs_neg]

end Integer64

namespace ExactNumber

variable {a : ExactNumber} {n d : IntegerGeneralNumber} {x y : ℤ} {q : ℚ}

theorem produces_exactQuotient {value other : BitVec 64} (nonzero : other ≠ 0) (other_ne : other ≠ -1)
    (divides : other.toInt ∣ value.toInt) :
    Produces (do
        let q ← .read fun _ => Integer64.quotient value other
        return integer (.integer64 q) : Calculation ExactNumber)
      (·.Represents (value.toInt / other.toInt : ℚ)) := by
  have scale : (other.toInt : ℚ) ≠ 0 :=
    Int.cast_ne_zero.mpr fun zero => nonzero (Integer64.eq_zero_iff.mpr zero)
  refine CommandProgram.Produces.bind
    (.read fun _ => Integer64.returns_quotient nonzero fun both => other_ne both.2) fun q same => .done ?_
  have represents : (IntegerGeneralNumber.integer64 q).Represents (value.toInt / other.toInt) := same
  rw [← Int.cast_div divides scale]
  exact represents_integer represents

/-- `infix "@/"` of an INTEGER_64_NUMBER is the quotient. -/
theorem produces_divideInteger64Number (value : BitVec 64) {other : BitVec 64} (nonzero : other ≠ 0) :
    Produces (divideInteger64Number value other) (·.Represents (value.toInt / other.toInt : ℚ)) := by
  have whole : (IntegerGeneralNumber.integer64 value).Represents value.toInt := rfl
  have divisor : (IntegerGeneralNumber.integer64 other).Represents other.toInt := rfl
  have nonzero' : other.toInt ≠ 0 := fun zero => nonzero (Integer64.eq_zero_iff.mpr zero)
  have scale : (other.toInt : ℚ) ≠ 0 := Int.cast_ne_zero.mpr nonzero'
  have product : (value.toInt / other.toInt : ℚ) * other.toInt = value.toInt := div_mul_cancel₀ _ scale
  unfold divideInteger64Number
  split
  · rename_i trivial
    have same : (value.toInt / other.toInt : ℚ) = value.toInt := by
      rcases trivial with zero | one
      · rw [Integer64.eq_zero_iff.mp zero, Int.cast_zero, zero_div]
      · rw [one, Integer64.toInt_one, Int.cast_one, div_one]
    rw [same]
    exact .done (represents_integer whole)
  rename_i proper
  rw [not_or] at proper
  split
  · rename_i opposite
    have same : (value.toInt / other.toInt : ℚ) = (-value.toInt : ℤ) := by
      rw [opposite, Integer64.toInt_neg_one]
      push_cast
      ring
    rw [same]
    exact whole.produces_negate.bind fun m hm => .done (represents_integer hm)
  rename_i notOpposite
  have notOne : other.toInt ≠ 1 := fun one => proper.2 (BitVec.eq_of_toInt_eq one)
  have notNegativeOne : other.toInt ≠ -1 := fun one => notOpposite (Integer64.eq_neg_one_iff.mpr one)
  refine CommandProgram.Produces.bind
    (.read fun _ => Integer64.returns_gcd fun both => notOpposite both.2) fun g ⟨magnitude, sign⟩ => ?_
  obtain ⟨k, c, b, gcd, positive, first, second, coprime⟩ :=
    LowestTerms.gcd_split (x := value.toInt) nonzero'
  have size : (g.toInt.natAbs : ℤ) = k := by rw [magnitude, gcd]
  have reduced : (value.toInt / other.toInt : ℚ) * b = c := by
    apply mul_left_cancel₀ (Int.cast_ne_zero.mpr positive.ne' : (k : ℚ) ≠ 0)
    have scaled : (k * b : ℚ) = other.toInt := by rw [second, Int.cast_mul]
    have scaled' : (k * c : ℚ) = value.toInt := by rw [first, Int.cast_mul]
    linear_combination product + (value.toInt / other.toInt : ℚ) * scaled - scaled'
  split
  · rename_i one
    rw [one, Integer64.toInt_one] at size
    have unit : k = 1 := by omega
    rw [unit, one_mul] at first second
    rw [← first, ← second] at coprime
    split
    · refine whole.produces_negate.bind fun m hm => divisor.produces_negate.bind fun m' hm' => .done ?_
      refine represents_fraction hm hm' (by omega) coprime.neg_neg ?_
      push_cast
      linear_combination -product
    · exact .done (represents_fraction whole divisor (by omega) coprime product)
  rename_i more
  split
  · rename_i divides
    have same : other.toInt.natAbs = g.toInt.natAbs := by
      rcases divides with equal | equal
      · rw [equal]
      · rw [equal, Integer64.natAbs_neg]
    refine produces_exactQuotient nonzero notOpposite ?_
    rw [← Int.natAbs_dvd_natAbs, same, magnitude]
    exact Int.natAbs_dvd_natAbs.mpr (Int.gcd_dvd_left ..)
  · rename_i proper'
    rw [not_or] at proper'
    have range := Integer64.toInt_range value
    have range' := Integer64.toInt_range other
    have notLeast : g ≠ Integer64.minimum := by
      intro least
      have size' : k = 9223372036854775808 := by
        rw [← size, Integer64.eq_minimum_iff.mp least]
        rfl
      rw [size'] at second
      apply proper'.1
      rw [least, Integer64.eq_minimum_iff]
      omega
    have exact : g.toInt = k := by
      have nonneg := sign.resolve_right notLeast
      omega
    have two : 2 ≤ k := by
      by_contra short
      apply more
      apply BitVec.eq_of_toInt_eq
      rw [Integer64.toInt_one]
      omega
    have some : g ≠ 0 := fun zero => by
      rw [Integer64.eq_zero_iff.mp zero] at exact
      omega
    have notUnit : g ≠ -1 := fun unit => by
      rw [unit, Integer64.toInt_neg_one] at exact
      omega
    refine CommandProgram.Produces.bind
      (.read fun _ => Integer64.returns_quotient some fun both => notUnit both.2) fun d hd => ?_
    refine CommandProgram.Produces.bind
      (.read fun _ => Integer64.returns_quotient some fun both => notUnit both.2) fun n hn => ?_
    rw [exact, second, Int.mul_ediv_cancel_left b positive.ne'] at hd
    rw [exact, first, Int.mul_ediv_cancel_left c positive.ne'] at hn
    have notOne' : b ≠ 1 := fun one => proper'.1 <| BitVec.eq_of_toInt_eq <| by
      rw [second, one, mul_one, exact]
    have notOpposite' : b ≠ -1 := fun one => proper'.2 <| BitVec.eq_of_toInt_eq <| by
      rw [second, one, mul_neg_one, Integer64.toInt_neg_of_ne notLeast, exact]
    split
    · have less : b < 0 := by
        by_contra nonneg
        have := mul_nonneg positive.le (not_lt.mp nonneg)
        omega
      have small : -9223372036854775808 < b := by nlinarith
      have small' : -9223372036854775808 < c := by nlinarith
      have opposite : (-d).toInt = -b := by
        rw [Integer64.toInt_neg_of_ne fun least => ?_, hd]
        rw [Integer64.eq_minimum_iff] at least
        omega
      have opposite' : (-n).toInt = -c := by
        rw [Integer64.toInt_neg_of_ne fun least => ?_, hn]
        rw [Integer64.eq_minimum_iff] at least
        omega
      refine .done (represents_fraction opposite' opposite (by omega) coprime.neg_neg ?_)
      push_cast
      linear_combination -reduced
    · rename_i nonneg
      have above : 0 < b := by
        by_contra none
        have := mul_nonpos_of_nonneg_of_nonpos positive.le (not_lt.mp none)
        omega
      exact .done (represents_fraction hn hd (by omega) coprime reduced)

/-- The numerator and the divisor are both the minimum: their `gcd` is negative. -/
def DividesMinimum (q : ℚ) (other : BitVec 64) : Prop :=
  q.num = -9223372036854775808 ∧ other = Integer64.minimum

instance (q : ℚ) (other : BitVec 64) : Decidable (DividesMinimum q other) :=
  inferInstanceAs (Decidable (_ ∧ _))

/-- The divisor of a numerator and an INTEGER_64 has the right sign, but in the division of the minimum. -/
theorem isGcd_of_regular {v : ℤ} {other : BitVec 64} (h : IntegerGeneralNumber.IsGcd x other.toInt v) (some : x ≠ 0)
    (nonzero : other ≠ 0) (regular : ¬(x = -9223372036854775808 ∧ other = Integer64.minimum)) :
    v = Int.gcd x other.toInt := by
  rcases h with exact | ⟨-, large, inside, inside'⟩
  · exact exact
  · have nonzero' : other.toInt ≠ 0 := fun zero => nonzero (Integer64.eq_zero_iff.mpr zero)
    have least := Int.natAbs_dvd_natAbs.mpr (Int.gcd_dvd_left x other.toInt)
    have least' := Int.natAbs_dvd_natAbs.mpr (Int.gcd_dvd_right x other.toInt)
    have most := Nat.le_of_dvd (Int.natAbs_pos.mpr some) least
    have most' := Nat.le_of_dvd (Int.natAbs_pos.mpr nonzero') least'
    unfold InInteger64 at inside inside'
    refine absurd ⟨?_, Integer64.eq_minimum_iff.mpr ?_⟩ regular <;> omega

/-- `infix "@/"` of a fraction is the quotient, where there is one. -/
theorem Represents.producesIfDefined_divideFractionInteger64 (h : (fraction n d).Represents q)
    {other : BitVec 64} (nonzero : other ≠ 0) (regular : ¬DividesMinimum q other) :
    ProducesIfDefined (divideFractionInteger64 n d other) (·.Represents (q / other.toInt)) := by
  obtain ⟨x, y, numerator, denominator, two, coprime, value⟩ := h.fraction_terms
  obtain ⟨num, -⟩ := LowestTerms.num_den_of_isCoprime (by omega) coprime value
  have some := LowestTerms.ne_zero_of_isCoprime coprime two
  have divisor : (IntegerGeneralNumber.integer64 other).Represents other.toInt := rfl
  have nonzero' : other.toInt ≠ 0 := fun zero => nonzero (Integer64.eq_zero_iff.mpr zero)
  have scale : (other.toInt : ℚ) ≠ 0 := Int.cast_ne_zero.mpr nonzero'
  have product : q / other.toInt * other.toInt = q := div_mul_cancel₀ _ scale
  rw [DividesMinimum, num] at regular
  unfold divideFractionInteger64
  split
  · rename_i one
    rw [one, Integer64.toInt_one, Int.cast_one, div_one]
    exact .done h
  split
  · rename_i opposite
    rw [opposite, Integer64.toInt_neg_one, Int.cast_neg, Int.cast_one, div_neg, div_one]
    exact h.produces_negate.ifDefined
  refine CommandProgram.ProducesIfDefined.bind (numerator.producesIfDefined_gcd divisor) fun g ⟨v, hg, isGcd⟩ => ?_
  obtain ⟨k, c, b, gcd, positive, first, second, split⟩ := LowestTerms.gcd_split (x := x) nonzero'
  rw [isGcd_of_regular isGcd some nonzero regular, gcd] at hg
  have reduced : q / other.toInt * (y * b : ℤ) = c := by
    apply mul_left_cancel₀ (Int.cast_ne_zero.mpr positive.ne' : (k : ℚ) ≠ 0)
    have scaled : (k * b : ℚ) = other.toInt := by rw [second, Int.cast_mul]
    have scaled' : (k * c : ℚ) = x := by rw [first, Int.cast_mul]
    push_cast
    linear_combination (q / other.toInt * y) * scaled + y * product + value - scaled'
  have coprime' : IsCoprime c (y * b) :=
    IsCoprime.mul_right (coprime.of_isCoprime_of_dvd_left (first ▸ dvd_mul_left c k)) split
  have some' : b ≠ 0 := fun zero => nonzero' (by rw [second, zero, mul_zero])
  have sign : b < 0 ↔ other.toInt < 0 := by rw [second, Int.mul_neg_iff, and_iff_right positive, or_iff_left (by omega)]
  rw [hg.isOne_eq]
  split
  · rename_i one
    rw [of_decide_eq_true one, one_mul] at first second
    rw [← first, ← second] at coprime' reduced
    refine .bind (denominator.produces_multiplyInteger64 other).ifDefined fun product hproduct => ?_
    split
    · rename_i negative
      refine .bind numerator.produces_negate.ifDefined fun tmp1 htmp => ?_
      refine .bind hproduct.produces_negate.ifDefined fun tmp2 htmp' => .done ?_
      refine represents_fraction htmp htmp' (by nlinarith) coprime'.neg_neg ?_
      rw [Int.cast_neg, Int.cast_neg]
      linear_combination -reduced
    · have above : 0 < other.toInt := by omega
      exact .done (represents_fraction numerator hproduct (by nlinarith) coprime' reduced)
  · refine .bind (numerator.produces_integerDivide_of_dvd hg positive.ne' ⟨c, first⟩).ifDefined fun quotient hc => ?_
    rw [first, Int.mul_ediv_cancel_left c positive.ne'] at hc
    cases g with
    | bigInteger g => exact .bind (P := fun _ => False) .undefined fun _ no => no.elim
    | integer64 g64 =>
      have same : g64.toInt = k := hg
      have some'' : g64 ≠ 0 := fun zero => by
        rw [Integer64.eq_zero_iff.mp zero] at same
        omega
      have notUnit : g64 ≠ -1 := fun unit => by
        rw [unit, Integer64.toInt_neg_one] at same
        omega
      refine .bind (.done rfl : ProducesIfDefined (pure g64) (· = g64)) fun g' equal => ?_
      subst equal
      refine .bind (CommandProgram.Produces.read fun _ =>
        Integer64.returns_quotient some'' fun both => notUnit both.2).ifDefined fun factor hfactor => ?_
      rw [same, second, Int.mul_ediv_cancel_left b positive.ne'] at hfactor
      split
      · rename_i negative
        have less := sign.mpr negative
        refine .bind hc.produces_negate.ifDefined fun tmp1 htmp => ?_
        refine .bind denominator.produces_negate.ifDefined fun opposite hopposite => ?_
        refine .bind (hopposite.produces_multiplyInteger64 factor).ifDefined fun tmp2 htmp' => .done ?_
        rw [hfactor, neg_mul] at htmp'
        refine represents_fraction htmp htmp' (by nlinarith) coprime'.neg_neg ?_
        rw [Int.cast_neg, Int.cast_neg]
        linear_combination -reduced
      · rename_i nonneg
        have above : 0 < b := by omega
        refine .bind (denominator.produces_multiplyInteger64 factor).ifDefined fun tmp2 htmp' => .done ?_
        rw [hfactor] at htmp'
        exact represents_fraction hc htmp' (by nlinarith) coprime' reduced

/-- `infix "@/"` is the quotient, where there is one. -/
theorem Represents.producesIfDefined_divideInteger64 (h : a.Represents q) {other : BitVec 64}
    (nonzero : other ≠ 0) (regular : q.den = 1 ∨ ¬DividesMinimum q other) :
    ProducesIfDefined (a.divideInteger64 other) (·.Represents (q / other.toInt)) := by
  cases a with
  | integer m =>
    obtain ⟨x, represents, rfl⟩ := h.integer_eq
    cases m with
    | integer64 value =>
      have same : value.toInt = x := represents
      rw [← same]
      exact (produces_divideInteger64Number value nonzero).ifDefined
    | bigInteger m =>
      have divisor : (IntegerGeneralNumber.integer64 other).Represents other.toInt := rfl
      have nonzero' : other.toInt ≠ 0 := fun zero => nonzero (Integer64.eq_zero_iff.mpr zero)
      have large := BigIntegerNumber.Represents.large represents
      have safe : ¬IntegerGeneralNumber.GcdTraps x other.toInt := fun traps => large (traps.1 ▸ by decide)
      refine (produces_fromTwoIntegerGeneralNumber represents divisor nonzero'
        (div_mul_cancel₀ _ (Int.cast_ne_zero.mpr nonzero')) ?_).ifDefined
      refine (IntegerGeneralNumber.Represents.produces_gcd represents divisor safe).mono fun g ⟨v, hg, isGcd⟩ => ?_
      rcases isGcd with exact | ⟨-, -, inside, -⟩
      · rwa [exact] at hg
      · exact absurd inside large
  | fraction n d => exact h.producesIfDefined_divideFractionInteger64 nonzero (regular.resolve_left h.1)

end ExactNumber

end Liberty
