import Mathlib.Data.Int.GCD
import Mathlib.Data.Rat.Lemmas
import Mathlib.RingTheory.Coprime.Lemmas
import Mathlib.Tactic.FieldSimp
import Mathlib.Tactic.LinearCombination

/-!
# Fractions in lowest terms

A quotient of coprime integers, of which the second is positive, is the numerator over the denominator of
the rational number that it is.  The sum and the product of two fractions in lowest terms need only the
small greatest common divisors.
-/

namespace LowestTerms

variable {x y x' y' : ℤ} {q q' : ℚ}

/-- A fraction in lowest terms shows the numerator and the denominator. -/
theorem num_den_of_isCoprime (positive : 0 < y) (coprime : IsCoprime x y) (value : q * y = x) :
    q.num = x ∧ (q.den : ℤ) = y := by
  have nonzero : (y : ℚ) ≠ 0 := Int.cast_ne_zero.mpr positive.ne'
  have quotient : q = x / y := (eq_div_iff nonzero).mpr value
  have coprime' : Nat.Coprime x.natAbs y.natAbs := Int.isCoprime_iff_gcd_eq_one.mp coprime
  rw [quotient]
  exact ⟨Rat.num_div_eq_of_coprime positive coprime', Rat.den_div_eq_of_coprime positive coprime'⟩

theorem isCoprime_num_den (q : ℚ) : IsCoprime q.num q.den :=
  Int.isCoprime_iff_gcd_eq_one.mpr q.reduced

/-- A numerator that is coprime to a denominator other than 1 is not zero. -/
theorem ne_zero_of_isCoprime (coprime : IsCoprime x y) (two : 2 ≤ y) : x ≠ 0 := by
  intro zero
  rw [zero, isCoprime_zero_left, Int.isUnit_iff] at coprime
  omega

/-! ## Greatest common divisors -/

/-- What is left after the division by the greatest common divisor. -/
theorem gcd_split (nonzero : y ≠ 0) :
    ∃ g a b : ℤ, (Int.gcd x y : ℤ) = g ∧ 0 < g ∧ x = g * a ∧ y = g * b ∧ IsCoprime a b := by
  have positive : 0 < Int.gcd x y := Int.gcd_pos_of_ne_zero_right x nonzero
  obtain ⟨a, first⟩ := Int.gcd_dvd_left x y
  obtain ⟨b, second⟩ := Int.gcd_dvd_right x y
  refine ⟨Int.gcd x y, a, b, rfl, by omega, first, second, ?_⟩
  have divided := Int.gcd_ediv_gcd_ediv_gcd positive
  rw [Int.ediv_eq_of_eq_mul_right (by omega) first, Int.ediv_eq_of_eq_mul_right (by omega) second] at divided
  exact Int.isCoprime_iff_gcd_eq_one.mpr divided

variable {g d d' : ℤ}

/-- The numerator of the sum of two fractions over the denominators `g * d` and `g * d'` has no divisor in
common with `d` and `d'`. -/
theorem gcd_sum (first : IsCoprime x (g * d)) (second : IsCoprime x' (g * d')) (coprime : IsCoprime d d') :
    Int.gcd (x * d' + x' * d) (g * d * d') = Int.gcd (x * d' + x' * d) g := by
  have left : IsCoprime (x * d' + x' * d) d := by
    refine IsCoprime.add_mul_right_left (IsCoprime.mul_left ?_ coprime.symm) x'
    exact first.of_isCoprime_of_dvd_right (dvd_mul_left d g)
  have right : IsCoprime (x * d' + x' * d) d' := by
    rw [add_comm]
    refine IsCoprime.add_mul_right_left (IsCoprime.mul_left ?_ coprime) x
    exact second.of_isCoprime_of_dvd_right (dvd_mul_left d' g)
  rw [Int.gcd_mul_left_right_of_gcd_eq_one (Int.isCoprime_iff_gcd_eq_one.mp right),
    Int.gcd_mul_left_right_of_gcd_eq_one (Int.isCoprime_iff_gcd_eq_one.mp left)]

end LowestTerms
