import Mathlib.Tactic.Linarith
import Mathlib.Tactic.Positivity
import Mathlib.Tactic.Ring

/-!
# One digit of a long division

A dividend `u` and a divisor `d` are known by their leading digits: three of `u` and two
of `d`, above a weight `W`.  The quotient of `u` by `d` is one digit.  An estimate of it
from the leading digits is close when one of the estimate and its predecessor is the
quotient.
-/

namespace LongDivision

/-- `q` or `q - 1` is the quotient of `u` by `d`. -/
structure Close (u d q : ℤ) : Prop where
  le : (q - 1) * d ≤ u
  lt : u < (q + 1) * d

/-- `u1 u2 u3 …` and `v1 v2 …` are the digits of `u` and `d`, the first of `d` being at
least half of the base. -/
structure Leading (B W v1 v2 u1 u2 u3 d u : ℤ) : Prop where
  weight_pos : 0 < W
  divisor_ge : (v1 * B + v2) * W ≤ d
  divisor_lt : d < (v1 * B + v2 + 1) * W
  dividend_ge : ((u1 * B + u2) * B + u3) * W ≤ u
  dividend_lt : u < ((u1 * B + u2) * B + u3 + 1) * W
  half : B ≤ 2 * v1
  v1_pos : 0 < v1
  v2_range : 0 ≤ v2 ∧ v2 < B
  u1_nonneg : 0 ≤ u1
  u2_nonneg : 0 ≤ u2
  u3_range : 0 ≤ u3 ∧ u3 < B

namespace Leading

variable {B W v1 v2 u1 u2 u3 d u q : ℤ}

theorem base_pos (h : Leading B W v1 v2 u1 u2 u3 d u) : 0 < B :=
  h.v2_range.1.trans_lt h.v2_range.2

theorem divisor_pos (h : Leading B W v1 v2 u1 u2 u3 d u) : 0 < d := by
  have := h.base_pos
  have := h.weight_pos
  have := h.v1_pos
  have := h.v2_range.1
  refine lt_of_lt_of_le ?_ h.divisor_ge
  positivity

theorem dividend_nonneg (h : Leading B W v1 v2 u1 u2 u3 d u) : 0 ≤ u := by
  have := h.base_pos
  have := h.weight_pos
  have := h.u1_nonneg
  have := h.u2_nonneg
  have := h.u3_range.1
  refine le_trans ?_ h.dividend_ge
  positivity

/-- The quotient is one digit only if the first digits are in order. -/
theorem first_le (h : Leading B W v1 v2 u1 u2 u3 d u) (lt : u < B * d) : u1 ≤ v1 := by
  have base := h.base_pos
  have weight := h.weight_pos
  have upper : u < (v1 + 1) * B * B * W := by
    calc u < B * d := lt
      _ ≤ B * ((v1 * B + v2 + 1) * W) := mul_le_mul_of_nonneg_left h.divisor_lt.le base.le
      _ ≤ B * ((v1 + 1) * B * W) := by
          refine mul_le_mul_of_nonneg_left (mul_le_mul_of_nonneg_right ?_ weight.le) base.le
          linarith [h.v2_range.2]
      _ = (v1 + 1) * B * B * W := by ring
  have lower : u1 * B * B * W ≤ u := by
    refine le_trans (mul_le_mul_of_nonneg_right ?_ weight.le) h.dividend_ge
    have := mul_nonneg h.u2_nonneg base.le
    nlinarith [h.u3_range.1]
  have := lt_of_mul_lt_mul_right (lower.trans_lt upper) weight.le
  have := lt_of_mul_lt_mul_right (lt_of_mul_lt_mul_right this base.le) base.le
  omega

/-- The estimate by one digit of the divisor is not too small. -/
theorem lt_of_first (h : Leading B W v1 v2 u1 u2 u3 d u) (nonneg : 0 ≤ q)
    (first : u1 * B + u2 < q * v1) : u < q * d := by
  have base := h.base_pos
  have weight := h.weight_pos
  obtain ⟨-, small⟩ := h.u3_range
  have digits : (u1 * B + u2) * B + u3 + 1 ≤ q * (v1 * B + v2) := by
    have := mul_nonneg nonneg h.v2_range.1
    nlinarith
  calc u < ((u1 * B + u2) * B + u3 + 1) * W := h.dividend_lt
    _ ≤ q * (v1 * B + v2) * W := mul_le_mul_of_nonneg_right digits weight.le
    _ = q * ((v1 * B + v2) * W) := mul_assoc _ _ _
    _ ≤ q * d := mul_le_mul_of_nonneg_left h.divisor_ge nonneg

/-- The test by two digits of the divisor tells that an estimate is too large. -/
theorem lt_of_second (h : Leading B W v1 v2 u1 u2 u3 d u) (nonneg : 0 ≤ q)
    (second : (u1 * B + u2) * B + u3 < q * (v1 * B + v2)) : u < q * d := by
  have weight := h.weight_pos
  calc u < ((u1 * B + u2) * B + u3 + 1) * W := h.dividend_lt
    _ ≤ q * (v1 * B + v2) * W := mul_le_mul_of_nonneg_right second weight.le
    _ = q * ((v1 * B + v2) * W) := mul_assoc _ _ _
    _ ≤ q * d := mul_le_mul_of_nonneg_left h.divisor_ge nonneg

/-- A bound on the leading digits bounds the product of an estimate by the divisor. -/
theorem mul_le_of_digits (h : Leading B W v1 v2 u1 u2 u3 d u) (nonneg : 0 ≤ q)
    (digits : q * (v1 * B + v2 + 1) ≤ (u1 * B + u2) * B + u3) : q * d ≤ u :=
  calc q * d ≤ q * ((v1 * B + v2 + 1) * W) := mul_le_mul_of_nonneg_left h.divisor_lt.le nonneg
    _ = q * (v1 * B + v2 + 1) * W := (mul_assoc _ _ _).symm
    _ ≤ ((u1 * B + u2) * B + u3) * W := mul_le_mul_of_nonneg_right digits h.weight_pos.le
    _ ≤ u := h.dividend_ge

/-- An estimate that passes the test by two digits is close. -/
theorem pred_mul_le (h : Leading B W v1 v2 u1 u2 u3 d u) (pos : 0 < q) (le : q ≤ B)
    (second : q * (v1 * B + v2) ≤ (u1 * B + u2) * B + u3) : (q - 1) * d ≤ u := by
  refine h.mul_le_of_digits (by omega) ?_
  have large : B ≤ v1 * B := le_mul_of_one_le_left h.base_pos.le h.v1_pos
  have := h.v2_range.1
  linarith

/-- Below an estimate by one digit, at most two steps are needed. -/
theorem pred_pred_mul_le (h : Leading B W v1 v2 u1 u2 u3 d u) (ge : 2 ≤ q) (lt : q ≤ B)
    (first : q * v1 ≤ u1 * B + u2) : (q - 1 - 1) * d ≤ u := by
  have base := h.base_pos
  have half := h.half
  refine h.mul_le_of_digits (by omega) ?_
  have digits : (q - 1 - 1) * (v1 + 1) ≤ u1 * B + u2 := by nlinarith
  have low : v1 * B + v2 + 1 ≤ (v1 + 1) * B := by linarith [h.v2_range.2]
  have := h.u3_range.1
  calc (q - 1 - 1) * (v1 * B + v2 + 1) ≤ (q - 1 - 1) * ((v1 + 1) * B) :=
        mul_le_mul_of_nonneg_left low (by omega)
    _ = (q - 1 - 1) * (v1 + 1) * B := (mul_assoc _ _ _).symm
    _ ≤ (u1 * B + u2) * B := mul_le_mul_of_nonneg_right digits base.le
    _ ≤ (u1 * B + u2) * B + u3 := by linarith

/-- When the leading digits are equal, the largest digit is close. -/
theorem close_of_eq (h : Leading B W v1 v2 u1 u2 u3 d u) (eq : u1 = v1) (two : 2 ≤ B)
    (lt : u < B * d) : Close u d (B - 1) where
  le := by
    subst eq
    have := h.half
    have := h.u2_nonneg
    have low : u1 * B + v2 + 1 ≤ (u1 + 1) * B := by linarith [h.v2_range.2]
    have := h.u3_range.1
    refine h.mul_le_of_digits (by omega) ?_
    calc (B - 1 - 1) * (u1 * B + v2 + 1) ≤ (B - 1 - 1) * ((u1 + 1) * B) :=
          mul_le_mul_of_nonneg_left low (by omega)
      _ ≤ (u1 * B + u2) * B + u3 := by nlinarith
  lt := by rwa [sub_add_cancel]

end Leading

/-- An estimate that is too large gives way to its predecessor. -/
theorem Close.pred {u d q : ℤ} (h : Close u d q) (pos : 0 < d) (lt : u < q * d) :
    Close u d (q - 1) where
  le := by
    have := h.le
    rw [sub_mul (q - 1), one_mul]
    omega
  lt := by rwa [sub_add_cancel]

/-- The digit is the estimate, or its predecessor when the estimate is too large. -/
theorem Close.remainder_range {u d q : ℤ} (h : Close u d q) :
    (q * d ≤ u → 0 ≤ u - q * d ∧ u - q * d < d) ∧
      (u < q * d → 0 ≤ u - (q - 1) * d ∧ u - (q - 1) * d < d) := by
  have le := h.le
  have lt := h.lt
  constructor <;> intro <;> constructor <;> linarith

end LongDivision
