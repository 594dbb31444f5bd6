import Mathlib.Algebra.Order.Ring.Int
import Mathlib.Data.Int.GCD
import Mathlib.Tactic.Linarith

/-!
# Euclidean division from a truncating one

A division that rounds toward zero gives the Euclidean quotient and remainder after a correction for each
combination of signs.
-/

namespace TruncatedDivision

variable {n d : ℤ}

/-- A number that is not positive, divided as the machine divides it. -/
theorem tmod_of_nonpos (nonpos : n ≤ 0) (nonzero : d ≠ 0) : -|d| < n.tmod d ∧ n.tmod d ≤ 0 := by
  obtain ⟨m, rfl⟩ : ∃ m, n = -m := ⟨-n, by omega⟩
  have low := Int.tmod_nonneg d (show 0 ≤ m by omega)
  rw [Int.neg_tmod]
  rcases lt_or_gt_of_ne nonzero with negative | positive
  · have high := Int.tmod_lt_of_pos m (show 0 < -d by omega)
    rw [Int.tmod_neg] at high
    rw [abs_of_neg negative]
    omega
  · have high := Int.tmod_lt_of_pos m positive
    rw [abs_of_pos positive]
    omega

theorem ediv_of_split {q r : ℤ} (split : n = d * q + r) (low : 0 ≤ r) (high : r < |d|) : n / d = q := by
  have nonzero : d ≠ 0 := fun zero => by
    rw [zero, abs_zero] at high
    omega
  have small : r / d = 0 := by
    rcases lt_or_gt_of_ne nonzero with negative | positive
    · rw [abs_of_neg negative] at high
      rw [← neg_neg d, Int.ediv_neg, Int.ediv_eq_zero_of_lt low high, neg_zero]
    · rw [abs_of_pos positive] at high
      exact Int.ediv_eq_zero_of_lt low high
  rw [split, add_comm, Int.add_mul_ediv_left _ _ nonzero, small, zero_add]

theorem ediv_of_neg_of_pos (negative : n < 0) (positive : 0 < d) : n / d = (n + 1).tdiv d - 1 := by
  have parts := Int.mul_tdiv_add_tmod (n + 1) d
  have rest := tmod_of_nonpos (n := n + 1) (by omega) positive.ne'
  rw [abs_of_pos positive] at rest
  exact ediv_of_split (r := d + (n + 1).tmod d - 1) (by linarith) (by omega) (by rw [abs_of_pos positive]; omega)

theorem ediv_of_neg_of_neg (negative : n < 0) (negative' : d < 0) : n / d = (n + 1).tdiv d + 1 := by
  have parts := Int.mul_tdiv_add_tmod (n + 1) d
  have rest := tmod_of_nonpos (n := n + 1) (by omega) negative'.ne
  rw [abs_of_neg negative'] at rest
  exact ediv_of_split (r := -d + (n + 1).tmod d - 1) (by linarith) (by omega) (by rw [abs_of_neg negative']; omega)

/-- The remainder of the machine, corrected when it is negative. -/
theorem emod_eq (nonzero : d ≠ 0) :
    n % d = if n.tmod d < 0 then if 0 < d then n.tmod d + d else n.tmod d - d else n.tmod d := by
  have parts := Int.mul_tdiv_add_tmod n d
  have same : n % d = n.tmod d % d := by
    conv_lhs => rw [← parts, Int.mul_add_emod_self_left]
  rw [same]
  rcases lt_or_ge n 0 with negative | nonneg
  · have rest := tmod_of_nonpos negative.le nonzero
    split
    · split
      · rename_i positive
        rw [abs_of_pos positive] at rest
        rw [← Int.add_emod_right, Int.emod_eq_of_lt (by omega) (by omega)]
      · have negative' : d < 0 := by omega
        rw [abs_of_neg negative'] at rest
        rw [← Int.emod_neg, ← Int.add_emod_right, Int.emod_eq_of_lt (by omega) (by omega), sub_eq_add_neg]
    · rw [show n.tmod d = 0 by omega, Int.zero_emod]
  · have low := Int.tmod_nonneg d nonneg
    rw [if_neg (by omega), Int.tmod_eq_emod_of_nonneg nonneg, Int.emod_emod_of_dvd _ dvd_rfl]

/-- A quotient of negative numbers is smaller than the opposite of the dividend. -/
theorem ediv_lt_neg (low : n < -1) (low' : d < -1) : n / d < -n := by
  have flip : n / d = -(n / -d) := by rw [Int.ediv_neg, neg_neg]
  have above : n + 1 ≤ n / -d := by
    rw [Int.le_ediv_iff_mul_le (by omega)]
    nlinarith
  omega

end TruncatedDivision
