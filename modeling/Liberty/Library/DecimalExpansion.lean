import Liberty.Library.Positional
import Mathlib.Data.List.DropRight

/-!
# Decimal expansions

The digits of `n / d` after the point are those that a long division finds.  The expansion ends
when a remainder vanishes, and the digit before that is not zero.
-/

namespace DecimalNumeral

variable {n d k m : ℕ}

/-- The digit of `n / d` at a place after the point. -/
def fractionDigit (n d i : ℕ) : ℕ :=
  n * 10 ^ (i + 1) / d % 10

/-- The first digits after the point. -/
def fraction (n d k : ℕ) : List Char :=
  (List.range k).map fun i => digit (fractionDigit n d i)

theorem fraction_succ (n d k : ℕ) :
    fraction n d (k + 1) = fraction n d k ++ [digit (fractionDigit n d k)] := by
  unfold fraction
  rw [List.range_succ, List.map_append, List.map_singleton]

@[simp] theorem length_fraction (n d k : ℕ) : (fraction n d k).length = k := by
  unfold fraction
  rw [List.length_map, List.length_range]

theorem digit_eq_zero (less : m < 10) : digit m = '0' ↔ m = 0 := by
  interval_cases m <;> decide

/-- The next digit is the quotient of ten times the remainder. -/
theorem fractionDigit_eq (positive : 0 < d) (n k : ℕ) :
    n * 10 ^ k % d * 10 / d = fractionDigit n d k := by
  have less : n * 10 ^ k % d * 10 / d < 10 := by
    rw [Nat.div_lt_iff_lt_mul positive, mul_comm]
    exact Nat.mul_lt_mul_of_pos_left (Nat.mod_lt _ positive) (by decide)
  have total : n * 10 ^ (k + 1) = n * 10 ^ k % d * 10 + n * 10 ^ k / d * 10 * d := by
    calc n * 10 ^ (k + 1) = n * 10 ^ k * 10 := by rw [pow_succ, mul_assoc]
      _ = (n * 10 ^ k % d + d * (n * 10 ^ k / d)) * 10 := by rw [Nat.mod_add_div]
      _ = _ := by ring
  rw [fractionDigit, total, Nat.add_mul_div_right _ _ positive, Nat.add_mul_mod_self_right,
    Nat.mod_eq_of_lt less]

theorem remainder_eq (n d k : ℕ) : n * 10 ^ k % d * 10 % d = n * 10 ^ (k + 1) % d := by
  rw [Nat.mod_mul_mod, pow_succ, mul_assoc]

theorem ends_mono (ends : d ∣ n * 10 ^ k) (le : k ≤ m) : d ∣ n * 10 ^ m :=
  ends.trans (Nat.mul_dvd_mul_left n (pow_dvd_pow 10 le))

theorem fractionDigit_of_ends (positive : 0 < d) (ends : d ∣ n * 10 ^ k) :
    fractionDigit n d k = 0 := by
  rw [← fractionDigit_eq positive, Nat.mod_eq_zero_of_dvd ends, zero_mul, Nat.zero_div]

/-- The last digit of an expansion that ends. -/
theorem fractionDigit_ne_zero (positive : 0 < d) (going : ¬d ∣ n * 10 ^ k)
    (ends : d ∣ n * 10 ^ (k + 1)) : fractionDigit n d k ≠ 0 := by
  rw [Nat.dvd_iff_mod_eq_zero, ← remainder_eq, ← Nat.dvd_iff_mod_eq_zero] at ends
  rw [Nat.dvd_iff_mod_eq_zero] at going
  rw [← fractionDigit_eq positive]
  have le := Nat.le_of_dvd (by omega) ends
  exact (Nat.div_pos le positive).ne'

theorem fraction_add (positive : 0 < d) (ends : d ∣ n * 10 ^ k) (j : ℕ) :
    fraction n d (k + j) = fraction n d k ++ .replicate j '0' := by
  induction j with
  | zero => rw [add_zero, List.replicate_zero, List.append_nil]
  | succ j ih =>
    rw [← add_assoc, fraction_succ, ih, fractionDigit_of_ends positive
      (ends_mono ends (Nat.le_add_right k j)), List.append_assoc, List.replicate_succ']
    rfl

/-- The digits without the zeros at the end. -/
def trimmed (n d k : ℕ) : List Char :=
  (fraction n d k).rdropWhile (· = '0')

theorem trimmed_of_ends (positive : 0 < d) (ends : d ∣ n * 10 ^ k) (j : ℕ) :
    trimmed n d (k + j) = trimmed n d k := by
  unfold trimmed
  rw [fraction_add positive ends]
  induction j with
  | zero => rw [List.replicate_zero, List.append_nil]
  | succ j ih =>
    rw [List.replicate_succ', ← List.append_assoc, List.rdropWhile_concat_pos _ _ _ (by decide), ih]

/-- Nothing is dropped exactly when the last digit is not zero. -/
theorem trimmed_eq_iff (n d k : ℕ) :
    trimmed n d (k + 1) = fraction n d (k + 1) ↔ fractionDigit n d k ≠ 0 := by
  have less : fractionDigit n d k < 10 := Nat.mod_lt _ (by decide)
  unfold trimmed
  rw [List.rdropWhile_eq_self_iff]
  have some : fraction n d (k + 1) ≠ [] := by
    rw [fraction_succ]
    exact List.concat_ne_nil _ _
  have last : (fraction n d (k + 1)).getLast some = digit (fractionDigit n d k) := by
    simp only [fraction_succ, List.getLast_append_singleton]
  rw [forall_prop_of_true some, last, decide_eq_true_eq, digit_eq_zero less]

end DecimalNumeral
