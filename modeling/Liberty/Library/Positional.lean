import Mathlib.Algebra.BigOperators.Intervals
import Mathlib.Algebra.Order.BigOperators.Ring.Finset
import Mathlib.Tactic.Linarith
import Mathlib.Tactic.LinearCombination
import Mathlib.Tactic.Positivity
import Mathlib.Tactic.Ring
import Mathlib.Data.Nat.Digits.Lemmas
import Mathlib.Tactic.IntervalCases

/-!
# Positional notation

The value of the first `n` digits of a sequence in base `B`, least significant digit
first.  Digits are integers, so that the equations of carries and borrows are linear
combinations; the bounds need the digits to be in `[0, B)`.
-/

namespace Positional

/-- The value of the digits `f 0 … f (n - 1)` in base `B`. -/
def value (B : ℤ) (f : ℕ → ℤ) (n : ℕ) : ℤ :=
  ∑ t ∈ Finset.range n, f t * B ^ t

variable {B : ℤ} {f g : ℕ → ℤ} {m n : ℕ}

@[simp] theorem value_zero : value B f 0 = 0 := rfl

theorem value_succ : value B f (n + 1) = value B f n + f n * B ^ n :=
  Finset.sum_range_succ _ _

@[simp] theorem value_one : value B f 1 = f 0 := by
  simp [value_succ]

theorem value_congr (h : ∀ t < n, f t = g t) : value B f n = value B g n :=
  Finset.sum_congr rfl fun t ht => by rw [h t (Finset.mem_range.mp ht)]

/-- The lower `m` digits and the digits above them. -/
theorem value_add : value B f (m + n) =
    value B f m + B ^ m * value B (fun t => f (m + t)) n := by
  rw [value, Finset.sum_range_add, value, value, Finset.mul_sum]
  congr 1
  exact Finset.sum_congr rfl fun t _ => by rw [pow_add]; ring

theorem value_succ' : value B f (n + 1) = f 0 + B * value B (fun t => f (t + 1)) n := by
  rw [Nat.add_comm, value_add, value_one, pow_one]
  simp only [Nat.add_comm 1]

theorem value_of_zero (h : ∀ t < n, f t = 0) : value B f n = 0 :=
  Finset.sum_eq_zero fun t ht => by rw [h t (Finset.mem_range.mp ht), zero_mul]

theorem value_of_zero_above (le : m ≤ n) (h : ∀ t, m ≤ t → t < n → f t = 0) :
    value B f n = value B f m := by
  obtain ⟨k, rfl⟩ := Nat.exists_eq_add_of_le le
  rw [value_add, value_of_zero (f := fun t => f (m + t)), mul_zero, add_zero]
  exact fun t ht => h (m + t) (by omega) (by omega)

/-- A multiple of a sequence added digit by digit. -/
theorem value_add_mul (σ : ℤ) :
    value B (fun t => f t + σ * g t) n = value B f n + σ * value B g n := by
  rw [value, value, value, Finset.mul_sum, ← Finset.sum_add_distrib]
  exact Finset.sum_congr rfl fun t _ => by ring

/-- The same with a sequence that ends before. -/
theorem value_add_mul_short (le : m ≤ n) (σ : ℤ) :
    value B (fun t => f t + σ * if t < m then g t else 0) n =
      value B f n + σ * value B g m := by
  have short : value B (fun t => if t < m then g t else 0) n = value B g m := by
    rw [value_of_zero_above le fun t low _ => if_neg (by omega)]
    exact value_congr fun t ht => if_pos ht
  rw [← short, value_add_mul]

theorem value_mul_add (v : ℤ) :
    value B (fun t => f t * v + g t) n = value B f n * v + value B g n := by
  rw [value, value, value, Finset.sum_mul, ← Finset.sum_add_distrib]
  exact Finset.sum_congr rfl fun t _ => by ring

section Bounds

/-- The first `n` terms are digits in base `B`. -/
def Digits (B : ℤ) (f : ℕ → ℤ) (n : ℕ) : Prop :=
  ∀ t < n, 0 ≤ f t ∧ f t < B

theorem Digits.mono (h : Digits B f n) (le : m ≤ n) : Digits B f m :=
  fun t ht => h t (by omega)

variable (hB : 0 < B)

include hB in
theorem value_nonneg (hf : ∀ t < n, 0 ≤ f t) : 0 ≤ value B f n :=
  Finset.sum_nonneg fun t ht =>
    mul_nonneg (hf t (Finset.mem_range.mp ht)) (pow_nonneg hB.le t)

include hB in
theorem value_lt (hf : Digits B f n) : value B f n < B ^ n := by
  induction n with
  | zero => simp
  | succ n ih =>
    have lower := ih (hf.mono (by omega))
    have top := (hf n (by omega)).2
    have pos : 0 < B ^ n := pow_pos hB n
    rw [value_succ, pow_succ]
    nlinarith

include hB in
/-- A number whose top digit is not zero has the weight of that digit. -/
theorem pow_le_value (hf : Digits B f (n + 1)) (top : f n ≠ 0) :
    B ^ n ≤ value B f (n + 1) := by
  have lower : 0 ≤ value B f n := value_nonneg hB fun t ht => (hf t (by omega)).1
  have one_le : 1 ≤ f n := by
    have := (hf n (by omega)).1
    omega
  have pos : 0 < B ^ n := pow_pos hB n
  rw [value_succ]
  nlinarith

include hB in
/-- The value of the lower digits is the remainder by the weight above them. -/
theorem value_emod (hf : Digits B f n) (le : m ≤ n) :
    value B f n % B ^ m = value B f m := by
  obtain ⟨k, rfl⟩ := Nat.exists_eq_add_of_le le
  rw [value_add, Int.add_mul_emod_self_left]
  exact Int.emod_eq_of_lt (value_nonneg hB fun t ht => (hf t (by omega)).1)
    (value_lt hB (hf.mono (by omega)))

include hB in
theorem digit_eq (hf : Digits B f n) (lt : m < n) : value B f n / B ^ m % B = f m := by
  obtain ⟨k, rfl⟩ := Nat.exists_eq_add_of_lt lt
  have pos : B ^ m ≠ 0 := (pow_pos hB m).ne'
  rw [Nat.add_assoc, value_add, Int.add_mul_ediv_left _ _ pos,
    Int.ediv_eq_zero_of_lt (value_nonneg hB fun t ht => (hf t (by omega)).1)
      (value_lt hB (hf.mono (by omega))),
    zero_add, value_succ', Int.add_mul_emod_self_left, Nat.add_zero]
  exact Int.emod_eq_of_lt (hf m (by omega)).1 (hf m (by omega)).2

include hB in
theorem digits_eq_of_value_eq (hf : Digits B f n) (hg : Digits B g n)
    (same : value B f n = value B g n) : ∀ t < n, f t = g t := by
  induction n with
  | zero => intro t ht; omega
  | succ n ih =>
    have lowerF := value_emod hB hf (Nat.le_succ n)
    have lowerG := value_emod hB hg (Nat.le_succ n)
    have lower : value B f n = value B g n := by rw [← lowerF, ← lowerG, same]
    have pos : B ^ n ≠ 0 := (pow_pos hB n).ne'
    have top : f n = g n := by
      rw [value_succ, value_succ, lower] at same
      exact mul_right_cancel₀ pos (by linarith)
    intro t ht
    rcases Nat.lt_succ_iff_lt_or_eq.mp ht with below | rfl
    · exact ih (hf.mono (by omega)) (hg.mono (by omega)) lower t below
    · exact top

include hB in
/-- The highest digit that differs decides the order. -/
theorem value_lt_of_top (hf : Digits B f (m + 1)) (hg : Digits B g (m + 1))
    (le : m < n) (less : f m < g m) (same : ∀ t, m < t → t < n → f t = g t) :
    value B f n < value B g n := by
  obtain ⟨k, rfl⟩ := Nat.exists_eq_add_of_le le
  have above : value B (fun t => f (m + 1 + t)) k = value B (fun t => g (m + 1 + t)) k :=
    value_congr fun t ht => same _ (by omega) (by omega)
  have lowF := value_lt hB (hf.mono (Nat.le_succ m))
  have lowG : 0 ≤ value B g m := value_nonneg hB fun t ht => (hg t (by omega)).1
  have pos : 0 < B ^ m := pow_pos hB m
  rw [value_add, value_add, above, value_succ, value_succ]
  nlinarith

end Bounds

end Positional

/-!
## Decimal numerals

The numeral of an integer, and what a sequence of digits is worth.  A numeral that is printed
in groups of digits, from the lowest one on, has every group but the last one filled with zeros.
-/

namespace DecimalNumeral

/-- The character of a digit. -/
def digit (d : ℕ) : Char :=
  Char.ofNat (48 + d)

def digitValue (c : Char) : ℕ :=
  c.toNat - 48

/-- The numeral of a natural number, without leading zeros. -/
def ofNat (n : ℕ) : List Char :=
  if n = 0 then ['0'] else (Nat.digits 10 n).reverse.map digit

/-- The numeral of an integer. -/
def ofInt (v : ℤ) : List Char :=
  if v < 0 then '-' :: ofNat v.natAbs else ofNat v.natAbs

example : ofInt (-1020) = ['-', '1', '0', '2', '0'] := by decide

/-- The value of a sequence of digits. -/
def value (cs : List Char) : ℕ :=
  Nat.ofDigits 10 (cs.reverse.map digitValue)

section Digits

variable {d n : ℕ}

theorem digitValue_digit (less : d < 10) : digitValue (digit d) = d := by
  interval_cases d <;> rfl

theorem isDigit_digit (less : d < 10) : (digit d).isDigit = true := by
  interval_cases d <;> rfl

theorem ofNat_of_ne_zero (nonzero : n ≠ 0) :
    ofNat n = ((Nat.digits 10 n).map digit).reverse := by
  unfold ofNat
  rw [if_neg nonzero, List.map_reverse]

theorem ofNat_ne_nil (n : ℕ) : ofNat n ≠ [] := by
  by_cases zero : n = 0
  · rw [zero]
    exact List.cons_ne_nil _ _
  · rw [ofNat_of_ne_zero zero]
    intro nil
    rw [List.reverse_eq_nil_iff, List.map_eq_nil_iff, Nat.digits_eq_nil_iff_eq_zero] at nil
    exact zero nil

theorem isDigit_ofNat {c : Char} (mem : c ∈ ofNat n) : c.isDigit = true := by
  by_cases zero : n = 0
  · rw [zero] at mem
    rw [List.mem_singleton.mp mem]
    rfl
  · rw [ofNat_of_ne_zero zero, List.mem_reverse, List.mem_map] at mem
    obtain ⟨d, digits, rfl⟩ := mem
    exact isDigit_digit (Nat.digits_lt_base (by decide) digits)

end Digits

section Value

variable {c : Char} {cs : List Char} {n : ℕ}

@[simp] theorem value_nil : value [] = 0 := rfl

theorem value_cons (c : Char) (cs : List Char) :
    value (c :: cs) = digitValue c * 10 ^ cs.length + value cs := by
  unfold value
  rw [List.reverse_cons, List.map_append, Nat.ofDigits_append, List.length_map, List.length_reverse,
    List.map_singleton, Nat.ofDigits_singleton]
  ring

theorem value_ofNat (n : ℕ) : value (ofNat n) = n := by
  by_cases zero : n = 0
  · rw [zero]
    rfl
  · unfold value
    rw [ofNat_of_ne_zero zero, List.reverse_reverse, List.map_map]
    have same : (Nat.digits 10 n).map (digitValue ∘ digit) = Nat.digits 10 n := by
      refine (List.map_congr_left fun d mem => ?_).trans (List.map_id _)
      exact digitValue_digit (Nat.digits_lt_base (by decide) mem)
    rw [same, Nat.ofDigits_digits]

/-- The digits of a number whose lowest ones are those of `r`. -/
theorem digits_group {k q r : ℕ} (less : r < 10 ^ k) (nonzero : q ≠ 0) :
    Nat.digits 10 (q * 10 ^ k + r) =
      Nat.digits 10 r ++ List.replicate (k - (Nat.digits 10 r).length) 0 ++ Nat.digits 10 q := by
  have short : (Nat.digits 10 r).length ≤ k := (Nat.digits_length_le_iff (by decide) r).mpr less
  have group := Nat.digits_append_zeroes_append_digits (b := 10)
    (k := k - (Nat.digits 10 r).length) (m := q) (n := r) (by decide) (Nat.pos_of_ne_zero nonzero)
  rw [group, show (Nat.digits 10 r).length + (k - (Nat.digits 10 r).length) = k by omega]
  congr 1
  ring

end Value

end DecimalNumeral
