import Mathlib.Data.Int.Notation
import Mathlib.Data.Nat.Notation
import Mathlib.Tactic.Ring
import Mathlib.Algebra.Order.Ring.Int
import Mathlib.Tactic.Positivity

/-!
# INTEGER_32

The operations of INTEGER_32 that wrap around, on integers.
-/

namespace Liberty

/-- An INTEGER_32 after an operation that wraps around. -/
def wrap32 (n : Int) : Int :=
  n.bmod (2 ^ 32)

/-- `Maximum_integer` -/
def maximumInteger : Int := 2147483647

theorem wrap32_emod (n : Int) {b : ℕ} (le : b ≤ 32) : wrap32 n % 2 ^ b = n % 2 ^ b := by
  have divides : (2 : Int) ^ b ∣ 2 ^ 32 := pow_dvd_pow 2 le
  unfold wrap32
  rw [← Int.emod_emod_of_dvd _ divides, ← Int.emod_emod_of_dvd n divides]
  exact congrArg (· % 2 ^ b) Int.bmod_emod

theorem wrap32_of_inRange {n : Int} (low : -2147483648 ≤ n) (high : n ≤ 2147483647) :
    wrap32 n = n :=
  Int.bmod_eq_of_le (by omega) (by omega)

/-- Past the greatest INTEGER_32 by less than twice that much. -/
theorem wrap32_neg {n : Int} (low : 2147483648 ≤ n) (high : n < 4294967296) : wrap32 n < 0 := by
  unfold wrap32
  rw [Int.bmod_def]
  split <;> omega

/-!
## Integers of a width

INTEGER_8, INTEGER_16, INTEGER_32 and INTEGER_64 with the operations of INTEGER_GENERAL that must not
overflow.
-/

/-- `Minimum_integer` of a width. -/
def minimumOf (width : ℕ) : Int :=
  -2 ^ (width - 1)

/-- `Maximum_integer` of a width. -/
def maximumOf (width : ℕ) : Int :=
  2 ^ (width - 1) - 1

/-- The integer is one of the width. -/
def InWidth (width : ℕ) (n : Int) : Prop :=
  minimumOf width ≤ n ∧ n ≤ maximumOf width

instance (width : ℕ) (n : Int) : Decidable (InWidth width n) :=
  inferInstanceAs (Decidable (_ ∧ _))

/-- The result of an operation that must not overflow. -/
def checked (width : ℕ) (n : Int) : Option Int :=
  if InWidth width n then some n else none

theorem checked_eq {width : ℕ} {n : Int} (inside : InWidth width n) : checked width n = some n :=
  if_pos inside

theorem minimumOf_eq (width : ℕ) : minimumOf width = -maximumOf width - 1 := by
  unfold minimumOf maximumOf
  ring

theorem maximumOf_nonneg (width : ℕ) : 0 ≤ maximumOf width := by
  have positive : (0 : Int) < 2 ^ (width - 1) := by positivity
  unfold maximumOf
  omega

/-- The integer is between two of the width. -/
theorem InWidth.of_le_of_le {width : ℕ} {low n high : Int} (first : InWidth width low) (last : InWidth width high)
    (le : low ≤ n) (le' : n ≤ high) : InWidth width n :=
  ⟨Int.le_trans first.1 le, Int.le_trans le' last.2⟩

theorem InWidth.mono {width width' : ℕ} {n : Int} (inside : InWidth width n) (le : width ≤ width') :
    InWidth width' n := by
  have more : (2 : Int) ^ (width - 1) ≤ 2 ^ (width' - 1) :=
    pow_le_pow_right₀ (by decide) (Nat.sub_le_sub_right le 1)
  have low := inside.1
  have high := inside.2
  unfold minimumOf at low
  unfold maximumOf at high
  unfold InWidth minimumOf maximumOf
  omega

end Liberty
