import Liberty.Library.Returns
import Liberty.Library.TruncatedDivision
import Liberty.Numeric.Integer32
import Mathlib.Data.Nat.Prime.Basic
import Mathlib.Data.Nat.Sqrt

/-!
# INTEGER_GENERAL

The Euclidean operators, `gcd` and `is_prime` of an integer of any width.  What an operation of the machine
leaves must be an integer of the width; the machine divides numbers of less than 32 bits as numbers of 32 bits.
-/

namespace Liberty

namespace IntegerGeneral

/-! ## The source -/

/-- `infix "#//"` -/
def truncatedQuotient (width : ℕ) (a b : ℤ) : Option ℤ :=
  if b = 0 then none else checked width (a.tdiv b)

/-- The machine traps in the remainder of the minimum by -1. -/
def RemainderTraps (width : ℕ) (a b : ℤ) : Prop :=
  32 ≤ width ∧ a = minimumOf width ∧ b = -1

instance (width : ℕ) (a b : ℤ) : Decidable (RemainderTraps width a b) :=
  inferInstanceAs (Decidable (_ ∧ _))

/-- `infix "#\\"` -/
def truncatedRemainder (width : ℕ) (a b : ℤ) : Option ℤ :=
  if b = 0 ∨ RemainderTraps width a b then none else some (a.tmod b)

/-- `infix "//"` -/
def quotient (width : ℕ) (a b : ℤ) : Option ℤ :=
  if 0 ≤ a then truncatedQuotient width a b
  else if 0 < b then do
    let next ← checked width (a + 1)
    let result ← truncatedQuotient width next b
    checked width (result - 1)
  else do
    let next ← checked width (a + 1)
    let result ← truncatedQuotient width next b
    checked width (result + 1)

/-- `infix "\\"` -/
def remainder (width : ℕ) (a b : ℤ) : Option ℤ := do
  let result ← truncatedRemainder width a b
  if result < 0 then
    if 0 < b then checked width (result + b) else checked width (result - b)
  else return result

def abs (width : ℕ) (a : ℤ) : Option ℤ :=
  if a < 0 then checked width (-a) else some a

/-- `gcd`, cut after a number of calls. -/
def gcdWithin (width : ℕ) : ℕ → ℤ → ℤ → Option ℤ
  | 0, _, _ => none
  | fuel + 1, a, b => if b = 0 then abs width a else do gcdWithin width fuel b (← remainder width a b)

def gcd (width : ℕ) (a b : ℤ) : Option ℤ :=
  gcdWithin width (b.natAbs + 1) a b

/-- One round of `is_prime`: the index and the result. -/
def isPrimeRound (width : ℕ) (n limit : ℤ) (s : ℤ × Bool) : Option (ℤ × Bool) := do
  let (index, result) := s
  let found ← (do
    if (← truncatedRemainder width n index) = 0 then return true
    return decide ((← truncatedRemainder width n (← checked width (index + 2))) = 0))
  let (index, result) := if found then (limit, false) else (index, result)
  return (← checked width (index + 6), result)

variable {width : ℕ} {a b : ℤ}

theorem truncatedQuotient_eq (nonzero : b ≠ 0) (inside : InWidth width (a.tdiv b)) :
    truncatedQuotient width a b = some (a.tdiv b) := by
  rw [truncatedQuotient, if_neg nonzero, checked_eq inside]

theorem truncatedRemainder_eq (nonzero : b ≠ 0) (safe : ¬RemainderTraps width a b) :
    truncatedRemainder width a b = some (a.tmod b) :=
  if_neg (not_or.mpr ⟨nonzero, safe⟩)

theorem inWidth_iff {n : ℤ} : InWidth width n ↔ -maximumOf width - 1 ≤ n ∧ n ≤ maximumOf width := by
  rw [InWidth, minimumOf_eq]

/-- The Euclidean quotient is an integer of the width. -/
theorem inWidth_ediv (inside : InWidth width a) (inside' : InWidth width b)
    (safe : ¬(a = minimumOf width ∧ b = -1)) : InWidth width (a / b) := by
  rw [minimumOf_eq] at safe
  rw [inWidth_iff] at inside inside' ⊢
  have most := Int.natAbs_ediv_le_natAbs a b
  rcases Decidable.em (a = -maximumOf width - 1) with least | more
  · have other : b ≠ -1 := fun opposite => safe ⟨least, opposite⟩
    have nonneg := maximumOf_nonneg width
    rcases lt_trichotomy b 0 with negative | zero | positive
    · have less := TruncatedDivision.ediv_lt_neg (n := a) (d := b) (by omega) (by omega)
      have := Int.ediv_pos_of_neg_of_neg (a := a) (by omega) negative
      omega
    · rw [zero, Int.ediv_zero]
      omega
    · have := Int.ediv_neg_of_neg_of_pos (a := a) (by omega) positive
      omega
  · omega

/-- `infix "//"` is the Euclidean quotient, and no step of it overflows. -/
theorem quotient_eq (inside : InWidth width a) (inside' : InWidth width b) (nonzero : b ≠ 0)
    (safe : ¬(a = minimumOf width ∧ b = -1)) : quotient width a b = some (a / b) := by
  have result := inWidth_ediv inside inside' safe
  have bounds := inWidth_iff.mp inside
  have most := maximumOf_nonneg width
  unfold quotient
  split
  · rename_i nonneg
    rw [Int.tdiv_eq_ediv_of_nonneg nonneg |>.symm] at result ⊢
    exact truncatedQuotient_eq nonzero result
  · rename_i negative
    have next : InWidth width (a + 1) := inWidth_iff.mpr (by omega)
    have within := Int.natAbs_tdiv_le_natAbs (a + 1) b
    have between : InWidth width ((a + 1).tdiv b) := inWidth_iff.mpr (by omega)
    simp only [checked_eq next, truncatedQuotient_eq nonzero between, Option.bind_eq_bind, Option.bind_some]
    split
    · rename_i positive
      rw [← TruncatedDivision.ediv_of_neg_of_pos (by omega) positive, checked_eq result]
    · rename_i notPositive
      rw [← TruncatedDivision.ediv_of_neg_of_neg (by omega) (by omega), checked_eq result]

/-- `infix "\\"` is the Euclidean remainder, and no step of it overflows. -/
theorem remainder_eq (inside : InWidth width b) (nonzero : b ≠ 0) (safe : ¬RemainderTraps width a b) :
    remainder width a b = some (a % b) := by
  have corrected := TruncatedDivision.emod_eq (n := a) nonzero
  have low := Int.emod_nonneg a nonzero
  have high := Int.emod_lt_abs a nonzero
  have result : InWidth width (a % b) := by
    rw [inWidth_iff] at inside ⊢
    rw [Int.abs_eq_natAbs] at high
    omega
  rw [remainder, truncatedRemainder_eq nonzero safe, Option.bind_eq_bind, Option.bind_some]
  rw [corrected] at result ⊢
  split
  · rename_i negative
    rw [if_pos negative] at result
    split
    · rename_i positive
      rw [if_pos positive] at result
      exact checked_eq result
    · rename_i notPositive
      rw [if_neg notPositive] at result
      exact checked_eq result
  · rfl

/-! ## Greatest common divisor -/

/-- The absolute value, when it is an integer of the width. -/
theorem abs_eq (a : ℤ) : abs width a = some (a.natAbs : ℤ) ∨ ¬InWidth width a.natAbs := by
  rcases Decidable.em (InWidth width a.natAbs) with inside | outside
  · unfold abs
    split
    · rw [checked_eq (by rwa [show (a.natAbs : ℤ) = -a by omega] at inside)]
      exact .inl (congrArg some (by omega))
    · exact .inl (congrArg some (by omega))
  · exact .inr outside

theorem gcdWithin_eq {fuel : ℕ} (enough : b.natAbs < fuel) (inside : InWidth width b)
    (safe : ¬RemainderTraps width a b) (represented : InWidth width (Int.gcd a b)) :
    gcdWithin width fuel a b = some (Int.gcd a b : ℤ) := by
  induction fuel generalizing a b with
  | zero => omega
  | succ fuel ih =>
    rw [gcdWithin]
    split
    · rename_i zero
      rw [zero, Int.gcd_zero_right] at represented ⊢
      exact (abs_eq a).resolve_right (not_not.mpr represented)
    · rename_i nonzero
      have low := Int.emod_nonneg a nonzero
      have high := Int.emod_lt_abs a nonzero
      rw [Int.abs_eq_natAbs] at high
      have same : Int.gcd b (a % b) = Int.gcd a b := by
        rw [Int.gcd_comm a b, ← Int.gcd_add_mul_left_right b (a % b) (a / b), Int.emod_add_mul_ediv]
      have rest : InWidth width (a % b) := by
        rw [inWidth_iff] at inside ⊢
        omega
      rw [remainder_eq inside nonzero safe, Option.bind_eq_bind, Option.bind_some, ← same]
      rw [← same] at represented
      refine ih (by omega) rest (fun traps => ?_) represented
      have opposite := traps.2.2
      omega

/-- The operators satisfy the Euclidean equation, and `gcd` is the greatest common divisor, if it is an integer of
the width. -/
def IsEuclidean (width : ℕ) (a b : ℤ) : Prop :=
  (b ≠ 0 → ¬(a = minimumOf width ∧ b = -1) →
    ∃ q r, quotient width a b = some q ∧ remainder width a b = some r ∧ a = b * q + r ∧ 0 ≤ r ∧ r < |b|) ∧
  (InWidth width (Int.gcd a b) → gcd width a b = some (Int.gcd a b : ℤ))

/-- The operators are right for every two integers of a width, but for the divisor of the minimum and -1. -/
theorem isEuclidean_iff (first : InWidth width a) (second : InWidth width b) :
    IsEuclidean width a b ↔ ¬RemainderTraps width a b := by
  constructor
  · rintro ⟨-, divisor⟩ ⟨wide, least, opposite⟩
    subst least opposite
    have room : (2 : ℤ) ^ 1 ≤ 2 ^ (width - 1) := pow_le_pow_right₀ (by decide) (by omega)
    have one : InWidth width (Int.gcd (minimumOf width) (-1)) := by
      rw [Int.gcd_neg, Int.gcd_one_right, inWidth_iff, maximumOf]
      omega
    have run := divisor one
    rw [gcd, gcdWithin, if_neg (by decide), remainder, truncatedRemainder, if_pos (.inr ⟨wide, rfl, rfl⟩)] at run
    exact nomatch run
  · intro safe
    refine ⟨fun nonzero safe' => ⟨a / b, a % b, quotient_eq first second nonzero safe', remainder_eq second nonzero safe,
      (Int.mul_ediv_add_emod a b).symm, Int.emod_nonneg a nonzero, Int.emod_lt_abs a nonzero⟩, ?_⟩
    exact gcdWithin_eq (Nat.lt_succ_self _) second safe

theorem isEuclidean_eight : IsEuclidean 8 (-128) (-1) :=
  (isEuclidean_iff (by decide) (by decide)).mpr (by decide)

/-- The machine traps in the divisor of the minimum of 32 bits and -1, which is 1. -/
theorem not_isEuclidean : ¬∀ width ∈ [8, 16, 32, 64], ∀ a b, InWidth width a → InWidth width b →
    IsEuclidean width a b := by
  intro claim
  have divisor := (claim 32 (by decide) (-2147483648) (-1) (by decide) (by decide)).2 (by decide)
  exact nomatch (show none = some _ from divisor)

/-! ## Primes -/

section Primes

variable {n : ℤ}

/-- No number from 2 up to the index, left out, divides `n`. -/
def NoneBelow (n index : ℤ) : Prop :=
  ∀ d, 2 ≤ d → d < index → ¬d ∣ n

/-- Between two rounds stand multiples of 2 and of 3, which do not divide `n`. -/
theorem NoneBelow.add_six {index : ℤ} (h : NoneBelow n index) (odd : ¬2 ∣ n) (three : ¬3 ∣ n)
    (place : index % 6 = 5) (first : ¬index ∣ n) (second : ¬index + 2 ∣ n) : NoneBelow n (index + 6) := by
  intro d low high divides
  rcases lt_or_ge d index with before | from_index
  · exact h d low before divides
  · have even : ∀ k, d = 2 * k → False := fun k same => odd (Dvd.dvd.trans ⟨k, same⟩ divides)
    have third : ∀ k, d = 3 * k → False := fun k same => three (Dvd.dvd.trans ⟨k, same⟩ divides)
    have cases : d = index ∨ d = index + 1 ∨ d = index + 2 ∨ d = index + 3 ∨ d = index + 4 ∨ d = index + 5 := by omega
    rcases cases with same | same | same | same | same | same
    · exact first (same ▸ divides)
    · exact even (d / 2) (by omega)
    · exact second (same ▸ divides)
    · exact even (d / 2) (by omega)
    · exact third (d / 3) (by omega)
    · exact even (d / 2) (by omega)

theorem not_prime_of_dvd {d : ℤ} (low : 2 ≤ d) (less : d < n) (divides : d ∣ n) : ¬n.toNat.Prime := by
  refine Nat.not_prime_of_dvd_of_lt (m := d.toNat) ?_ (by omega) (by omega)
  rwa [← Int.natCast_dvd_natCast, Int.toNat_of_nonneg (by omega), Int.toNat_of_nonneg (by omega)]

theorem truncatedRemainder_of_pos {d : ℤ} (positive : 0 < d) : truncatedRemainder width n d = some (n.tmod d) :=
  truncatedRemainder_eq (by omega) fun traps => by
    have opposite := traps.2.2
    omega

/-- The loop of `is_prime`: what has been tried divides nothing, or a divisor has been found. -/
structure Tries (n : ℤ) (s : ℤ × Bool) : Prop where
  place : s.1 % 6 = 5 ∨ s.2 = false
  tried : s.2 = true → NoneBelow n s.1 ∧ 5 ≤ s.1
  found : s.2 = false → ¬n.toNat.Prime ∧ (n.toNat.sqrt : ℤ) < s.1

/-- A round leaves the bounds of the width alone and goes six further. -/
theorem Tries.returns_round {index : ℤ} (h : Tries n (index, true)) (inside : InWidth width n) (odd : ¬2 ∣ n)
    (three : ¬3 ∣ n) (more : 3 < n) (going : index < n.toNat.sqrt + 1) :
    Returns (isPrimeRound width n (n.toNat.sqrt + 1) (index, true)) fun s' => Tries n s' ∧ index < s'.1 := by
  obtain ⟨none, five⟩ := h.tried rfl
  have place := h.place.resolve_right nofun
  have root := Nat.sqrt_le n.toNat
  have room : (n.toNat.sqrt : ℤ) + 7 ≤ n := by
    have square : (n.toNat.sqrt : ℤ) * n.toNat.sqrt ≤ n := by
      have := Int.ofNat_le.mpr root
      push_cast at this
      omega
    nlinarith
  have bounds := inWidth_iff.mp inside
  have fits : ∀ m, 0 ≤ m → m ≤ n → InWidth width m := fun m low high => inWidth_iff.mpr (by omega)
  have second : (do
      if (← truncatedRemainder width n index) = 0 then return true
      return decide ((← truncatedRemainder width n (← checked width (index + 2))) = 0)) =
        some (decide (index ∣ n ∨ index + 2 ∣ n)) := by
    rw [truncatedRemainder_of_pos (by omega), checked_eq (fits _ (by omega) (by omega))]
    simp only [Option.bind_eq_bind, Option.bind_some, truncatedRemainder_of_pos (show 0 < index + 2 by omega),
      ← Int.dvd_iff_tmod_eq_zero]
    split
    · rename_i divides
      rw [decide_eq_true (.inl divides)]
      rfl
    · rename_i not_divides
      exact congrArg some (decide_eq_decide.mpr (or_iff_right not_divides).symm)
  unfold isPrimeRound
  dsimp only
  rw [second, Option.bind_eq_bind, Option.bind_some]
  rcases Decidable.em (index ∣ n ∨ index + 2 ∣ n) with divides | none'
  · rw [if_pos (decide_eq_true divides)]
    dsimp only
    rw [checked_eq (fits _ (by omega) (by omega))]
    refine Returns.some_iff.mpr ⟨⟨.inr rfl, nofun, fun _ => ⟨?_, by dsimp only; omega⟩⟩, by dsimp only; omega⟩
    rcases divides with first | second
    · exact not_prime_of_dvd (by omega) (by omega) first
    · exact not_prime_of_dvd (by omega) (by omega) second
  · rw [if_neg (by rwa [decide_eq_true_eq])]
    dsimp only
    rw [checked_eq (fits _ (by omega) (by omega))]
    rw [not_or] at none'
    refine Returns.some_iff.mpr ⟨⟨.inl (by dsimp only; omega), fun _ => ⟨?_, by dsimp only; omega⟩, nofun⟩, by dsimp only; omega⟩
    exact none.add_six odd three place none'.1 none'.2

end Primes

end IntegerGeneral

end Liberty
