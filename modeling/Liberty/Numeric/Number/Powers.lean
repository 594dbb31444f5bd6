import Liberty.Numeric.Number.Products
import Mathlib.Data.Nat.Factorial.Basic

/-!
# Factorials and powers of NUMBERs

The factorial is computed in the registers, the third one of which counts.  The powers are computed by
repeated squares: the factors are powers of one number, so that nothing is cut, and the power is exact.
-/

namespace Liberty

open Calculation MutableBigInteger

/-! ## The source -/

/-- One factor of the factorial. -/
def IntegerGeneralNumber.factorialRound (_ : Unit) : Calculation Unit := do
  .send (.multiply 1 3)
  .send (.addInteger 3 1)

def IntegerGeneralNumber.factorial (n : IntegerGeneralNumber) : Calculation IntegerGeneralNumber :=
  if n.isZero ∨ n.isOne then pure (integer64 1)
  else do
    n.putIntoMutableBigInteger 1
    .send (.copy 2 1)
    .send (.fromInteger 3 2)
    CommandProgram.untilLoop (fun _ => .read fun w => (w.object 3).isEqual false (w.object 2)) factorialRound
      n.value.natAbs ()
    toIntegerGeneralNumber 1

namespace ExactNumber

/-- One round of `infix "^"`: the result, the factor and what is left of the exponent. -/
def powerRound (t : ExactNumber × ExactNumber × IntegerGeneralNumber) :
    Calculation (ExactNumber × ExactNumber × IntegerGeneralNumber) := do
  let (result, factor, e) := t
  let odd ← e.isOdd
  let result ← (if odd then result.multiply factor else pure result)
  let e ← e.integerDivideInteger64 2
  let factor ← factor.multiply factor
  return (result, factor, e)

/-- `infix "^"` -/
def power (a exp : ExactNumber) : Calculation ExactNumber :=
  match exp with
  | fraction _ _ => .undefined
  | integer exp => do
      let e ← exp.abs
      let (result, _, _) ← CommandProgram.untilLoop (fun t => pure t.2.2.isZero) powerRound e.value.natAbs
        (one, a, e)
      if exp.isNegative then result.inverse else return result

/-- One round of `infix "@^"`: the exponent, the result and the other factor. -/
def powerInteger64Round (t : BitVec 64 × ExactNumber × ExactNumber) : Calculation (BitVec 64 × ExactNumber × ExactNumber) := do
  let (int, result, other) := t
  let result ← (if int &&& 1 ≠ 0 then result.multiply other else pure result)
  let other ← other.multiply other
  let int ← .read fun _ => Integer64.truncatedQuotient int 2
  return (int, result, other)

/-- The power of an exponent that is an absolute value. -/
def powerAbsolute (a : ExactNumber) (int : BitVec 64) : Calculation ExactNumber :=
  if int = 0 then pure (integer (.integer64 1))
  else if int = 1 then pure a
  else do
    let (_, result, other) ← CommandProgram.untilLoop (fun t => pure (decide (t.1.toInt < 2)))
      powerInteger64Round (int - 1).toInt.natAbs (int - 1, a, a)
    result.multiply other

/-- `infix "@^"` -/
def powerInteger64 (a : ExactNumber) (exp : BitVec 64) : Calculation ExactNumber := do
  let result ← a.powerAbsolute (Integer64.abs exp)
  if exp.toInt < 0 then result.inverse else return result

end ExactNumber

/-! ## Factorials -/

namespace Calculation

variable {w : World}

theorem Ready.assures_copy (h : Ready w) {x : ℤ} (first : Holds (w.object 1) x) :
    Assures w (.send (.copy 2 1)) fun _ w' => Loads w 2 x w' := by
  refine h.assures_set rfl fun _ => ?_
  have copied := returns_copy (h.operand 2 (.inr (.inl rfl))).fits first.toValid
  refine copied.mono fun r ⟨copy, _⟩ => ?_
  have holds := copy.toHolds
  rwa [first.value_eq] at holds

theorem Ready.assures_multiply (h : Ready w) {x y : ℤ} (first : Holds (w.object 1) x)
    (third : Holds (w.object 3) y) :
    Assures w (.send (.multiply 1 3)) fun _ w' => Loads w 1 (x * y) w' := by
  refine .send fun _ => ?_
  refine (returns_multiply first.toValid third.toValid h.register1).bind fun (r, register1) ⟨holds, valid⟩ => ?_
  rw [first.value_eq, third.value_eq] at holds
  exact Returns.pure_iff.mpr ((h.loads 1 holds).registers valid h.register2)

theorem Ready.assures_addInteger (h : Ready w) {x : ℤ} (third : Holds (w.object 3) x) (other : Word) :
    Assures w (.send (.addInteger 3 other)) fun _ w' => Loads w 3 (x + other.toInt) w' := by
  refine h.assures_set rfl fun _ => ?_
  have sum := returns_addInteger third.toValid other
  rwa [third.value_eq] at sum

end Calculation

namespace IntegerGeneralNumber

variable {n : IntegerGeneralNumber} {k m : ℕ}

/-- The registers of the factorial of `m`, when `k` is the next factor. -/
structure Counts (m k : ℕ) (w : World) : Prop where
  ready : Ready w
  product : Holds (w.object 1) ((m * Nat.factorial (k - 1) : ℕ) : ℤ)
  last : Holds (w.object 2) (m : ℤ)
  next : Holds (w.object 3) (k : ℤ)
  two_le : 2 ≤ k
  le : k ≤ m

theorem Counts.assures_round {w : World} (h : Counts m k w) (more : k ≠ m) :
    Calculation.Assures w (factorialRound ()) fun _ w' => Counts m (k + 1) w' := by
  have two := h.two_le
  have le := h.le
  refine (h.ready.assures_multiply h.product h.next).bind fun _ w' loads => ?_
  have next : Holds (w'.object 3) (k : ℤ) := by
    rw [loads.others 3 (by decide)]
    exact h.next
  refine (loads.ready.assures_addInteger next 1).mono fun _ w'' loads' => ?_
  refine ⟨loads'.ready, ?_, ?_, ?_, by omega, by omega⟩
  · rw [loads'.others 1 (by decide)]
    have product := loads.holds
    have step : m * Nat.factorial (k - 1) * k = m * Nat.factorial k := by
      rw [mul_assoc, mul_comm _ k, Nat.mul_factorial_pred (by omega)]
    rwa [← Nat.cast_mul, step] at product
  · rw [loads'.others 2 (by decide), loads.others 2 (by decide)]
    exact h.last
  · exact loads'.holds

theorem Represents.produces_factorial (h : n.Represents m) :
    Produces n.factorial (·.Represents (Nat.factorial m : ℕ)) := by
  unfold factorial
  rw [h.isZero_eq, h.isOne_eq, h.value_eq, Int.natAbs_natCast]
  split
  · rename_i small
    rw [decide_eq_true_eq, decide_eq_true_eq] at small
    have one : Nat.factorial m = 1 := Nat.factorial_eq_one.mpr (by omega)
    rw [one]
    exact .done represents_one
  · rename_i large
    rw [decide_eq_true_eq, decide_eq_true_eq] at large
    refine produces_put h fun w ready first => ?_
    refine (ready.assures_copy first).bind fun _ w₁ loads₁ => ?_
    refine (loads₁.ready.assures_fromInteger 2).bind fun _ w₂ loads₂ => ?_
    have start : Counts m 2 w₂ := by
      refine ⟨loads₂.ready, ?_, ?_, loads₂.holds, le_rfl, by omega⟩
      · rw [loads₂.others 1 (by decide), loads₁.others 1 (by decide), Nat.factorial_one, mul_one]
        exact first
      · rw [loads₂.others 2 (by decide)]
        exact loads₁.holds
    refine CommandProgram.Assures.bind (P := fun _ w' => Counts m m w') ?_ fun _ w' counts => ?_
    · refine .untilLoop (fun _ w => ∃ k, Counts m k w) (fun _ w => (m - (w.object 3).value).toNat) ⟨2, start⟩
        (by rw [start.next.value_eq]; omega) ?_
      intro _ w ⟨k, counts⟩
      refine .read (returns_isEqual counts.next.toValid counts.last.toValid) fun stopped test => ?_
      rw [counts.next.value_eq, counts.last.value_eq] at test
      subst test
      split
      · rename_i done
        have same : k = m := Int.ofNat_inj.mp (of_decide_eq_true done)
        rwa [same] at counts
      · rename_i going
        have more : k ≠ m := fun same => going (decide_eq_true (congrArg Nat.cast same))
        refine (counts.assures_round more).mono fun _ w' counts' => ⟨⟨k + 1, counts'⟩, ?_⟩
        have le := counts'.le
        rw [counts.next.value_eq, counts'.next.value_eq]
        omega
    · have product := counts.product
      rw [Nat.mul_factorial_pred (by omega)] at product
      exact assures_toIntegerGeneralNumber counts.ready product

end IntegerGeneralNumber

/-! ## Powers -/

namespace ExactNumber

variable {a : ExactNumber} {q : ℚ}

/-- The product of two powers of one number is exact: a fraction only meets fractions and 1. -/
theorem multipliesExactly_pow (q : ℚ) (i : ℕ) {j : ℕ} (positive : 0 < j) : MultipliesExactly (q ^ i) (q ^ j) := by
  have whole : ∀ k, 0 < k → ((q ^ k).den = 1 ↔ q.den = 1) := fun k positive => by
    rw [Rat.den_pow, Nat.pow_eq_one, or_iff_left (by omega)]
  constructor
  · intro first _ second _
    have none : i = 0 := by
      by_contra some
      exact second ((whole j positive).mpr ((whole i (by omega)).mp first))
    rw [none, pow_zero, Rat.num_one, Int.gcd_one_left]
    decide
  · intro first second _
    have some : i ≠ 0 := fun none => first (by rw [none, pow_zero]; rfl)
    exact absurd ((whole i (by omega)).mpr ((whole j positive).mp second)) first

/-- The result and the factor are powers, of which the exponents make up `m`. -/
def Squares (q : ℚ) (m : ℕ) (k : ℕ) (result factor : ExactNumber) : Prop :=
  ∃ i j, 0 < j ∧ i + j * k = m ∧ result.Represents (q ^ i) ∧ factor.Represents (q ^ j)

theorem Squares.produces_round {m k : ℕ} {result factor : ExactNumber} (h : Squares q m k result factor)
    {odd : Prop} [Decidable odd] (same : odd ↔ k % 2 = 1) :
    Produces (if odd then result.multiply factor else pure result) fun result' =>
      Produces (factor.multiply factor) fun factor' => Squares q m (k / 2) result' factor' := by
  obtain ⟨i, j, positive, exponent, first, second⟩ := h
  have square : Produces (factor.multiply factor) (·.Represents (q ^ (2 * j))) := by
    have product := second.produces_multiply second (multipliesExactly_pow q j positive)
    rwa [← pow_add, ← two_mul] at product
  split
  · rename_i isOdd
    have product := first.produces_multiply second (multipliesExactly_pow q i positive)
    rw [← pow_add] at product
    refine product.mono fun result' represents => square.mono fun factor' represents' => ?_
    have half : k = 2 * (k / 2) + 1 := by
      have := same.mp isOdd
      omega
    refine ⟨i + j, 2 * j, by omega, ?_, represents, represents'⟩
    rw [← exponent]
    conv_rhs => rw [half]
    ring
  · rename_i isEven
    refine .done (square.mono fun factor' represents' => ⟨i, 2 * j, by omega, ?_, first, represents'⟩)
    have half : k = 2 * (k / 2) := by
      have := mt same.mpr isEven
      omega
    rw [← exponent]
    conv_rhs => rw [half]
    ring

theorem produces_powerRound {m k : ℕ} {result factor : ExactNumber} {e : IntegerGeneralNumber}
    (h : Squares q m k result factor) (exponent : e.Represents k) :
    Produces (powerRound (result, factor, e)) fun (result, factor, e) =>
      Squares q m (k / 2) result factor ∧ e.Represents (k / 2 : ℕ) := by
  refine exponent.produces_isOdd.bind fun odd parity => ?_
  have same : odd = true ↔ k % 2 = 1 := by
    rw [parity, decide_eq_true_eq]
    omega
  refine (h.produces_round same).bind fun result' square => ?_
  refine (exponent.produces_divideInteger64 (show (2 : BitVec 64).toInt ≠ 0 by decide)).1.bind fun e' represents => ?_
  refine square.bind fun factor' squares => .done ⟨squares, ?_⟩
  exact_mod_cast represents

theorem Represents.produces_power (h : a.Represents q) {exp : IntegerGeneralNumber} {x : ℤ}
    (exponent : exp.Represents x) (safe : q = 0 → 0 ≤ x) :
    Produces (a.power (integer exp)) (·.Represents (q ^ x)) := by
  refine exponent.produces_abs.bind fun e represents => ?_
  rw [Int.abs_eq_natAbs] at represents
  refine CommandProgram.Produces.bind (P := fun t => t.1.Represents (q ^ x.natAbs)) ?_ fun t power => ?_
  · intro w ready
    refine CommandProgram.Assures.untilLoop
      (fun t w => Ready w ∧ ∃ k : ℕ, Squares q x.natAbs k t.1 t.2.1 ∧ t.2.2.Represents k)
      (fun t _ => t.2.2.value.natAbs) ⟨ready, x.natAbs, ⟨0, 1, one_pos, by ring, ?_, ?_⟩, represents⟩ ?_ ?_
    · rw [pow_zero, ← Int.cast_one]
      exact represents_integer IntegerGeneralNumber.represents_one
    · rwa [pow_one]
    · rw [represents.value_eq, Int.natAbs_natCast]
    · intro ⟨result, factor, e⟩ w ⟨ready, k, squares, represents⟩
      refine .done ?_
      rw [represents.isZero_eq]
      split
      · rename_i done
        have none : k = 0 := Int.ofNat_eq_zero.mp (of_decide_eq_true done)
        obtain ⟨i, j, -, exponents, first, -⟩ := squares
        rw [none, mul_zero, add_zero] at exponents
        subst exponents
        exact ⟨ready, first⟩
      · rename_i going
        have some : k ≠ 0 := fun none => going (decide_eq_true (Int.ofNat_eq_zero.mpr none))
        refine (produces_powerRound squares represents w ready).mono fun t w' ⟨ready', squares', represents'⟩ =>
          ⟨⟨ready', k / 2, squares', represents'⟩, ?_⟩
        rw [represents.value_eq, represents'.value_eq, Int.natAbs_natCast, Int.natAbs_natCast]
        omega
  · obtain ⟨result, factor, rest⟩ := t
    dsimp only at power ⊢
    rw [exponent.isNegative_eq]
    split
    · rename_i negative
      have negative := of_decide_eq_true negative
      have nonzero : q ≠ 0 := fun zero => by
        have := safe zero
        omega
      have inverse := power.produces_inverse (pow_ne_zero _ nonzero)
      have flip : (q ^ x.natAbs)⁻¹ = q ^ x := by
        rw [← zpow_natCast, ← zpow_neg, show -(x.natAbs : ℤ) = x by omega]
      rwa [flip] at inverse
    · rename_i nonneg
      rw [decide_eq_true_eq] at nonneg
      refine .done ?_
      rwa [← zpow_natCast, show (x.natAbs : ℤ) = x by omega] at power

theorem odd_iff {int : BitVec 64} {k : ℕ} (same : int.toInt = k) : int &&& 1 ≠ 0 ↔ k % 2 = 1 := by
  have nat : int.toNat = k := by
    rw [BitVec.toInt_eq_toNat_cond] at same
    split at same <;> omega
  rw [Ne, ← BitVec.toNat_inj, BitVec.toNat_and, nat]
  change ¬k &&& 1 = 0 ↔ _
  rw [Nat.and_one_is_mod]
  omega

theorem produces_powerInteger64Round {m k : ℕ} {result other : ExactNumber} {int : BitVec 64}
    (h : Squares q m k result other) (same : int.toInt = k) :
    Produces (powerInteger64Round (int, result, other)) fun (int, result, other) =>
      Squares q m (k / 2) result other ∧ int.toInt = (k / 2 : ℕ) := by
  refine (h.produces_round (odd_iff same)).bind fun result' square => square.bind fun other' squares => ?_
  have free : ¬Integer64.Traps int 2 := fun traps => by
    rcases traps with zero | ⟨-, opposite⟩
    · exact absurd zero (by decide)
    · exact absurd opposite (by decide)
  have two : (2 : BitVec 64).toInt = 2 := rfl
  refine CommandProgram.Produces.bind (.read fun _ => Integer64.returns_truncatedQuotient free) fun int' half => ?_
  refine .done ⟨squares, ?_⟩
  rw [half, same, two, Int.tdiv_eq_ediv_of_nonneg (by omega)]
  exact_mod_cast rfl

/-- The power of an absolute value, even that of the minimum. -/
theorem Represents.produces_powerAbsolute (h : a.Represents q) {int : BitVec 64}
    (absolute : 0 ≤ int.toInt ∨ int = Integer64.minimum) :
    Produces (a.powerAbsolute int) (·.Represents (q ^ int.toInt.natAbs)) := by
  unfold powerAbsolute
  split
  · rename_i zero
    rw [Integer64.eq_zero_iff.mp zero, Int.natAbs_zero, pow_zero, ← Int.cast_one]
    exact .done (represents_integer IntegerGeneralNumber.represents_one)
  rename_i some
  split
  · rename_i one
    rw [one, Integer64.toInt_one, Int.natAbs_one, pow_one]
    exact .done h
  rename_i more
  have before : (int - 1).toInt = (int.toInt.natAbs - 1 : ℕ) ∧ 2 ≤ int.toInt.natAbs := by
    rcases absolute with nonneg | least
    · have nonzero : int.toInt ≠ 0 := fun zero => some (Integer64.eq_zero_iff.mpr zero)
      have notOne : int.toInt ≠ 1 := fun one => more (BitVec.eq_of_toInt_eq one)
      have range := Integer64.toInt_range int
      have one := Integer64.toInt_one
      rw [Integer64.toInt_sub_of_range (by omega) (by omega), one]
      omega
    · subst least
      decide
  obtain ⟨first, two⟩ := before
  refine CommandProgram.Produces.bind (P := fun t => Squares q int.toInt.natAbs 1 t.2.1 t.2.2) ?_ ?_
  · intro w ready
    refine CommandProgram.Assures.untilLoop
      (fun t w => Ready w ∧ ∃ k : ℕ, 1 ≤ k ∧ Squares q int.toInt.natAbs k t.2.1 t.2.2 ∧
        BitVec.toInt t.1 = (k : ℤ))
      (fun t _ => t.1.toInt.natAbs)
      ⟨ready, int.toInt.natAbs - 1, by omega, ⟨1, 1, one_pos, by omega, ?_, ?_⟩, first⟩ ?_ ?_
    · rwa [pow_one]
    · rwa [pow_one]
    · rw [first, Int.natAbs_natCast]
    · intro ⟨int, result, other⟩ w ⟨ready, k, positive, squares, same⟩
      refine .done ?_
      split
      · rename_i done
        have one : k = 1 := by
          rw [decide_eq_true_eq] at done
          omega
        rw [one] at squares
        exact ⟨ready, squares⟩
      · rename_i going
        rw [decide_eq_true_eq] at going
        refine (produces_powerInteger64Round squares same w ready).mono fun t w' ⟨ready', squares', same'⟩ =>
          ⟨⟨ready', k / 2, by omega, squares', same'⟩, ?_⟩
        omega
  · intro (_, result, other) ⟨i, j, positive, exponents, first, second⟩
    have product := first.produces_multiply second (multipliesExactly_pow q i positive)
    rw [mul_one] at exponents
    rwa [← pow_add, exponents] at product

theorem Represents.produces_powerInteger64 (h : a.Represents q) {exp : BitVec 64}
    (safe : q = 0 → 0 ≤ exp.toInt) :
    Produces (a.powerInteger64 exp) (·.Represents (q ^ exp.toInt)) := by
  refine (h.produces_powerAbsolute (Integer64.abs_nonneg_or exp)).bind fun result power => ?_
  rw [Integer64.natAbs_abs] at power
  split
  · rename_i negative
    have nonzero : q ≠ 0 := fun zero => by
      have := safe zero
      omega
    have inverse := power.produces_inverse (pow_ne_zero _ nonzero)
    have flip : (q ^ exp.toInt.natAbs)⁻¹ = q ^ exp.toInt := by
      rw [← zpow_natCast, ← zpow_neg, show -(exp.toInt.natAbs : ℤ) = exp.toInt by omega]
    rwa [flip] at inverse
  · rename_i nonneg
    refine .done ?_
    rwa [← zpow_natCast, show (exp.toInt.natAbs : ℤ) = exp.toInt by omega] at power

end ExactNumber

end Liberty
