import Liberty.Numeric.Number.Number

/-!
# Opposites and sums of NUMBERs

Every sum of canonical NUMBERs is the exact rational number in canonical form.
-/

namespace Liberty

open Calculation

namespace ExactNumber

variable {a b : ExactNumber} {n d n' d' : IntegerGeneralNumber} {x y x' y' : ℤ} {q r : ℚ}

/-! ## Fractions from integers -/

/-- A fraction over its greatest common divisor, with the sign in the numerator. -/
theorem produces_makeFraction (numerator : n.Represents x) (denominator : d.Represents y) (nonzero : y ≠ 0)
    (proper : ¬y ∣ x) (value : q * y = x) (divisor : Produces (n.gcd d) (·.Represents (Int.gcd x y))) :
    Produces (makeFraction n d) (·.Represents q) := by
  obtain ⟨g, a, b, gcd, positive, first, second, coprime⟩ := LowestTerms.gcd_split (x := x) nonzero
  have reduced : q * b = a := by
    have scale : (g : ℚ) ≠ 0 := Int.cast_ne_zero.mpr positive.ne'
    apply mul_left_cancel₀ scale
    rw [first, second, Int.cast_mul, Int.cast_mul] at value
    linear_combination value
  have large : 2 ≤ |b| := by
    have some : b ≠ 0 := fun zero => nonzero (by rw [second, zero, mul_zero])
    have notUnit : ¬IsUnit b := fun unit => proper <| by
      rw [first, second]
      exact mul_dvd_mul_left g (unit.dvd)
    rw [Int.isUnit_iff] at notUnit
    rcases abs_cases b with ⟨same, _⟩ | ⟨same, _⟩ <;> omega
  rw [gcd] at divisor
  refine CommandProgram.Produces.bind divisor fun g' hg => ?_
  refine (numerator.produces_integerDivide_of_dvd hg positive.ne' ⟨a, first⟩).bind fun num hnum => ?_
  refine (denominator.produces_integerDivide_of_dvd hg positive.ne' ⟨b, second⟩).bind fun den hden => ?_
  rw [first, Int.mul_ediv_cancel_left a positive.ne'] at hnum
  rw [second, Int.mul_ediv_cancel_left b positive.ne'] at hden
  rw [hden.isNegative_eq]
  split
  · rename_i negative
    have negative := of_decide_eq_true negative
    refine hnum.produces_negate.bind fun num hnum => hden.produces_negate.bind fun den hden => .done ?_
    refine represents_fraction hnum hden ?_ coprime.neg_neg ?_
    · rw [abs_of_neg negative] at large
      exact large
    · push_cast
      linear_combination -reduced
  · rename_i nonneg
    rw [decide_eq_true_eq, not_lt] at nonneg
    rw [abs_of_nonneg nonneg] at large
    exact .done (represents_fraction hnum hden large coprime reduced)

theorem produces_fromTwoIntegerGeneralNumber (numerator : n.Represents x) (denominator : d.Represents y)
    (nonzero : y ≠ 0) (value : q * y = x) (divisor : Produces (n.gcd d) (·.Represents (Int.gcd x y))) :
    Produces (fromTwoIntegerGeneralNumber n d) (·.Represents q) := by
  refine (numerator.produces_remainder denominator nonzero).bind fun rest ⟨v, represents, _, multiple⟩ => ?_
  rw [represents.isZero_eq]
  split
  · rename_i zero
    have divides : y ∣ x := multiple.mp (of_decide_eq_true zero)
    refine (numerator.produces_integerDivide_of_dvd denominator nonzero divides).bind fun m hm => .done ?_
    have scale : (y : ℚ) ≠ 0 := Int.cast_ne_zero.mpr nonzero
    rw [show q = ((x / y : ℤ) : ℚ) by
      rw [Int.cast_div divides scale]
      exact (eq_div_iff scale).mpr value]
    exact represents_integer hm
  · rename_i rest
    have proper : ¬y ∣ x := fun divides => rest (decide_eq_true (multiple.mpr divides))
    exact produces_makeFraction numerator denominator nonzero proper value divisor

/-! ## Opposites -/

theorem Represents.isNegative_eq (h : a.Represents q) : a.isNegative = decide (q < 0) := by
  cases a with
  | integer n =>
    obtain ⟨x, represents, rfl⟩ := h.integer_eq
    change n.isNegative = _
    rw [represents.isNegative_eq]
    simp only [Int.cast_lt_zero]
  | fraction n d =>
    change n.isNegative = _
    rw [h.2.1.isNegative_eq]
    simp only [Rat.num_neg]

theorem Represents.produces_negate (h : a.Represents q) : Produces a.negate (·.Represents (-q)) := by
  cases a with
  | integer n =>
    obtain ⟨x, represents, rfl⟩ := h.integer_eq
    refine represents.produces_negate.bind fun m hm => .done ?_
    exact represents_integer hm
  | fraction n d =>
    obtain ⟨x, y, numerator, denominator, two, coprime, value⟩ := h.fraction_terms
    refine numerator.produces_negate.bind fun m hm => .done ?_
    refine represents_fraction hm denominator two coprime.neg_left ?_
    push_cast
    linear_combination -value

theorem Represents.produces_abs (h : a.Represents q) : Produces a.abs (·.Represents |q|) := by
  rw [abs, h.isNegative_eq]
  split
  · rename_i negative
    rw [abs_of_neg (of_decide_eq_true negative)]
    exact h.produces_negate
  · rename_i nonneg
    rw [decide_eq_true_eq, not_lt] at nonneg
    rw [abs_of_nonneg nonneg]
    exact .done h

/-! ## Sums -/

theorem Represents.produces_addInteger64 (h : a.Represents q) (other : BitVec 64) :
    Produces (a.addInteger64 other) (·.Represents (q + other.toInt)) := by
  cases a with
  | integer n =>
    obtain ⟨x, represents, rfl⟩ := h.integer_eq
    refine (represents.produces_addInteger64 other).bind fun m hm => .done ?_
    rw [← Int.cast_add]
    exact represents_integer hm
  | fraction n d =>
    obtain ⟨x, y, numerator, denominator, two, coprime, value⟩ := h.fraction_terms
    refine (denominator.produces_multiplyInteger64 other).bind fun product hproduct => ?_
    refine (hproduct.produces_add numerator).bind fun tmp htmp => .done ?_
    refine represents_fraction htmp denominator two ?_ ?_
    · exact (add_comm _ x ▸ coprime.add_mul_left_left other.toInt : IsCoprime _ y)
    · push_cast
      linear_combination value

theorem Represents.produces_subtractInteger64 (h : a.Represents q) (other : BitVec 64) :
    Produces (a.subtractInteger64 other) (·.Represents (q - other.toInt)) := by
  unfold subtractInteger64
  split
  · rename_i least
    refine (h.produces_addInteger64 1).bind fun result hresult => ?_
    refine (hresult.produces_addInteger64 Integer64.maximum).mono fun c hc => ?_
    have sum : q + (1 : BitVec 64).toInt + Integer64.maximum.toInt = q - other.toInt := by
      have one : (1 : BitVec 64).toInt = 1 := rfl
      have most : Integer64.maximum.toInt = 9223372036854775807 := rfl
      rw [Integer64.eq_minimum_iff.mp least, one, most]
      ring
    rwa [← sum]
  · rename_i more
    refine (h.produces_addInteger64 (-other)).mono fun c hc => ?_
    rwa [Integer64.toInt_neg_of_ne more, Int.cast_neg, ← sub_eq_add_neg] at hc

theorem Represents.produces_addWithBigIntegerNumber (h : a.Represents q) {other : BigIntegerNumber}
    (h' : other.Represents x') : Produces (a.addWithBigIntegerNumber other) (·.Represents (q + x')) := by
  have represents' : (IntegerGeneralNumber.bigInteger other).Represents x' := h'
  cases a with
  | integer n =>
    obtain ⟨x, represents, rfl⟩ := h.integer_eq
    rw [add_comm, ← Int.cast_add]
    exact (represents'.produces_add represents).bind fun m hm => .done (represents_integer hm)
  | fraction n d =>
    obtain ⟨x, y, numerator, denominator, two, coprime, value⟩ := h.fraction_terms
    refine (represents'.produces_multiply denominator).bind fun product hproduct => ?_
    refine (hproduct.produces_add numerator).bind fun tmp htmp => ?_
    refine produces_fromTwoIntegerGeneralNumber htmp denominator (by omega) ?_
      (htmp.produces_gcd_of_pos denominator (by omega))
    push_cast
    linear_combination value

theorem produces_addFractions_of_eq (numerator : n.Represents x) (denominator : d.Represents y)
    (numerator' : n'.Represents x') (two : 2 ≤ y) (denominator' : d'.Represents y)
    (value : q * y = x) (value' : r * y = x') :
    Produces (addFractions n d n' d') (·.Represents (q + r)) := by
  have sum : (q + r) * y = (x + x' : ℤ) := by
    push_cast
    linear_combination value + value'
  have scale : (y : ℚ) ≠ 0 := Int.cast_ne_zero.mpr (by omega)
  refine CommandProgram.Produces.bind (.read fun _ => ⟨_, denominator.isEqual_eq denominator', rfl⟩) ?_
  intro same test
  subst test
  rw [if_pos (decide_eq_true rfl)]
  refine (numerator.produces_add numerator').bind fun newNum hnew => ?_
  rw [hnew.isZero_eq]
  split
  · rename_i zero
    rw [decide_eq_true_eq] at zero
    refine .done ?_
    rw [zero, Int.cast_zero, mul_eq_zero_iff_right scale] at sum
    rw [sum]
    exact represents_integer IntegerGeneralNumber.represents_zero
  · obtain ⟨g, a, b, gcd, positive, first, second, coprime⟩ :=
      LowestTerms.gcd_split (x := x + x') (show y ≠ 0 by omega)
    have reduced : (q + r) * b = a := by
      apply mul_left_cancel₀ (Int.cast_ne_zero.mpr positive.ne' : (g : ℚ) ≠ 0)
      rw [first, second, Int.cast_mul, Int.cast_mul] at sum
      linear_combination sum
    have above : 0 < b := (mul_pos_iff_of_pos_left positive).mp (by omega)
    refine (hnew.produces_gcd_of_pos denominator (by omega)).bind fun g' hg => ?_
    rw [gcd] at hg
    refine CommandProgram.Produces.bind (.read fun _ => ⟨_, denominator.isEqual_eq hg, rfl⟩) ?_
    intro whole test
    subst test
    have quotient := hnew.produces_integerDivide_of_dvd hg positive.ne' ⟨a, first⟩
    rw [first, Int.mul_ediv_cancel_left a positive.ne'] at quotient
    split
    · rename_i whole
      rw [decide_eq_true_eq] at whole
      refine quotient.bind fun m hm => .done ?_
      have one : b = 1 := by
        apply mul_left_cancel₀ positive.ne'
        rw [← second, whole, mul_one]
      rw [one, Int.cast_one, mul_one] at reduced
      rw [reduced]
      exact represents_integer hm
    · rename_i proper
      rw [decide_eq_true_eq] at proper
      have other : b ≠ 1 := fun one => proper (by rw [second, one, mul_one])
      refine quotient.bind fun newNum hnum => ?_
      refine (denominator.produces_integerDivide_of_dvd hg positive.ne' ⟨b, second⟩).bind fun newDen hden => ?_
      rw [second, Int.mul_ediv_cancel_left b positive.ne'] at hden
      exact .done (represents_fraction hnum hden (by omega) coprime reduced)

/-- Two fractions over different denominators. -/
theorem produces_addFractions_of_ne (numerator : n.Represents x) (denominator : d.Represents y)
    (numerator' : n'.Represents x') (denominator' : d'.Represents y') (two : 2 ≤ y) (two' : 2 ≤ y')
    (coprime : IsCoprime x y) (coprime' : IsCoprime x' y') (value : q * y = x) (value' : r * y' = x')
    (differ : y ≠ y') : Produces (addFractions n d n' d') (·.Represents (q + r)) := by
  obtain ⟨dg, d₁, d₂, gcd, positive, first, second, parts⟩ :=
    LowestTerms.gcd_split (x := y) (show y' ≠ 0 by omega)
  have above₁ : 0 < d₁ := (mul_pos_iff_of_pos_left positive).mp (by omega)
  have above₂ : 0 < d₂ := (mul_pos_iff_of_pos_left positive).mp (by omega)
  have sum : (q + r) * (y * d₂ : ℤ) = (x * d₂ + x' * d₁ : ℤ) := by
    rw [first, Int.cast_mul] at value
    rw [second, Int.cast_mul] at value'
    rw [first]
    push_cast
    linear_combination value * d₂ + value' * d₁
  refine CommandProgram.Produces.bind (.read fun _ => ⟨_, denominator.isEqual_eq denominator', rfl⟩) ?_
  intro same test
  subst test
  rw [if_neg (by simpa using differ)]
  refine (denominator.produces_gcd_of_pos denominator' (by omega)).bind fun dg' hdg => ?_
  rw [gcd] at hdg
  refine (denominator.produces_integerDivide_of_dvd hdg positive.ne' ⟨d₁, first⟩).bind fun part₁ h₁ => ?_
  refine (denominator'.produces_integerDivide_of_dvd hdg positive.ne' ⟨d₂, second⟩).bind fun part₂ h₂ => ?_
  rw [first, Int.mul_ediv_cancel_left d₁ positive.ne'] at h₁
  rw [second, Int.mul_ediv_cancel_left d₂ positive.ne'] at h₂
  refine (numerator.produces_multiply h₂).bind fun left hleft => ?_
  refine (numerator'.produces_multiply h₁).bind fun right hright => ?_
  refine (hleft.produces_add hright).bind fun newNum hnew => ?_
  have large : 0 < y * d₂ := mul_pos (by omega) above₂
  rw [hnew.isZero_eq]
  split
  · rename_i zero
    have zero := of_decide_eq_true zero
    refine .done ?_
    rw [zero] at hnew
    have scale : ((y * d₂ : ℤ) : ℚ) ≠ 0 := Int.cast_ne_zero.mpr large.ne'
    rw [zero, Int.cast_zero, mul_eq_zero_iff_right scale] at sum
    rw [sum]
    exact represents_integer hnew
  · obtain ⟨g, a, b, gcd', positive', first', second', coprime''⟩ :=
      LowestTerms.gcd_split (x := x * d₂ + x' * d₁) large.ne'
    have small : (Int.gcd (x * d₂ + x' * d₁) dg : ℤ) = g := by
      rw [first] at coprime gcd'
      rw [second] at coprime'
      rw [← gcd', LowestTerms.gcd_sum coprime coprime' parts]
    have reduced : (q + r) * b = a := by
      apply mul_left_cancel₀ (Int.cast_ne_zero.mpr positive'.ne' : (g : ℚ) ≠ 0)
      rw [first', second', Int.cast_mul, Int.cast_mul] at sum
      linear_combination sum
    have two'' : 2 ≤ b := by
      obtain ⟨e, divides⟩ : g ∣ dg := small ▸ Int.gcd_dvd_right (x * d₂ + x' * d₁) dg
      have whole : b = e * d₁ * d₂ := by
        apply mul_left_cancel₀ positive'.ne'
        rw [← second', first, divides]
        ring
      have above : 0 < b := (mul_pos_iff_of_pos_left positive').mp (by omega)
      by_contra short
      have one₁ := Int.le_of_dvd above (whole ▸ dvd_mul_of_dvd_left (dvd_mul_left d₁ e) d₂)
      have one₂ := Int.le_of_dvd above (whole ▸ dvd_mul_left d₂ (e * d₁))
      apply differ
      rw [first, second, show d₁ = d₂ by omega]
    refine (denominator.produces_multiply h₂).bind fun newDen hden => ?_
    refine (hnew.produces_gcd_of_pos hdg positive).bind fun g' hg => ?_
    rw [small] at hg
    rw [hg.isOne_eq]
    split
    · rename_i one
      rw [of_decide_eq_true one, one_mul] at first' second'
      rw [first'] at hnew
      rw [second'] at hden
      exact .done (represents_fraction hnew hden two'' coprime'' reduced)
    · refine (hnew.produces_integerDivide_of_dvd hg positive'.ne' ⟨a, first'⟩).bind fun newNum hnum => ?_
      refine (hden.produces_integerDivide_of_dvd hg positive'.ne' ⟨b, second'⟩).bind fun newDen hden => ?_
      rw [first', Int.mul_ediv_cancel_left a positive'.ne'] at hnum
      rw [second', Int.mul_ediv_cancel_left b positive'.ne'] at hden
      exact .done (represents_fraction hnum hden two'' coprime'' reduced)

theorem Represents.produces_addFractions (h : (fraction n d).Represents q) (h' : (fraction n' d').Represents r) :
    Produces (addFractions n d n' d') (·.Represents (q + r)) := by
  obtain ⟨x, y, numerator, denominator, two, coprime, value⟩ := h.fraction_terms
  obtain ⟨x', y', numerator', denominator', two', coprime', value'⟩ := h'.fraction_terms
  rcases Decidable.em (y = y') with same | differ
  · subst same
    exact produces_addFractions_of_eq numerator denominator numerator' two denominator' value value'
  · exact produces_addFractions_of_ne numerator denominator numerator' denominator' two two' coprime coprime'
      value value' differ

theorem Represents.produces_addWithFraction (h : a.Represents q) (h' : (fraction n d).Represents r) :
    Produces (a.addWithFraction n d) (·.Represents (q + r)) := by
  cases a with
  | integer m =>
    obtain ⟨x, represents, rfl⟩ := h.integer_eq
    rw [add_comm]
    cases m with
    | integer64 value =>
      have same : value.toInt = x := represents
      rw [← same]
      exact h'.produces_addInteger64 value
    | bigInteger m => exact h'.produces_addWithBigIntegerNumber represents
  | fraction n' d' => exact h.produces_addFractions h'

theorem Represents.produces_add (h : a.Represents q) (h' : b.Represents r) :
    Produces (a.add b) (·.Represents (q + r)) := by
  rw [add_comm]
  cases a with
  | integer m =>
    obtain ⟨x, represents, rfl⟩ := h.integer_eq
    cases m with
    | integer64 value =>
      have same : value.toInt = x := represents
      rw [← same]
      exact h'.produces_addInteger64 value
    | bigInteger m => exact h'.produces_addWithBigIntegerNumber represents
  | fraction n d => exact h'.produces_addWithFraction h

theorem Represents.produces_subtract (h : a.Represents q) (h' : b.Represents r) :
    Produces (a.subtract b) (·.Represents (q - r)) := by
  refine h'.produces_negate.bind fun opposite hopposite => ?_
  rw [sub_eq_add_neg]
  exact h.produces_add hopposite

end ExactNumber

end Liberty
