import Liberty.Numeric.Number.Sums

/-!
# Products and quotients of NUMBERs

The products and the quotients of canonical NUMBERs are canonical.  They are the exact rational numbers but
for a fraction that meets an integer of 64 bits: the integer is cut to 32 bits, and there is no product when
the divisor that it shares with the denominator does not fit in 64 bits.
-/

namespace Liberty

open Calculation MutableBigInteger

namespace ExactNumber

variable {a b : ExactNumber} {n d n' d' : IntegerGeneralNumber} {x y x' y' : ℤ} {q r : ℚ}

/-! ## Products -/

/-- The divisor of a denominator and an INTEGER_64, which is to be an INTEGER_64 too. -/
theorem produces_gcdInteger64 (denominator : d.Represents y) (two : 2 ≤ y) (other : BitVec 64) :
    Produces (d.gcd (.integer64 other)) (·.Represents (Int.gcd other.toInt y)) := by
  have second : (IntegerGeneralNumber.integer64 other).Represents other.toInt := rfl
  rw [Int.gcd_comm]
  exact denominator.produces_gcd_of_pos_left second (by omega)

/-- What `infix "@*"` of a fraction does with the divisor `g`. -/
theorem produces_multiplyByInteger64 (numerator : n.Represents x) (denominator : d.Represents y) (two : 2 ≤ y)
    (coprime : IsCoprime x y) (value : q * y = x) {other : BitVec 64} {g : IntegerGeneralNumber}
    (hg : g.Represents (Int.gcd other.toInt y)) (fits : InInteger64 (Int.gcd other.toInt y)) :
    Produces (if g.isOne then do
        let tmp1 ← n.multiplyInteger64 other
        return fraction tmp1 d
      else do
        let g64 ← g.toInteger64
        let factor ← .read fun _ => Integer64.quotient other g64
        if ← .read fun _ => d.isEqual g then
          let product ← n.multiplyInteger64 factor
          return integer product
        else
          let tmp1 ← n.multiplyInteger64 factor
          let tmp2 ← d.integerDivide g
          return fraction tmp1 tmp2 : Calculation ExactNumber)
      (·.Represents (q * other.toInt)) := by
  obtain ⟨k, c, b, gcd, positive, first, second, split⟩ :=
    LowestTerms.gcd_split (x := other.toInt) (show y ≠ 0 by omega)
  rw [gcd] at hg fits
  have above : 0 < b := (mul_pos_iff_of_pos_left positive).mp (by omega)
  have reduced : q * other.toInt * b = (x * c : ℤ) := by
    rw [second] at value
    rw [first]
    push_cast at value ⊢
    linear_combination value * c
  have coprime' : IsCoprime (x * c) b :=
    IsCoprime.mul_left (coprime.of_isCoprime_of_dvd_right (second ▸ dvd_mul_left b k)) split
  rw [hg.isOne_eq]
  split
  · rename_i one
    rw [of_decide_eq_true one, one_mul] at first second
    rw [← first] at coprime' reduced
    rw [← second] at coprime' reduced
    exact (numerator.produces_multiplyInteger64 other).bind fun tmp1 htmp =>
      .done (represents_fraction htmp denominator two coprime' reduced)
  · obtain ⟨g64, rfl⟩ := hg.integer64_iff.mpr fits
    have same : g64.toInt = k := hg
    have nonzero : g64 ≠ 0 := fun zero => by
      rw [Integer64.eq_zero_iff.mp zero] at same
      omega
    have safe : ¬(other = Integer64.minimum ∧ g64 = -1) := fun both => by
      rw [both.2, Integer64.toInt_neg_one] at same
      omega
    refine CommandProgram.Produces.bind (.done rfl : Produces (pure g64) (· = g64)) fun g' equal => ?_
    subst equal
    refine CommandProgram.Produces.bind (.read fun _ => Integer64.returns_quotient nonzero safe) ?_
    intro factor hfactor
    rw [same, first, Int.mul_ediv_cancel_left c positive.ne'] at hfactor
    have product := numerator.produces_multiplyInteger64 factor
    rw [hfactor] at product
    refine CommandProgram.Produces.bind (.read fun _ => ⟨_, denominator.isEqual_eq hg, rfl⟩) fun whole test => ?_
    subst test
    split
    · rename_i whole
      have one : b = 1 := by
        apply mul_left_cancel₀ positive.ne'
        rw [← second, of_decide_eq_true whole, mul_one]
      rw [one, Int.cast_one, mul_one] at reduced
      rw [reduced]
      exact product.bind fun m hm => .done (represents_integer hm)
    · rename_i proper
      rw [decide_eq_true_eq] at proper
      have more : b ≠ 1 := fun one => proper (by rw [second, one, mul_one])
      refine product.bind fun tmp1 htmp => ?_
      refine (denominator.produces_integerDivide_of_dvd hg positive.ne' ⟨b, second⟩).bind fun tmp2 htmp' => ?_
      rw [second, Int.mul_ediv_cancel_left b positive.ne'] at htmp'
      exact .done (represents_fraction htmp htmp' (by omega) coprime' reduced)

/-- `infix "@*"` is the product, where the divisor shared with the denominator fits in 64 bits. -/
theorem Represents.produces_multiplyInteger64 (h : a.Represents q) {other : BitVec 64}
    (fits : InInteger64 (Int.gcd other.toInt q.den)) :
    Produces (a.multiplyInteger64 other) (·.Represents (q * other.toInt)) := by
  cases a with
  | integer n =>
    obtain ⟨x, represents, rfl⟩ := h.integer_eq
    refine (represents.produces_multiplyInteger64 other).bind fun m hm => .done ?_
    rw [← Int.cast_mul]
    exact represents_integer hm
  | fraction n d =>
    obtain ⟨x, y, numerator, denominator, two, coprime, value⟩ := h.fraction_terms
    obtain ⟨-, den⟩ := LowestTerms.num_den_of_isCoprime (by omega) coprime value
    rw [den] at fits
    exact (produces_gcdInteger64 denominator two other).bind fun g hg =>
      produces_multiplyByInteger64 numerator denominator two coprime value hg fits

/-- `infix "@*"` has no result where the divisor shared with the denominator does not fit in 64 bits. -/
theorem Represents.undefined_multiplyInteger64 (h : a.Represents q) {other : BitVec 64}
    (large : ¬InInteger64 (Int.gcd other.toInt q.den)) :
    ProducesIfDefined (a.multiplyInteger64 other) fun _ => False := by
  cases a with
  | integer n =>
    refine absurd ?_ large
    rw [h.1, Nat.cast_one, Int.gcd_one_right]
    decide
  | fraction n d =>
    obtain ⟨x, y, numerator, denominator, two, coprime, value⟩ := h.fraction_terms
    obtain ⟨-, den⟩ := LowestTerms.num_den_of_isCoprime (by omega) coprime value
    rw [den] at large
    refine CommandProgram.ProducesIfDefined.bind (produces_gcdInteger64 denominator two other).ifDefined ?_
    intro g hg
    cases g with
    | integer64 g64 => exact absurd (hg.integer64_iff.mp ⟨g64, rfl⟩) large
    | bigInteger g => exact .bind (P := fun _ => False) .undefined fun _ no => no.elim

theorem Represents.producesIfDefined_multiplyInteger64 (h : a.Represents q) (other : BitVec 64) :
    ProducesIfDefined (a.multiplyInteger64 other) (·.Represents (q * other.toInt)) := by
  rcases Decidable.em (InInteger64 (Int.gcd other.toInt q.den)) with fits | large
  · exact (h.produces_multiplyInteger64 fits).ifDefined
  · exact (h.undefined_multiplyInteger64 large).mono fun _ no => no.elim

/-- A NUMBER that is an integer or a fraction by its denominator. -/
theorem represents_of_denominator (numerator : n.Represents x) (denominator : d.Represents y) (positive : 0 < y)
    (coprime : IsCoprime x y) (value : q * y = x) :
    (if d.isOne then integer n else fraction n d).Represents q := by
  rw [denominator.isOne_eq]
  split
  · rename_i one
    rw [of_decide_eq_true one, Int.cast_one, mul_one] at value
    rw [value]
    exact represents_integer numerator
  · rename_i more
    rw [decide_eq_true_eq] at more
    exact represents_fraction numerator denominator (by omega) coprime value

theorem Represents.produces_multiplyWithBigIntegerNumber (h : a.Represents q) {other : BigIntegerNumber}
    (h' : other.Represents x') : Produces (a.multiplyWithBigIntegerNumber other) (·.Represents (q * x')) := by
  have represents' : (IntegerGeneralNumber.bigInteger other).Represents x' := h'
  cases a with
  | integer n =>
    obtain ⟨x, represents, rfl⟩ := h.integer_eq
    rw [mul_comm, ← Int.cast_mul]
    exact (represents'.produces_multiply represents).bind fun m hm => .done (represents_integer hm)
  | fraction n d =>
    obtain ⟨x, y, numerator, denominator, two, coprime, value⟩ := h.fraction_terms
    obtain ⟨g, c, b, gcd, positive, first, second, split⟩ :=
      LowestTerms.gcd_split (x := x') (show y ≠ 0 by omega)
    have above : 0 < b := (mul_pos_iff_of_pos_left positive).mp (by omega)
    refine (represents'.produces_gcd_of_pos denominator (by omega)).bind fun g' hg => ?_
    rw [gcd] at hg
    refine (denominator.produces_integerDivide_of_dvd hg positive.ne' ⟨b, second⟩).bind fun d' hd => ?_
    refine (represents'.produces_integerDivide_of_dvd hg positive.ne' ⟨c, first⟩).bind fun factor hfactor => ?_
    rw [second, Int.mul_ediv_cancel_left b positive.ne'] at hd
    rw [first, Int.mul_ediv_cancel_left c positive.ne'] at hfactor
    refine (numerator.produces_multiply hfactor).bind fun n' hn => ?_
    have coprime' : IsCoprime (x * c) b :=
      IsCoprime.mul_left (coprime.of_isCoprime_of_dvd_right (second ▸ dvd_mul_left b g)) split
    have reduced : q * x' * b = (x * c : ℤ) := by
      rw [second] at value
      rw [first]
      push_cast at value ⊢
      linear_combination value * c
    have whole := represents_of_denominator hn hd above coprime' reduced
    split
    · rename_i one
      rw [if_pos one] at whole
      exact .done whole
    · rename_i more
      rw [if_neg more] at whole
      exact .done whole

/-- Two fractions, of which each numerator is divided by what it shares with the other denominator. -/
theorem Represents.produces_multiplyFractions (h : (fraction n d).Represents q)
    (h' : (fraction n' d').Represents r) :
    Produces (multiplyFractions n d n' d') (·.Represents (q * r)) := by
  obtain ⟨x, y, numerator, denominator, two, coprime, value⟩ := h.fraction_terms
  obtain ⟨x', y', numerator', denominator', two', coprime', value'⟩ := h'.fraction_terms
  obtain ⟨g₁, a, b', gcd₁, positive₁, first, second', split₁⟩ :=
    LowestTerms.gcd_split (x := x) (show y' ≠ 0 by omega)
  obtain ⟨g₂, b, a', gcd₂, positive₂, second, first', split₂⟩ :=
    LowestTerms.gcd_split (x := y) (LowestTerms.ne_zero_of_isCoprime coprime' two')
  have above : 0 < b := (mul_pos_iff_of_pos_left positive₂).mp (by omega)
  have above' : 0 < b' := (mul_pos_iff_of_pos_left positive₁).mp (by omega)
  refine (numerator.produces_gcd_of_pos denominator' (by omega)).bind fun g1 hg₁ => ?_
  refine (denominator.produces_gcd_of_pos_left numerator' (by omega)).bind fun g2 hg₂ => ?_
  rw [gcd₁] at hg₁
  rw [gcd₂] at hg₂
  refine (numerator.produces_integerDivide_of_dvd hg₁ positive₁.ne' ⟨a, first⟩).bind fun left hleft => ?_
  refine (numerator'.produces_integerDivide_of_dvd hg₂ positive₂.ne' ⟨a', first'⟩).bind fun right hright => ?_
  rw [first, Int.mul_ediv_cancel_left a positive₁.ne'] at hleft
  rw [first', Int.mul_ediv_cancel_left a' positive₂.ne'] at hright
  refine (hleft.produces_multiply hright).bind fun num hnum => ?_
  refine (denominator.produces_integerDivide_of_dvd hg₂ positive₂.ne' ⟨b, second⟩).bind fun left hleft => ?_
  refine (denominator'.produces_integerDivide_of_dvd hg₁ positive₁.ne' ⟨b', second'⟩).bind
    fun right hright => ?_
  rw [second, Int.mul_ediv_cancel_left b positive₂.ne'] at hleft
  rw [second', Int.mul_ediv_cancel_left b' positive₁.ne'] at hright
  refine (hleft.produces_multiply hright).bind fun den hden => ?_
  have reduced : q * r * (b * b' : ℤ) = (a * a' : ℤ) := by
    apply mul_left_cancel₀ (Int.cast_ne_zero.mpr (mul_pos positive₁ positive₂).ne' : ((g₁ * g₂ : ℤ) : ℚ) ≠ 0)
    rw [first, second] at value
    rw [first', second'] at value'
    push_cast at value value' ⊢
    linear_combination value * (r * (g₁ * b')) + g₁ * a * value'
  have lowest : IsCoprime (a * a') (b * b') := by
    rw [first, second] at coprime
    rw [first', second'] at coprime'
    have left : IsCoprime a b := IsCoprime.of_mul_left_right (IsCoprime.of_mul_right_right coprime)
    have right : IsCoprime a' b' := IsCoprime.of_mul_left_right (IsCoprime.of_mul_right_right coprime')
    exact IsCoprime.mul_left (left.mul_right split₁) (split₂.symm.mul_right right)
  have whole := represents_of_denominator hnum hden (mul_pos above above') lowest reduced
  split
  · rename_i one
    rw [if_pos one] at whole
    exact .done whole
  · rename_i more
    rw [if_neg more] at whole
    exact .done whole

/-- What cuts a factor or leaves a product undefined does not happen: the divisor that an INTEGER_64 shares with
a denominator fits in 64 bits, and the INTEGER_64 that a fraction is multiplied by fits in 32 bits. -/
def MultipliesExactly (q r : ℚ) : Prop :=
  (q.den = 1 → InInteger64 q.num → r.den ≠ 1 → q ≠ 0 → InInteger64 (Int.gcd q.num r.den)) ∧
    (q.den ≠ 1 → r.den = 1 → InInteger64 r.num → InInteger32 r.num ∧ InInteger64 (Int.gcd r.num q.den))

instance (q r : ℚ) : Decidable (MultipliesExactly q r) :=
  inferInstanceAs (Decidable ((_ → _ → _ → _ → _) ∧ (_ → _ → _ → _)))

theorem toInt_truncate32 (value : BitVec 64) : (truncate32 value).toInt = value.toInt.bmod (2 ^ 32) := by
  rw [truncate32, BitVec.toInt_signExtend_of_le (by decide), BitVec.truncate_eq_setWidth, BitVec.toInt_setWidth,
    BitVec.toInt_eq_toNat_cond, Int.bmod_def, Int.bmod_def]
  split <;> split <;> omega

/-- An INTEGER_64 is kept when it fits in 32 bits. -/
theorem truncate32_eq_iff (value : BitVec 64) : truncate32 value = value ↔ InInteger32 value.toInt := by
  rw [← BitVec.toInt_inj, toInt_truncate32]
  unfold InInteger32
  rw [Int.bmod_def]
  split <;> omega

/-- `infix "*"` is the product, where nothing is cut. -/
theorem Represents.produces_multiply (h : a.Represents q) (h' : b.Represents r) (exact : MultipliesExactly q r) :
    Produces (a.multiply b) (·.Represents (q * r)) := by
  cases a with
  | integer m =>
    obtain ⟨x, represents, rfl⟩ := h.integer_eq
    rw [mul_comm]
    cases m with
    | integer64 value =>
      have same : value.toInt = x := represents
      change Produces (if value = 0 then pure zero else b.multiplyInteger64 value) _
      split
      · rename_i none
        rw [← same, Integer64.eq_zero_iff.mp none, Int.cast_zero, mul_zero]
        exact .done (represents_integer IntegerGeneralNumber.represents_zero)
      · rename_i some
        rw [← same]
        refine h'.produces_multiplyInteger64 ?_
        rcases Decidable.em (r.den = 1) with whole | proper
        · rw [whole, Nat.cast_one, Int.gcd_one_right]
          decide
        · have nonzero : (x : ℚ) ≠ 0 :=
            Int.cast_ne_zero.mpr fun zero => some (Integer64.eq_zero_iff.mpr (same.trans zero))
          have fits := exact.1 (Rat.den_intCast x)
          rw [Rat.num_intCast, ← same] at fits
          exact fits (inInteger64_toInt value) proper (same ▸ nonzero)
    | bigInteger m => exact h'.produces_multiplyWithBigIntegerNumber represents
  | fraction n d =>
    cases b with
    | integer m =>
      obtain ⟨x, represents, rfl⟩ := h'.integer_eq
      cases m with
      | integer64 value =>
        have same : value.toInt = x := represents
        have fits := exact.2 h.1 (Rat.den_intCast x)
        rw [Rat.num_intCast, ← same] at fits
        obtain ⟨short, small⟩ := fits (inInteger64_toInt value)
        change Produces ((fraction n d).multiplyInteger64 (truncate32 value)) _
        rw [(truncate32_eq_iff value).mpr short, ← same]
        exact h.produces_multiplyInteger64 small
      | bigInteger m => exact h.produces_multiplyWithBigIntegerNumber represents
    | fraction n' d' =>
      rw [mul_comm]
      exact h'.produces_multiplyFractions h

theorem Represents.producesIfDefined_multiply (h : a.Represents q) (h' : b.Represents r) :
    ProducesIfDefined (a.multiply b) fun c => ∃ p, c.Represents p := by
  cases a with
  | integer m =>
    obtain ⟨x, represents, rfl⟩ := h.integer_eq
    cases m with
    | integer64 value =>
      change ProducesIfDefined (if value = 0 then pure zero else b.multiplyInteger64 value) _
      split
      · exact .done ⟨_, represents_integer IntegerGeneralNumber.represents_zero⟩
      · exact (h'.producesIfDefined_multiplyInteger64 value).mono fun c hc => ⟨_, hc⟩
    | bigInteger m =>
      exact (h'.produces_multiplyWithBigIntegerNumber represents).ifDefined.mono fun c hc => ⟨_, hc⟩
  | fraction n d =>
    cases b with
    | integer m =>
      obtain ⟨x, represents, rfl⟩ := h'.integer_eq
      cases m with
      | integer64 value =>
        exact (h.producesIfDefined_multiplyInteger64 (truncate32 value)).mono fun c hc => ⟨_, hc⟩
      | bigInteger m =>
        exact (h.produces_multiplyWithBigIntegerNumber represents).ifDefined.mono fun c hc => ⟨_, hc⟩
    | fraction n' d' => exact (h'.produces_multiplyFractions h).ifDefined.mono fun c hc => ⟨_, hc⟩

/-- Where something is cut, there is no product or another one. -/
theorem Represents.multipliesExactly_of_run (h : a.Represents q) (h' : b.Represents r) :
    ProducesIfDefined (a.multiply b) fun c => c.Represents (q * r) → MultipliesExactly q r := by
  cases a with
  | integer m =>
    obtain ⟨x, represents, rfl⟩ := h.integer_eq
    cases m with
    | integer64 value =>
      have same : value.toInt = x := represents
      change ProducesIfDefined (if value = 0 then pure zero else b.multiplyInteger64 value) _
      split
      · rename_i none
        have zero : (x : ℚ) = 0 := by rw [← same, Integer64.eq_zero_iff.mp none, Int.cast_zero]
        exact .done fun _ => ⟨fun _ _ _ some => absurd zero some, fun other => absurd (Rat.den_intCast x) other⟩
      · rcases Decidable.em (InInteger64 (Int.gcd value.toInt r.den)) with fits | large
        · refine (h'.producesIfDefined_multiplyInteger64 value).mono fun c _ _ => ?_
          rw [same] at fits
          exact ⟨fun _ _ _ _ => by rwa [Rat.num_intCast], fun other => absurd (Rat.den_intCast x) other⟩
        · exact (h'.undefined_multiplyInteger64 large).mono fun _ no => no.elim
    | bigInteger m =>
      have large := BigIntegerNumber.Represents.large represents
      refine (h'.produces_multiplyWithBigIntegerNumber represents).ifDefined.mono fun c _ _ => ?_
      exact ⟨fun _ inside => absurd (Rat.num_intCast x ▸ inside) large,
        fun other => absurd (Rat.den_intCast x) other⟩
  | fraction n d =>
    cases b with
    | integer m =>
      obtain ⟨x, represents, rfl⟩ := h'.integer_eq
      cases m with
      | integer64 value =>
        have same : value.toInt = x := represents
        rcases Decidable.em (InInteger64 (Int.gcd (truncate32 value).toInt q.den)) with fits | large
        · refine (h.producesIfDefined_multiplyInteger64 (truncate32 value)).mono fun c cut exact => ?_
          have some : q ≠ 0 := fun zero => h.1 (by rw [zero]; rfl)
          have product := mul_left_cancel₀ some (cut.value_eq.symm.trans exact.value_eq)
          have short : truncate32 value = value :=
            BitVec.eq_of_toInt_eq ((Int.cast_inj.mp product).trans same.symm)
          rw [short, same] at fits
          refine ⟨fun whole => absurd whole h.1, fun _ _ _ => ?_⟩
          exact ⟨same ▸ (truncate32_eq_iff value).mp short, fits⟩
        · exact (h.undefined_multiplyInteger64 large).mono fun _ no => no.elim
      | bigInteger m =>
        have large := BigIntegerNumber.Represents.large represents
        refine (h.produces_multiplyWithBigIntegerNumber represents).ifDefined.mono fun c _ _ => ?_
        exact ⟨fun whole => absurd whole h.1, fun _ _ inside => absurd (Rat.num_intCast x ▸ inside) large⟩
    | fraction n' d' =>
      refine (h'.produces_multiplyFractions h).ifDefined.mono fun c _ _ => ?_
      exact ⟨fun whole => absurd whole h.1, fun _ whole => absurd whole h'.1⟩

/-! ## Reciprocals -/

/-- The reciprocal of a fraction in lowest terms is one. -/
theorem represents_inverse (numerator : n.Represents x) (denominator : d.Represents y) (two : 2 ≤ x)
    (coprime : IsCoprime x y) (value : q * y = x) : (fraction d n).Represents q⁻¹ := by
  refine represents_fraction denominator numerator two coprime.symm ?_
  have some : q ≠ 0 := by
    intro zero
    rw [zero, zero_mul] at value
    have := Int.cast_eq_zero.mp value.symm
    omega
  rw [← value, inv_mul_cancel_left₀ some]

theorem Represents.produces_inverseFraction (h : (fraction n d).Represents q) :
    Produces (inverseFraction n d) (·.Represents q⁻¹) := by
  obtain ⟨x, y, numerator, denominator, two, coprime, value⟩ := h.fraction_terms
  have some := LowestTerms.ne_zero_of_isCoprime coprime two
  unfold inverseFraction
  rw [numerator.isOne_eq]
  split
  · rename_i one
    rw [of_decide_eq_true one, Int.cast_one] at value
    rw [inv_eq_of_mul_eq_one_right value]
    exact .done (represents_integer denominator)
  · rename_i more
    rw [decide_eq_true_eq] at more
    have opposite : (IntegerGeneralNumber.integer64 (-1)).Represents (-1) := Integer64.toInt_neg_one
    refine CommandProgram.Produces.bind (.read fun _ => ⟨_, numerator.isEqual_eq opposite, rfl⟩) ?_
    intro test equal
    subst equal
    split
    · rename_i least
      refine denominator.produces_negate.bind fun m hm => .done ?_
      rw [of_decide_eq_true least] at value
      rw [inv_eq_of_mul_eq_one_right (b := ((-y : ℤ) : ℚ)) (by push_cast at value ⊢; linear_combination -value)]
      exact represents_integer hm
    · rename_i other
      rw [decide_eq_true_eq] at other
      rw [numerator.isNegative_eq]
      split
      · rename_i negative
        have negative := of_decide_eq_true negative
        refine denominator.produces_negate.bind fun tmp1 htmp => numerator.produces_negate.bind fun tmp2 htmp' => ?_
        refine .done (represents_inverse htmp' htmp (by omega) coprime.neg_neg ?_)
        push_cast
        linear_combination -value
      · rename_i nonneg
        rw [decide_eq_true_eq] at nonneg
        exact .done (represents_inverse numerator denominator (by omega) coprime value)

theorem Represents.produces_inverse (h : a.Represents q) (nonzero : q ≠ 0) :
    Produces a.inverse (·.Represents q⁻¹) := by
  have negativeOne : (IntegerGeneralNumber.integer64 (-1)).Represents (-1) := Integer64.toInt_neg_one
  cases a with
  | integer m =>
    obtain ⟨x, represents, rfl⟩ := h.integer_eq
    rw [Int.cast_ne_zero] at nonzero
    cases m with
    | integer64 value =>
      have same : value.toInt = x := represents
      change Produces (if value = 1 ∨ value = -1 then pure (integer (.integer64 value)) else _) _
      split
      · rename_i unit
        refine .done ?_
        rcases unit with one | one
        · have one : x = 1 := by rw [← same, one, Integer64.toInt_one]
          subst one
          rw [Int.cast_one, inv_one, ← Int.cast_one]
          exact represents_integer represents
        · have one : x = -1 := by rw [← same, one, Integer64.toInt_neg_one]
          subst one
          rw [Int.cast_neg, Int.cast_one, inv_neg, inv_one, ← Int.cast_one, ← Int.cast_neg]
          exact represents_integer represents
      · rename_i more
        rw [not_or] at more
        have notOne : x ≠ 1 := fun one => more.1 (BitVec.eq_of_toInt_eq (same.trans one))
        have notOpposite : x ≠ -1 := fun one => more.2 (Integer64.eq_neg_one_iff.mpr (same.trans one))
        split
        · refine represents.produces_negate.bind fun tmp htmp => .done ?_
          refine represents_inverse htmp negativeOne (by omega) ?_ ?_
          · exact isCoprime_one_right.neg_right
          · push_cast
            ring
        · refine .done (represents_inverse represents IntegerGeneralNumber.represents_one (by omega) ?_ ?_)
          · exact isCoprime_one_right
          · rw [Int.cast_one, mul_one]
    | bigInteger m =>
      have large : ¬InInteger64 x := BigIntegerNumber.Represents.large represents
      unfold InInteger64 at large
      have improper : ∀ z : ℤ, 9223372036854775808 ≤ z → ¬z ∣ 1 ∧ ¬z ∣ -1 := by
        intro z least
        rw [Int.dvd_neg, and_self]
        intro divides
        have := Int.le_of_dvd one_pos divides
        omega
      change Produces (if m.negative then _ else _) _
      split
      · rename_i negative
        have negative := (BigIntegerNumber.Represents.negative_iff represents).mp negative
        refine (BigIntegerNumber.Represents.produces_negate represents).bind fun tmp htmp => ?_
        refine produces_makeFraction negativeOne htmp (by omega) (improper _ (by omega)).2 ?_
          (negativeOne.produces_gcd_of_pos htmp (by omega))
        push_cast
        rw [mul_neg, inv_mul_cancel₀ (Int.cast_ne_zero.mpr nonzero)]
      · rename_i nonneg
        have nonneg := mt (BigIntegerNumber.Represents.negative_iff represents).mpr nonneg
        refine produces_makeFraction IntegerGeneralNumber.represents_one represents (by omega)
          (improper _ (by omega)).1 ?_
          (IntegerGeneralNumber.represents_one.produces_gcd_of_pos represents (by omega))
        rw [inv_mul_cancel₀ (Int.cast_ne_zero.mpr nonzero), Int.cast_one]
  | fraction n d => exact h.produces_inverseFraction

theorem Represents.producesIfDefined_divide (h : a.Represents q) (h' : b.Represents r) (nonzero : r ≠ 0) :
    ProducesIfDefined (a.divide b) fun c => ∃ p, c.Represents p :=
  CommandProgram.ProducesIfDefined.bind (h'.produces_inverse nonzero).ifDefined fun _ hinverse =>
    h.producesIfDefined_multiply hinverse

end ExactNumber

end Liberty
