import Liberty.Library.LowestTerms
import Liberty.Numeric.Number.IntegerArithmetic

/-!
# NUMBER

A NUMBER is an integer, or a fraction of two integers.  `Represents` is the canonical form: the numerator
and the denominator of a fraction are those of the rational number in lowest terms, and its denominator is
not 1.  Two canonical NUMBERs are `is_equal` exactly when they are the same rational number, and then their
`hash_code` is the same.
-/

namespace Liberty

open MutableBigInteger

/-! ## The source -/

/-- A NUMBER: an INTEGER_GENERAL_NUMBER or a FRACTION_WITH_BIG_INTEGER_NUMBER. -/
inductive ExactNumber
  | integer (n : IntegerGeneralNumber)
  | fraction (numerator denominator : IntegerGeneralNumber)

namespace ExactNumber

open IntegerGeneralNumber

def zero : ExactNumber :=
  integer (integer64 0)

def one : ExactNumber :=
  integer (integer64 1)

def numerator : ExactNumber → IntegerGeneralNumber
  | integer n => n
  | fraction numerator _ => numerator

def denominator : ExactNumber → IntegerGeneralNumber
  | integer _ => integer64 1
  | fraction _ denominator => denominator

def isZero : ExactNumber → Bool
  | integer n => n.isZero
  | fraction _ _ => false

def isOne : ExactNumber → Bool
  | integer n => n.isOne
  | fraction _ _ => false

def isNegative (a : ExactNumber) : Bool :=
  a.numerator.isNegative

def isEqual : ExactNumber → ExactNumber → Option Bool
  | integer n, integer n2 => n.isEqual n2
  | fraction n d, fraction n2 d2 => do
      if ← d.isEqual d2 then n.isEqual n2 else return false
  | integer _, fraction _ _ | fraction _ _, integer _ => some false

def hashCode : ExactNumber → Option Word
  | integer n => n.hashCode
  | fraction n d => do
      let result := (← n.hashCode) + (← d.hashCode)
      return if result.toInt < 0 then ~~~result else result

/-! ### Fractions from integers -/

/-- `make` of FRACTION_WITH_BIG_INTEGER_NUMBER -/
def makeFraction (n d : IntegerGeneralNumber) : Calculation ExactNumber := do
  let gcdFrac ← n.gcd d
  let num ← n.integerDivide gcdFrac
  let den ← d.integerDivide gcdFrac
  if den.isNegative then
    let num ← num.negate
    let den ← den.negate
    return fraction num den
  else
    return fraction num den

def fromTwoIntegerGeneralNumber (n d : IntegerGeneralNumber) : Calculation ExactNumber := do
  let r ← n.remainder d
  if r.isZero then
    let q ← n.integerDivide d
    return integer q
  else
    makeFraction n d

/-! ### Opposites and sums -/

/-- `prefix "-"` -/
def negate : ExactNumber → Calculation ExactNumber
  | integer n => do return integer (← n.negate)
  | fraction n d => do return fraction (← n.negate) d

def abs (a : ExactNumber) : Calculation ExactNumber :=
  if a.isNegative then a.negate else pure a

/-- `infix "@+"` -/
def addInteger64 (a : ExactNumber) (other : BitVec 64) : Calculation ExactNumber :=
  match a with
  | integer n => do return integer (← n.addInteger64 other)
  | fraction n d => do
      let product ← d.multiplyInteger64 other
      let tmp ← product.add n
      return fraction tmp d

/-- `infix "@-"` -/
def subtractInteger64 (a : ExactNumber) (other : BitVec 64) : Calculation ExactNumber :=
  if other = Integer64.minimum then do
    let result ← a.addInteger64 1
    result.addInteger64 Integer64.maximum
  else
    a.addInteger64 (-other)

def addWithBigIntegerNumber (a : ExactNumber) (other : BigIntegerNumber) : Calculation ExactNumber :=
  match a with
  | integer n => do return integer (← n.addWithBigIntegerNumber other)
  | fraction n d => do
      let product ← (bigInteger other).multiply d
      let tmp ← product.add n
      fromTwoIntegerGeneralNumber tmp d

/-- `add_with_fraction_with_big_integer_number` of two fractions -/
def addFractions (n d n' d' : IntegerGeneralNumber) : Calculation ExactNumber := do
  if ← .read fun _ => d.isEqual d' then
    let newNum ← n.add n'
    if newNum.isZero then
      return zero
    else
      let g ← newNum.gcd d
      if ← .read fun _ => d.isEqual g then
        let q ← newNum.integerDivide g
        return integer q
      else
        let newNum ← newNum.integerDivide g
        let newDen ← d.integerDivide g
        return fraction newNum newDen
  else
    let dg ← d.gcd d'
    let d1 ← d.integerDivide dg
    let d2 ← d'.integerDivide dg
    let left ← n.multiply d2
    let right ← n'.multiply d1
    let newNum ← left.add right
    if newNum.isZero then
      return integer newNum
    else
      let newDen ← d.multiply d2
      let g ← newNum.gcd dg
      if g.isOne then
        return fraction newNum newDen
      else
        let newNum ← newNum.integerDivide g
        let newDen ← newDen.integerDivide g
        return fraction newNum newDen

/-- `add_with_fraction_with_big_integer_number`, where `other` is the fraction `n` / `d` -/
def addWithFraction (a : ExactNumber) (n d : IntegerGeneralNumber) : Calculation ExactNumber :=
  match a with
  | integer (integer64 value) => (fraction n d).addInteger64 value
  | integer (bigInteger b) => (fraction n d).addWithBigIntegerNumber b
  | fraction n' d' => addFractions n' d' n d

/-- `infix "+"` -/
def add (a other : ExactNumber) : Calculation ExactNumber :=
  match a with
  | integer (integer64 value) => other.addInteger64 value
  | integer (bigInteger b) => other.addWithBigIntegerNumber b
  | fraction n d => other.addWithFraction n d

/-- `infix "-"` -/
def subtract (a other : ExactNumber) : Calculation ExactNumber := do
  let opposite ← other.negate
  a.add opposite

/-! ### Products -/

/-- `infix "@*"` -/
def multiplyInteger64 (a : ExactNumber) (other : BitVec 64) : Calculation ExactNumber :=
  match a with
  | integer n => do return integer (← n.multiplyInteger64 other)
  | fraction n d => do
      let g ← d.gcd (integer64 other)
      if g.isOne then
        let tmp1 ← n.multiplyInteger64 other
        return fraction tmp1 d
      else
        let g64 ← g.toInteger64
        let factor ← .read fun _ => Integer64.quotient other g64
        if ← .read fun _ => d.isEqual g then
          let product ← n.multiplyInteger64 factor
          return integer product
        else
          let tmp1 ← n.multiplyInteger64 factor
          let tmp2 ← d.integerDivide g
          return fraction tmp1 tmp2

/-- `to_integer_32` of an INTEGER_64_NUMBER, as an INTEGER_64 again -/
def truncate32 (value : BitVec 64) : BitVec 64 :=
  (value.truncate 32).signExtend 64

def multiplyWithBigIntegerNumber (a : ExactNumber) (other : BigIntegerNumber) : Calculation ExactNumber :=
  match a with
  | integer n => do return integer (← n.multiplyWithBigIntegerNumber other)
  | fraction n d => do
      let g ← (bigInteger other).gcd d
      let d ← d.integerDivide g
      let factor ← (bigInteger other).integerDivide g
      let n ← n.multiply factor
      if d.isOne then return integer n else return fraction n d

/-- `multiply_with_fraction_with_big_integer_number` of two fractions -/
def multiplyFractions (n d n' d' : IntegerGeneralNumber) : Calculation ExactNumber := do
  let g1 ← n.gcd d'
  let g2 ← d.gcd n'
  let left ← n.integerDivide g1
  let right ← n'.integerDivide g2
  let num ← left.multiply right
  let left ← d.integerDivide g2
  let right ← d'.integerDivide g1
  let den ← left.multiply right
  if den.isOne then return integer num else return fraction num den

/-- `multiply_with_fraction_with_big_integer_number`, where `other` is the fraction `n` / `d` -/
def multiplyWithFraction (a : ExactNumber) (n d : IntegerGeneralNumber) : Calculation ExactNumber :=
  match a with
  | integer (integer64 value) => (fraction n d).multiplyInteger64 (truncate32 value)
  | integer (bigInteger b) => (fraction n d).multiplyWithBigIntegerNumber b
  | fraction n' d' => multiplyFractions n' d' n d

/-- `infix "*"` -/
def multiply (a other : ExactNumber) : Calculation ExactNumber :=
  match a with
  | integer (integer64 value) => if value = 0 then pure zero else other.multiplyInteger64 value
  | integer (bigInteger b) => other.multiplyWithBigIntegerNumber b
  | fraction n d => other.multiplyWithFraction n d

/-! ### Quotients -/

/-- `inverse` of a fraction -/
def inverseFraction (n d : IntegerGeneralNumber) : Calculation ExactNumber :=
  if n.isOne then pure (integer d)
  else do
    if ← .read fun _ => n.isEqual (integer64 (-1)) then
      return integer (← d.negate)
    else if n.isNegative then
      let tmp1 ← d.negate
      let tmp2 ← n.negate
      return fraction tmp1 tmp2
    else
      return fraction d n

def inverse (a : ExactNumber) : Calculation ExactNumber :=
  match a with
  | integer (integer64 value) =>
    if value = 1 ∨ value = -1 then pure a
    else if value.toInt < 0 then do return fraction (integer64 (-1)) (← (integer64 value).negate)
    else pure (fraction (integer64 1) (integer64 value))
  | integer (bigInteger n) =>
    if n.negative then do
      let tmp ← n.negate
      makeFraction (integer64 (-1)) tmp
    else
      makeFraction (integer64 1) (bigInteger n)
  | fraction n d => inverseFraction n d

/-- `infix "/"` -/
def divide (a other : ExactNumber) : Calculation ExactNumber := do
  let inverse ← other.inverse
  a.multiply inverse

/-- `infix "@/"` of an INTEGER_64_NUMBER -/
def divideInteger64Number (value other : BitVec 64) : Calculation ExactNumber :=
  if value = 0 ∨ other = 1 then pure (integer (integer64 value))
  else if other = -1 then do return integer (← (integer64 value).negate)
  else do
    let g ← .read fun _ => Integer64.gcd value other
    if g = 1 then
      if other.toInt < 0 then
        let n ← (integer64 value).negate
        let d ← (integer64 other).negate
        return fraction n d
      else
        return fraction (integer64 value) (integer64 other)
    else if other = g ∨ other = -g then
      let q ← .read fun _ => Integer64.quotient value other
      return integer (integer64 q)
    else
      let d ← .read fun _ => Integer64.quotient other g
      let n ← .read fun _ => Integer64.quotient value g
      if other.toInt < 0 then return fraction (integer64 (-n)) (integer64 (-d))
      else return fraction (integer64 n) (integer64 d)

/-- `infix "@/"` of a fraction -/
def divideFractionInteger64 (n d : IntegerGeneralNumber) (other : BitVec 64) : Calculation ExactNumber :=
  if other = 1 then pure (fraction n d)
  else if other = -1 then (fraction n d).negate
  else do
    let g ← n.gcd (integer64 other)
    if g.isOne then
      let product ← d.multiplyInteger64 other
      if other.toInt < 0 then
        let tmp1 ← n.negate
        let tmp2 ← product.negate
        return fraction tmp1 tmp2
      else
        return fraction n product
    else
      let quotient ← n.integerDivide g
      let g64 ← g.toInteger64
      let factor ← .read fun _ => Integer64.quotient other g64
      if other.toInt < 0 then
        let tmp1 ← quotient.negate
        let opposite ← d.negate
        let tmp2 ← opposite.multiplyInteger64 factor
        return fraction tmp1 tmp2
      else
        let tmp2 ← d.multiplyInteger64 factor
        return fraction quotient tmp2

/-- `infix "@/"` -/
def divideInteger64 (a : ExactNumber) (other : BitVec 64) : Calculation ExactNumber :=
  match a with
  | integer (integer64 value) => divideInteger64Number value other
  | integer (bigInteger n) => fromTwoIntegerGeneralNumber (bigInteger n) (integer64 other)
  | fraction n d => divideFractionInteger64 n d other

/-! ## Canonical form -/

/-- The rational number that a NUMBER is, in canonical form or not. -/
def value : ExactNumber → ℚ
  | integer n => n.value
  | fraction n d => n.value / d.value

/-- A NUMBER in canonical form, and the rational number that it is. -/
def Represents : ExactNumber → ℚ → Prop
  | integer n, q => q.den = 1 ∧ n.Represents q.num
  | fraction n d, q => q.den ≠ 1 ∧ n.Represents q.num ∧ d.Represents q.den

section Canonical

variable {a b : ExactNumber} {n d : IntegerGeneralNumber} {x y : ℤ} {q r : ℚ}

theorem represents_integer (h : n.Represents x) : (integer n).Represents x :=
  ⟨Rat.den_intCast x, by rwa [Rat.num_intCast]⟩

theorem Represents.integer_eq (h : (integer n).Represents q) : ∃ x : ℤ, n.Represents x ∧ q = x :=
  ⟨q.num, h.2, (Rat.den_eq_one_iff q).mp h.1 |>.symm⟩

theorem represents_fraction (numerator : n.Represents x) (denominator : d.Represents y) (two : 2 ≤ y)
    (coprime : IsCoprime x y) (value : q * y = x) : (fraction n d).Represents q := by
  obtain ⟨num, den⟩ := LowestTerms.num_den_of_isCoprime (by omega) coprime value
  rw [← num] at numerator
  rw [← den] at denominator
  exact ⟨by omega, numerator, denominator⟩

theorem Represents.fraction_terms (h : (fraction n d).Represents q) :
    ∃ x y : ℤ, n.Represents x ∧ d.Represents y ∧ 2 ≤ y ∧ IsCoprime x y ∧ q * y = x := by
  obtain ⟨proper, numerator, denominator⟩ := h
  have positive := q.den_pos
  refine ⟨q.num, q.den, numerator, denominator, by omega, LowestTerms.isCoprime_num_den q, ?_⟩
  exact Rat.mul_den_eq_num q

/-- A canonical NUMBER is one rational number. -/
theorem Represents.value_eq (h : a.Represents q) : a.value = q := by
  cases a with
  | integer n =>
    obtain ⟨x, represents, rfl⟩ := h.integer_eq
    rw [value, represents.value_eq]
  | fraction n d =>
    obtain ⟨x, y, numerator, denominator, two, -, product⟩ := h.fraction_terms
    have nonzero : (y : ℚ) ≠ 0 := Int.cast_ne_zero.mpr (by omega)
    rw [value, numerator.value_eq, denominator.value_eq]
    exact (eq_div_iff nonzero).mpr product |>.symm

/-! ## Equality -/

/-- `is_equal` compares the rational numbers. -/
theorem Represents.isEqual_eq (h : a.Represents q) (h' : b.Represents r) :
    a.isEqual b = some (decide (q = r)) := by
  cases a with
  | integer n =>
    cases b with
    | integer n' =>
      obtain ⟨x, represents, rfl⟩ := h.integer_eq
      obtain ⟨y, represents', rfl⟩ := h'.integer_eq
      rw [isEqual, represents.isEqual_eq represents']
      simp only [Int.cast_inj]
    | fraction n' d' =>
      have differ : q ≠ r := fun equal => h'.1 (equal ▸ h.1)
      rw [isEqual, decide_eq_false differ]
  | fraction n d =>
    cases b with
    | integer n' =>
      have differ : q ≠ r := fun equal => h.1 (equal ▸ h'.1)
      rw [isEqual, decide_eq_false differ]
    | fraction n' d' =>
      rw [isEqual, h.2.2.isEqual_eq h'.2.2, h.2.1.isEqual_eq h'.2.1]
      have terms : q = r ↔ (q.den : ℤ) = r.den ∧ q.num = r.num := by
        constructor
        · intro equal
          subst equal
          exact ⟨rfl, rfl⟩
        · intro ⟨dens, nums⟩
          exact Rat.ext nums (Int.ofNat_inj.mp dens)
      rcases Decidable.em ((q.den : ℤ) = r.den) with same | differ
      · rw [decide_eq_true same]
        simp only [terms, same, true_and]
        rfl
      · rw [decide_eq_false differ, decide_eq_false fun equal => differ (terms.mp equal).1]
        rfl

/-- The same rational number has the same `hash_code`. -/
theorem Represents.hashCode_eq (h : a.Represents q) (h' : b.Represents q) : a.hashCode = b.hashCode := by
  cases a with
  | integer n =>
    cases b with
    | integer n' => exact h.2.hashCode_eq h'.2
    | fraction n' d' => exact absurd h.1 h'.1
  | fraction n d =>
    cases b with
    | integer n' => exact absurd h'.1 h.1
    | fraction n' d' =>
      simp only [hashCode, h.2.1.hashCode_eq h'.2.1, h.2.2.hashCode_eq h'.2.2]

theorem Represents.returns_hashCode (h : a.Represents q) : ∃ code, a.hashCode = some code := by
  cases a with
  | integer n => exact h.2.returns_hashCode
  | fraction n d =>
    obtain ⟨code, run⟩ := h.2.1.returns_hashCode
    obtain ⟨code', run'⟩ := h.2.2.returns_hashCode
    simp only [hashCode, run, run']
    exact ⟨_, rfl⟩

end Canonical

end ExactNumber

end Liberty
