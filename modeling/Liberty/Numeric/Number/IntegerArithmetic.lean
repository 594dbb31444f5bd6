import Liberty.Numeric.Number.IntegerGeneralNumber

/-!
# Operations of integers

Every operation is dispatched on the class of both integers.  The sums, the products and the divisions by
an INTEGER_64 give the exact integer in canonical form; a number of 64 bits that is divided by a bigger one
gives 0, whatever its sign.
-/

namespace Liberty

open MutableBigInteger Calculation

/-! ## The source -/

/-- The number in the third register after `divide_to`, or the one in the fourth. -/
def Calculation.divideTo (i : ℕ) : Calculation IntegerGeneralNumber := do
  .send (.divideTo 1 2 3 4)
  toIntegerGeneralNumber i

namespace Integer64Number

/-- `prefix "-"` -/
def negate (value : BitVec 64) : Calculation IntegerGeneralNumber :=
  if value = Integer64.minimum then do
    .send (.fromInteger64 1 Integer64.minimum)
    .send (.negate 1)
    toIntegerGeneralNumber 1
  else
    pure (.integer64 (-value))

/-- The sum of two INTEGER_64 does not overflow, as its sign tells. -/
def SumFits (value other : BitVec 64) : Prop :=
  (value.toInt < 0 ↔ other.toInt < 0) → ((value + other).toInt < 0 ↔ value.toInt < 0)

instance (value other : BitVec 64) : Decidable (SumFits value other) :=
  inferInstanceAs (Decidable (_ → _))

/-- `infix "@+"` -/
def addInteger64 (value other : BitVec 64) : Calculation IntegerGeneralNumber :=
  if SumFits value other then
    -- no overflow
    pure (.integer64 (value + other))
  else do
    .send (.fromInteger64 1 value)
    .send (.addInteger64 1 other)
    toIntegerGeneralNumber 1

/-- `infix "@*"` -/
def multiplyInteger64 (value other : BitVec 64) : Calculation IntegerGeneralNumber :=
  if other = 0 ∨ value = 0 then pure (.integer64 0)
  else if other = 1 then pure (.integer64 value)
  else if value = 1 then pure (.integer64 other)
  else do
    .send (.fromInteger64 1 value)
    .send (.fromInteger64 2 other)
    .send (.multiplyTo 1 2 3)
    toIntegerGeneralNumber 3

end Integer64Number

namespace BigIntegerNumber

/-- `prefix "-"` -/
def negate (n : BigIntegerNumber) : Calculation IntegerGeneralNumber := do
  if ← .read fun _ => n.isOppositeOfMinimum then return .integer64 Integer64.minimum
  else return .bigInteger { n with negative := !n.negative }

/-- `infix "@+"` -/
def addInteger64 (n : BigIntegerNumber) (other : BitVec 64) : Calculation IntegerGeneralNumber := do
  (IntegerGeneralNumber.bigInteger n).putIntoMutableBigInteger 1
  .send (.addInteger64 1 other)
  toIntegerGeneralNumber 1

/-- `infix "@*"` -/
def multiplyInteger64 (n : BigIntegerNumber) (other : BitVec 64) : Calculation IntegerGeneralNumber :=
  if other = 0 then pure (.integer64 0)
  else if other = 1 then pure (.bigInteger n)
  else if other = -1 then n.negate
  else do
    (IntegerGeneralNumber.bigInteger n).putIntoMutableBigInteger 1
    .send (.fromInteger64 2 other)
    .send (.multiplyTo 1 2 3)
    toIntegerGeneralNumber 3

def addWithBigIntegerNumber (n other : BigIntegerNumber) : Calculation IntegerGeneralNumber := do
  (IntegerGeneralNumber.bigInteger n).putIntoMutableBigInteger 1
  (IntegerGeneralNumber.bigInteger other).putIntoMutableBigInteger 2
  .send (.add 1 2)
  toIntegerGeneralNumber 1

def multiplyWithBigIntegerNumber (n other : BigIntegerNumber) : Calculation IntegerGeneralNumber := do
  (IntegerGeneralNumber.bigInteger n).putIntoMutableBigInteger 1
  (IntegerGeneralNumber.bigInteger other).putIntoMutableBigInteger 2
  .send (.multiplyTo 1 2 3)
  toIntegerGeneralNumber 3

/-- `integer_divide_integer_64_number`: `other` is the dividend -/
def integerDivideInteger64Number (n : BigIntegerNumber) (other : BitVec 64) :
    Calculation IntegerGeneralNumber := do
  let opposite ← .read fun _ => n.isOppositeOfMinimum
  return if other = Integer64.minimum ∧ opposite then .integer64 (-1) else .integer64 0

def remainderOfDivideInteger64Number (n : BigIntegerNumber) (other : BitVec 64) :
    Calculation IntegerGeneralNumber := do
  let opposite ← .read fun _ => n.isOppositeOfMinimum
  return if other = Integer64.minimum ∧ opposite then .integer64 0 else .integer64 other

/-- `integer_divide_big_integer_number` and `remainder_of_divide_big_integer_number`, of which the result
is in the register `i`: `other` is the dividend -/
def divideBigIntegerNumber (i : ℕ) (n other : BigIntegerNumber) : Calculation IntegerGeneralNumber := do
  (IntegerGeneralNumber.bigInteger n).putIntoMutableBigInteger 2
  (IntegerGeneralNumber.bigInteger other).putIntoMutableBigInteger 1
  Calculation.divideTo i

def integerDivideBigIntegerNumber (n other : BigIntegerNumber) : Calculation IntegerGeneralNumber :=
  n.divideBigIntegerNumber 3 other

def remainderOfDivideBigIntegerNumber (n other : BigIntegerNumber) : Calculation IntegerGeneralNumber :=
  n.divideBigIntegerNumber 4 other

end BigIntegerNumber

namespace IntegerGeneralNumber

/-- `prefix "-"` -/
def negate : IntegerGeneralNumber → Calculation IntegerGeneralNumber
  | integer64 value => Integer64Number.negate value
  | bigInteger n => n.negate

def abs (n : IntegerGeneralNumber) : Calculation IntegerGeneralNumber :=
  if n.isNegative then n.negate else pure n

/-- `infix "@+"` -/
def addInteger64 (n : IntegerGeneralNumber) (other : BitVec 64) : Calculation IntegerGeneralNumber :=
  match n with
  | integer64 value => Integer64Number.addInteger64 value other
  | bigInteger n => n.addInteger64 other

/-- `infix "@*"` -/
def multiplyInteger64 (n : IntegerGeneralNumber) (other : BitVec 64) : Calculation IntegerGeneralNumber :=
  match n with
  | integer64 value => Integer64Number.multiplyInteger64 value other
  | bigInteger n => n.multiplyInteger64 other

/-- `infix "@//"` and `infix "@\\"`, of which the result is in the register `i` -/
def divideInteger64 (i : ℕ) (n : IntegerGeneralNumber) (other : BitVec 64) :
    Calculation IntegerGeneralNumber := do
  n.putIntoMutableBigInteger 1
  .send (.fromInteger64 2 other)
  Calculation.divideTo i

/-- `infix "@//"` -/
def integerDivideInteger64 (n : IntegerGeneralNumber) (other : BitVec 64) :
    Calculation IntegerGeneralNumber :=
  n.divideInteger64 3 other

/-- `infix "@\\"` -/
def remainderInteger64 (n : IntegerGeneralNumber) (other : BitVec 64) : Calculation IntegerGeneralNumber :=
  n.divideInteger64 4 other

def isOdd (n : IntegerGeneralNumber) : Calculation Bool := do
  return (← n.remainderInteger64 2).isOne

def addWithBigIntegerNumber (n : IntegerGeneralNumber) (other : BigIntegerNumber) :
    Calculation IntegerGeneralNumber :=
  match n with
  | integer64 value => other.addInteger64 value
  | bigInteger n => n.addWithBigIntegerNumber other

/-- `infix "+"` -/
def add (n other : IntegerGeneralNumber) : Calculation IntegerGeneralNumber :=
  match n with
  | integer64 value => other.addInteger64 value
  | bigInteger n => other.addWithBigIntegerNumber n

def multiplyWithBigIntegerNumber (n : IntegerGeneralNumber) (other : BigIntegerNumber) :
    Calculation IntegerGeneralNumber :=
  match n with
  | integer64 value => other.multiplyInteger64 value
  | bigInteger n => n.multiplyWithBigIntegerNumber other

/-- `infix "*"` -/
def multiply (n other : IntegerGeneralNumber) : Calculation IntegerGeneralNumber :=
  match n with
  | integer64 value => if value = 0 then pure (integer64 0) else other.multiplyInteger64 value
  | bigInteger n => other.multiplyWithBigIntegerNumber n

/-- `infix "//"` -/
def integerDivide (n other : IntegerGeneralNumber) : Calculation IntegerGeneralNumber :=
  match n, other with
  | integer64 value, bigInteger other => other.integerDivideInteger64Number value
  | bigInteger n, bigInteger other => other.integerDivideBigIntegerNumber n
  | n, integer64 value => n.integerDivideInteger64 value

/-- `infix "\\"` -/
def remainder (n other : IntegerGeneralNumber) : Calculation IntegerGeneralNumber :=
  match n, other with
  | integer64 value, bigInteger other => other.remainderOfDivideInteger64Number value
  | bigInteger n, bigInteger other => other.remainderOfDivideBigIntegerNumber n
  | n, integer64 value => n.remainderInteger64 value

/-- The greatest common divisor of `n` and `other` in the registers. -/
def gcdInRegisters (n other : IntegerGeneralNumber) : Calculation IntegerGeneralNumber := do
  n.putIntoMutableBigInteger 1
  other.putIntoMutableBigInteger 2
  .send (.gcd 1 2)
  toIntegerGeneralNumber 1

def gcdWithInteger64Number (n : IntegerGeneralNumber) (other : BitVec 64) :
    Calculation IntegerGeneralNumber :=
  match n with
  | integer64 value => do return integer64 (← .read fun _ => Integer64.gcd value other)
  | bigInteger n => (bigInteger n).gcdInRegisters (integer64 other)

def gcdWithBigIntegerNumber (n : IntegerGeneralNumber) (other : BigIntegerNumber) :
    Calculation IntegerGeneralNumber :=
  n.gcdInRegisters (bigInteger other)

def gcd (n other : IntegerGeneralNumber) : Calculation IntegerGeneralNumber :=
  match n with
  | integer64 value => other.gcdWithInteger64Number value
  | bigInteger n => other.gcdWithBigIntegerNumber n

end IntegerGeneralNumber

/-! ## Registers -/

section Registers

variable {α : Type} {n other : IntegerGeneralNumber} {x y : ℤ} {rest : Calculation α} {P : α → Prop}

theorem Calculation.produces_put (h : n.Represents x)
    (next : ∀ w, Ready w → Holds (w.object 1) x → Assures w rest fun a w' => Ready w' ∧ P a) :
    Produces (n.putIntoMutableBigInteger 1 >>= fun _ => rest) P :=
  fun _ ready => (h.assures_put ready (.inl rfl)).bind fun _ w' loads => next w' loads.ready loads.holds

/-- One number in the first register, and another one in the second. -/
theorem Calculation.produces_puts (h : n.Represents x) (h' : other.Represents y)
    (next : ∀ w, Ready w → Holds (w.object 1) x → Holds (w.object 2) y →
      Assures w rest fun a w' => Ready w' ∧ P a) :
    Produces (n.putIntoMutableBigInteger 1 >>= fun _ => other.putIntoMutableBigInteger 2 >>= fun _ => rest)
      P := by
  refine produces_put h fun w ready first => ?_
  refine (h'.assures_put ready (.inr (.inl rfl))).bind fun _ w' loads => ?_
  refine next w' loads.ready ?_ loads.holds
  rw [loads.others 1 (by decide)]
  exact first

/-- The second register may be the first one that is given a number. -/
theorem Calculation.produces_putsReverse (h : n.Represents x) (h' : other.Represents y)
    (next : ∀ w, Ready w → Holds (w.object 1) x → Holds (w.object 2) y →
      Assures w rest fun a w' => Ready w' ∧ P a) :
    Produces (other.putIntoMutableBigInteger 2 >>= fun _ => n.putIntoMutableBigInteger 1 >>= fun _ => rest)
      P := by
  intro w ready
  refine (h'.assures_put ready (.inr (.inl rfl))).bind fun _ w' loads => ?_
  refine (h.assures_put loads.ready (.inl rfl)).bind fun _ w'' loads' => ?_
  refine next w'' loads'.ready loads'.holds ?_
  rw [loads'.others 2 (by decide)]
  exact loads.holds

/-- A command that leaves its result in the register `i`. -/
theorem Calculation.assures_result {w : World} {c : Command} {i : ℕ} {v : ℤ}
    (h : Assures w (.send c) fun _ w' => Loads w i v w') :
    Assures w (do .send c; toIntegerGeneralNumber i) fun n w' => Ready w' ∧ n.Represents v :=
  h.bind fun _ _ loads => assures_toIntegerGeneralNumber loads.ready loads.holds

theorem Calculation.assures_divideTo {w : World} (ready : Ready w) (first : Holds (w.object 1) x)
    (second : Holds (w.object 2) y) (nonzero : y ≠ 0) :
    Assures w (divideTo 3) (fun n w' => Ready w' ∧ n.Represents (x / y)) ∧
      Assures w (divideTo 4) fun n w' => Ready w' ∧ n.Represents (x % y) := by
  have divided := ready.assures_divideTo first second nonzero
  refine ⟨divided.bind fun _ w' divides => ?_, divided.bind fun _ w' divides =>
    assures_toIntegerGeneralNumber divides.ready divides.remainder⟩
  rcases divides.quotient with holds | ⟨zero, none⟩
  · exact assures_toIntegerGeneralNumber divides.ready holds
  · rw [none]
    exact .read ⟨_, toIntegerGeneralNumber_of_zero zero, IntegerGeneralNumber.represents_zero⟩
      fun n represents => ⟨divides.ready, represents⟩

end Registers

/-! ## Exactness -/

namespace BigIntegerNumber

variable {n other : BigIntegerNumber} {x y : ℤ}

/-- Only `2 ^ 63` has the words that are looked at. -/
theorem Represents.isOppositeOfMinimum_eq (h : n.Represents x) :
    n.isOppositeOfMinimum = some (decide (x = 9223372036854775808)) := by
  obtain ⟨k, capacity, top, value, least⟩ := h.words
  have two := h.two_le
  have size := h.size_eq
  have negative := h.negative_iff
  rw [isOppositeOfMinimum]
  split
  · rename_i short
    obtain ⟨sign, length⟩ := short
    obtain rfl : k = 1 := by omega
    have parts : x = unsigned (n.storage.cell 0) + wordBase * unsigned (n.storage.cell 1) := by
      rw [value, sign, signed_false, wordValue_succ', wordValue_succ, wordValue_zero]
      simp
    have less := unsigned_lt (n.storage.cell 0)
    have item : n.storage.item 0 = some (n.storage.cell 0) := if_pos ⟨le_rfl, by omega⟩
    have item' : n.storage.item 1 = some (n.storage.cell 1) := if_pos ⟨by omega, by omega⟩
    rw [item, item', Returns.some_bind]
    unfold wordBase at parts less
    split
    · rename_i zero
      rw [zero, unsigned_zero] at parts
      rw [Returns.some_bind]
      congr 1
      rw [Bool.eq_iff_iff, beq_iff_eq, eq_minimum_iff, decide_eq_true_eq]
      omega
    · rename_i some
      have positive := unsigned_pos some
      rw [decide_eq_false (by omega)]
      rfl
  · rename_i long
    rw [decide_eq_false]
    intro equal
    apply long
    have sign : n.negative = false := by
      rw [← Bool.not_eq_true, negative]
      omega
    refine ⟨sign, ?_⟩
    by_contra more
    have power : wordBase ^ 2 ≤ wordBase ^ k := pow_le_pow_right₀ wordBase_pos (by omega)
    rw [sign, signed_false] at value
    have most : wordBase ^ 2 ≤ x := by omega
    unfold wordBase at most
    omega

theorem Represents.produces_isOppositeOfMinimum (h : n.Represents x) :
    Produces (.read fun _ => n.isOppositeOfMinimum) (· = decide (x = 9223372036854775808)) :=
  .read fun _ => ⟨_, h.isOppositeOfMinimum_eq, rfl⟩

theorem Represents.produces_negate (h : n.Represents x) : Produces n.negate (·.Represents (-x)) := by
  refine CommandProgram.Produces.bind h.produces_isOppositeOfMinimum fun opposite test => ?_
  subst test
  have large := h.large
  have value := h.value_eq
  unfold InInteger64 at large
  split
  · rename_i equal
    rw [decide_eq_true_eq] at equal
    subst equal
    exact .done rfl
  · rename_i differ
    rw [decide_eq_true_eq] at differ
    refine .done ⟨h.size_eq, h.two_le, h.top_ne_zero, ?_, ?_⟩
    · unfold InInteger64
      omega
    · rw [← value]
      cases n.negative
      · rfl
      · rw [Bool.not_true, signed_true, signed_false, neg_neg]

end BigIntegerNumber

namespace Integer64Number

/-- The sign of a sum tells whether it has overflowed. -/
theorem toInt_add_of_sumFits {value other : BitVec 64} (fits : SumFits value other) :
    (value + other).toInt = value.toInt + other.toInt := by
  have range := Integer64.toInt_range value
  have range' := Integer64.toInt_range other
  unfold SumFits at fits
  rw [BitVec.toInt_add, Int.bmod_def] at fits ⊢
  split at fits <;> split <;> omega

theorem produces_negate (value : BitVec 64) : Produces (negate value) (·.Represents (-value.toInt)) := by
  unfold negate
  split
  · rename_i least
    subst least
    have minimum : (IntegerGeneralNumber.integer64 Integer64.minimum).Represents Integer64.minimum.toInt := rfl
    exact produces_put minimum fun w ready holds => assures_result (ready.assures_negate holds)
  · rename_i more
    exact .done (Integer64.toInt_neg_of_ne more)

theorem produces_addInteger64 (value other : BitVec 64) :
    Produces (addInteger64 value other) (·.Represents (value.toInt + other.toInt)) := by
  unfold addInteger64
  split
  · rename_i fits
    exact .done (toInt_add_of_sumFits fits)
  · have first : (IntegerGeneralNumber.integer64 value).Represents value.toInt := rfl
    exact produces_put first fun w ready holds => assures_result (ready.assures_addInteger64 holds other)

theorem produces_multiplyInteger64 (value other : BitVec 64) :
    Produces (multiplyInteger64 value other) (·.Represents (value.toInt * other.toInt)) := by
  unfold multiplyInteger64
  split
  · rename_i zero
    refine .done ?_
    rcases zero with zero | zero
    · rw [Integer64.eq_zero_iff.mp zero, mul_zero]
      rfl
    · rw [Integer64.eq_zero_iff.mp zero, zero_mul]
      rfl
  split
  · rename_i one
    rw [one, Integer64.toInt_one, mul_one]
    exact .done rfl
  split
  · rename_i one
    rw [one, Integer64.toInt_one, one_mul]
    exact .done rfl
  · have first : (IntegerGeneralNumber.integer64 value).Represents value.toInt := rfl
    have second : (IntegerGeneralNumber.integer64 other).Represents other.toInt := rfl
    exact produces_puts first second fun w ready holds holds' =>
      assures_result (ready.assures_multiplyTo holds holds')

end Integer64Number

namespace BigIntegerNumber

variable {n other : BigIntegerNumber} {x y : ℤ}

theorem Represents.integer (h : n.Represents x) : (IntegerGeneralNumber.bigInteger n).Represents x :=
  h

theorem Represents.produces_multiplyInteger64 (h : n.Represents x) (other : BitVec 64) :
    Produces (n.multiplyInteger64 other) (·.Represents (x * other.toInt)) := by
  unfold multiplyInteger64
  split
  · rename_i zero
    rw [Integer64.eq_zero_iff.mp zero, mul_zero]
    exact .done rfl
  split
  · rename_i one
    rw [one, Integer64.toInt_one, mul_one]
    exact .done h
  split
  · rename_i one
    rw [Integer64.eq_neg_one_iff.mp one, mul_neg_one]
    exact h.produces_negate
  · have second : (IntegerGeneralNumber.integer64 other).Represents other.toInt := rfl
    exact produces_puts h.integer second fun w ready holds holds' =>
      assures_result (ready.assures_multiplyTo holds holds')

end BigIntegerNumber

/-! ## Short divisions -/

/-- A negative number of 64 bits is divided by a bigger one: the answer 0 is not the Euclidean quotient. -/
def DividesShort (x y : ℤ) : Prop :=
  x < 0 ∧ InInteger64 x ∧ ¬InInteger64 y ∧ ¬(x = -9223372036854775808 ∧ y = 9223372036854775808)

instance (x y : ℤ) : Decidable (DividesShort x y) :=
  inferInstanceAs (Decidable (_ ∧ _))

section Short

variable {x y : ℤ}

theorem abs_of_beyond (beyond : ¬InInteger64 y) : 9223372036854775808 ≤ |y| := by
  unfold InInteger64 at beyond
  rcases lt_or_ge y 0 with negative | nonneg
  · rw [abs_of_neg negative]
    omega
  · rw [abs_of_nonneg nonneg]
    omega

theorem not_dividesShort_of_dvd (divides : y ∣ x) : ¬DividesShort x y := by
  intro ⟨negative, inside, beyond, other⟩
  have least := abs_of_beyond beyond
  have most := Int.le_of_dvd (by omega) ((abs_dvd y (-x)).mpr (Int.dvd_neg.mpr divides))
  unfold InInteger64 at inside beyond
  apply other
  refine ⟨by omega, ?_⟩
  rcases lt_or_ge y 0 with negative' | nonneg
  · rw [abs_of_neg negative'] at least most
    omega
  · rw [abs_of_nonneg nonneg] at least most
    omega

/-- The Euclidean division of a number that is not negative by a bigger one. -/
theorem ediv_emod_of_less (nonneg : 0 ≤ x) (less : x < |y|) : x / y = 0 ∧ x % y = x := by
  have zero : x / y = 0 := TruncatedDivision.ediv_of_split (by rw [mul_zero, zero_add]) nonneg less
  refine ⟨zero, ?_⟩
  rw [Int.emod_def, zero, mul_zero, sub_zero]

end Short

namespace BigIntegerNumber

variable {n : BigIntegerNumber} {x y : ℤ}

/-- The quotient of a number of 64 bits by a bigger one. -/
theorem Represents.produces_integerDivideInteger64Number (h : n.Represents y) (other : BitVec 64) :
    Produces (n.integerDivideInteger64Number other) fun q => ∃ v, q.Represents v ∧
      (¬DividesShort other.toInt y → v = other.toInt / y) := by
  have inside := inInteger64_toInt other
  have least := abs_of_beyond h.large
  refine CommandProgram.Produces.bind h.produces_isOppositeOfMinimum fun opposite test => ?_
  subst test
  split
  · rename_i both
    rw [Integer64.eq_minimum_iff, decide_eq_true_eq] at both
    refine .done ⟨-1, Integer64.toInt_neg_one, fun _ => ?_⟩
    rw [both.1, both.2]
    rfl
  · rename_i differ
    rw [Integer64.eq_minimum_iff, decide_eq_true_eq] at differ
    refine .done ⟨0, rfl, fun long => ?_⟩
    have nonneg : 0 ≤ other.toInt := by
      by_contra negative
      exact long ⟨by omega, inside, h.large, differ⟩
    unfold InInteger64 at inside
    exact (ediv_emod_of_less nonneg (by omega)).1.symm

/-- The remainder of a number of 64 bits by a bigger one. -/
theorem Represents.produces_remainderOfDivideInteger64Number (h : n.Represents y) (other : BitVec 64) :
    Produces (n.remainderOfDivideInteger64Number other) fun r => ∃ v, r.Represents v ∧
      (¬DividesShort other.toInt y → v = other.toInt % y) ∧ (v = 0 ↔ y ∣ other.toInt) := by
  have inside := inInteger64_toInt other
  have least := abs_of_beyond h.large
  refine CommandProgram.Produces.bind h.produces_isOppositeOfMinimum fun opposite test => ?_
  subst test
  split
  · rename_i both
    rw [Integer64.eq_minimum_iff, decide_eq_true_eq] at both
    refine .done ⟨0, rfl, fun _ => ?_, ?_⟩
    · rw [both.1, both.2]
      rfl
    · rw [both.1, both.2]
      decide
  · rename_i differ
    rw [Integer64.eq_minimum_iff, decide_eq_true_eq] at differ
    have exact : ¬DividesShort other.toInt y → other.toInt = other.toInt % y := by
      intro long
      have nonneg : 0 ≤ other.toInt := by
        by_contra negative
        exact long ⟨by omega, inside, h.large, differ⟩
      unfold InInteger64 at inside
      exact (ediv_emod_of_less nonneg (by omega)).2.symm
    refine .done ⟨other.toInt, rfl, exact, ?_⟩
    constructor
    · intro zero
      rw [zero]
      exact Int.dvd_zero y
    · intro divides
      rw [exact (not_dividesShort_of_dvd divides), Int.emod_eq_zero_of_dvd divides]

end BigIntegerNumber

namespace IntegerGeneralNumber

variable {n other : IntegerGeneralNumber} {x y : ℤ}

theorem Represents.produces_negate (h : n.Represents x) : Produces n.negate (·.Represents (-x)) := by
  cases n with
  | integer64 value =>
    have same : value.toInt = x := h
    rw [← same]
    exact Integer64Number.produces_negate value
  | bigInteger n => exact BigIntegerNumber.Represents.produces_negate h

theorem Represents.produces_abs (h : n.Represents x) : Produces n.abs (·.Represents |x|) := by
  rw [abs, h.isNegative_eq]
  split
  · rename_i negative
    rw [abs_of_neg (of_decide_eq_true negative)]
    exact h.produces_negate
  · rename_i nonneg
    rw [decide_eq_true_eq, not_lt] at nonneg
    rw [abs_of_nonneg nonneg]
    exact .done h

theorem Represents.produces_addInteger64 (h : n.Represents x) (other : BitVec 64) :
    Produces (n.addInteger64 other) (·.Represents (x + other.toInt)) := by
  cases n with
  | integer64 value =>
    have same : value.toInt = x := h
    rw [← same]
    exact Integer64Number.produces_addInteger64 value other
  | bigInteger n =>
    exact produces_put h fun w ready holds => assures_result (ready.assures_addInteger64 holds other)

theorem Represents.produces_multiplyInteger64 (h : n.Represents x) (other : BitVec 64) :
    Produces (n.multiplyInteger64 other) (·.Represents (x * other.toInt)) := by
  cases n with
  | integer64 value =>
    have same : value.toInt = x := h
    rw [← same]
    exact Integer64Number.produces_multiplyInteger64 value other
  | bigInteger n => exact BigIntegerNumber.Represents.produces_multiplyInteger64 h other

theorem Represents.produces_add (h : n.Represents x) (h' : other.Represents y) :
    Produces (n.add other) (·.Represents (x + y)) := by
  rw [add_comm]
  cases n with
  | integer64 value =>
    have same : value.toInt = x := h
    rw [← same]
    exact h'.produces_addInteger64 value
  | bigInteger n =>
    cases other with
    | integer64 value =>
      have same : value.toInt = y := h'
      rw [← same, add_comm]
      exact h.produces_addInteger64 value
    | bigInteger other =>
      exact produces_puts h' h fun w ready holds holds' => assures_result (ready.assures_add holds holds')

theorem Represents.produces_multiply (h : n.Represents x) (h' : other.Represents y) :
    Produces (n.multiply other) (·.Represents (x * y)) := by
  rw [mul_comm]
  cases n with
  | integer64 value =>
    have same : value.toInt = x := h
    rw [← same]
    change Produces (if value = 0 then pure (integer64 0) else other.multiplyInteger64 value) _
    split
    · rename_i zero
      rw [Integer64.eq_zero_iff.mp zero, mul_zero]
      exact .done rfl
    · exact h'.produces_multiplyInteger64 value
  | bigInteger n =>
    cases other with
    | integer64 value =>
      have same : value.toInt = y := h'
      rw [← same, mul_comm]
      exact h.produces_multiplyInteger64 value
    | bigInteger other =>
      exact produces_puts h' h fun w ready holds holds' =>
        assures_result (ready.assures_multiplyTo holds holds')

/-! ## Divisions -/

theorem Represents.produces_divideInteger64 (h : n.Represents x) {divisor : BitVec 64}
    (nonzero : divisor.toInt ≠ 0) :
    Produces (n.integerDivideInteger64 divisor) (·.Represents (x / divisor.toInt)) ∧
      Produces (n.remainderInteger64 divisor) (·.Represents (x % divisor.toInt)) := by
  have second : (integer64 divisor).Represents divisor.toInt := rfl
  exact ⟨produces_puts h second fun w ready holds holds' => (assures_divideTo ready holds holds' nonzero).1,
    produces_puts h second fun w ready holds holds' => (assures_divideTo ready holds holds' nonzero).2⟩

/-- `infix "//"` is the Euclidean quotient, but for the short divisions. -/
theorem Represents.produces_integerDivide (h : n.Represents x) (h' : other.Represents y) (nonzero : y ≠ 0) :
    Produces (n.integerDivide other) fun q => ∃ v, q.Represents v ∧ (¬DividesShort x y → v = x / y) := by
  cases other with
  | integer64 divisor =>
    have same : divisor.toInt = y := h'
    subst same
    have exact := (h.produces_divideInteger64 nonzero).1.mono
      (Q := fun q => ∃ v, q.Represents v ∧ (¬DividesShort x divisor.toInt → v = x / divisor.toInt))
      fun q represents => ⟨_, represents, fun _ => rfl⟩
    cases n <;> exact exact
  | bigInteger other =>
    cases n with
    | integer64 value =>
      have same : value.toInt = x := h
      subst same
      exact BigIntegerNumber.Represents.produces_integerDivideInteger64Number h' value
    | bigInteger n =>
      exact produces_putsReverse h h' fun w ready holds holds' =>
        (assures_divideTo ready holds holds' nonzero).1.mono fun q w' ⟨ready', represents⟩ =>
          ⟨ready', _, represents, fun _ => rfl⟩

/-- `infix "\\"` is the Euclidean remainder, but for the short divisions, and always tells the multiples. -/
theorem Represents.produces_remainder (h : n.Represents x) (h' : other.Represents y) (nonzero : y ≠ 0) :
    Produces (n.remainder other) fun r => ∃ v, r.Represents v ∧ (¬DividesShort x y → v = x % y) ∧
      (v = 0 ↔ y ∣ x) := by
  cases other with
  | integer64 divisor =>
    have same : divisor.toInt = y := h'
    subst same
    have exact := (h.produces_divideInteger64 nonzero).2.mono
      (Q := fun r => ∃ v, r.Represents v ∧ (¬DividesShort x divisor.toInt → v = x % divisor.toInt) ∧
        (v = 0 ↔ divisor.toInt ∣ x))
      fun r represents => ⟨_, represents, fun _ => rfl, (Int.dvd_iff_emod_eq_zero).symm⟩
    cases n <;> exact exact
  | bigInteger other =>
    cases n with
    | integer64 value =>
      have same : value.toInt = x := h
      subst same
      exact BigIntegerNumber.Represents.produces_remainderOfDivideInteger64Number h' value
    | bigInteger n =>
      exact produces_putsReverse h h' fun w ready holds holds' =>
        (assures_divideTo ready holds holds' nonzero).2.mono fun q w' ⟨ready', represents⟩ =>
          ⟨ready', _, represents, fun _ => rfl, (Int.dvd_iff_emod_eq_zero).symm⟩

/-- The remainder of a short division is the dividend. -/
theorem Represents.produces_remainder_of_short (h : n.Represents x) (h' : other.Represents y)
    (short : DividesShort x y) : Produces (n.remainder other) (·.Represents x) := by
  obtain ⟨-, inside, beyond, differ⟩ := short
  obtain ⟨value, rfl⟩ := h.integer64_iff.mpr inside
  cases other with
  | integer64 divisor => exact absurd (h'.integer64_iff.mp ⟨divisor, rfl⟩) beyond
  | bigInteger other =>
    have same : value.toInt = x := h
    refine CommandProgram.Produces.bind (BigIntegerNumber.Represents.produces_isOppositeOfMinimum h') ?_
    intro opposite test
    subst test
    rw [if_neg]
    · exact .done h
    · rw [Integer64.eq_minimum_iff, same, decide_eq_true_eq]
      exact differ

theorem Represents.produces_integerDivide_of_dvd (h : n.Represents x) (h' : other.Represents y)
    (nonzero : y ≠ 0) (divides : y ∣ x) : Produces (n.integerDivide other) (·.Represents (x / y)) := by
  refine (h.produces_integerDivide h' nonzero).mono fun q ⟨v, represents, exact⟩ => ?_
  rwa [exact (not_dividesShort_of_dvd divides)] at represents

theorem Represents.produces_isOdd (h : n.Represents x) : Produces n.isOdd (· = decide (x % 2 = 1)) := by
  have two : (2 : BitVec 64).toInt = 2 := rfl
  refine (h.produces_divideInteger64 (show (2 : BitVec 64).toInt ≠ 0 by decide)).2.bind fun r represents => .done ?_
  rw [represents.isOne_eq, two]

/-! ## Greatest common divisors -/

theorem Represents.produces_gcdInRegisters (h : n.Represents x) (h' : other.Represents y) :
    Produces (n.gcdInRegisters other) (·.Represents (Int.gcd x y)) :=
  produces_puts h h' fun _ ready holds holds' => assures_result (ready.assures_gcd holds holds')

/-- What `gcd` may answer: between numbers of 64 bits, `2 ^ 63` comes out as its opposite. -/
def IsGcd (x y v : ℤ) : Prop :=
  v = Int.gcd x y ∨
    v = -9223372036854775808 ∧ Int.gcd x y = 9223372036854775808 ∧ InInteger64 x ∧ InInteger64 y

theorem isGcd_of_values {value value' g : BitVec 64} (divisor : g.toInt.natAbs = Int.gcd value.toInt value'.toInt)
    (sign : 0 ≤ g.toInt ∨ g = Integer64.minimum) : IsGcd value'.toInt value.toInt g.toInt := by
  rw [Int.gcd_comm] at divisor
  rcases sign with nonneg | least
  · exact .inl (by omega)
  · rw [Integer64.eq_minimum_iff] at least
    exact .inr ⟨least, by omega, inInteger64_toInt value', inInteger64_toInt value⟩

/-- The divisor of a positive number has the right sign. -/
theorem IsGcd.eq_of_pos {v : ℤ} (h : IsGcd x y v) (positive : 0 < y) : v = Int.gcd x y := by
  rcases h with exact | ⟨-, large, -, inside⟩
  · exact exact
  · have most := Int.le_of_dvd positive (Int.gcd_dvd_right x y)
    unfold InInteger64 at inside
    omega

theorem IsGcd.symm {v : ℤ} (h : IsGcd x y v) : IsGcd y x v := by
  unfold IsGcd at h ⊢
  rw [Int.gcd_comm y x]
  exact h.imp_right fun ⟨least, large, inside, inside'⟩ => ⟨least, large, inside', inside⟩

/-- The machine traps in the `gcd` of -1 and the minimum. -/
def GcdTraps (x y : ℤ) : Prop :=
  x = -1 ∧ y = -9223372036854775808

/-- `gcd` is the greatest common divisor, but for its sign. -/
theorem Represents.produces_gcd (h : n.Represents x) (h' : other.Represents y) (safe : ¬GcdTraps x y) :
    Produces (n.gcd other) fun g => ∃ v, g.Represents v ∧ IsGcd x y v := by
  cases n with
  | integer64 value =>
    have same : value.toInt = x := h
    subst same
    cases other with
    | integer64 value' =>
      have same : value'.toInt = y := h'
      subst same
      have free : ¬(value' = Integer64.minimum ∧ value = -1) := fun both =>
        safe ⟨Integer64.eq_neg_one_iff.mp both.2, Integer64.eq_minimum_iff.mp both.1⟩
      refine CommandProgram.Produces.bind (.read fun _ => Integer64.returns_gcd free) fun g ⟨divisor, sign⟩ =>
        .done ⟨_, rfl, isGcd_of_values divisor sign⟩
    | bigInteger other =>
      exact (h'.produces_gcdInRegisters h).mono fun g represents =>
        ⟨_, represents, IsGcd.symm (.inl rfl)⟩
  | bigInteger n =>
    exact CommandProgram.Produces.mono (h'.produces_gcdInRegisters h) fun g represents =>
      ⟨_, represents, IsGcd.symm (.inl rfl)⟩

/-- There is no divisor where the machine traps. -/
theorem Represents.not_run_of_gcdTraps (h : n.Represents x) (h' : other.Represents y) (traps : GcdTraps x y) :
    ProducesIfDefined (n.gcd other) fun _ => False := by
  obtain ⟨opposite, least⟩ := traps
  subst opposite least
  obtain ⟨value, rfl⟩ := h.integer64_iff.mpr (by decide)
  obtain ⟨value', rfl⟩ := h'.integer64_iff.mpr (by decide)
  rw [Integer64.eq_neg_one_iff.mpr h, Integer64.eq_minimum_iff.mpr h']
  exact .bind (P := fun _ => False) (.read fun _ _ run => nomatch run) fun _ no => no.elim

/-- A divisor `2 ^ 63` of two numbers of 64 bits comes out as its opposite. -/
theorem Represents.gcd_overflows (h : n.Represents x) (h' : other.Represents y) (inside : InInteger64 x)
    (inside' : InInteger64 y) (large : Int.gcd x y = 9223372036854775808) :
    ProducesIfDefined (n.gcd other) (·.Represents (-9223372036854775808)) := by
  have safe : ¬GcdTraps x y := fun traps => by
    rw [traps.1, traps.2] at large
    exact absurd large (by decide)
  obtain ⟨value, rfl⟩ := h.integer64_iff.mpr inside
  obtain ⟨value', rfl⟩ := h'.integer64_iff.mpr inside'
  have same : value.toInt = x := h
  have same' : value'.toInt = y := h'
  have free : ¬(value' = Integer64.minimum ∧ value = -1) := fun both =>
    safe ⟨same ▸ Integer64.eq_neg_one_iff.mp both.2, same' ▸ Integer64.eq_minimum_iff.mp both.1⟩
  refine CommandProgram.Produces.ifDefined ?_
  refine CommandProgram.Produces.bind (.read fun _ => Integer64.returns_gcd free) fun g ⟨divisor, _⟩ => .done ?_
  have range := inInteger64_toInt g
  rw [Int.gcd_comm, same, same', large] at divisor
  change g.toInt = _
  unfold InInteger64 at range
  omega

theorem Represents.producesIfDefined_gcd (h : n.Represents x) (h' : other.Represents y) :
    ProducesIfDefined (n.gcd other) fun g => ∃ v, g.Represents v ∧ IsGcd x y v := by
  rcases Classical.em (GcdTraps x y) with traps | safe
  · exact (h.not_run_of_gcdTraps h' traps).mono fun _ no => no.elim
  · exact (h.produces_gcd h' safe).ifDefined

/-- The divisor of a number by a positive one. -/
theorem Represents.produces_gcd_of_pos (h : n.Represents x) (h' : other.Represents y) (positive : 0 < y) :
    Produces (n.gcd other) (·.Represents (Int.gcd x y)) := by
  refine (h.produces_gcd h' fun traps => ?_).mono fun g ⟨v, represents, divisor⟩ => ?_
  · have least := traps.2
    omega
  · rwa [divisor.eq_of_pos positive] at represents

/-- The divisor of a positive number by another one. -/
theorem Represents.produces_gcd_of_pos_left (h : n.Represents x) (h' : other.Represents y) (positive : 0 < x) :
    Produces (n.gcd other) (·.Represents (Int.gcd x y)) := by
  refine (h.produces_gcd h' fun traps => ?_).mono fun g ⟨v, represents, divisor⟩ => ?_
  · have least := traps.1
    omega
  · rwa [divisor.symm.eq_of_pos positive, Int.gcd_comm] at represents

end IntegerGeneralNumber

end Liberty
