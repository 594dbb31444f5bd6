import Liberty.Numeric.Number.Powers
import Liberty.Numeric.Number.ShortQuotients

/-!
# Runs of NUMBER

A program computes NUMBERs from NUMBERs, and all the operations share the registers.  `is_equal` and
`hash_code` compare what is stored, so that they tell the rational numbers as long as every result is in
canonical form.
-/

namespace Liberty

open Calculation MutableBigInteger

/-! ## The source -/

namespace ExactNumber

/-- An operation of integers only: a fraction gives no NUMBER. -/
def ofIntegers (f : IntegerGeneralNumber → IntegerGeneralNumber → Calculation IntegerGeneralNumber) :
    ExactNumber → ExactNumber → Calculation ExactNumber
  | integer n, integer other => do return integer (← f n other)
  | _, _ => .undefined

/-- `infix "//"` -/
def integerDivide : ExactNumber → ExactNumber → Calculation ExactNumber :=
  ofIntegers IntegerGeneralNumber.integerDivide

/-- `infix "\\"` -/
def remainder : ExactNumber → ExactNumber → Calculation ExactNumber :=
  ofIntegers IntegerGeneralNumber.remainder

def gcd : ExactNumber → ExactNumber → Calculation ExactNumber :=
  ofIntegers IntegerGeneralNumber.gcd

/-- `infix "@//"` -/
def integerDivideInteger64 (a : ExactNumber) (other : BitVec 64) : Calculation ExactNumber :=
  match a with
  | integer n => do return integer (← n.integerDivideInteger64 other)
  | fraction _ _ => .undefined

/-- `infix "@\\"` -/
def remainderInteger64 (a : ExactNumber) (other : BitVec 64) : Calculation ExactNumber :=
  match a with
  | integer n => do return integer (← n.remainderInteger64 other)
  | fraction _ _ => .undefined

def factorial : ExactNumber → Calculation ExactNumber
  | integer n => do return integer (← n.factorial)
  | fraction _ _ => .undefined

def isIntegerGeneralNumber : ExactNumber → Bool
  | integer _ => true
  | fraction _ _ => false

def isPositive : ExactNumber → Bool
  | integer n => n.isPositive
  | fraction n _ => !n.isNegative

/-! ### Operations -/

inductive UnaryOperator
  | negate
  | abs
  | inverse
  | factorial
  | numerator
  | denominator

inductive BinaryOperator
  | add
  | subtract
  | multiply
  | divide
  | integerDivide
  | remainder
  | power
  | gcd

/-- An operator with an INTEGER_64 on its right. -/
inductive MixedOperator
  | add
  | subtract
  | multiply
  | divide
  | integerDivide
  | remainder
  | power

def UnaryOperator.calculation (a : ExactNumber) : UnaryOperator → Calculation ExactNumber
  | negate => a.negate
  | abs => a.abs
  | inverse => a.inverse
  | factorial => a.factorial
  | numerator => pure (integer a.numerator)
  | denominator => pure (integer a.denominator)

def BinaryOperator.calculation (a b : ExactNumber) : BinaryOperator → Calculation ExactNumber
  | add => a.add b
  | subtract => a.subtract b
  | multiply => a.multiply b
  | divide => a.divide b
  | integerDivide => a.integerDivide b
  | remainder => a.remainder b
  | power => a.power b
  | gcd => a.gcd b

def MixedOperator.calculation (a : ExactNumber) (other : BitVec 64) : MixedOperator → Calculation ExactNumber
  | add => a.addInteger64 other
  | subtract => a.subtractInteger64 other
  | multiply => a.multiplyInteger64 other
  | divide => a.divideInteger64 other
  | integerDivide => a.integerDivideInteger64 other
  | remainder => a.remainderInteger64 other
  | power => a.powerInteger64 other

/-- The precondition of an operator. -/
def UnaryOperator.Allowed (a : ExactNumber) : UnaryOperator → Prop
  | inverse => a.isZero = false
  | factorial => a.isIntegerGeneralNumber ∧ a.isNegative = false
  | _ => True

def BinaryOperator.Allowed (a b : ExactNumber) : BinaryOperator → Prop
  | divide => b.isZero = false
  | integerDivide | remainder => a.isIntegerGeneralNumber ∧ b.isIntegerGeneralNumber ∧ b.isZero = false
  | power => b.isIntegerGeneralNumber ∧ (a.isZero → b.isPositive)
  | gcd => a.isIntegerGeneralNumber ∧ b.isIntegerGeneralNumber
  | _ => True

def MixedOperator.Allowed (a : ExactNumber) (other : BitVec 64) : MixedOperator → Prop
  | divide => other ≠ 0
  | integerDivide | remainder => a.isIntegerGeneralNumber ∧ other ≠ 0
  | power => a.isZero → 0 < other.toInt
  | _ => True

end ExactNumber

/-- An operation on the NUMBERs at some places of a pool. -/
inductive NumberOperation
  | fromInteger64 (value : BitVec 64)
  | unary (op : ExactNumber.UnaryOperator) (i : ℕ)
  | binary (op : ExactNumber.BinaryOperator) (i j : ℕ)
  | mixed (op : ExactNumber.MixedOperator) (i : ℕ) (other : BitVec 64)

/-- The NUMBERs that a program has computed, and the registers. -/
structure NumberPool where
  numbers : List ExactNumber
  registers : World

namespace NumberPool

def start : NumberPool where
  numbers := []
  registers := ⟨fun _ => zeroed, zeroed, zeroed⟩

/-- What an operation computes from the NUMBERs of the pool. -/
def calculation (numbers : List ExactNumber) : NumberOperation → Calculation ExactNumber
  | .fromInteger64 value => pure (.integer (.integer64 value))
  | .unary op i => do
      let a ← .read fun _ => numbers[i]?
      op.calculation a
  | .binary op i j => do
      let a ← .read fun _ => numbers[i]?
      let b ← .read fun _ => numbers[j]?
      op.calculation a b
  | .mixed op i other => do
      let a ← .read fun _ => numbers[i]?
      op.calculation a other

/-- The precondition of an operation. -/
def Allowed (numbers : List ExactNumber) : NumberOperation → Prop
  | .fromInteger64 _ => True
  | .unary op i => ∀ a, numbers[i]? = some a → op.Allowed a
  | .binary op i j => ∀ a b, numbers[i]? = some a → numbers[j]? = some b → op.Allowed a b
  | .mixed op i other => ∀ a, numbers[i]? = some a → op.Allowed a other

def step (s : NumberPool) (op : NumberOperation) : Option NumberPool := do
  let (a, registers) ← (calculation s.numbers op).run World.run s.registers
  return ⟨s.numbers ++ [a], registers⟩

/-- What the programs come to whose operations all meet the condition. -/
inductive Reaches (condition : NumberPool → NumberOperation → Prop) : NumberPool → Prop
  | start : Reaches condition start
  | step {s s' : NumberPool} (op : NumberOperation) (before : Reaches condition s)
      (allowed : Allowed s.numbers op) (meets : condition s op) (run : s.step op = some s') :
      Reaches condition s'

/-! ## Conditions -/

/-- A fraction over the minimum is divided by the minimum. -/
def DividesLeastFraction (numbers : List ExactNumber) : NumberOperation → Prop
  | .mixed .divide i other => ∃ d, numbers[i]? = some (.fraction (.integer64 Integer64.minimum) d) ∧
      other = Integer64.minimum
  | _ => False

/-- No command of the operation loses a word, an offset or a capacity of a register, and the operation is not
the division of a fraction that leaves a negative denominator. -/
def Sound (s : NumberPool) (op : NumberOperation) : Prop :=
  (calculation s.numbers op).Meets World.run Calculation.Sound s.registers ∧ ¬DividesLeastFraction s.numbers op

/-- `is_equal` tells whether two NUMBERs are the same rational number, and equal NUMBERs have one hash code. -/
def Coherent (s : NumberPool) : Prop :=
  ∀ a b, a ∈ s.numbers → b ∈ s.numbers →
    a.isEqual b = some (decide (a.value = b.value)) ∧
      (a.isEqual b = some true → ∃ code, a.hashCode = some code ∧ b.hashCode = some code)

end NumberPool

/-! ## Canonical results -/

namespace ExactNumber

variable {a b : ExactNumber} {q r : ℚ}

/-- The NUMBER is in canonical form. -/
def Canonical (a : ExactNumber) : Prop :=
  ∃ q, a.Represents q

theorem Represents.isZero_eq (h : a.Represents q) : a.isZero = decide (q = 0) := by
  cases a with
  | integer n =>
    obtain ⟨x, represents, rfl⟩ := h.integer_eq
    change n.isZero = _
    rw [represents.isZero_eq]
    simp only [Int.cast_eq_zero]
  | fraction n d =>
    have some : q ≠ 0 := fun zero => h.1 (by rw [zero]; rfl)
    rw [decide_eq_false some]
    rfl

theorem Represents.nonzero (h : a.Represents q) (some : a.isZero = false) : q ≠ 0 := by
  rw [h.isZero_eq] at some
  exact of_decide_eq_false some

theorem produces_integer {p : Calculation IntegerGeneralNumber}
    (h : ProducesIfDefined p fun n => ∃ x, n.Represents x) :
    ProducesIfDefined (do return integer (← p)) Canonical :=
  CommandProgram.ProducesIfDefined.bind h fun _ ⟨x, represents⟩ => .done ⟨x, represents_integer represents⟩

theorem Represents.producesIfDefined_unary (h : a.Represents q) (op : UnaryOperator) (allowed : op.Allowed a) :
    ProducesIfDefined (op.calculation a) Canonical := by
  cases op with
  | negate => exact h.produces_negate.ifDefined.mono fun _ represents => ⟨_, represents⟩
  | abs => exact h.produces_abs.ifDefined.mono fun _ represents => ⟨_, represents⟩
  | inverse =>
    exact (h.produces_inverse (h.nonzero allowed)).ifDefined.mono fun _ represents => ⟨_, represents⟩
  | factorial =>
    cases a with
    | integer n =>
      obtain ⟨x, represents, rfl⟩ := h.integer_eq
      have nonneg : n.isNegative = false := allowed.2
      rw [represents.isNegative_eq, decide_eq_false_iff_not, not_lt] at nonneg
      lift x to ℕ using nonneg
      exact produces_integer (represents.produces_factorial.ifDefined.mono fun _ factorial => ⟨_, factorial⟩)
    | fraction n d => exact .undefined
  | numerator =>
    cases a with
    | integer n => exact .done ⟨_, h⟩
    | fraction n d => exact .done ⟨_, represents_integer h.2.1⟩
  | denominator =>
    cases a with
    | integer n => exact .done ⟨_, represents_integer IntegerGeneralNumber.represents_one⟩
    | fraction n d => exact .done ⟨_, represents_integer h.2.2⟩

theorem Represents.producesIfDefined_ofIntegers (h : a.Represents q) (h' : b.Represents r)
    {f : IntegerGeneralNumber → IntegerGeneralNumber → Calculation IntegerGeneralNumber}
    (integers : ∀ n n' : IntegerGeneralNumber, ∀ x y : ℤ, n.Represents x → n'.Represents y → r = y →
      ProducesIfDefined (f n n') fun m => ∃ z, m.Represents z) :
    ProducesIfDefined (ofIntegers f a b) Canonical := by
  cases a with
  | fraction n d => exact .undefined
  | integer n =>
    cases b with
    | fraction n' d' => exact .undefined
    | integer n' =>
      obtain ⟨x, represents, rfl⟩ := h.integer_eq
      obtain ⟨y, represents', rfl⟩ := h'.integer_eq
      exact produces_integer (integers n n' x y represents represents' rfl)

theorem Represents.producesIfDefined_binary (h : a.Represents q) (h' : b.Represents r) (op : BinaryOperator)
    (allowed : op.Allowed a b) : ProducesIfDefined (op.calculation a b) Canonical := by
  cases op with
  | add => exact (h.produces_add h').ifDefined.mono fun _ represents => ⟨_, represents⟩
  | subtract => exact (h.produces_subtract h').ifDefined.mono fun _ represents => ⟨_, represents⟩
  | multiply => exact h.producesIfDefined_multiply h'
  | divide => exact h.producesIfDefined_divide h' (h'.nonzero allowed)
  | integerDivide =>
    have nonzero := h'.nonzero allowed.2.2
    refine h.producesIfDefined_ofIntegers h' fun n n' x y represents represents' same => ?_
    rw [same, Int.cast_ne_zero] at nonzero
    exact (represents.produces_integerDivide represents' nonzero).ifDefined.mono fun _ ⟨v, hv, _⟩ => ⟨v, hv⟩
  | remainder =>
    have nonzero := h'.nonzero allowed.2.2
    refine h.producesIfDefined_ofIntegers h' fun n n' x y represents represents' same => ?_
    rw [same, Int.cast_ne_zero] at nonzero
    exact (represents.produces_remainder represents' nonzero).ifDefined.mono fun _ ⟨v, hv, _⟩ => ⟨v, hv⟩
  | power =>
    cases b with
    | fraction n d => exact .undefined
    | integer n =>
      obtain ⟨x, represents, rfl⟩ := h'.integer_eq
      refine (h.produces_power represents fun zero => ?_).ifDefined.mono fun _ power => ⟨_, power⟩
      have positive : n.isPositive = true := allowed.2 (by rw [h.isZero_eq, decide_eq_true zero])
      rw [represents.isPositive_eq, decide_eq_true_eq] at positive
      exact positive.le
  | gcd =>
    exact h.producesIfDefined_ofIntegers h' fun n n' x y represents represents' _ =>
      (represents.producesIfDefined_gcd represents').mono fun _ ⟨v, hv, _⟩ => ⟨v, hv⟩

theorem Represents.producesIfDefined_mixed (h : a.Represents q) {other : BitVec 64} (op : MixedOperator)
    (allowed : op.Allowed a other) (regular : op = .divide → q.den = 1 ∨ ¬DividesMinimum q other) :
    ProducesIfDefined (op.calculation a other) Canonical := by
  cases op with
  | add => exact (h.produces_addInteger64 other).ifDefined.mono fun _ represents => ⟨_, represents⟩
  | subtract => exact (h.produces_subtractInteger64 other).ifDefined.mono fun _ represents => ⟨_, represents⟩
  | multiply => exact (h.producesIfDefined_multiplyInteger64 other).mono fun _ represents => ⟨_, represents⟩
  | divide =>
    exact (h.producesIfDefined_divideInteger64 allowed (regular rfl)).mono fun _ represents => ⟨_, represents⟩
  | integerDivide =>
    cases a with
    | fraction n d => exact .undefined
    | integer n =>
      have nonzero : other.toInt ≠ 0 := fun zero => allowed.2 (Integer64.eq_zero_iff.mpr zero)
      exact produces_integer ((h.2.produces_divideInteger64 nonzero).1.ifDefined.mono fun _ hv => ⟨_, hv⟩)
  | remainder =>
    cases a with
    | fraction n d => exact .undefined
    | integer n =>
      have nonzero : other.toInt ≠ 0 := fun zero => allowed.2 (Integer64.eq_zero_iff.mpr zero)
      exact produces_integer ((h.2.produces_divideInteger64 nonzero).2.ifDefined.mono fun _ hv => ⟨_, hv⟩)
  | power =>
    refine (h.produces_powerInteger64 fun zero => ?_).ifDefined.mono fun _ represents => ⟨_, represents⟩
    have positive : 0 < other.toInt := allowed (by rw [h.isZero_eq, decide_eq_true zero])
    exact positive.le

end ExactNumber

/-! ## Runs -/

namespace NumberPool

open ExactNumber

variable {s s' : NumberPool} {op : NumberOperation}

/-- Every NUMBER is in canonical form, and the registers are ready for the next operation. -/
structure Canonical (s : NumberPool) : Prop where
  numbers : ∀ a ∈ s.numbers, a.Canonical
  registers : Ready s.registers

theorem start_canonical : start.Canonical where
  numbers a no := nomatch no
  registers := by
    have valid := World.zeroed_valid
    exact ⟨fun _ _ => valid, valid, valid, valid⟩

theorem Canonical.produces_number (h : s.Canonical) (i : ℕ) :
    ProducesIfDefined (.read fun _ => s.numbers[i]?) fun a => s.numbers[i]? = some a ∧ a.Canonical :=
  .read fun _ a found => ⟨found, h.numbers a (List.mem_of_getElem? found)⟩

theorem Canonical.produces_calculation (h : s.Canonical) (allowed : Allowed s.numbers op)
    (regular : ¬DividesLeastFraction s.numbers op) :
    ProducesIfDefined (calculation s.numbers op) ExactNumber.Canonical := by
  cases op with
  | fromInteger64 value => exact .done ⟨_, represents_integer (x := value.toInt) rfl⟩
  | unary op i =>
    refine (h.produces_number i).bind fun a ⟨found, q, represents⟩ => ?_
    exact represents.producesIfDefined_unary op (allowed a found)
  | binary op i j =>
    refine (h.produces_number i).bind fun a ⟨found, q, represents⟩ => ?_
    refine (h.produces_number j).bind fun b ⟨found', r, represents'⟩ => ?_
    exact represents.producesIfDefined_binary represents' op (allowed a b found found')
  | mixed op i other =>
    refine (h.produces_number i).bind fun a ⟨found, q, represents⟩ => ?_
    refine represents.producesIfDefined_mixed op (allowed a found) fun divides => ?_
    subst divides
    cases a with
    | integer n => exact .inl represents.1
    | fraction n d =>
      refine .inr fun ⟨least, least'⟩ => regular ?_
      have numerator := represents.2.1
      rw [least] at numerator
      obtain ⟨value, rfl⟩ := numerator.integer64_iff.mpr (by decide)
      rw [Integer64.eq_minimum_iff.mpr numerator] at found
      exact ⟨d, found, least'⟩

/-- One operation keeps every NUMBER canonical. -/
theorem Canonical.step (h : s.Canonical) (allowed : Allowed s.numbers op) (sound : Sound s op)
    (run : s.step op = some s') : s'.Canonical := by
  obtain ⟨⟨a, registers⟩, computed, same⟩ := Option.bind_eq_some_iff.mp run
  cases same
  obtain ⟨ready, canonical⟩ := h.produces_calculation allowed sound.2 _ h.registers sound.1 a registers computed
  refine ⟨fun b member => ?_, ready⟩
  rcases List.mem_append.mp member with old | new
  · exact h.numbers b old
  · rw [List.mem_singleton.mp new]
    exact canonical

theorem Reaches.canonical (reached : Reaches Sound s) : s.Canonical := by
  induction reached with
  | start => exact start_canonical
  | step op _ allowed sound run ih => exact ih.step allowed sound run

/-- In a run whose operations are sound, two NUMBERs are equal when they are the same rational number, and then
their hash codes are the same. -/
theorem Reaches.coherent (reached : Reaches Sound s) : s.Coherent := by
  intro a b member member'
  obtain ⟨q, represents⟩ := reached.canonical.numbers a member
  obtain ⟨r, represents'⟩ := reached.canonical.numbers b member'
  have equal := represents.isEqual_eq represents'
  rw [represents.value_eq, represents'.value_eq]
  refine ⟨equal, fun same => ?_⟩
  rw [equal, Option.some_inj, decide_eq_true_eq] at same
  subst same
  obtain ⟨code, run⟩ := represents.returns_hashCode
  exact ⟨code, run, by rw [← represents.hashCode_eq represents', run]⟩

theorem coherent_two :
    (NumberPool.mk [.integer (.integer64 2), .integer (.integer64 2)] start.registers).Coherent :=
  have two : Reaches Sound ⟨[.integer (.integer64 2)], start.registers⟩ :=
    .step (.fromInteger64 2) .start trivial ⟨trivial, id⟩ rfl
  (two.step (.fromInteger64 2) trivial ⟨trivial, id⟩ rfl).coherent

/-- Two integers of one value in a coherent pool. -/
theorem Coherent.isEqual_of_value (h : s.Coherent) {i j : ℕ} {n m : IntegerGeneralNumber}
    (first : s.numbers[i]? = some (.integer n)) (second : s.numbers[j]? = some (.integer m))
    (same : n.value = m.value) : n.isEqual m = some true := by
  have values : (integer n).value = (integer m).value := congrArg (Int.cast : ℤ → ℚ) same
  have tells := (h _ _ (List.mem_of_getElem? first) (List.mem_of_getElem? second)).1
  rwa [decide_eq_true values] at tells

/-- `2 ^ 65 + -(2 ^ 65 - 5)` is stored in two words, and differs from 5. -/
theorem not_coherent : ¬∀ s, Reaches (fun _ _ => True) s → s.Coherent := by
  intro claim
  have nothing : Reaches (fun _ _ => True) start := .start
  have power := nothing.step (.fromInteger64 0x4000000000000000) trivial trivial rfl
  have large := power.step (.mixed .multiply 0 8) (fun _ _ => trivial) trivial rfl
  have less := large.step (.mixed .add 1 (-5)) (fun _ _ => trivial) trivial rfl
  have opposite := less.step (.unary .negate 2) (fun _ _ => trivial) trivial rfl
  have five := opposite.step (.binary .add 1 3) (fun _ _ _ _ => trivial) trivial rfl
  have small := five.step (.fromInteger64 5) trivial trivial rfl
  have equal := (claim _ small).isEqual_of_value (i := 4) (j := 5) rfl rfl (by decide)
  exact absurd equal (by decide)

end NumberPool

end Liberty
