import Liberty.Numeric.Number.IntegerOrdering
import Liberty.Numeric.Number.NumberRuns

/-!
# The order of NUMBERs

A comparison of NUMBERs comes to one of two integers: the numbers themselves, or the products of each
numerator and the other denominator.  It is the order of the rational numbers exactly where the two integers
are not read in words of different top bits.
-/

namespace Liberty

open Calculation MutableBigInteger

/-! ## The source -/

namespace ExactNumber

/-- `infix "@<"` of a fraction -/
def fractionLessThanInteger64 (n d : IntegerGeneralNumber) (other : BitVec 64) : Calculation Bool :=
  if n.isNegative then
    if other.toInt < 0 then do
      let product ← d.multiplyInteger64 other
      .read fun _ => n.lessThan product
    else
      pure true
  else
    if 0 ≤ other.toInt then do
      let product ← d.multiplyInteger64 other
      .read fun _ => n.lessThan product
    else
      pure false

/-- `infix "@>"` -/
def greaterThanInteger64 (a : ExactNumber) (other : BitVec 64) : Calculation Bool :=
  match a with
  | integer n => pure (n.greaterThanInteger64 other)
  | fraction n d => do return !(← fractionLessThanInteger64 n d other)

/-- `greater_with_big_integer_number` of a fraction -/
def fractionGreaterWithBigIntegerNumber (n d : IntegerGeneralNumber) (other : BigIntegerNumber) :
    Calculation Bool := do
  let product ← d.multiplyWithBigIntegerNumber other
  .read fun _ => product.lessThan n

def greaterWithBigIntegerNumber (a : ExactNumber) (other : BigIntegerNumber) : Calculation Bool :=
  match a with
  | integer n => .read fun _ => n.greaterWithBigIntegerNumber other
  | fraction n d => fractionGreaterWithBigIntegerNumber n d other

/-- `greater_with_fraction_with_big_integer_number`, where `other` is the fraction `n` / `d` -/
def greaterWithFraction (a : ExactNumber) (n d : IntegerGeneralNumber) : Calculation Bool :=
  match a with
  | integer (.integer64 value) => do
      let product ← d.multiply (.integer64 value)
      .read fun _ => n.lessThan product
  | integer (.bigInteger b) => do return !(← fractionGreaterWithBigIntegerNumber n d b)
  | fraction n' d' =>
    if n'.isNegative = n.isNegative then do
      let left ← n'.multiply d
      let right ← n.multiply d'
      .read fun _ => right.lessThan left
    else
      pure n.isNegative

/-- `infix "<"` -/
def lessThan (a other : ExactNumber) : Calculation Bool :=
  match a with
  | integer (.integer64 value) => other.greaterThanInteger64 value
  | integer (.bigInteger b) => other.greaterWithBigIntegerNumber b
  | fraction n d => other.greaterWithFraction n d

end ExactNumber

/-! ## Harmless commands -/

/-- The command is sound on any registers. -/
def Calculation.Harmless (c : Command) : Prop :=
  ∀ w, Sound w c

namespace IntegerGeneralNumber

theorem put_harmless (n : IntegerGeneralNumber) (i : ℕ) : (n.putIntoMutableBigInteger i).SendsOnly Harmless := by
  cases n <;> exact .send fun _ => trivial

theorem product_harmless (n m : IntegerGeneralNumber) :
    (do n.putIntoMutableBigInteger 1
        m.putIntoMutableBigInteger 2
        .send (.multiplyTo 1 2 3)
        toIntegerGeneralNumber 3 : Calculation IntegerGeneralNumber).SendsOnly Harmless := by
  refine .bind (n.put_harmless 1) fun _ => .bind (m.put_harmless 2) fun _ => ?_
  exact .bind (.send fun _ same => absurd same (by decide)) fun _ => .read _

theorem negate_harmless (n : BigIntegerNumber) : n.negate.SendsOnly Harmless := by
  refine .bind (.read _) fun opposite => ?_
  cases opposite <;> exact trivial

theorem multiplyInteger64_harmless (n : IntegerGeneralNumber) (other : BitVec 64) :
    (n.multiplyInteger64 other).SendsOnly Harmless := by
  have product := n.product_harmless (integer64 other)
  cases n with
  | integer64 value =>
    change (Integer64Number.multiplyInteger64 value other).SendsOnly Harmless
    unfold Integer64Number.multiplyInteger64
    split
    · exact trivial
    split
    · exact trivial
    split
    · exact trivial
    · exact product
  | bigInteger n =>
    change (n.multiplyInteger64 other).SendsOnly Harmless
    unfold BigIntegerNumber.multiplyInteger64
    split
    · exact trivial
    split
    · exact trivial
    split
    · exact negate_harmless n
    · exact product

theorem multiplyWithBigIntegerNumber_harmless (n : IntegerGeneralNumber) (other : BigIntegerNumber) :
    (n.multiplyWithBigIntegerNumber other).SendsOnly Harmless := by
  cases n with
  | integer64 value => exact (bigInteger other).multiplyInteger64_harmless value
  | bigInteger n => exact (bigInteger n).product_harmless (bigInteger other)

theorem multiply_harmless (n other : IntegerGeneralNumber) : (n.multiply other).SendsOnly Harmless := by
  cases n with
  | integer64 value =>
    change (if value = 0 then pure (integer64 0) else other.multiplyInteger64 value :
      Calculation IntegerGeneralNumber).SendsOnly Harmless
    split
    · exact trivial
    · exact other.multiplyInteger64_harmless value
  | bigInteger n => exact other.multiplyWithBigIntegerNumber_harmless n

end IntegerGeneralNumber

namespace ExactNumber

open IntegerGeneralNumber

variable {a b : ExactNumber} {n d n' d' : IntegerGeneralNumber} {q r : ℚ}

theorem fractionLessThanInteger64_harmless (n d : IntegerGeneralNumber) (other : BitVec 64) :
    (fractionLessThanInteger64 n d other).SendsOnly Harmless := by
  have compared : (do
      let product ← d.multiplyInteger64 other
      .read fun _ => n.lessThan product : Calculation Bool).SendsOnly Harmless :=
    .bind (d.multiplyInteger64_harmless other) fun _ => .read _
  unfold fractionLessThanInteger64
  split <;> split
  · exact compared
  · exact trivial
  · exact compared
  · exact trivial

theorem fractionGreaterWithBigIntegerNumber_harmless (n d : IntegerGeneralNumber) (other : BigIntegerNumber) :
    (fractionGreaterWithBigIntegerNumber n d other).SendsOnly Harmless :=
  .bind (d.multiplyWithBigIntegerNumber_harmless other) fun _ => .read _

theorem lessThan_harmless (a b : ExactNumber) : (a.lessThan b).SendsOnly Harmless := by
  cases a with
  | integer n =>
    cases n with
    | integer64 value =>
      cases b with
      | integer m => exact trivial
      | fraction n d => exact .bind (fractionLessThanInteger64_harmless n d value) fun _ => trivial
    | bigInteger n =>
      cases b with
      | integer m => exact .read _
      | fraction n' d' => exact fractionGreaterWithBigIntegerNumber_harmless n' d' n
  | fraction n d =>
    cases b with
    | integer m =>
      cases m with
      | integer64 value => exact .bind (d.multiply_harmless _) fun _ => .read _
      | bigInteger m => exact .bind (fractionGreaterWithBigIntegerNumber_harmless n d m) fun _ => trivial
    | fraction n' d' =>
      change (if n'.isNegative = n.isNegative then _ else _ : Calculation Bool).SendsOnly Harmless
      split
      · exact .bind (n'.multiply_harmless d) fun _ => .bind (n.multiply_harmless d') fun _ => .read _
      · exact trivial

/-! ## Cross products -/

/-- The integers that are compared are read in words of different top bits. -/
def MisordersProducts (q r : ℚ) : Prop :=
  Misorders (q.num * r.den) (r.num * q.den)

/-- What a comparison that is read in such words does not tell, and the others do. -/
def Tells (q r : ℚ) (less : Bool) : Prop :=
  less = decide (q < r) ↔ ¬MisordersProducts q r

theorem num_ne_of_den (proper : r.den ≠ 1) (v : ℤ) : r.num ≠ r.den * v := by
  intro same
  have coprime := LowestTerms.isCoprime_num_den r
  rw [same, IsCoprime.mul_left_iff] at coprime
  have unit := Int.isUnit_iff.mp (isCoprime_self.mp coprime.1)
  omega

theorem not_misorders_of_sign {x y : ℤ} (sign : ¬(x < 0 ↔ y < 0)) : ¬Misorders x y :=
  fun wrong => sign wrong.2.2.1

/-- The comparison of a numerator and a product of the denominator. -/
theorem produces_compare {x v : ℤ} {p : Calculation IntegerGeneralNumber} (numerator : n.Represents x)
    (product : Produces p (·.Represents v)) :
    Produces (do let m ← p; .read fun _ => n.lessThan m) fun less => less = decide (x < v) ↔ ¬Misorders x v :=
  product.bind fun _ represents => .read fun _ => numerator.returns_lessThan represents

theorem Represents.produces_fractionLessThanInteger64 (h : (fraction n d).Represents r) (other : BitVec 64) :
    Produces (fractionLessThanInteger64 n d other) fun less =>
      less = decide (r.num < r.den * other.toInt) ↔ ¬Misorders r.num (r.den * other.toInt) := by
  have positive : (0 : ℤ) < r.den := Int.natCast_pos.mpr r.den_pos
  have compared := produces_compare h.2.1 (h.2.2.produces_multiplyInteger64 other)
  unfold fractionLessThanInteger64
  rw [h.2.1.isNegative_eq]
  split
  · rename_i negative
    have negative := of_decide_eq_true negative
    split
    · exact compared
    · rename_i nonneg
      have product := mul_nonneg positive.le (not_lt.mp nonneg)
      refine .done (iff_of_true (decide_eq_true ?_).symm (not_misorders_of_sign ?_)) <;> omega
  · rename_i nonneg
    rw [decide_eq_true_eq] at nonneg
    split
    · exact compared
    · rename_i negative
      have product := mul_neg_of_pos_of_neg positive (not_le.mp negative)
      refine .done (iff_of_true (decide_eq_false ?_).symm (not_misorders_of_sign ?_)) <;> omega

/-- The opposite of a comparison of integers that differ. -/
theorem tells_opposite {x y : ℤ} {less : Bool} (differ : x ≠ y) (tells : less = decide (x < y) ↔ ¬Misorders x y) :
    (!less) = decide (y < x) ↔ ¬Misorders y x := by
  have flip : decide (y < x) = !decide (x < y) := by
    rw [Bool.eq_iff_iff, Bool.not_eq_true', decide_eq_true_eq, decide_eq_false_iff_not]
    omega
  rw [flip, Bool.not_inj_iff, tells]
  exact not_congr ⟨Misorders.symm, Misorders.symm⟩

theorem tells_iff {less : Bool} : Tells q r less ↔
    (less = decide (q.num * r.den < r.num * q.den) ↔ ¬Misorders (q.num * r.den) (r.num * q.den)) := by
  unfold Tells MisordersProducts
  simp only [Rat.lt_iff]

/-- `infix "<"` tells the order of the rational numbers exactly where the products are not read in words of
different top bits. -/
theorem Represents.produces_lessThan (h : a.Represents q) (h' : b.Represents r) :
    Produces (a.lessThan b) (Tells q r) := by
  cases a with
  | integer n =>
    have whole : (q.den : ℤ) = 1 := by rw [h.1, Nat.cast_one]
    cases b with
    | integer m =>
      have whole' : (r.den : ℤ) = 1 := by rw [h'.1, Nat.cast_one]
      have compared : Produces (.read fun _ => n.lessThan m) (Tells q r) := by
        refine .read fun _ => (h.2.returns_lessThan h'.2).mono fun less tells => ?_
        rwa [tells_iff, whole, whole', mul_one, mul_one]
      cases n with
      | integer64 value =>
        intro w ready _
        obtain ⟨⟨less, w'⟩, run, tells⟩ := compared w ready trivial
        cases run
        exact ⟨_, rfl, tells⟩
      | bigInteger n => exact compared
    | fraction n' d' =>
      cases n with
      | integer64 value =>
        have same : value.toInt = q.num := h.2
        refine CommandProgram.Produces.bind (h'.produces_fractionLessThanInteger64 value) fun less tells => ?_
        refine .done ?_
        rw [same] at tells
        rw [tells_iff, whole, mul_one, mul_comm]
        exact tells_opposite (num_ne_of_den h'.1 _) tells
      | bigInteger n =>
        have big : (bigInteger n).Represents q.num := h.2
        refine CommandProgram.Produces.bind (big.produces_multiply h'.2.2) fun product represents => ?_
        refine .read fun _ => (represents.returns_lessThan h'.2.1).mono fun less tells => ?_
        rwa [tells_iff, whole, mul_one]
  | fraction n d =>
    cases b with
    | integer m =>
      have whole : (r.den : ℤ) = 1 := by rw [h'.1, Nat.cast_one]
      have differ := num_ne_of_den h.1 r.num
      cases m with
      | integer64 value =>
        have small : (integer64 value).Represents r.num := h'.2
        refine (produces_compare h.2.1 (h.2.2.produces_multiply small)).mono fun less tells => ?_
        rw [mul_comm] at tells
        rwa [tells_iff, whole, mul_one]
      | bigInteger m =>
        have big : (bigInteger m).Represents r.num := h'.2
        rw [mul_comm] at differ
        refine CommandProgram.Produces.bind (P := fun less => less = decide (r.num * q.den < q.num) ↔
          ¬Misorders (r.num * q.den) q.num) ?_ fun less tells => .done ?_
        · exact CommandProgram.Produces.bind (big.produces_multiply h.2.2) fun product represents =>
            .read fun _ => represents.returns_lessThan h.2.1
        · rw [tells_iff, whole, mul_one]
          exact tells_opposite differ.symm tells
    | fraction n' d' =>
      change Produces (if n'.isNegative = n.isNegative then _ else _) _
      rw [h.2.1.isNegative_eq, h'.2.1.isNegative_eq]
      split
      · refine (h'.2.1.produces_multiply h.2.2).bind fun left hleft => ?_
        refine (h.2.1.produces_multiply h'.2.2).bind fun right hright => ?_
        exact .read fun _ => (hright.returns_lessThan hleft).mono fun less tells => tells_iff.mpr tells
      · rename_i signs
        rw [decide_eq_decide] at signs
        have positive : (0 : ℤ) < q.den := Int.natCast_pos.mpr q.den_pos
        have positive' : (0 : ℤ) < r.den := Int.natCast_pos.mpr r.den_pos
        refine .done (tells_iff.mpr ?_)
        rcases lt_or_ge q.num 0 with negative | nonneg
        · have nonneg' : 0 ≤ r.num := not_lt.mp fun less => signs (iff_of_true less negative)
          have left := mul_neg_of_neg_of_pos negative positive'
          have right := mul_nonneg nonneg' positive.le
          refine iff_of_true ?_ (not_misorders_of_sign (by omega))
          rw [decide_eq_true negative, decide_eq_true (by omega)]
        · have negative' : r.num < 0 := by
            by_contra none
            exact signs (iff_of_false none (not_lt.mpr nonneg))
          have left := mul_nonneg nonneg positive'.le
          have right := mul_neg_of_neg_of_pos negative' positive
          refine iff_of_true ?_ (not_misorders_of_sign (by omega))
          rw [decide_eq_false (not_lt.mpr nonneg), decide_eq_false (by omega)]

end ExactNumber

/-! ## Runs -/

namespace NumberPool

open ExactNumber

variable {s : NumberPool} {a b : ExactNumber}

/-- The comparisons of two NUMBERs of the pool are those of the rational numbers, and exactly one of them holds. -/
def Orders (s : NumberPool) (a b : ExactNumber) : Prop :=
  Returns ((a.lessThan b).run World.run s.registers) fun (less, _) =>
    Returns ((b.lessThan a).run World.run s.registers) fun (more, _) =>
      Returns (a.isEqual b) fun equal =>
        (less = true ↔ a.value < b.value) ∧ (more = true ↔ b.value < a.value) ∧
          (equal = true ↔ a.value = b.value) ∧ less.toNat + more.toNat + equal.toNat = 1

theorem Canonical.returns_lessThan (h : s.Canonical) {q r : ℚ} (first : a.Represents q) (second : b.Represents r) :
    Returns ((a.lessThan b).run World.run s.registers) fun (less, _) => Tells q r less :=
  have meets := (lessThan_harmless a b).meets (fun w _ harmless => harmless w) s.registers
  (first.produces_lessThan second s.registers h.registers meets).mono fun _ ⟨_, tells⟩ => tells

theorem misordersProducts_comm {q r : ℚ} : MisordersProducts q r ↔ MisordersProducts r q :=
  ⟨Misorders.symm, Misorders.symm⟩

theorem sum_of_order (q r : ℚ) :
    (decide (q < r)).toNat + (decide (r < q)).toNat + (decide (q = r)).toNat = 1 := by
  rcases lt_trichotomy q r with less | same | more
  · rw [decide_eq_true less, decide_eq_false less.asymm, decide_eq_false less.ne]
    rfl
  · rw [same, decide_eq_false (lt_irrefl r), decide_eq_true rfl]
    rfl
  · rw [decide_eq_false more.asymm, decide_eq_true more, decide_eq_false more.ne']
    rfl

theorem Canonical.orders_iff (h : s.Canonical) {q r : ℚ} (first : a.Represents q) (second : b.Represents r) :
    s.Orders a b ↔ ¬MisordersProducts q r := by
  obtain ⟨⟨less, w⟩, run, tells⟩ := h.returns_lessThan first second
  obtain ⟨⟨more, w'⟩, run', tells'⟩ := h.returns_lessThan second first
  have equal := first.isEqual_eq second
  unfold Orders
  rw [run, run', equal, first.value_eq, second.value_eq]
  simp only [Returns.some_iff]
  constructor
  · rintro ⟨exact, _⟩
    refine tells.mp ?_
    rw [Bool.eq_iff_iff, decide_eq_true_eq]
    exact exact
  · intro right
    have exact := tells.mpr right
    have exact' := tells'.mpr (mt misordersProducts_comm.mpr right)
    rw [exact, exact']
    exact ⟨decide_eq_true_iff, decide_eq_true_iff, decide_eq_true_iff, sum_of_order q r⟩

/-- In a run of sound operations two NUMBERs are ordered as the rational numbers exactly where they, or the products
of their numerators and denominators, are not read in words of different top bits. -/
theorem Reaches.orders (reached : Reaches Sound s) (member : a ∈ s.numbers) (member' : b ∈ s.numbers) :
    s.Orders a b ↔ ¬MisordersProducts a.value b.value := by
  obtain ⟨q, first⟩ := reached.canonical.numbers a member
  obtain ⟨r, second⟩ := reached.canonical.numbers b member'
  rw [first.value_eq, second.value_eq]
  exact reached.canonical.orders_iff first second

theorem two_orders : (NumberPool.mk [.integer (.integer64 2), .integer (.integer64 3)] start.registers).Orders
    (integer (.integer64 2)) (integer (.integer64 3)) := by
  have two : Reaches Sound ⟨[.integer (.integer64 2)], start.registers⟩ :=
    .step (.fromInteger64 2) .start trivial ⟨trivial, id⟩ rfl
  have three : Reaches Sound ⟨[.integer (.integer64 2), .integer (.integer64 3)], start.registers⟩ :=
    two.step (.fromInteger64 3) trivial ⟨trivial, id⟩ rfl
  have orders := three.orders (List.mem_of_getElem? (i := 0) rfl) (List.mem_of_getElem? (i := 1) rfl)
  exact orders.mpr fun wrong => wrong.1 (by decide)

/-- `2 ^ 63` is not less than `2 ^ 63 + 2 ^ 31`: the lower words are compared as INTEGERs. -/
theorem not_orders : ¬∀ s, Reaches (fun _ _ => True) s → ∀ a b, a ∈ s.numbers → b ∈ s.numbers → s.Orders a b := by
  intro claim
  have nothing : Reaches (fun _ _ => True) start := .start
  have least := nothing.step (.fromInteger64 Integer64.minimum) trivial trivial rfl
  have power := least.step (.unary .negate 0) (fun _ _ => trivial) trivial rfl
  have more := power.step (.mixed .add 1 0x80000000) (fun _ _ => trivial) trivial rfl
  have orders := claim _ more _ _ (List.mem_of_getElem? (i := 1) rfl) (List.mem_of_getElem? (i := 2) rfl)
  obtain ⟨_, _, tells, -⟩ := (orders.unique rfl).unique rfl
  have less : ((9223372036854775808 : ℤ) : ℚ) < (9223372039002259456 : ℤ) := Int.cast_lt.mpr (by decide)
  exact absurd (tells.mpr less) (by decide)

end NumberPool

end Liberty
