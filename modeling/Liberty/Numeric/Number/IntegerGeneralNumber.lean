import Liberty.Numeric.Integer64
import Liberty.Numeric.MutableBigInteger.Comparison
import Liberty.Numeric.MutableBigInteger.Conversions
import Liberty.Numeric.Number.Registers

/-!
# INTEGER_GENERAL_NUMBER

An integer is an INTEGER_64_NUMBER, or a BIG_INTEGER_NUMBER with a sign and the words of its magnitude.
`Represents` is the canonical form: a BIG_INTEGER_NUMBER is beyond 64 bits and its top word is not zero.
Two canonical integers are `is_equal` exactly when they are the same integer, and then their `hash_code`
is the same.
-/

namespace Liberty

open MutableBigInteger

/-! ## The source -/

structure BigIntegerNumber where
  storage : NativeArray Word
  capacity : Int
  negative : Bool

/-- An INTEGER_64_NUMBER or a BIG_INTEGER_NUMBER. -/
inductive IntegerGeneralNumber
  | integer64 (value : BitVec 64)
  | bigInteger (number : BigIntegerNumber)

namespace BigIntegerNumber

/-- `is_equal` of two BIG_INTEGER_NUMBERs -/
def isEqual (n n2 : BigIntegerNumber) : Option Bool :=
  if n.negative = n2.negative then
    if n.capacity = n2.capacity then do
      let (result, _) ← untilLoop (fun s => some (!s.1 || decide (s.2 < 0)))
        (fun (_, i) => do return (decide ((← n.storage.item i) = (← n2.storage.item i)), i - 1))
        n.capacity.toNat (true, n.capacity - 1)
      return result
    else
      some false
  else
    some false

/-- One word of the loop of `hash_code`: the result, the words still to be added and the index. -/
def hashRound (storage : NativeArray Word) (s : Word × ℕ × Int) : Option (Word × ℕ × Int) := do
  let (result, c, i) := s
  let v ← storage.item i
  if v ≠ 0 then return (result + v, c - 1, i + 1) else return (result, c, i + 1)

def hashCode (n : BigIntegerNumber) : Option Word := do
  let (result, _, _) ← untilLoop (fun s => some (decide (s.2.1 = 0 ∨ s.2.2 = n.capacity)))
    (hashRound n.storage) n.capacity.toNat (0, 2, 0)
  let result := BitVec.ofInt 32 n.capacity * result
  let result := if n.negative then result + 1 else result
  return if result.toInt < 0 then ~~~result else result

/-- The number is the opposite of `Minimum_integer_64`. -/
def isOppositeOfMinimum (n : BigIntegerNumber) : Option Bool :=
  if n.negative = false ∧ n.capacity = 2 then do
    if (← n.storage.item 0) = 0 then return (← n.storage.item 1) == 0x80000000
    else return false
  else
    some false

end BigIntegerNumber

namespace IntegerGeneralNumber

def isZero : IntegerGeneralNumber → Bool
  | integer64 value => value == 0
  | bigInteger _ => false

def isOne : IntegerGeneralNumber → Bool
  | integer64 value => value == 1
  | bigInteger _ => false

def isPositive : IntegerGeneralNumber → Bool
  | integer64 value => decide (0 < value.toInt)
  | bigInteger n => !n.negative

def isNegative : IntegerGeneralNumber → Bool
  | integer64 value => decide (value.toInt < 0)
  | bigInteger n => n.negative

def isEqual : IntegerGeneralNumber → IntegerGeneralNumber → Option Bool
  | integer64 value, integer64 value' => some (value == value')
  | bigInteger n, bigInteger n2 => n.isEqual n2
  | integer64 _, bigInteger _ | bigInteger _, integer64 _ => some false

def hashCode : IntegerGeneralNumber → Option Word
  | integer64 value => some (value.truncate 32 &&& 0x7FFFFFFF)
  | bigInteger n => n.hashCode

/-- `put_into_mutable_big_integer`, for the register `i` -/
def putIntoMutableBigInteger (i : ℕ) : IntegerGeneralNumber → Calculation Unit
  | integer64 value => .send (.fromInteger64 i value)
  | bigInteger n => .send (.fromNativeArray i n.storage n.capacity n.negative)

/-- `to_integer_64` -/
def toInteger64 : IntegerGeneralNumber → Calculation (BitVec 64)
  | integer64 value => pure value
  | bigInteger _ => .undefined

end IntegerGeneralNumber

/-- `to_integer_general_number` -/
def MutableBigInteger.toIntegerGeneralNumber (m : MutableBigInteger) : Option IntegerGeneralNumber := do
  if ← m.isInteger64 then
    return .integer64 (← m.toInteger64)
  else
    let na := NativeArray.calloc m.integerLength
    let na ← na.sliceCopy 0 m.storage m.offset (m.offset + m.integerLength - 1)
    return .bigInteger ⟨na, m.integerLength, m.negative⟩

/-- `to_integer_general_number` of the register `i` -/
def Calculation.toIntegerGeneralNumber (i : ℕ) : Calculation IntegerGeneralNumber :=
  .read fun w => (w.object i).toIntegerGeneralNumber

/-! ## Canonical form -/

/-- A BIG_INTEGER_NUMBER in canonical form, and the integer that it is. -/
structure BigIntegerNumber.Represents (n : BigIntegerNumber) (v : ℤ) : Prop where
  size_eq : n.storage.size = n.capacity
  two_le : 2 ≤ n.capacity
  top_ne_zero : n.storage.cell (n.capacity - 1) ≠ 0
  large : ¬InInteger64 v
  value_eq : signed n.negative (wordValue n.storage 0 n.capacity.toNat) = v

/-- An integer in canonical form. -/
def IntegerGeneralNumber.Represents : IntegerGeneralNumber → ℤ → Prop
  | integer64 value, v => value.toInt = v
  | bigInteger n, v => n.Represents v

/-- The integer that the words are, in canonical form or not. -/
protected def IntegerGeneralNumber.value : IntegerGeneralNumber → ℤ
  | integer64 value => value.toInt
  | bigInteger n => signed n.negative (wordValue n.storage 0 n.capacity.toNat)

section Canonical

variable {m : MutableBigInteger} {v v' : ℤ}

theorem inInteger64_toInt (value : BitVec 64) : InInteger64 value.toInt :=
  Integer64.toInt_range value

theorem MutableBigInteger.Holds.returns_toIntegerGeneralNumber (h : Holds m v) :
    Returns m.toIntegerGeneralNumber (·.Represents v) := by
  have size := h.size_eq
  obtain ⟨_, test, rfl⟩ := returns_isInteger64 h.toValid
  rw [toIntegerGeneralNumber, test, Returns.some_bind, h.value_eq]
  split
  · rename_i inside
    have inside := of_decide_eq_true inside
    rw [← h.value_eq] at inside
    refine (returns_toInteger64 h.toValid inside).bind fun value same => Returns.pure_iff.mpr ?_
    exact same.trans h.value_eq
  · rename_i beyond
    have beyond : ¬InInteger64 v := fun inside => beyond (decide_eq_true inside)
    obtain ⟨n, length⟩ := h.length_eq
    have two : 2 ≤ n := by
      by_contra short
      have less := magnitude_lt length
      have most : wordBase ^ n ≤ wordBase ^ 1 := pow_le_pow_right₀ wordBase_pos (by omega)
      have inside := m.magnitude_nonneg
      apply beyond
      rw [← h.value_eq, value_eq_signed, inInteger64_signed inside]
      unfold wordBase at less most
      omega
    have range := h.offset_range (by omega)
    have top := h.top_ne_zero (by omega)
    rw [Returns.bind_iff]
    refine NativeArray.returns_sliceCopy (by dsimp only [NativeArray.calloc]; omega) fun s same cells _ => ?_
    have cell : ∀ t : ℕ, t < n → s.cell (0 + t) = m.storage.cell (m.offset + t) := fun t less => by
      rw [cells _ (by omega) (by omega)]
      congr 1
      omega
    refine Returns.pure_iff.mpr ⟨same, by dsimp only; omega, ?_, beyond, ?_⟩
    · dsimp only
      rw [show m.integerLength - 1 = 0 + ((n - 1 : ℕ) : Int) by omega, cell _ (by omega)]
      rwa [show m.offset + ((n - 1 : ℕ) : Int) = m.offset + m.integerLength - 1 by omega]
    · dsimp only
      rw [← h.value_eq, value_eq_signed, magnitude, length, Int.toNat_natCast, wordValue_congr cell]

theorem MutableBigInteger.toIntegerGeneralNumber_of_zero (zero : m.integerLength = 0) :
    m.toIntegerGeneralNumber = some (.integer64 0) := by
  unfold toIntegerGeneralNumber isInteger64 toInteger64
  rw [if_pos (by omega), if_pos zero]
  rfl

/-! ## Equality -/

namespace BigIntegerNumber

variable {n n' : BigIntegerNumber}

/-- The words of a canonical number, of which the top one is needed. -/
theorem Represents.words (h : n.Represents v) : ∃ k : ℕ, n.capacity = k + 1 ∧
    n.storage.cell k ≠ 0 ∧ v = signed n.negative (wordValue n.storage 0 (k + 1)) ∧
      wordBase ^ k ≤ wordValue n.storage 0 (k + 1) := by
  have two := h.two_le
  obtain ⟨k, capacity⟩ : ∃ k : ℕ, n.capacity = k + 1 := ⟨(n.capacity - 1).toNat, by omega⟩
  have top := h.top_ne_zero
  rw [capacity, add_sub_cancel_right] at top
  have value := h.value_eq
  rw [capacity, show ((k : Int) + 1).toNat = k + 1 by omega] at value
  exact ⟨k, capacity, top, value.symm, pow_le_wordValue (by rwa [zero_add])⟩

theorem Represents.negative_iff (h : n.Represents v) : n.negative = true ↔ v < 0 := by
  obtain ⟨k, -, -, value, least⟩ := h.words
  have positive := wordBase_pow_pos k
  rw [value]
  cases n.negative
  · rw [signed_false]
    exact ⟨fun no => absurd no Bool.false_ne_true, fun less => by omega⟩
  · rw [signed_true]
    exact ⟨fun _ => by omega, fun _ => rfl⟩

/-- Numbers of words of which the top one is needed have as many of them when they are the same. -/
theorem length_eq_of_words {s s' : NativeArray Word} {k k' : ℕ} (least : wordBase ^ k ≤ wordValue s 0 (k + 1))
    (least' : wordBase ^ k' ≤ wordValue s' 0 (k' + 1)) (same : wordValue s 0 (k + 1) = wordValue s' 0 (k' + 1)) :
    k = k' := by
  have base : 1 < wordBase := by decide
  have less : k < k' + 1 :=
    (pow_lt_pow_iff_right₀ base).mp (lt_of_le_of_lt (same ▸ least) (wordValue_lt s' 0 (k' + 1)))
  have less' : k' < k + 1 :=
    (pow_lt_pow_iff_right₀ base).mp (lt_of_le_of_lt (same.symm ▸ least') (wordValue_lt s 0 (k + 1)))
  omega

/-- Canonical numbers of one value have one sign, one length and the same words. -/
theorem Represents.same (h : n.Represents v) (h' : n'.Represents v) :
    n.negative = n'.negative ∧ n.capacity = n'.capacity ∧
      ∀ i, 0 ≤ i → i < n.capacity → n.storage.cell i = n'.storage.cell i := by
  have sign : n.negative = n'.negative := by
    rw [Bool.eq_iff_iff, h.negative_iff, h'.negative_iff]
  obtain ⟨k, capacity, -, value, least⟩ := h.words
  obtain ⟨k', capacity', -, value', least'⟩ := h'.words
  have words : wordValue n.storage 0 (k + 1) = wordValue n'.storage 0 (k' + 1) := by
    rw [value, sign, signed_inj] at value'
    exact value'
  have length := length_eq_of_words least least' words
  subst length
  refine ⟨sign, capacity.trans capacity'.symm, fun i low high => ?_⟩
  have cells := wordValue_inj.mp words i.toNat (by omega)
  rwa [zero_add, Int.toNat_of_nonneg low] at cells

/-- The loop of `is_equal`, from the top word down. -/
theorem returns_isEqual (signs : n.negative = n'.negative) (capacities : n.capacity = n'.capacity)
    (nonneg : 0 ≤ n.capacity) (inside : n.capacity ≤ n.storage.size) (inside' : n'.capacity ≤ n'.storage.size) :
    Returns (n.isEqual n') fun equal =>
      equal = true ↔ ∀ i, 0 ≤ i → i < n.capacity → n.storage.cell i = n'.storage.cell i := by
  rw [isEqual, if_pos signs, if_pos capacities, Returns.bind_iff]
  refine returns_untilLoop
    (fun s : Bool × Int => -1 ≤ s.2 ∧ s.2 < n.capacity ∧
      (s.1 = true → ∀ i, s.2 < i → i < n.capacity → n.storage.cell i = n'.storage.cell i) ∧
      (s.1 = false → ∃ i, 0 ≤ i ∧ i < n.capacity ∧ n.storage.cell i ≠ n'.storage.cell i))
    (fun s => (s.2 + 1).toNat)
    ⟨by dsimp only; omega, by dsimp only; omega, fun _ i less less' => by dsimp only at less; omega,
      fun no => absurd no.symm Bool.false_ne_true⟩ (by dsimp only; omega) ?_
  intro ⟨result, i⟩ ⟨low, high, same, differ⟩
  rw [Returns.some_iff]
  split
  · rename_i stopped
    rw [Returns.pure_iff]
    rw [Bool.or_eq_true, Bool.not_eq_true', decide_eq_true_eq] at stopped
    cases result with
    | true =>
      have last : i < 0 := stopped.resolve_left (Bool.false_ne_true ·.symm)
      exact ⟨fun _ j first less => same rfl j (by omega) less, fun _ => rfl⟩
    | false =>
      obtain ⟨j, first, less, unequal⟩ := differ rfl
      exact ⟨fun no => absurd no Bool.false_ne_true, fun all => absurd (all j first less) unequal⟩
  · rename_i going
    rw [Bool.or_eq_true, Bool.not_eq_true', decide_eq_true_eq, not_or, Bool.not_eq_false] at going
    obtain ⟨yes, more⟩ := going
    rw [Returns.bind_iff, NativeArray.returns_item]
    refine ⟨by omega, ?_⟩
    rw [Returns.bind_iff, NativeArray.returns_item]
    refine ⟨by omega, Returns.pure_iff.mpr ⟨⟨by dsimp only; omega, by dsimp only; omega, ?_, ?_⟩,
      by dsimp only; omega⟩⟩
    · intro equal j above less
      rcases Decidable.em (j = i) with here | further
      · rw [here]
        exact of_decide_eq_true equal
      · exact same yes j (by omega) less
    · intro unequal
      exact ⟨i, by omega, high, of_decide_eq_false unequal⟩

theorem Represents.isEqual_eq (h : n.Represents v) (h' : n'.Represents v') :
    n.isEqual n' = some (decide (v = v')) := by
  have two := h.two_le
  rcases Decidable.em (n.negative = n'.negative ∧ n.capacity = n'.capacity) with ⟨signs, capacities⟩ | differ
  · obtain ⟨equal, run, iff⟩ := returns_isEqual signs capacities (by omega) h.size_eq.ge h'.size_eq.ge
    rw [run]
    congr 1
    rw [Bool.eq_iff_iff, iff, decide_eq_true_eq]
    constructor
    · intro cells
      rw [← h.value_eq, ← h'.value_eq, ← signs, ← capacities]
      congr 1
      exact wordValue_congr fun t less => cells _ (by omega) (by omega)
    · intro equal
      subst equal
      exact (h.same h').2.2
  · have unequal : v ≠ v' := by
      intro equal
      subst equal
      exact differ ⟨(h.same h').1, (h.same h').2.1⟩
    rw [decide_eq_false unequal, isEqual]
    split
    · rename_i signs
      rw [if_neg fun capacities => differ ⟨signs, capacities⟩]
    · rfl

/-- `hash_code` reads the words of the number only. -/
theorem Represents.hashCode_eq (h : n.Represents v) (h' : n'.Represents v) : n.hashCode = n'.hashCode := by
  obtain ⟨signs, capacities, cells⟩ := h.same h'
  have items : n.storage.item = n'.storage.item := by
    funext i
    have size := h.size_eq
    have size' := h'.size_eq
    unfold NativeArray.item
    rcases Decidable.em (n.storage.InBounds i) with inside | outside
    · have inside' : n'.storage.InBounds i := ⟨inside.1, by have := inside.2; omega⟩
      rw [if_pos inside, if_pos inside', cells i inside.1 (by have := inside.2; omega)]
    · have outside' : ¬n'.storage.InBounds i := fun inside =>
        outside ⟨inside.1, by have := inside.2; omega⟩
      rw [if_neg outside, if_neg outside']
  have rounds : hashRound n.storage = hashRound n'.storage := by
    funext s
    unfold hashRound
    rw [items]
  unfold hashCode
  rw [rounds, signs, capacities]

theorem Represents.returns_hashCode (h : n.Represents v) : ∃ code, n.hashCode = some code := by
  have two := h.two_le
  have size := h.size_eq
  apply Returns.isSome (P := fun _ => True)
  rw [hashCode, Returns.bind_iff]
  refine returns_untilLoop (fun s : Word × ℕ × Int => 0 ≤ s.2.2 ∧ s.2.2 ≤ n.capacity)
    (fun s => (n.capacity - s.2.2).toNat) ⟨le_rfl, by dsimp only; omega⟩ (by dsimp only; omega) ?_
  intro ⟨result, c, i⟩ ⟨low, high⟩
  dsimp only at low high ⊢
  rw [Returns.some_iff]
  split
  · exact Returns.pure_iff.mpr trivial
  · rename_i going
    rw [decide_eq_true_eq, not_or] at going
    rw [hashRound, Returns.bind_iff, NativeArray.returns_item]
    refine ⟨by omega, ?_⟩
    split <;> exact Returns.pure_iff.mpr ⟨⟨by dsimp only; omega, by dsimp only; omega⟩, by dsimp only; omega⟩

end BigIntegerNumber

namespace IntegerGeneralNumber

variable {n n' : IntegerGeneralNumber}

theorem Represents.value_eq (h : n.Represents v) : n.value = v := by
  cases n with
  | integer64 value => exact h
  | bigInteger n => exact BigIntegerNumber.Represents.value_eq h

/-- The representation tells whether an integer is of 64 bits. -/
theorem Represents.integer64_iff (h : n.Represents v) : (∃ value, n = integer64 value) ↔ InInteger64 v := by
  cases n with
  | integer64 value =>
    have same : value.toInt = v := h
    exact iff_of_true ⟨value, rfl⟩ (same ▸ inInteger64_toInt value)
  | bigInteger n =>
    refine iff_of_false ?_ h.large
    intro ⟨_, same⟩
    cases same

theorem Represents.isEqual_eq (h : n.Represents v) (h' : n'.Represents v') :
    n.isEqual n' = some (decide (v = v')) := by
  cases n with
  | integer64 value =>
    have same : value.toInt = v := h
    cases n' with
    | integer64 value' =>
      have same' : value'.toInt = v' := h'
      subst same same'
      rw [isEqual]
      congr 1
      rw [Bool.eq_iff_iff, beq_iff_eq, decide_eq_true_eq, BitVec.toInt_inj]
    | bigInteger n' =>
      have differ : v ≠ v' := fun equal => h'.large (equal ▸ same ▸ inInteger64_toInt value)
      rw [isEqual, decide_eq_false differ]
  | bigInteger n =>
    cases n' with
    | integer64 value' =>
      have same' : value'.toInt = v' := h'
      have differ : v ≠ v' := fun equal => h.large (equal ▸ same' ▸ inInteger64_toInt value')
      rw [isEqual, decide_eq_false differ]
    | bigInteger n' => exact BigIntegerNumber.Represents.isEqual_eq h h'

/-- The same integer has the same `hash_code`. -/
theorem Represents.hashCode_eq (h : n.Represents v) (h' : n'.Represents v) : n.hashCode = n'.hashCode := by
  cases n with
  | integer64 value =>
    have same : value.toInt = v := h
    cases n' with
    | integer64 value' =>
      have same' : value'.toInt = v := h'
      rw [BitVec.eq_of_toInt_eq (same.trans same'.symm)]
    | bigInteger n' => exact absurd (same ▸ inInteger64_toInt value) h'.large
  | bigInteger n =>
    cases n' with
    | integer64 value' =>
      have same' : value'.toInt = v := h'
      exact absurd (same' ▸ inInteger64_toInt value') h.large
    | bigInteger n' => exact BigIntegerNumber.Represents.hashCode_eq h h'

theorem Represents.returns_hashCode (h : n.Represents v) : ∃ code, n.hashCode = some code := by
  cases n with
  | integer64 value => exact ⟨_, rfl⟩
  | bigInteger n => exact BigIntegerNumber.Represents.returns_hashCode h

/-! ## Tests -/

theorem Represents.isZero_eq (h : n.Represents v) : n.isZero = decide (v = 0) := by
  cases n with
  | integer64 value =>
    have same : value.toInt = v := h
    subst same
    rw [isZero, Bool.eq_iff_iff, beq_iff_eq, decide_eq_true_eq, Integer64.eq_zero_iff]
  | bigInteger n =>
    have some : v ≠ 0 := fun zero => h.large (zero ▸ by decide)
    rw [isZero, decide_eq_false some]

theorem Represents.isOne_eq (h : n.Represents v) : n.isOne = decide (v = 1) := by
  cases n with
  | integer64 value =>
    have same : value.toInt = v := h
    subst same
    rw [isOne, Bool.eq_iff_iff, beq_iff_eq, decide_eq_true_eq, ← BitVec.toInt_inj, Integer64.toInt_one]
  | bigInteger n =>
    have other : v ≠ 1 := fun one => h.large (one ▸ by decide)
    rw [isOne, decide_eq_false other]

theorem Represents.isNegative_eq (h : n.Represents v) : n.isNegative = decide (v < 0) := by
  cases n with
  | integer64 value =>
    have same : value.toInt = v := h
    subst same
    rfl
  | bigInteger n =>
    rw [isNegative, Bool.eq_iff_iff, decide_eq_true_eq, BigIntegerNumber.Represents.negative_iff h]

theorem Represents.isPositive_eq (h : n.Represents v) : n.isPositive = decide (0 < v) := by
  cases n with
  | integer64 value =>
    have same : value.toInt = v := h
    subst same
    rfl
  | bigInteger n =>
    have some : v ≠ 0 := fun zero => h.large (zero ▸ by decide)
    have negative := BigIntegerNumber.Represents.negative_iff h
    rw [isPositive, Bool.eq_iff_iff, decide_eq_true_eq, Bool.not_eq_true', ← Bool.not_eq_true, negative]
    omega

theorem represents_zero : (integer64 0).Represents 0 :=
  rfl

theorem represents_one : (integer64 1).Represents 1 :=
  rfl

/-! ## Registers -/

/-- A register that a canonical number is put into holds the integer. -/
theorem Represents.assures_put (h : n.Represents v) {w : World} (ready : Calculation.Ready w) {i : ℕ}
    (operand : i = 1 ∨ i = 2 ∨ i = 4) :
    Calculation.Assures w (n.putIntoMutableBigInteger i) fun _ w' => Calculation.Loads w i v w' := by
  cases n with
  | integer64 value =>
    have same : value.toInt = v := h
    rw [← same]
    exact ready.assures_fromInteger64 operand value
  | bigInteger n =>
    obtain ⟨k, capacity, top, value, -⟩ := BigIntegerNumber.Represents.words h
    have size := h.size_eq
    rw [putIntoMutableBigInteger, capacity, value]
    exact ready.assures_fromNativeArray operand (by omega) top n.negative

end IntegerGeneralNumber

theorem Calculation.assures_toIntegerGeneralNumber {w : World} (ready : Ready w) {i : ℕ}
    (holds : Holds (w.object i) v) :
    Assures w (toIntegerGeneralNumber i) fun n w' => Ready w' ∧ n.Represents v :=
  .read holds.returns_toIntegerGeneralNumber fun _ represents => ⟨ready, represents⟩

end Canonical

end Liberty
