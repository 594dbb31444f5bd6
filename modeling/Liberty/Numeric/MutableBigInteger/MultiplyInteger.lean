import Liberty.Numeric.MutableBigInteger.Product
import Liberty.Numeric.MutableBigInteger.Shift

/-!
# Products with an INTEGER

`multiply_integer` writes one row of a product in another object.  It is exact when that
object has one word more than the product needs.
-/

namespace Liberty

namespace MutableBigInteger

/-! ## The source -/

/-- A new storage for `res` when `res_integer_length` words do not fit.  The new capacity
is recorded in the object itself. -/
def multiplyIntegerStorage (m res : MutableBigInteger) (resIntegerLength : Int) :
    Option (MutableBigInteger × MutableBigInteger) :=
  if res.capacity < resIntegerLength then do
    let resCapacity ←
      if m.capacity < resIntegerLength then some (m.capacity * 2)
      else capacityFromUpperBound m.capacity resIntegerLength
    return ({ m with capacity := resCapacity }, { res with storage := .calloc resCapacity })
  else
    some (m, res)

/-- The words of the product, by the magnitude `v`. -/
def multiplyIntegerWords (m res : MutableBigInteger) (v : Word) :
    Option (MutableBigInteger × MutableBigInteger) := do
  -- pessimistic estimation
  let resIntegerLength := m.integerLength + 1
  let (m, res) ← m.multiplyIntegerStorage res resIntegerLength
  let res := res.setOffset 0
  let c ← multiplyRow m.storage (m.offset + m.integerLength - 1) v
    ⟨res.storage, m.offset, 0, 0, 0⟩
  let res := { res with storage := c.storage }
  if c.carry = 0 then
    return (m, res.setIntegerLength (resIntegerLength - 1))
  else
    return (m, ← res.put c.carry m.integerLength)

/-- `multiply_integer`: the object itself and `res`. -/
def multiplyInteger (m : MutableBigInteger) (other : Word) (res : MutableBigInteger) :
    Option (MutableBigInteger × MutableBigInteger) :=
  if other = 0 ∨ m.integerLength = 0 then
    some (m, res.setWithZero)
  else if other = minimumInteger then do
    let res := res.setNegative !m.negative
    return (← m.shiftLeft 31, res)
  else if other.toInt > 0 then
    m.multiplyIntegerWords (res.setNegative m.negative) other
  else
    m.multiplyIntegerWords (res.setNegative !m.negative) (-other)

/-! ## Exactness -/

section Exactness

variable {m res : MutableBigInteger}

/-- `res` has a word more than the object, and the product does not need it. -/
def MultiplyIntegerExact (m res : MutableBigInteger) (other : Word) : Prop :=
  other ≠ 0 → m.integerLength ≠ 0 →
    other ≠ minimumInteger ∧ m.integerLength < res.capacity ∧
      m.magnitude * |other.toInt| < wordBase ^ m.integerLength.toNat

theorem returns_multiplyIntegerWords (hm : Valid m) (hr : Valid res)
    (nonzero : m.integerLength ≠ 0) {v : Word} (some : v ≠ 0)
    (room : m.integerLength < res.capacity)
    (fits : m.magnitude * unsigned v < wordBase ^ m.integerLength.toNat) {negative : Bool} :
    Returns (m.multiplyIntegerWords (res.setNegative negative) v) fun (m', r) =>
      m' = m ∧ Holds r (signed negative (m.magnitude * unsigned v)) := by
  have range := hm.offset_range nonzero
  have size := hm.size_eq
  have size' := hr.size_eq
  obtain ⟨n, length⟩ := hm.length_eq_succ nonzero
  have magnitude := magnitude_eq (m := m) (n := n + 1) length
  have least := hm.le_magnitude length
  have positive := unsigned_pos some
  rw [multiplyIntegerWords]
  rw [multiplyIntegerStorage, if_neg (by simp only [setNegative]; omega), Returns.some_bind]
  dsimp only
  rw [show m.offset + m.integerLength - 1 = m.offset + n by omega]
  refine (returns_multiplyRow (n := n) v (show _ = m.offset from rfl) ⟨range.1, by omega⟩ le_rfl
    (by simp only [setOffset, setNegative]; omega) rfl).bind fun c row => ?_
  have hsize := row.size_eq
  have eq := row.value_eq
  have product := Positional.value_mul_add (B := wordBase) (f := words m.storage m.offset)
    (g := fun _ => 0) (n := n + 1) (unsigned v)
  rw [Positional.value_of_zero (f := fun _ => (0 : ℤ)) fun _ _ => rfl, add_zero] at product
  simp only [add_zero] at product
  rw [product, one_mul, unsigned_zero, add_zero] at eq
  change _ = wordValue m.storage m.offset (n + 1) * unsigned v at eq
  rw [← magnitude] at eq
  have nonneg := wordValue_nonneg c.storage 0 (n + 1)
  have power := wordBase_pow_pos (n + 1)
  have none : c.carry = 0 := by
    rw [← unsigned_eq_zero]
    have nonneg' := unsigned_nonneg c.carry
    rw [show m.integerLength.toNat = n + 1 by omega] at fits
    nlinarith
  rw [none, unsigned_zero, mul_zero, add_zero] at eq
  rw [if_pos none]
  refine Returns.pure_iff.mpr ⟨rfl, Holds.of_window n hr.isCapacity (hsize.trans size')
    (by dsimp only [setIntegerLength]; omega) le_rfl
    (by dsimp only [setIntegerLength, setOffset, setNegative]; omega) ?_ ?_⟩
  · refine top_ne_zero_of_le ?_
    dsimp only [setIntegerLength, setOffset, setNegative]
    rw [eq]
    exact least.trans (le_mul_of_one_le_right m.magnitude_nonneg positive)
  · dsimp only [setIntegerLength, setOffset, setNegative]
    rw [eq]

/-- `multiply_integer` into a result with enough room. -/
theorem returns_multiplyInteger (hm : Valid m) (hr : Valid res) {other : Word}
    (exact : MultiplyIntegerExact m res other) :
    Returns (m.multiplyInteger other res) fun (m', r) =>
      m' = m ∧ Holds r (m.value * other.toInt) := by
  rw [multiplyInteger]
  split
  · rename_i zero
    have product : m.value * other.toInt = 0 := by
      rcases zero with rfl | zero
      · exact mul_zero _
      · rw [value_of_zero zero, zero_mul]
    rw [product]
    exact Returns.some_iff.mpr ⟨rfl, hr.setWithZero_holds⟩
  rename_i nonzero
  rw [not_or] at nonzero
  obtain ⟨notMinimum, room, fits⟩ := exact nonzero.1 nonzero.2
  rw [if_neg notMinimum]
  split
  · rename_i positive
    have value := unsigned_of_toInt_pos positive
    rw [abs_of_pos positive, ← value] at fits
    refine (returns_multiplyIntegerWords hm hr nonzero.2 nonzero.1 room fits).mono ?_
    rintro ⟨m', r⟩ ⟨rfl, holds⟩
    refine ⟨rfl, { holds with value_eq := holds.value_eq.trans ?_ }⟩
    rw [value, value_eq_signed]
    cases m'.negative
    · rfl
    · exact (neg_mul _ _).symm
  · rename_i notPositive
    have negative : other.toInt < 0 := by
      rcases Int.lt_trichotomy other.toInt 0 with neg | zero | pos
      · exact neg
      · exact absurd (BitVec.eq_of_toInt_eq zero) nonzero.1
      · exact absurd pos notPositive
    have value := unsigned_neg_of_toInt_neg negative
    have some : -other ≠ 0 := fun zero => by
      rw [zero, unsigned_zero] at value
      omega
    rw [abs_of_neg negative, ← value] at fits
    refine (returns_multiplyIntegerWords hm hr nonzero.2 some room fits).mono ?_
    rintro ⟨m', r⟩ ⟨rfl, holds⟩
    refine ⟨rfl, { holds with value_eq := holds.value_eq.trans ?_ }⟩
    rw [value, value_eq_signed]
    cases m'.negative
    · simp only [Bool.not_false, signed_true, signed_false]
      ring
    · simp only [Bool.not_true, signed_true, signed_false]
      ring

end Exactness

end MutableBigInteger

end Liberty
