import Liberty.Numeric.MutableBigInteger.Multiplication

/-!
# Products

The commands that multiply and the choice between the schoolbook variants.  All of them
are exact, except `multiply_to` when the result is `other` itself: the object is cleared
before its words are read.
-/

namespace Liberty

namespace MutableBigInteger

/-! ## The source -/

/-- `multiply_to_like_human`: the result `res`, which is `other` itself when
`resIsOther`. -/
def multiplyToLikeHuman (resIsOther : Bool) (m other res : MutableBigInteger) :
    Option MutableBigInteger := do
  let resNegative := m.negative != other.negative
  let resIntegerLength := m.integerLength + other.integerLength
  let fresh := decide (res.capacity < resIntegerLength)
  let r ← res.enlarge resIntegerLength
  -- `res.set_with_zero` comes before `other` is read
  let otherLength := if resIsOther then 0 else other.integerLength
  let readV := fun (s : NativeArray Word) j =>
    if resIsOther && !fresh then s.item j else other.storage.item j
  let (storage, overflow) ← multiplyWords m.storage readV
    m.offset (m.offset + m.integerLength - 1)
    other.offset (other.offset + otherLength - 1) r.storage
  return {
    storage, capacity := r.capacity
    integerLength := if overflow = 0 then resIntegerLength - 1 else resIntegerLength
    offset := 0, negative := resNegative }

def multiplyLikeHumanAux (m other : MutableBigInteger) : Option MutableBigInteger := do
  let (storage, overflow) ← multiplyWords other.storage (fun s j => s.item j)
    other.offset (other.offset + other.integerLength - 1)
    m.offset (m.offset + m.integerLength - 1) m.storage
  return { m with
    storage, offset := 0, negative := m.negative != other.negative
    integerLength := if overflow = 0 then m.integerLength + other.integerLength - 1
      else m.integerLength + other.integerLength }

def multiplyLikeHumanAuxReverse (m other : MutableBigInteger) :
    Option MutableBigInteger := do
  let storage ← multiplyWordsReverse other.storage
    other.offset (other.offset + other.integerLength - 1)
    m.offset (m.offset + m.integerLength - 1) m.storage
  let top ← storage.item (m.offset + m.integerLength + other.integerLength - 1)
  return { m with
    storage, negative := m.negative != other.negative
    integerLength := if top = 0 then m.integerLength + other.integerLength - 1
      else m.integerLength + other.integerLength }

/-- `multiply_like_human`: the product and `register1`. -/
def multiplyLikeHuman (m other register1 : MutableBigInteger) :
    Option (MutableBigInteger × MutableBigInteger) :=
  let newIntegerLength := m.integerLength + other.integerLength
  if m.capacity < newIntegerLength then do
    -- `register1.swap_with(Current)`
    return (← m.multiplyToLikeHuman false other register1, m)
  else if m.offset + newIntegerLength ≤ m.capacity then do
    return (← m.multiplyLikeHumanAuxReverse other, register1)
  else if m.offset ≥ other.integerLength then do
    return (← m.multiplyLikeHumanAux other, register1)
  else do
    let oldOffset := m.offset
    let offset := m.capacity - m.integerLength
    let storage ← m.storage.sliceCopy offset m.storage oldOffset
      (oldOffset + m.integerLength - 1)
    return (← { m with storage, offset }.multiplyLikeHumanAux other, register1)

def isZero (m : MutableBigInteger) : Bool :=
  decide (m.integerLength = 0)

def isOne (m : MutableBigInteger) : Option Bool :=
  if m.integerLength = 1 ∧ m.negative = false then do
    return (← m.storage.item m.offset) == 1
  else
    some false

def isOneNegative (m : MutableBigInteger) : Option Bool :=
  if m.integerLength = 1 ∧ m.negative = true then do
    return (← m.storage.item m.offset) == 1
  else
    some false

/-- `res.copy(other)` where `res` may be `other`. -/
def copyTo (resIsOther : Bool) (other res : MutableBigInteger) : Option MutableBigInteger :=
  if resIsOther then other.copySelf else res.copy other

/-- `multiply_to`: the result `res`, which is `other` itself when `resIsOther`. -/
def multiplyTo (resIsOther : Bool) (m other res : MutableBigInteger) :
    Option MutableBigInteger := do
  if m.isZero || other.isZero then
    return res.setWithZero
  else if ← m.isOne then
    other.copyTo resIsOther res
  else if ← other.isOne then
    res.copy m
  else if ← m.isOneNegative then
    let res ← other.copyTo resIsOther res
    return res.setNegative !res.negative
  else if ← other.isOneNegative then
    let res ← res.copy m
    return res.setNegative !m.negative
  else
    m.multiplyToLikeHuman resIsOther other res

/-- `multiply` by another object: the product and `register1`. -/
def multiply (m other register1 : MutableBigInteger) :
    Option (MutableBigInteger × MutableBigInteger) := do
  if m.isZero || other.isZero then
    return (m.setWithZero, register1)
  else if ← m.isOne then
    return (← m.copy other, register1)
  else if ← other.isOne then
    return (m, register1)
  else if ← m.isOneNegative then
    let m ← m.copy other
    return (m.setNegative !m.negative, register1)
  else if ← other.isOneNegative then
    return (m.setNegative !m.negative, register1)
  else
    m.multiplyLikeHuman other register1

/-- `multiply` by the object itself. -/
def multiplySelf (m register1 : MutableBigInteger) :
    Option (MutableBigInteger × MutableBigInteger) := do
  let register1 ← m.multiplyTo false m register1
  -- `swap_with(register1)`
  return (register1, m)

/-! ## The schoolbook product -/

section Schoolbook

variable {m other : MutableBigInteger}

theorem signed_mul (negative negative' : Bool) (a b : ℤ) :
    signed (negative != negative') (a * b) = signed negative a * signed negative' b := by
  cases negative <;> cases negative' <;> simp

/-- A product of two words more than its least weight has at most one leading zero
word. -/
theorem holds_of_product {r : MutableBigInteger} {k : ℕ} {v : ℤ}
    (isCapacity : IsCapacity r.capacity) (size_eq : r.storage.size = r.capacity)
    (low : 0 ≤ r.offset) (high : r.offset + (k + 2) ≤ r.capacity)
    (value : wordValue r.storage r.offset (k + 2) = v) (least : wordBase ^ k ≤ v)
    (length : r.integerLength =
      if r.storage.cell (r.offset + (k + 1 : ℕ)) = 0 then (k : Int) + 1 else k + 2) :
    Holds r (signed r.negative v) := by
  split at length
  · rename_i zero
    rw [wordValue_succ, zero, unsigned_zero, zero_mul, add_zero] at value
    exact .of_window k isCapacity size_eq length low (by omega)
      (top_ne_zero_of_le (value ▸ least)) (by rw [value])
  · rename_i nonzero
    exact .of_window (k + 1) isCapacity size_eq (by omega) low (by push_cast; omega) nonzero
      (by rw [value])

theorem le_product (hm : Valid m) (ho : Valid other) {n n' : ℕ}
    (length : m.integerLength = n + 1) (length' : other.integerLength = n' + 1) :
    wordBase ^ (n + n') ≤ m.magnitude * other.magnitude := by
  rw [pow_add]
  exact mul_le_mul (hm.le_magnitude length) (ho.le_magnitude length')
    (wordBase_pow_pos n').le m.magnitude_nonneg

theorem returns_multiplyToLikeHuman (hm : Valid m) (ho : Valid other)
    {res : MutableBigInteger} (hr : Valid res) (nonzero : m.integerLength ≠ 0)
    (nonzero' : other.integerLength ≠ 0) :
    Returns (m.multiplyToLikeHuman false other res) fun r =>
      Holds r (m.value * other.value) ∧ r.offset = 0 := by
  obtain ⟨n, length⟩ := hm.length_eq_succ nonzero
  obtain ⟨n', length'⟩ := ho.length_eq_succ nonzero'
  have range := hm.offset_range
  have range' := ho.offset_range
  have size := hm.size_eq
  have size' := ho.size_eq
  refine (returns_enlarge hr.isCapacity hr.size_eq _).bind ?_
  rintro r ⟨isCapacity, sizeR, enough, -⟩
  have run : Returns (multiplyWords m.storage
      (fun s j => if (false && decide (res.capacity < m.integerLength +
        other.integerLength)) = true then s.item j else other.storage.item j)
      m.offset (m.offset + n) other.offset (other.offset + n') r.storage)
      fun (s, overflow) =>
        RowsDone m.storage m.offset n other.storage other.offset r.storage n' s overflow :=
    returns_multiplyWords (by omega) (by push_cast; omega) fun t le s _ _ => by
      simp only [Bool.false_and, Bool.false_eq_true, if_false, NativeArray.returns_item]
      exact ⟨by omega, trivial⟩
  rw [show m.offset + (n : Int) = m.offset + m.integerLength - 1 by omega,
    show other.offset + (n' : Int) = other.offset + other.integerLength - 1 by omega] at run
  refine run.bind ?_
  rintro ⟨s, overflow⟩ done
  have value := done.value_eq
  have top := done.top_eq
  have hsize := done.size_eq
  rw [← magnitude_eq (n := n + 1) length, ← magnitude_eq (n := n' + 1) length',
    show n + 1 + (n' + 1) = n + n' + 2 by omega] at value
  refine Returns.pure_iff.mpr ⟨?_, rfl⟩
  rw [value_eq_signed, value_eq_signed, ← signed_mul]
  refine holds_of_product (k := n + n') isCapacity (hsize.trans sizeR) le_rfl
    (by push_cast; omega) value (le_product hm ho length length') ?_
  rw [zero_add, show n + n' + 1 = n + 1 + n' by omega, top]
  split <;> push_cast <;> omega

/-- The product by `other` itself does not return: its length is cleared first, and the
passes never reach their end. -/
theorem multiplyToLikeHuman_eq_none (m other : MutableBigInteger) :
    m.multiplyToLikeHuman true other other = none := by
  rw [multiplyToLikeHuman]
  cases other.enlarge (m.integerLength + other.integerLength) with
  | none => rfl
  | some r =>
    rw [Returns.some_bind]
    dsimp only
    rw [if_pos rfl, multiplyWords_eq_none (by omega)]
    rfl

theorem returns_multiplyLikeHumanAux (hm : Valid m) (ho : Valid other)
    (nonzero : m.integerLength ≠ 0) (nonzero' : other.integerLength ≠ 0)
    (room : other.integerLength ≤ m.offset) :
    Returns (m.multiplyLikeHumanAux other) fun r => Holds r (m.value * other.value) := by
  obtain ⟨n, length⟩ := ho.length_eq_succ nonzero'
  obtain ⟨n', length'⟩ := hm.length_eq_succ nonzero
  have range := ho.offset_range
  have range' := hm.offset_range
  have size := ho.size_eq
  have size' := hm.size_eq
  have run : Returns (multiplyWords other.storage (fun s j => s.item j)
      other.offset (other.offset + n) m.offset (m.offset + n') m.storage)
      fun (s, overflow) =>
        RowsDone other.storage other.offset n m.storage m.offset m.storage n' s overflow :=
    returns_multiplyWords (by omega) (by push_cast; omega) fun t le s hs frame => by
      rw [NativeArray.returns_item, frame _ (by push_cast; omega)]
      exact ⟨by omega, rfl⟩
  rw [show other.offset + (n : Int) = other.offset + other.integerLength - 1 by omega,
    show m.offset + (n' : Int) = m.offset + m.integerLength - 1 by omega] at run
  refine run.bind ?_
  rintro ⟨s, overflow⟩ done
  have value := done.value_eq
  have top := done.top_eq
  have hsize := done.size_eq
  rw [← magnitude_eq (n := n + 1) length, ← magnitude_eq (n := n' + 1) length', mul_comm,
    show n + 1 + (n' + 1) = n' + n + 2 by omega] at value
  refine Returns.pure_iff.mpr ?_
  rw [value_eq_signed, value_eq_signed, ← signed_mul]
  refine holds_of_product (k := n' + n) hm.isCapacity (hsize.trans size') le_rfl
    (by push_cast; omega) value (le_product hm ho length' length) ?_
  rw [zero_add, show n' + n + 1 = n + 1 + n' by omega, top]
  split <;> push_cast <;> omega

theorem returns_multiplyLikeHumanAuxReverse (hm : Valid m) (ho : Valid other)
    (nonzero : m.integerLength ≠ 0) (nonzero' : other.integerLength ≠ 0)
    (room : m.offset + (m.integerLength + other.integerLength) ≤ m.capacity) :
    Returns (m.multiplyLikeHumanAuxReverse other) fun r =>
      Holds r (m.value * other.value) := by
  obtain ⟨n, length⟩ := ho.length_eq_succ nonzero'
  obtain ⟨n', length'⟩ := hm.length_eq_succ nonzero
  have range := ho.offset_range
  have range' := hm.offset_range
  have size := ho.size_eq
  have size' := hm.size_eq
  have run : Returns (multiplyWordsReverse other.storage other.offset (other.offset + n)
      m.offset (m.offset + n') m.storage) fun s =>
        RowsSunk other.storage other.offset n m.storage m.offset n' s :=
    returns_multiplyWordsReverse (by omega) (by omega) (by push_cast; omega)
  rw [show other.offset + (n : Int) = other.offset + other.integerLength - 1 by omega,
    show m.offset + (n' : Int) = m.offset + m.integerLength - 1 by omega] at run
  refine run.bind fun s done => ?_
  have value := done.value_eq
  have hsize := done.size_eq
  rw [← magnitude_eq (n := n + 1) length, ← magnitude_eq (n := n' + 1) length',
    mul_comm] at value
  rw [Returns.bind_iff, NativeArray.returns_item]
  refine ⟨by omega, Returns.pure_iff.mpr ?_⟩
  rw [value_eq_signed, value_eq_signed, ← signed_mul]
  refine holds_of_product (k := n' + n) hm.isCapacity (hsize.trans size')
    (by dsimp only; omega) (by push_cast; omega) value
    (le_product hm ho length' length) ?_
  rw [show m.offset + m.integerLength + other.integerLength - 1 =
    m.offset + ((n' + n + 1 : ℕ) : Int) by push_cast; omega]
  split <;> push_cast <;> omega

/-- A number moved to the top of its storage. -/
theorem Valid.holds_moved (hm : Valid m) (nonzero : m.integerLength ≠ 0)
    {s : NativeArray Word} (offset : Int) (size : s.size = m.storage.size)
    (low : 0 ≤ offset) (high : offset + m.integerLength ≤ m.capacity)
    (moved : ∀ t : ℕ, (t : Int) < m.integerLength →
      s.cell (offset + t) = m.storage.cell (m.offset + t)) :
    Holds { m with storage := s, offset } m.value := by
  obtain ⟨n, length⟩ := hm.length_eq_succ nonzero
  have top := hm.top_ne_zero nonzero
  rw [show m.offset + m.integerLength - 1 = m.offset + n by omega,
    ← moved n (by omega)] at top
  refine .of_window n hm.isCapacity (size.trans hm.size_eq) length low (by dsimp only; omega)
    top ?_
  rw [value_eq_signed, magnitude_eq (n := n + 1) length]
  exact congrArg _ (wordValue_congr fun t ht => moved t (by omega))

theorem returns_multiplyLikeHuman (hm : Valid m) (ho : Valid other)
    {register1 : MutableBigInteger} (hr : Valid register1) (nonzero : m.integerLength ≠ 0)
    (nonzero' : other.integerLength ≠ 0) :
    Returns (m.multiplyLikeHuman other register1) fun (r, register1) =>
      Holds r (m.value * other.value) ∧ Valid register1 := by
  have size := hm.size_eq
  rw [multiplyLikeHuman]
  split
  · exact (returns_multiplyToLikeHuman hm ho hr nonzero nonzero').bind fun r ⟨holds, _⟩ =>
      Returns.pure_iff.mpr ⟨holds, hm⟩
  split
  · rename_i room
    exact (returns_multiplyLikeHumanAuxReverse hm ho nonzero nonzero' room).bind
      fun r holds => Returns.pure_iff.mpr ⟨holds, hr⟩
  split
  · rename_i room
    exact (returns_multiplyLikeHumanAux hm ho nonzero nonzero' room).bind
      fun r holds => Returns.pure_iff.mpr ⟨holds, hr⟩
  · rw [Returns.bind_iff]
    refine NativeArray.returns_sliceCopy (by omega) fun s hsize copied _ => ?_
    have moved := hm.holds_moved nonzero (m.capacity - m.integerLength) hsize
      (by omega) (by omega) fun t ht => by
        rw [copied _ (by omega) (by omega)]
        congr 1
        omega
    rw [← moved.value_eq]
    exact (returns_multiplyLikeHumanAux moved.toValid ho nonzero nonzero'
      (by dsimp only; omega)).bind fun r holds => Returns.pure_iff.mpr ⟨holds, hr⟩

end Schoolbook

/-! ## The commands -/

section Commands

variable {m other : MutableBigInteger}

theorem isZero_eq (hm : Valid m) : m.isZero = decide (m.value = 0) := by
  rw [isZero, decide_eq_decide, hm.value_eq_zero]

theorem Valid.value_eq_signed_one (hm : Valid m) (negative : Bool) :
    m.value = signed negative 1 ↔ (m.integerLength = 1 ∧ m.negative = negative) ∧
      m.storage.cell m.offset = 1 := by
  have one : m.integerLength = 1 → m.magnitude = unsigned (m.storage.cell m.offset) := by
    intro length
    rw [magnitude_eq (n := 1) length, wordValue_succ, wordValue_zero, pow_zero, zero_add,
      mul_one, Nat.cast_zero, add_zero]
  constructor
  · intro value
    have magnitude : m.magnitude = 1 := by
      rw [← abs_value, value]
      cases negative <;> rfl
    have nonzero : m.integerLength ≠ 0 := fun zero => by
      rw [magnitude_of_zero zero] at magnitude
      omega
    obtain ⟨n, length⟩ := hm.length_eq_succ nonzero
    have least := hm.le_magnitude length
    obtain rfl : n = 0 := by
      by_contra more
      have : wordBase ^ 1 ≤ wordBase ^ n := pow_le_pow_right₀ wordBase_pos (by omega)
      rw [pow_one] at this
      have : (1 : ℤ) < wordBase := by decide
      omega
    refine ⟨⟨by omega, ?_⟩, unsigned_inj.mp ?_⟩
    · rw [value_eq_signed, magnitude] at value
      cases h : m.negative <;> cases negative <;>
        simp only [h, signed_true, signed_false] at value <;> first | rfl | omega
    · rw [← one (by omega), magnitude, unsigned_one]
  · rintro ⟨⟨length, rfl⟩, cell⟩
    rw [value_eq_signed, one length, cell, unsigned_one]

theorem isOne_eq (hm : Valid m) : m.isOne = some (decide (m.value = 1)) := by
  have iff := hm.value_eq_signed_one false
  rw [signed_false] at iff
  have range := hm.offset_range
  have size := hm.size_eq
  rw [isOne]
  split
  · rename_i one
    rw [NativeArray.item_of_inBounds (by omega)]
    exact congrArg some (Bool.eq_iff_iff.mpr (by simp [iff, one]))
  · rename_i not
    exact congrArg some (Bool.eq_iff_iff.mpr (by simp [iff, not]))

theorem isOneNegative_eq (hm : Valid m) :
    m.isOneNegative = some (decide (m.value = -1)) := by
  have iff := hm.value_eq_signed_one true
  rw [signed_true] at iff
  have range := hm.offset_range
  have size := hm.size_eq
  rw [isOneNegative]
  split
  · rename_i one
    rw [NativeArray.item_of_inBounds (by omega)]
    exact congrArg some (Bool.eq_iff_iff.mpr (by simp [iff, one]))
  · rename_i not
    exact congrArg some (Bool.eq_iff_iff.mpr (by simp [iff, not]))

/-- The sign of an object that is not zero, changed. -/
theorem Holds.setNegative {r : MutableBigInteger} {v : ℤ} (h : Holds r v) (nonzero : v ≠ 0)
    {n : Bool} (flip : n = !r.negative) : Holds (r.setNegative n) (-v) := by
  have length : r.integerLength ≠ 0 := fun zero => nonzero (by
    rw [← h.value_eq, value_of_zero zero])
  have holds := h.toValid.setNegative_holds n fun _ => length
  refine { holds with value_eq := holds.value_eq.trans ?_ }
  rw [← h.value_eq, value_eq_signed, flip]
  cases r.negative
  · rfl
  · exact (neg_neg _).symm

theorem returns_multiply (hm : Valid m) (ho : Valid other) {register1 : MutableBigInteger}
    (hr : Valid register1) :
    Returns (m.multiply other register1) fun (r, register1) =>
      Holds r (m.value * other.value) ∧ Valid register1 := by
  rw [multiply, isZero_eq hm, isZero_eq ho, isOne_eq hm, isOne_eq ho, isOneNegative_eq hm,
    isOneNegative_eq ho]
  simp only [Returns.some_bind, Bool.or_eq_true, decide_eq_true_eq]
  split
  · rename_i zero
    rw [mul_eq_zero.mpr zero]
    exact Returns.pure_iff.mpr ⟨hm.setWithZero_holds, hr⟩
  rename_i nonzero
  rw [not_or] at nonzero
  split
  · rename_i one
    rw [one, one_mul]
    exact (returns_copy hm.fits ho).bind fun r ⟨copy, _⟩ =>
      Returns.pure_iff.mpr ⟨copy.toHolds, hr⟩
  split
  · rename_i one
    rw [one, mul_one]
    exact Returns.pure_iff.mpr ⟨hm.holds_self, hr⟩
  split
  · rename_i one
    rw [one, neg_one_mul]
    exact (returns_copy hm.fits ho).bind fun r ⟨copy, _⟩ =>
      Returns.pure_iff.mpr ⟨copy.toHolds.setNegative nonzero.2 rfl, hr⟩
  split
  · rename_i one
    rw [one, mul_neg_one]
    exact Returns.pure_iff.mpr ⟨hm.holds_self.setNegative nonzero.1 rfl, hr⟩
  · rw [hm.value_eq_zero, ho.value_eq_zero] at nonzero
    exact returns_multiplyLikeHuman hm ho hr nonzero.1 nonzero.2

/-- `multiply_to` into another object than `other`. -/
theorem returns_multiplyTo (hm : Valid m) (ho : Valid other) {res : MutableBigInteger}
    (hr : Valid res) :
    Returns (m.multiplyTo false other res) (Holds · (m.value * other.value)) := by
  rw [multiplyTo, isZero_eq hm, isZero_eq ho, isOne_eq hm, isOne_eq ho, isOneNegative_eq hm,
    isOneNegative_eq ho]
  simp only [Returns.some_bind, Bool.or_eq_true, decide_eq_true_eq, copyTo,
    Bool.false_eq_true, if_false]
  split
  · rename_i zero
    rw [mul_eq_zero.mpr zero]
    exact Returns.pure_iff.mpr hr.setWithZero_holds
  rename_i nonzero
  rw [not_or] at nonzero
  split
  · rename_i one
    rw [one, one_mul]
    exact (returns_copy hr.fits ho).mono fun r ⟨copy, _⟩ => copy.toHolds
  split
  · rename_i one
    rw [one, mul_one]
    exact (returns_copy hr.fits hm).mono fun r ⟨copy, _⟩ => copy.toHolds
  split
  · rename_i one
    rw [one, neg_one_mul]
    exact (returns_copy hr.fits ho).bind fun r ⟨copy, _⟩ =>
      Returns.pure_iff.mpr (copy.toHolds.setNegative nonzero.2 rfl)
  split
  · rename_i one
    rw [one, mul_neg_one]
    exact (returns_copy hr.fits hm).bind fun r ⟨copy, _⟩ =>
      Returns.pure_iff.mpr (copy.toHolds.setNegative nonzero.1 (by rw [copy.negative_eq]))
  · rw [hm.value_eq_zero, ho.value_eq_zero] at nonzero
    exact (returns_multiplyToLikeHuman hm ho hr nonzero.1 nonzero.2).mono
      fun r ⟨holds, _⟩ => holds

theorem returns_multiplySelf (hm : Valid m) {register1 : MutableBigInteger}
    (hr : Valid register1) :
    Returns (m.multiplySelf register1) fun (r, register1) =>
      Holds r (m.value * m.value) ∧ Valid register1 :=
  (returns_multiplyTo hm hm hr).bind fun _ holds => Returns.pure_iff.mpr ⟨holds, hm⟩

/-- The words of a number begin its storage, or the storage begins with the same words. -/
def WordsAtOrigin (m : MutableBigInteger) : Prop :=
  ∀ t : ℕ, t < m.integerLength → m.storage.cell t = m.storage.cell (m.offset + t)

/-- `multiply_to` with `other` as the result is exact: it does not come to the
schoolbook product, and if `other` is copied to itself its words begin its storage. -/
def MultiplyToOtherExact (m other : MutableBigInteger) : Prop :=
  m.value = 0 ∨ other.value = 0 ∨
    ((m.value = 1 ∨ (m.value = -1 ∧ other.value ≠ 1)) ∧ WordsAtOrigin other) ∨
    (m.value ≠ 1 ∧ other.value = 1) ∨
    (m.value ≠ 1 ∧ m.value ≠ -1 ∧ other.value = -1)

theorem exact_copySelf_iff (ho : Valid other) (nonzero : other.integerLength ≠ 0)
    {s : NativeArray Word} (size : s.size = other.storage.size)
    (same : ∀ i, s.cell i = other.storage.cell i) (n : Bool) :
    Exact { other with storage := s, offset := 0, negative := n }
      (signed n other.magnitude) ↔ WordsAtOrigin other := by
  obtain ⟨k, length⟩ := ho.length_eq_succ nonzero
  have le := ho.length_le
  have size' := ho.size_eq
  refine (exact_iff (r := { other with storage := s, offset := 0, negative := n }) (n := k)
    length le_rfl (by dsimp only; omega)).trans ?_
  rw [and_iff_left (ho.le_magnitude length), magnitude_eq (n := k + 1) length, wordValue_inj,
    WordsAtOrigin]
  exact forall_congr' fun t => by rw [zero_add, same, length]; norm_cast

theorem multiplyTo_other_iff (hm : Valid m) (ho : Valid other) :
    Returns (m.multiplyTo true other other) (Exact · (m.value * other.value)) ↔
      MultiplyToOtherExact m other := by
  have copied := returns_copySelf ho
  rw [multiplyTo, isZero_eq hm, isZero_eq ho, isOne_eq hm, isOne_eq ho, isOneNegative_eq hm,
    isOneNegative_eq ho]
  simp only [Returns.some_bind, Bool.or_eq_true, decide_eq_true_eq, copyTo, if_true]
  split
  · rename_i zero
    rw [mul_eq_zero.mpr zero]
    exact iff_of_true (Returns.pure_iff.mpr ho.setWithZero_holds.exact)
      (zero.imp id fun zero => .inl zero)
  rename_i nonzero
  rw [not_or] at nonzero
  have length : other.integerLength ≠ 0 := fun zero => nonzero.2 (ho.value_eq_zero.mpr zero)
  split
  · rename_i one
    have choice : MultiplyToOtherExact m other ↔ WordsAtOrigin other := by
      simp [MultiplyToOtherExact, one, nonzero.2]
    rw [choice, one, one_mul]
    refine copied.iff_of fun r hr => ?_
    obtain ⟨s, size, same, rfl⟩ := hr
    exact exact_copySelf_iff ho length size same other.negative
  rename_i notOne
  split
  · rename_i one
    rw [one, mul_one]
    refine iff_of_true ((returns_copy ho.fits hm).mono fun r ⟨copy, _⟩ =>
      copy.toHolds.exact) ?_
    exact .inr (.inr (.inr (.inl ⟨notOne, one⟩)))
  rename_i notOne'
  split
  · rename_i one
    have choice : MultiplyToOtherExact m other ↔ WordsAtOrigin other := by
      simp [MultiplyToOtherExact, one, notOne', nonzero.2]
    rw [choice, one, neg_one_mul, Returns.bind_iff]
    refine copied.iff_of fun r hr => ?_
    obtain ⟨s, size, same, rfl⟩ := hr
    rw [Returns.pure_iff, value_eq_signed, show -signed other.negative other.magnitude =
      signed (!other.negative) other.magnitude by cases other.negative <;> simp]
    exact exact_copySelf_iff ho length size same _
  rename_i notMinus
  split
  · rename_i one
    rw [one, mul_neg_one]
    refine iff_of_true ((returns_copy ho.fits hm).bind fun r ⟨copy, _⟩ =>
      Returns.pure_iff.mpr (copy.toHolds.setNegative nonzero.1
        (by rw [copy.negative_eq])).exact) ?_
    exact .inr (.inr (.inr (.inr ⟨notOne, notMinus, one⟩)))
  · rename_i notMinus'
    rw [multiplyToLikeHuman_eq_none]
    simp [MultiplyToOtherExact, nonzero, notOne, notOne', notMinus, notMinus']

/-- Whatever the result, its storage has the recorded capacity. -/
theorem multiplyTo_other_storage (hm : Valid m) (ho : Valid other) {r : MutableBigInteger}
    (run : m.multiplyTo true other other = some r) :
    IsCapacity r.capacity ∧ r.storage.size = r.capacity := by
  have copied := returns_copySelf ho
  obtain ⟨own, runSelf, s, size, -, rfl⟩ := copied
  obtain ⟨copy, runCopy, holds, -⟩ := returns_copy ho.fits hm
  have self : IsCapacity other.capacity ∧ s.size = other.capacity :=
    ⟨ho.isCapacity, size.trans ho.size_eq⟩
  rw [multiplyTo, isZero_eq hm, isZero_eq ho, isOne_eq hm, isOne_eq ho, isOneNegative_eq hm,
    isOneNegative_eq ho] at run
  simp only [Returns.some_bind, Bool.or_eq_true, decide_eq_true_eq, copyTo, if_true, runSelf,
    runCopy, multiplyToLikeHuman_eq_none] at run
  split at run
  · cases run
    exact ⟨ho.isCapacity, ho.size_eq⟩
  split at run
  · cases run
    exact self
  split at run
  · cases run
    exact ⟨holds.isCapacity, holds.size_eq⟩
  split at run
  · cases run
    exact self
  split at run
  · cases run
    exact ⟨holds.isCapacity, holds.size_eq⟩
  · cases run

/-- `multiply_to` with `other` as the result, when it is exact. -/
theorem returns_multiplyTo_other (hm : Valid m) (ho : Valid other)
    (exact : MultiplyToOtherExact m other) :
    Returns (m.multiplyTo true other other) (Holds · (m.value * other.value)) := by
  obtain ⟨r, run, product⟩ := (multiplyTo_other_iff hm ho).mpr exact
  obtain ⟨isCapacity, size⟩ := multiplyTo_other_storage hm ho run
  exact ⟨r, run, product.holds isCapacity size⟩

end Commands

end MutableBigInteger

end Liberty
