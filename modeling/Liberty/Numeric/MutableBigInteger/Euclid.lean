import Liberty.Numeric.MutableBigInteger.Division

/-!
# Euclidean division

The commands that divide compare the magnitudes and choose among one word, several words
and no division at all.  Each of them is exact under a condition on the dividend, the
divisor and the object that receives the result.
-/

namespace Liberty

namespace MutableBigInteger

/-! ## The source -/

/-- The quotient when the magnitudes are equal. -/
def unitQuotient (m other quotient : MutableBigInteger) : Option MutableBigInteger :=
  if m.negative = other.negative then quotient.fromInteger 1 else quotient.fromInteger (-1)

/-- The remainder of one word in `divide_to`. -/
def putRemainder (m : MutableBigInteger) (rem : Word) : Option MutableBigInteger :=
  if rem ≠ 0 then do
    return (← m.put rem 0).setIlo 1 0
  else
    some m

/-- The remainder of one word in `remainder_with_quotient_to`. -/
def putRemainderKeepingOffset (m : MutableBigInteger) (rem : Word) :
    Option MutableBigInteger :=
  if rem ≠ 0 then do
    return (← m.put rem 0).setIntegerLength 1
  else
    some m

/-- `divide_to`: the quotient, the remainder and `register1`. -/
def divideTo (m other quotient remainder register1 : MutableBigInteger) :
    Option (MutableBigInteger × MutableBigInteger × MutableBigInteger) :=
  if m.integerLength = 0 then
    some (quotient.setWithZero, remainder.setWithZero, register1)
  else do
    let cmp ← m.absCompare other
    if cmp < 0 then
      -- dividend less than divisor
      let quotient := quotient.setWithZero
      let remainder ← remainder.copy m
      let remainder := remainder.setNegative false
      let (quotient, remainder) ← divideSignCorrection m.negative other quotient remainder
      return (quotient, remainder, register1)
    else if cmp = 0 then
      -- dividend equal to divisor
      let quotient ← m.unitQuotient other quotient
      return (quotient, remainder.setWithZero, register1)
    else if other.integerLength = 1 then
      -- special case one word divisor
      let quotient ← quotient.copy m
      let remainder := remainder.setWithZero
      let (quotient, rem) ← quotient.divideOneWord (← other.storage.item other.offset)
      let remainder ← remainder.putRemainder rem
      let (quotient, remainder) ← divideSignCorrection m.negative other quotient remainder
      return (quotient, remainder, register1)
    else
      let remainder ← remainder.copy m
      let (quotient, remainder, register1) ←
        divideMagnitude other quotient remainder register1
      let (quotient, remainder) ← divideSignCorrection m.negative other quotient remainder
      return (quotient, remainder, register1)

/-- `remainder_with_quotient_to`: the object, which becomes the remainder, the quotient
and `register1`. -/
def remainderWithQuotientTo (m other quotient register1 : MutableBigInteger) :
    Option (MutableBigInteger × MutableBigInteger × MutableBigInteger) :=
  if m.integerLength = 0 then
    some (m.setWithZero, quotient.setWithZero, register1)
  else do
    let currentNegative := m.negative
    let cmp ← m.absCompare other
    if cmp < 0 then
      -- dividend less than divisor
      let quotient := quotient.setWithZero
      let m := m.setNegative false
      let (quotient, m) ← divideSignCorrection currentNegative other quotient m
      return (m, quotient, register1)
    else if cmp = 0 then
      -- dividend equal to divisor
      let quotient ← m.unitQuotient other quotient
      return (m.setWithZero, quotient, register1)
    else if other.integerLength = 1 then
      -- special case one word divisor: the two objects are swapped
      let (quotient, m) := (m, quotient)
      let m := m.setWithZero
      let (quotient, rem) ← quotient.divideOneWord (← other.storage.item other.offset)
      let m ← m.putRemainderKeepingOffset rem
      let (quotient, m) ← divideSignCorrection currentNegative other quotient m
      return (m, quotient, register1)
    else
      let (quotient, m, register1) ← divideMagnitude other quotient m register1
      let (quotient, m) ← divideSignCorrection currentNegative other quotient m
      return (m, quotient, register1)

/-- `divide_with_remainder_to`: the object, which becomes the quotient, the remainder and
`register1`. -/
def divideWithRemainderTo (m other remainder register1 : MutableBigInteger) :
    Option (MutableBigInteger × MutableBigInteger × MutableBigInteger) := do
  let (m, remainder, register1) ← m.remainderWithQuotientTo other remainder register1
  -- the two objects are swapped
  return (remainder, m, register1)

/-- `divide`: the object, `register1` and `register2`. -/
def divide (m other register1 register2 : MutableBigInteger) :
    Option (MutableBigInteger × MutableBigInteger × MutableBigInteger) := do
  let (m, register2, register1) ← m.divideWithRemainderTo other register2 register1
  return (m, register1, register2)

/-- `mod`: the object and `register1`. -/
def mod (m other register1 : MutableBigInteger) :
    Option (MutableBigInteger × MutableBigInteger) := do
  let quotient ← blank.fromInteger 0
  let (m, _, register1) ← m.remainderWithQuotientTo other quotient register1
  return (m, register1)

/-! ## Exactness -/

section Exactness

variable {m other quotient remainder register1 : MutableBigInteger}

/-- The quotient is zero and takes the sign of the divisor. -/
def NegativeZeroQuotient (m other : MutableBigInteger) : Prop :=
  0 < m.value ∧ other.value < 0 ∧ m.magnitude < other.magnitude

/-- The dividend is negative, and its remainder has as many words as the divisor, two of
which vanish in their difference. -/
def CancelsInCorrection (m other : MutableBigInteger) : Prop :=
  m.negative = true ∧
    wordBase ^ (other.integerLength.toNat - 1) ≤ m.magnitude % other.magnitude ∧
    CancelsTwo (m.magnitude % other.magnitude) other.magnitude

/-- A remainder at the beginning of its storage can be corrected. -/
theorem correctionExact_of_not_cancels {r : MutableBigInteger} (hr : Valid r)
    (ho : Valid other) (offset : r.integerLength ≠ 0 → r.offset = 0)
    (less : r.magnitude < other.magnitude)
    (remainder : r.magnitude = m.magnitude % other.magnitude)
    (keeps : ¬CancelsInCorrection m other) : CorrectionExact m.negative other r := by
  intro negative nonzero
  refine ⟨fun same cancels => keeps ⟨negative, ?_, ?_⟩, fun longer => ?_,
    fun _ _ keepsOffset => absurd (offset nonzero) keepsOffset.1⟩
  · obtain ⟨n, length⟩ := hr.length_eq_succ nonzero
    rw [← remainder, show other.integerLength.toNat - 1 = n by omega]
    exact hr.le_magnitude length
  · obtain ⟨n, length⟩ := hr.length_eq
    rw [← remainder]
    exact cancels.cancelsTwo length (same ▸ length)
  · have := magnitude_lt_of_length_lt ho longer hr
    omega

theorem returns_unitQuotient (hq : Valid quotient) (equal : m.magnitude = other.magnitude) :
    Returns (m.unitQuotient other quotient) fun q =>
      ∃ v, Holds q v ∧ m.value = other.value * v := by
  have value := value_eq_signed m
  have value' := value_eq_signed other
  rw [unitQuotient]
  split
  · rename_i same
    refine (returns_fromInteger hq.fits 1).mono fun q ⟨holds, _⟩ => ⟨_, holds, ?_⟩
    rw [show (1 : Word).toInt = 1 from rfl, mul_one, value, value', same, equal]
  · rename_i differ
    refine (returns_fromInteger hq.fits (-1)).mono fun q ⟨holds, _⟩ => ⟨_, holds, ?_⟩
    rw [show (-1 : Word).toInt = -1 from rfl, value, value', equal]
    revert differ
    cases m.negative <;> cases other.negative <;> simp

/-- The correction after a division of the magnitudes that has a quotient. -/
theorem returns_corrected (ho : Valid other) (hq : Valid quotient) (hr : Valid remainder)
    (larger : other.magnitude < m.magnitude) (positive : remainder.negative = false)
    (offset : remainder.integerLength ≠ 0 → remainder.offset = 0)
    (room : other.integerLength ≤ remainder.capacity)
    (split : m.magnitude = other.magnitude * quotient.magnitude + remainder.magnitude)
    (less : remainder.magnitude < other.magnitude) (keeps : ¬CancelsInCorrection m other) :
    Returns (divideSignCorrection m.negative other quotient remainder) fun (q, r) =>
      Holds q (m.value / other.value) ∧ Holds r (m.value % other.value) := by
  have some : quotient.integerLength ≠ 0 := fun zero => by
    rw [magnitude_of_zero zero, mul_zero, zero_add] at split
    omega
  have rest : remainder.magnitude = m.magnitude % other.magnitude := by
    rw [split, Int.mul_add_emod_self_left,
      Int.emod_eq_of_lt remainder.magnitude_nonneg less]
  refine (returns_divideSignCorrection ho hq hr positive less (n := m.value)
    (by rw [value_eq_signed, split]) (fun _ => some)
    (correctionExact_of_not_cancels hr ho offset less rest keeps)).mono ?_
  rintro ⟨q, r⟩ ⟨quotient, -, remainder⟩
  exact ⟨quotient fun _ _ => some, remainder fun _ _ forgets => by
    unfold ForgetsCapacity at forgets
    omega⟩

/-- The division of the magnitudes by one word. -/
theorem returns_divideByWord (hm : Valid m) (ho : Valid other) (one : other.integerLength = 1)
    (nonzero : m.integerLength ≠ 0) :
    Returns (m.divideOneWord (other.storage.cell other.offset)) fun (q, rem) => Valid q ∧
      m.magnitude = other.magnitude * q.magnitude + unsigned rem ∧
        unsigned rem < other.magnitude ∧ unsigned rem = m.magnitude % other.magnitude := by
  have word : other.magnitude = unsigned (other.storage.cell other.offset) := by
    rw [magnitude_eq (n := 1) one, wordValue_succ, wordValue_zero, pow_zero, zero_add, mul_one,
      Nat.cast_zero, add_zero]
  have positive := ho.magnitude_pos (by omega)
  have divides : other.storage.cell other.offset ≠ 0 := fun zero => by
    rw [word, zero, unsigned_zero] at positive
    omega
  refine (returns_divideOneWord hm nonzero divides).mono ?_
  rintro ⟨q, rem⟩ ⟨holds, value⟩
  rw [← word] at holds value
  have quotient : q.magnitude = m.magnitude / other.magnitude := by
    have nonneg := Int.ediv_nonneg m.magnitude_nonneg other.magnitude_nonneg
    rw [← abs_value, holds.value_eq]
    cases m.negative
    · rw [signed_false, abs_of_nonneg nonneg]
    · rw [signed_true, abs_neg, abs_of_nonneg nonneg]
  refine ⟨holds.toValid, ?_, ?_, value⟩
  · rw [quotient, value, Int.mul_ediv_add_emod]
  · rw [value]
    exact Int.emod_lt_of_pos _ positive

/-- The remainder of one word, in an object that held a zero at the beginning of its
storage or needs no word. -/
theorem remainderWord {r : MutableBigInteger} (hr : Valid r) (rem : Word) :
    Returns ((r.setWithZero).putRemainder rem) fun r' => Valid r' ∧ r'.negative = false ∧
      (rem ≠ 0 → r'.offset = 0) ∧ 4 ≤ r'.capacity ∧ r'.magnitude = unsigned rem := by
  have least := hr.isCapacity.four_le
  have size := hr.size_eq
  rw [putRemainder]
  split
  · rename_i nonzero
    rw [put, Returns.bind_iff, Returns.bind_iff, NativeArray.returns_put]
    refine ⟨by simp only [setWithZero]; omega, Returns.pure_iff.mpr (Returns.pure_iff.mpr ?_)⟩
    have holds : Holds (setIlo { r.setWithZero with storage := r.setWithZero.storage.set rem 0 } 1 0)
        (unsigned rem) :=
      holds_of_one rem hr.isCapacity size rfl rfl (NativeArray.cell_set_self _ _ _) nonzero rfl
    refine ⟨holds.toValid, rfl, fun _ => rfl, least, ?_⟩
    rw [← holds.value_eq]
    rfl
  · rename_i zero
    rw [not_not] at zero
    have holds := hr.setWithZero_holds
    refine Returns.some_iff.mpr ⟨holds.toValid, rfl, fun nonzero => absurd zero nonzero, least, ?_⟩
    rw [zero, unsigned_zero]
    exact magnitude_of_zero rfl

theorem putRemainderKeepingOffset_eq {r : MutableBigInteger} {rem : Word}
    (offset : rem ≠ 0 → r.offset = 0) :
    (r.setWithZero).putRemainderKeepingOffset rem = (r.setWithZero).putRemainder rem := by
  rw [putRemainderKeepingOffset, putRemainder]
  split
  · rename_i nonzero
    obtain ⟨storage, capacity, length, o, negative⟩ := r
    obtain rfl : o = 0 := offset nonzero
    simp only [put, setWithZero, setIntegerLength, setIlo]
    cases storage.put rem 0 <;> rfl
  · rfl

theorem sign_sub_neg_iff {a b : ℤ} : (a - b).sign < 0 ↔ a < b := by
  rw [Int.sign_neg_iff]
  omega

theorem sign_sub_eq_zero_iff {a b : ℤ} : (a - b).sign = 0 ↔ a = b := by
  rw [Int.sign_eq_zero_iff_zero]
  omega

/-- `divide_to` puts the right quotient and remainder. -/
structure DivideToExact (m other : MutableBigInteger) : Prop where
  signs : ¬NegativeZeroQuotient m other
  cancels : ¬CancelsInCorrection m other

/-- The copy of the dividend has the room that the correction needs. -/
def DivideToRemembers (m other remainder : MutableBigInteger) : Prop :=
  m.negative = true → m.magnitude < other.magnitude →
    ∀ r, remainder.copy m = some r → ¬ForgetsCapacity r other

theorem value_eq_zero_of_length (zero : m.integerLength = 0) : m.value / other.value = 0 ∧
    m.value % other.value = 0 := by
  rw [value_of_zero zero, Int.zero_ediv, Int.zero_emod]
  exact ⟨rfl, rfl⟩

theorem returns_divideTo (hm : Valid m) (ho : Valid other) (hq : Valid quotient)
    (hr : Valid remainder) (h₁ : Valid register1) (divides : other.integerLength ≠ 0)
    (exact : DivideToExact m other) :
    Returns (m.divideTo other quotient remainder register1) fun (q, r, register1) =>
      Holds q (m.value / other.value) ∧ Exact r (m.value % other.value) ∧
        (DivideToRemembers m other remainder → Holds r (m.value % other.value)) ∧
        Valid register1 := by
  rw [divideTo]
  split
  · rename_i zero
    obtain ⟨quotient, remainder⟩ := value_eq_zero_of_length zero
    rw [quotient, remainder]
    exact Returns.some_iff.mpr ⟨hq.setWithZero_holds, hr.setWithZero_holds.exact,
      fun _ => hr.setWithZero_holds, h₁⟩
  rename_i nonzero
  refine (returns_absCompare hm ho).bind ?_
  rintro _ rfl
  split
  · rename_i less
    rw [sign_sub_neg_iff] at less
    have copied := returns_copy hr.fits hm
    obtain ⟨r, run, copy, -⟩ := copied
    rw [run, Returns.some_bind]
    have none := hq.setWithZero_holds
    have mag : (r.setNegative false).magnitude = m.magnitude := copy.magnitude_eq'
    have hr' : Valid (r.setNegative false) :=
      (copy.setNegative_holds false fun negated => absurd negated Bool.false_ne_true).toValid
    have zero : quotient.setWithZero.magnitude = 0 := magnitude_of_zero rfl
    have rest : (r.setNegative false).magnitude = m.magnitude % other.magnitude := by
      rw [mag, Int.emod_eq_of_lt m.magnitude_nonneg less]
    refine (returns_divideSignCorrection ho none.toValid hr' rfl (by rwa [mag]) (n := m.value)
      (by rw [zero, mul_zero, zero_add, mag, value_eq_signed])
      (fun empty => absurd (copy.length_eq'.symm.trans empty) nonzero)
      (correctionExact_of_not_cancels hr' ho (fun _ => copy.offset_eq) (by rwa [mag]) rest
        exact.cancels)).bind ?_
    rintro ⟨q, r'⟩ ⟨quotient, whole, remembered⟩
    refine Returns.pure_iff.mpr ⟨quotient fun positive sign => ?_, whole, fun remembers =>
      remembered fun negative _ => remembers negative less r run, h₁⟩
    refine absurd ⟨?_, ho.value_neg_iff.mpr sign, less⟩ exact.signs
    rw [value_eq_signed, positive, signed_false]
    exact hm.magnitude_pos nonzero
  split
  · rename_i equal
    rw [sign_sub_eq_zero_iff] at equal
    refine (returns_unitQuotient hq equal).bind fun q ⟨v, holds, eq⟩ => Returns.pure_iff.mpr ?_
    obtain ⟨quotient, remainder⟩ := ediv_emod_of_eq (n := m.value) (d := other.value) (q := v)
      (r := 0) (by rw [eq, add_zero]) le_rfl (by
        rw [abs_value]
        exact ho.magnitude_pos divides)
    rw [quotient, remainder]
    exact ⟨holds, hr.setWithZero_holds.exact, fun _ => hr.setWithZero_holds, h₁⟩
  rename_i notLess notEqual
  rw [sign_sub_neg_iff] at notLess
  rw [sign_sub_eq_zero_iff] at notEqual
  have larger : other.magnitude < m.magnitude := by omega
  split
  · rename_i one
    have range := ho.offset_range (by omega)
    have size := ho.size_eq
    refine (returns_copy hq.fits hm).bind fun copied ⟨copy, _⟩ => ?_
    rw [Returns.bind_iff, NativeArray.returns_item]
    refine ⟨by omega, (returns_divideByWord copy.toValid ho one
      (by rw [copy.length_eq']; exact nonzero)).bind ?_⟩
    rintro ⟨q, rem⟩ ⟨hq', split, less, -⟩
    rw [copy.magnitude_eq'] at split
    refine (remainderWord hr rem).bind fun r ⟨hr', positive, offset, room, mag⟩ => ?_
    rw [← mag] at split less
    refine (returns_corrected ho hq' hr' larger positive (fun some => offset fun zero => ?_)
      (by omega) split less exact.cancels).bind ?_
    · rw [zero, unsigned_zero] at mag
      have := hr'.magnitude_pos some
      omega
    · rintro ⟨q', r'⟩ ⟨qholds, rholds⟩
      exact Returns.pure_iff.mpr ⟨qholds, rholds.exact, fun _ => rholds, h₁⟩
  · rename_i more
    have nonneg := ho.length_nonneg
    obtain ⟨p, length⟩ : ∃ p : ℕ, other.integerLength = (p + 2 : ℕ) :=
      ⟨(other.integerLength - 2).toNat, by omega⟩
    refine (returns_copy hr.fits hm).bind fun dividend ⟨copy, _⟩ => ?_
    have same := copy.magnitude_eq'
    refine (returns_divideMagnitude ho hq copy.toValid h₁ length (by omega)
      (.inl copy.offset_eq)).bind ?_
    rintro ⟨q, r, register⟩ ⟨hq', hr', positive, offset, room, split, less, hregister⟩
    rw [same] at split
    refine (returns_corrected ho hq' hr' larger positive (fun _ => offset) room split less
      exact.cancels).bind ?_
    rintro ⟨q', r'⟩ ⟨qholds, rholds⟩
    exact Returns.pure_iff.mpr ⟨qholds, rholds.exact, fun _ => rholds, hregister⟩

/-- `remainder_with_quotient_to` leaves the right remainder. -/
structure RemainderExact (m other quotient : MutableBigInteger) : Prop where
  less : m.negative = true → m.magnitude < other.magnitude → SubtractMagnitudeExact m other
  cancels : other.magnitude < m.magnitude → ¬CancelsInCorrection m other
  oneWord : other.magnitude < m.magnitude → other.integerLength = 1 →
    quotient.offset = 0 ∨ m.magnitude % other.magnitude = 0
  aligned : other.magnitude < m.magnitude → other.integerLength ≠ 1 → Aligned m other

/-- The storage of the dividend has the room that the correction needs. -/
def RemainderRemembers (m other : MutableBigInteger) : Prop :=
  m.negative = true → m.magnitude < other.magnitude → ¬ForgetsCapacity m other

theorem returns_remainderWithQuotientTo (hm : Valid m) (ho : Valid other)
    (hq : Valid quotient) (h₁ : Valid register1) (divides : other.integerLength ≠ 0)
    (exact : RemainderExact m other quotient) :
    Returns (m.remainderWithQuotientTo other quotient register1) fun (r, q, register1) =>
      (¬NegativeZeroQuotient m other → Holds q (m.value / other.value)) ∧
        Exact r (m.value % other.value) ∧
        (RemainderRemembers m other → Holds r (m.value % other.value)) ∧
        Valid register1 := by
  rw [remainderWithQuotientTo]
  split
  · rename_i zero
    obtain ⟨quotient, remainder⟩ := value_eq_zero_of_length zero
    rw [quotient, remainder]
    exact Returns.some_iff.mpr ⟨fun _ => hq.setWithZero_holds, hm.setWithZero_holds.exact,
      fun _ => hm.setWithZero_holds, h₁⟩
  rename_i nonzero
  refine (returns_absCompare hm ho).bind ?_
  rintro _ rfl
  dsimp only
  split
  · rename_i less
    rw [sign_sub_neg_iff] at less
    have none := hq.setWithZero_holds
    have hr : Valid (m.setNegative false) :=
      (hm.setNegative_holds false fun negated => absurd negated Bool.false_ne_true).toValid
    have zero : quotient.setWithZero.magnitude = 0 := magnitude_of_zero rfl
    refine (returns_divideSignCorrection ho none.toValid hr rfl less (n := m.value)
      (by rw [zero, mul_zero, zero_add, value_eq_signed]; rfl)
      (fun empty => absurd empty nonzero)
      (fun negative _ =>
        ⟨(exact.less negative less).same_length, (exact.less negative less).longer,
          (exact.less negative less).shorter⟩)).bind ?_
    rintro ⟨q, r⟩ ⟨quotient, whole, remembered⟩
    refine Returns.pure_iff.mpr ⟨fun signs => quotient fun positive sign => ?_, whole,
      fun remembers => remembered fun negative _ => remembers negative less, h₁⟩
    refine absurd ⟨?_, ho.value_neg_iff.mpr sign, less⟩ signs
    rw [value_eq_signed, positive, signed_false]
    exact hm.magnitude_pos nonzero
  split
  · rename_i equal
    rw [sign_sub_eq_zero_iff] at equal
    refine (returns_unitQuotient hq equal).bind fun q ⟨v, holds, eq⟩ => Returns.pure_iff.mpr ?_
    obtain ⟨quotient, remainder⟩ := ediv_emod_of_eq (n := m.value) (d := other.value) (q := v)
      (r := 0) (by rw [eq, add_zero]) le_rfl (by
        rw [abs_value]
        exact ho.magnitude_pos divides)
    rw [quotient, remainder]
    exact ⟨fun _ => holds, hm.setWithZero_holds.exact, fun _ => hm.setWithZero_holds, h₁⟩
  rename_i notLess notEqual
  rw [sign_sub_neg_iff] at notLess
  rw [sign_sub_eq_zero_iff] at notEqual
  have larger : other.magnitude < m.magnitude := by omega
  split
  · rename_i one
    have range := ho.offset_range (by omega)
    have size := ho.size_eq
    rw [Returns.bind_iff, NativeArray.returns_item]
    refine ⟨by omega, (returns_divideByWord hm ho one nonzero).bind ?_⟩
    rintro ⟨q, rem⟩ ⟨hq', split, less, rest⟩
    rw [putRemainderKeepingOffset_eq fun some => (exact.oneWord larger one).resolve_right
      fun none => some (unsigned_eq_zero.mp (rest.trans none))]
    refine (remainderWord hq rem).bind fun r ⟨hr, positive, offset, room, mag⟩ => ?_
    rw [← mag] at split less
    refine (returns_corrected ho hq' hr larger positive (fun some => offset fun zero => ?_)
      (by omega) split less (exact.cancels larger)).bind ?_
    · rw [zero, unsigned_zero] at mag
      have := hr.magnitude_pos some
      omega
    · rintro ⟨q', r'⟩ ⟨qholds, rholds⟩
      exact Returns.pure_iff.mpr ⟨fun _ => qholds, rholds.exact, fun _ => rholds, h₁⟩
  · rename_i more
    have nonneg := ho.length_nonneg
    obtain ⟨p, length⟩ : ∃ p : ℕ, other.integerLength = (p + 2 : ℕ) :=
      ⟨(other.integerLength - 2).toNat, by omega⟩
    refine (returns_divideMagnitude ho hq hm h₁ length (by omega)
      (exact.aligned larger more)).bind ?_
    rintro ⟨q, r, register⟩ ⟨hq', hr, positive, offset, room, split, less, hregister⟩
    refine (returns_corrected ho hq' hr larger positive (fun _ => offset) room split less
      (exact.cancels larger)).bind ?_
    rintro ⟨q', r'⟩ ⟨qholds, rholds⟩
    exact Returns.pure_iff.mpr ⟨fun _ => qholds, rholds.exact, fun _ => rholds, hregister⟩

/-- `divide_with_remainder_to` swaps the results of `remainder_with_quotient_to`. -/
theorem returns_divideWithRemainderTo (hm : Valid m) (ho : Valid other)
    (hr : Valid remainder) (h₁ : Valid register1) (divides : other.integerLength ≠ 0)
    (exact : RemainderExact m other remainder) :
    Returns (m.divideWithRemainderTo other remainder register1) fun (q, r, register1) =>
      (¬NegativeZeroQuotient m other → Holds q (m.value / other.value)) ∧
        Exact r (m.value % other.value) ∧
        (RemainderRemembers m other → Holds r (m.value % other.value)) ∧
        Valid register1 := by
  refine (returns_remainderWithQuotientTo hm ho hr h₁ divides exact).bind ?_
  rintro ⟨r, q, register⟩ h
  exact Returns.pure_iff.mpr h

theorem returns_divide {register2 : MutableBigInteger} (hm : Valid m) (ho : Valid other)
    (h₁ : Valid register1) (h₂ : Valid register2) (divides : other.integerLength ≠ 0)
    (exact : RemainderExact m other register2) :
    Returns (m.divide other register1 register2) fun (q, register1, register2) =>
      (¬NegativeZeroQuotient m other → Holds q (m.value / other.value)) ∧
        Valid register1 ∧ (RemainderRemembers m other → Valid register2) := by
  refine (returns_divideWithRemainderTo hm ho h₂ h₁ divides exact).bind ?_
  rintro ⟨q, r, register⟩ ⟨quotient, -, remembered, hregister⟩
  exact Returns.pure_iff.mpr
    ⟨quotient, hregister, fun remembers => (remembered remembers).toValid⟩

/-- `mod` leaves the right remainder: its quotient is a new object. -/
def ModExact (m other : MutableBigInteger) : Prop :=
  RemainderExact m other blank

theorem returns_mod (hm : Valid m) (ho : Valid other) (h₁ : Valid register1)
    (divides : other.integerLength ≠ 0) (exact : ModExact m other) :
    Returns (m.mod other register1) fun (r, register1) =>
      Exact r (m.value % other.value) ∧
        (RemainderRemembers m other → Holds r (m.value % other.value)) ∧
        Valid register1 := by
  refine (returns_fromInteger fits_blank 0).bind fun quotient ⟨holds, offset, _⟩ => ?_
  refine (returns_remainderWithQuotientTo hm ho holds.toValid h₁ divides
    { exact with oneWord := fun _ _ => .inl offset }).bind ?_
  rintro ⟨r, q, register⟩ ⟨-, whole, remembered, hregister⟩
  exact Returns.pure_iff.mpr ⟨whole, remembered, hregister⟩

end Exactness

end MutableBigInteger

end Liberty
