import Liberty.Numeric.MutableBigInteger.Subtraction

/-!
# Sums

The commands that add and subtract choose among the operations on magnitudes by the
signs.  `add` and `subtract` are exact if and only if the magnitude operation that they
choose is; `add_integer` always is.
-/

namespace Liberty

namespace MutableBigInteger

/-! ## The source -/

/-- `same` tells whether `other` is the object itself. -/
def add (same : Bool) (m other : MutableBigInteger) : Option MutableBigInteger :=
  if other.integerLength = 0 then
    some m
  else if m.integerLength = 0 then
    m.copy other
  else if m.negative = other.negative then
    m.addMagnitude same other
  else
    m.subtractMagnitude other

/-- `same` tells whether `other` is the object itself. -/
def subtract (same : Bool) (m other : MutableBigInteger) : Option MutableBigInteger :=
  if same then
    some m.setWithZero
  else if other.integerLength = 0 then
    some m
  else if m.integerLength = 0 then do
    let m ← m.copy other
    return { m with negative := !other.negative }
  else if m.negative = other.negative then
    m.subtractMagnitude other
  else
    m.addMagnitude false other

/-- `add_to`, where `res` is neither the object nor `other`. -/
def addTo (m other res : MutableBigInteger) : Option MutableBigInteger := do
  let res ← res.copy m
  res.add false other

/-- `subtract_to`, where `res` is neither the object nor `other`. -/
def subtractTo (m other res : MutableBigInteger) : Option MutableBigInteger := do
  let res ← res.copy m
  res.subtract false other

def addNatural (same : Bool) (m other : MutableBigInteger) : Option MutableBigInteger :=
  m.addMagnitude same other

/-! ## Exactness -/

section Exactness

variable {m other : MutableBigInteger}

/-- The operation on magnitudes that the signs choose is exact. -/
def SumExact (m other : MutableBigInteger) (sameSign : Prop) : Prop :=
  other.integerLength ≠ 0 → m.integerLength ≠ 0 →
    (sameSign → ¬SumOverflows m other) ∧ (¬sameSign → SubtractMagnitudeExact m other)

/-- `add` is exact. -/
def AddExact (m other : MutableBigInteger) : Prop :=
  SumExact m other (m.negative = other.negative)

/-- `subtract` is exact. -/
def SubtractExact (m other : MutableBigInteger) : Prop :=
  SumExact m other (m.negative ≠ other.negative)

/-- The operation on magnitudes that the signs choose records the capacity. -/
def SumRemembers (m other : MutableBigInteger) (sameSign : Prop) : Prop :=
  other.integerLength ≠ 0 → m.integerLength ≠ 0 → ¬sameSign → ¬ForgetsCapacity m other

theorem SumOf.holds {r : MutableBigInteger} (h : SumOf m m other r) :
    Holds r (signed m.negative (m.magnitude + other.magnitude)) :=
  { h with value_eq := by rw [value_eq_signed, h.negative_eq, h.magnitude_eq'] }

theorem signed_add (negative : Bool) (a b : ℤ) :
    signed negative (a + b) = signed negative a + signed negative b := by
  cases negative
  · rfl
  · simp only [signed_true]
    ring

theorem signed_sub (negative : Bool) (a b : ℤ) :
    signed negative (a - b) = signed negative a + signed (!negative) b := by
  cases negative <;> simp only [signed_true, signed_false, Bool.not_true, Bool.not_false] <;> ring

theorem Exact.holds_of_inPlace {r : MutableBigInteger} {v : ℤ} (h : Exact r v)
    (hm : Valid m) (inPlace : InPlace m r) : Holds r v :=
  h.holds (inPlace.capacity_eq ▸ hm.isCapacity)
    (by rw [inPlace.size_eq, hm.size_eq, inPlace.capacity_eq])

theorem addMagnitude_iff (hm : Valid m) (ho : Valid other) (nonzero : m.integerLength ≠ 0)
    (same : Bool) {v : ℤ} (value : signed m.negative (m.magnitude + other.magnitude) = v) :
    (Returns (m.addMagnitude same other) (Exact · v) ↔ ¬SumOverflows m other) ∧
      (¬SumOverflows m other → Returns (m.addMagnitude same other) (Holds · v)) := by
  have right : ¬SumOverflows m other → Returns (m.addMagnitude same other) (Holds · v) :=
    fun fits => (returns_addMagnitude hm ho nonzero same fits).mono
      fun r sum => value ▸ sum.holds
  refine ⟨⟨fun returns overflows => ?_, fun fits => (right fits).mono
    fun r holds => holds.exact⟩, right⟩
  rw [addMagnitude_eq_none hm ho nonzero same overflows] at returns
  exact Returns.none_iff.mp returns

/-- One magnitude is subtracted from the other. -/
theorem subtractMagnitude_iff (hm : Valid m) (ho : Valid other)
    (nonzero : m.integerLength ≠ 0) {v : ℤ}
    (value : signed m.negative (m.magnitude - other.magnitude) = v) :
    (Returns (m.subtractMagnitude other) (Exact · v) ↔ SubtractMagnitudeExact m other) ∧
      (SubtractMagnitudeExact m other → ¬ForgetsCapacity m other →
        Returns (m.subtractMagnitude other) (Holds · v)) := by
  subst value
  have run := returns_subtractMagnitude hm ho nonzero
  exact ⟨run.iff_of fun r ⟨_, exact⟩ => exact, fun right remembers =>
    run.mono fun r ⟨inPlace, exact⟩ =>
      (exact.mpr right).holds_of_inPlace hm (inPlace remembers)⟩

theorem Valid.holds_self (hm : Valid m) : Holds m m.value :=
  { hm with value_eq := rfl }

theorem add_spec (hm : Valid m) (ho : Valid other) (same : Bool) :
    (Returns (m.add same other) (Exact · (m.value + other.value)) ↔ AddExact m other) ∧
      (AddExact m other → SumRemembers m other (m.negative = other.negative) →
        Returns (m.add same other) (Holds · (m.value + other.value))) := by
  rw [add]
  split
  · rename_i zero
    have right := hm.holds_self
    rw [value_of_zero zero, add_zero]
    exact ⟨iff_of_true (Returns.some_iff.mpr right.exact) fun nonzero => absurd zero nonzero,
      fun _ _ => Returns.some_iff.mpr right⟩
  split
  · rename_i zero
    have right := (returns_copy hm.fits ho).mono fun r ⟨copy, _⟩ => copy.toHolds
    rw [value_of_zero zero, zero_add]
    exact ⟨iff_of_true (right.mono fun r holds => holds.exact)
      fun _ nonzero => absurd zero nonzero, fun _ _ => right⟩
  rename_i nonzero' nonzero
  split
  · rename_i sign
    obtain ⟨exact, right⟩ := addMagnitude_iff hm ho nonzero same
      (v := m.value + other.value)
      (by rw [signed_add, value_eq_signed, value_eq_signed, sign])
    have choice : AddExact m other ↔ ¬SumOverflows m other :=
      ⟨fun h => (h nonzero' nonzero).1 sign,
        fun h _ _ => ⟨fun _ => h, fun differ => absurd sign differ⟩⟩
    exact ⟨exact.trans choice.symm, fun h _ => right (choice.mp h)⟩
  · rename_i sign
    have flip : other.negative = !m.negative := by
      revert sign
      cases m.negative <;> cases other.negative <;> simp
    obtain ⟨exact, right⟩ := subtractMagnitude_iff hm ho nonzero
      (v := m.value + other.value)
      (by rw [signed_sub, value_eq_signed, value_eq_signed, flip])
    have choice : AddExact m other ↔ SubtractMagnitudeExact m other :=
      ⟨fun h => (h nonzero' nonzero).2 sign,
        fun h _ _ => ⟨fun same => absurd same sign, fun _ => h⟩⟩
    exact ⟨exact.trans choice.symm, fun h remembers =>
      right (choice.mp h) (remembers nonzero' nonzero sign)⟩

theorem subtract_spec (hm : Valid m) (ho : Valid other) :
    (Returns (m.subtract false other) (Exact · (m.value - other.value)) ↔
        SubtractExact m other) ∧
      (SubtractExact m other → SumRemembers m other (m.negative ≠ other.negative) →
        Returns (m.subtract false other) (Holds · (m.value - other.value))) := by
  rw [subtract, if_neg Bool.false_ne_true]
  split
  · rename_i zero
    have right := hm.holds_self
    rw [value_of_zero zero, sub_zero]
    exact ⟨iff_of_true (Returns.some_iff.mpr right.exact) fun nonzero => absurd zero nonzero,
      fun _ _ => Returns.some_iff.mpr right⟩
  rename_i nonzero'
  split
  · rename_i zero
    have right : Returns (m.copy other >>= fun m => pure { m with negative := !other.negative })
        (Holds · (m.value - other.value)) := by
      refine (returns_copy hm.fits ho).bind fun r ⟨copy, _⟩ => Returns.pure_iff.mpr
        { copy with not_negative := fun zero' => ?_, value_eq := ?_ }
      · exact absurd (copy.length_eq'.symm.trans zero') nonzero'
      · rw [value_of_zero zero, zero_sub, value_eq_signed, signed_not,
          value_eq_signed other, ← copy.magnitude_eq']
        cases other.negative <;> rfl
    exact ⟨iff_of_true (right.mono fun r holds => holds.exact)
      fun _ nonzero => absurd zero nonzero, fun _ _ => right⟩
  rename_i nonzero
  split
  · rename_i sign
    obtain ⟨exact, right⟩ := subtractMagnitude_iff hm ho nonzero
      (v := m.value - other.value)
      (by rw [signed_sub, signed_not, value_eq_signed, value_eq_signed, sign]
          cases other.negative <;> simp only [signed_true, signed_false] <;> ring)
    have choice : SubtractExact m other ↔ SubtractMagnitudeExact m other :=
      ⟨fun h => (h nonzero' nonzero).2 (not_not.mpr sign),
        fun h _ _ => ⟨fun differ => absurd sign differ, fun _ => h⟩⟩
    exact ⟨exact.trans choice.symm, fun h remembers =>
      right (choice.mp h) (remembers nonzero' nonzero (not_not.mpr sign))⟩
  · rename_i sign
    have flip : other.negative = !m.negative := by
      revert sign
      cases m.negative <;> cases other.negative <;> simp
    obtain ⟨exact, right⟩ := addMagnitude_iff hm ho nonzero false
      (v := m.value - other.value)
      (by rw [value_eq_signed, value_eq_signed, flip]
          cases m.negative <;> simp only [signed_true, signed_false, Bool.not_true,
            Bool.not_false] <;> ring)
    have choice : SubtractExact m other ↔ ¬SumOverflows m other :=
      ⟨fun h => (h nonzero' nonzero).1 sign,
        fun h _ _ => ⟨fun _ => h, fun same => absurd sign same⟩⟩
    exact ⟨exact.trans choice.symm, fun h _ => right (choice.mp h)⟩

/-- Adding an object to itself is always exact. -/
theorem returns_add_self (hm : Valid m) :
    Returns (m.add true m) (Holds · (m.value + m.value)) :=
  (add_spec hm hm true).2
    (fun _ _ => ⟨fun _ => not_sumOverflows_self m, fun differ => absurd rfl differ⟩)
    fun _ _ differ => absurd rfl differ

end Exactness

end MutableBigInteger

end Liberty
