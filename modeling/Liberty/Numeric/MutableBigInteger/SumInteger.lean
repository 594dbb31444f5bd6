import Liberty.Numeric.MutableBigInteger.Sum

/-!
# Sums with an INTEGER

`add_integer` works in place on the words of the object.  It is exact for every
object and every INTEGER.
-/

namespace Liberty

namespace MutableBigInteger

/-! ## The source -/

/-- `if other < 0 then v := #-other else v := other end`. -/
def absWord (other : Word) : Word :=
  if other.toInt < 0 then -other else other

/-- The lines of `add_integer` for a last carry, with the storage written so far. -/
def addIntegerCarry (m : MutableBigInteger) (storage : NativeArray Word) :
    Option MutableBigInteger := do
  let n := m.offset + m.integerLength
  if n < m.capacity then
    let storage ← storage.put 1 n
    return { m with storage, integerLength := m.integerLength + 1 }
  else
    -- All the words above the first one are 0.
    let v ← storage.item m.offset
    let capacity := m.capacity * 2
    let storage := NativeArray.calloc capacity
    let storage ← storage.put v 0
    let storage ← storage.put 1 m.integerLength
    return { m with
      storage, capacity, offset := 0, integerLength := m.integerLength + 1 }

def addIntegerSameSign (m : MutableBigInteger) (v : Word) : Option MutableBigInteger := do
  let x ← m.storage.item m.offset
  let c ← Cursor.up ⟨m.storage, m.offset, 0, m.offset, false⟩ (mbiAdd x v)
  let n := m.offset + m.integerLength
  let c ← c.upLoop (fun c => !c.carry || decide (c.i ≥ n))
    fun c => do return mbiInc (← c.storage.item c.i)
  if c.carry then m.addIntegerCarry c.storage
  else return { m with storage := c.storage }

/-- `negative := not negative; put(-item(offset), offset)`. -/
def flipWord (m : MutableBigInteger) : Option MutableBigInteger := do
  let w ← m.storage.item m.offset
  let storage ← m.storage.put (-w) m.offset
  return { m with storage, negative := !m.negative }

def addIntegerOneWord (m : MutableBigInteger) (v : Word) : Option MutableBigInteger := do
  let x ← m.storage.item m.offset
  let (w, dec) := mbiSubtract x v
  let storage ← m.storage.put w m.offset
  let m := { m with storage }
  let m ← (if dec then m.flipWord else some m)
  if (← m.storage.item m.offset) = 0 then
    return { m with integerLength := 0, negative := false }
  else
    return m

def addIntegerDifferentSign (m : MutableBigInteger) (v : Word) :
    Option MutableBigInteger := do
  let x ← m.storage.item m.offset
  let c ← Cursor.up ⟨m.storage, m.offset, 0, m.offset, false⟩ (mbiSubtract x v)
  if c.carry then
    let n := m.offset + m.integerLength - 1
    let c ← c.upLoop (fun c => !c.carry) fun c => do return mbiDec (← c.storage.item c.i)
    if (← c.storage.item n) = 0 then
      return { m with storage := c.storage, integerLength := m.integerLength - 1 }
    else
      return { m with storage := c.storage }
  else
    return { m with storage := c.storage }

def addInteger (m : MutableBigInteger) (other : Word) : Option MutableBigInteger :=
  if other = 0 then
    some m
  else if m.integerLength = 0 then
    m.fromInteger other
  else if m.negative = decide (other.toInt < 0) then
    m.addIntegerSameSign (absWord other)
  else if m.integerLength = 1 then
    m.addIntegerOneWord (absWord other)
  else
    m.addIntegerDifferentSign (absWord other)

def minimumInteger : Word := 0x80000000

def maximumInteger : Word := 0x7FFFFFFF

def subtractInteger (m : MutableBigInteger) (other : Word) : Option MutableBigInteger :=
  if other = minimumInteger then do
    let m ← m.addInteger 1
    m.addInteger maximumInteger
  else
    m.addInteger (-other)

/-- `add_integer_64`: the sum and `register1`. -/
def addInteger64 (m : MutableBigInteger) (other : BitVec 64)
    (register1 : MutableBigInteger) :
    Option (MutableBigInteger × MutableBigInteger) := do
  let register1 ← register1.fromInteger64 other
  return (← m.add false register1, register1)

/-! ## Exactness -/

theorem unsigned_absWord (other : Word) : unsigned (absWord other) = |other.toInt| := by
  rw [absWord]
  split
  · rename_i neg
    rw [unsigned_neg_of_toInt_neg neg, abs_of_neg neg]
  · rename_i nonneg
    rw [abs_of_nonneg (by omega)]
    rcases eq_or_lt_of_le (not_lt.mp nonneg) with zero | pos
    · rw [← zero, show other = 0 from BitVec.eq_of_toInt_eq zero.symm, unsigned_zero]
    · exact unsigned_of_toInt_pos pos

section Exactness

variable {m : MutableBigInteger}

/-- The number of one word `v`. -/
def oneWord (v : Word) : MutableBigInteger where
  storage := ⟨1, fun _ => v⟩
  capacity := 1
  integerLength := 1
  offset := 0
  negative := false

theorem magnitude_oneWord (v : Word) : (oneWord v).magnitude = unsigned v := by
  rw [magnitude_eq (n := 1) rfl, wordValue_succ, wordValue_zero, pow_zero, zero_add, mul_one]
  rfl

theorem returns_firstRound {step : Bool → Word → Word → Word × Bool} {σ : ℤ}
    (stepSpec : ∀ d x y, unsigned (step d x y).1 + wordBase * (σ * bit (step d x y).2) =
      unsigned x + σ * unsigned y + σ * bit d)
    (low : 0 ≤ m.offset) (high : m.offset < m.storage.size) (v : Word) :
    Returns (Cursor.up ⟨m.storage, m.offset, 0, m.offset, false⟩
      (step false (m.storage.cell m.offset) v)) fun c =>
        Combines m (oneWord v) σ 1 ⟨m.storage, m.offset, 0, m.offset, false⟩ 1 c := by
  refine Cursor.Risen.up .start ⟨low, high⟩ ?_
  rw [one_mul, stepSpec, combined, if_pos (by omega)]
  simp [words, oneWord]

/-- The sum has one word more, whose value is 1. -/
theorem returns_addIntegerCarry (hm : Valid m) {n : ℕ} (length : m.integerLength = n + 1)
    {s : NativeArray Word} (size : s.size = m.storage.size) {v : ℤ} (small : v < wordBase)
    (eq : wordValue s m.offset (n + 1) + wordBase ^ (n + 1) = m.magnitude + v)
    {b : MutableBigInteger} (value : b.magnitude = v) :
    Returns (m.addIntegerCarry s) fun r => SumOf m m b r := by
  have range := hm.offset_range
  have size' := hm.size_eq
  have lt := magnitude_lt (n := n + 1) (m := m) length
  have nonneg := wordValue_nonneg s m.offset (n + 1)
  rw [addIntegerCarry]
  split
  · rw [Returns.bind_iff, NativeArray.returns_put]
    refine ⟨by omega, Returns.pure_iff.mpr (SumOf.of_value (n := n + 1) rfl hm.isCapacity
      (size.trans size') (by simp only; omega) (by simp only; omega) (by simp only; omega)
      (by omega) ?_)⟩
    have below : wordValue (s.set 1 (m.offset + m.integerLength)) m.offset (n + 1) =
        wordValue s m.offset (n + 1) :=
      wordValue_congr fun u hu => NativeArray.cell_set_of_ne _ _ (by omega)
    rw [wordValue_succ, below, show m.offset + ((n + 1 : ℕ) : Int) = m.offset + m.integerLength
      by push_cast; omega, NativeArray.cell_set_self, unsigned_one, one_mul, eq, value]
  · have first : wordValue s m.offset (n + 1) = unsigned (s.cell m.offset) := by
      have rest := wordValue_nonneg s (m.offset + 1) n
      have split := wordValue_succ' s m.offset n
      have word := unsigned_nonneg (s.cell m.offset)
      have none : wordValue s (m.offset + 1) n < 1 := by nlinarith
      rw [split, show wordValue s (m.offset + 1) n = 0 by omega, mul_zero, add_zero]
    simp only [Returns.bind_iff, NativeArray.returns_item, NativeArray.returns_put,
      NativeArray.size_set, NativeArray.size_calloc]
    refine ⟨by omega, by omega, by omega, Returns.pure_iff.mpr
      (SumOf.of_value (n := n + 1) rfl hm.isCapacity.double rfl (by simp only; omega) le_rfl
        (by simp only; omega) (by omega) ?_)⟩
    set new := ((NativeArray.calloc (m.capacity * 2) : NativeArray Word).set
      (s.cell m.offset) 0).set 1 m.integerLength with hnew
    have top : new.cell (0 + (n + 1 : ℕ)) = 1 := by
      rw [show 0 + ((n + 1 : ℕ) : Int) = m.integerLength by push_cast; omega, hnew,
        NativeArray.cell_set_self]
    have bottom : new.cell 0 = s.cell m.offset := by
      rw [hnew, NativeArray.cell_set_of_ne _ _ (by omega), NativeArray.cell_set_self]
    have middle : wordValue new (0 + 1) n = 0 := wordValue_of_zero fun t ht => by
      rw [hnew, NativeArray.cell_set_of_ne _ _ (by omega),
        NativeArray.cell_set_of_ne _ _ (by omega), NativeArray.cell_calloc]
      rfl
    rw [wordValue_succ, wordValue_succ', top, bottom, middle, unsigned_one, mul_zero,
      add_zero, one_mul, ← first, eq, value]

theorem returns_addIntegerSameSign (hm : Valid m) (nonzero : m.integerLength ≠ 0) (v : Word) :
    Returns (m.addIntegerSameSign v) fun r => SumOf m m (oneWord v) r := by
  obtain ⟨n, length⟩ := hm.length_eq_succ nonzero
  have range := hm.offset_range
  have size := hm.size_eq
  have le := hm.le_magnitude (n := n) (by omega)
  have word := unsigned_nonneg v
  have value := magnitude_oneWord v
  rw [addIntegerSameSign, Returns.bind_iff, NativeArray.returns_item]
  refine ⟨by omega, (returns_firstRound addStep_spec' (by omega) (by omega) v).bind
    fun c₁ common => (returns_lastRounds (n := n + 1) common (by omega) (by simp only; omega)
      (by simp only; omega) mbiInc_spec' (fun t c lt combines => ?_)
      fun t c le combines => ?_).bind ?_⟩
  · have hi := combines.i_eq
    have hsize := combines.size_eq
    simp only at hi hsize
    rw [NativeArray.returns_item, combines.frame _ (by simp only; omega), hi]
    exact ⟨by omega, rfl⟩
  · have hi := combines.i_eq
    simp only at hi
    rw [Bool.or_eq_true, Bool.not_eq_true', decide_eq_true_eq]
    exact or_congr_right (by omega)
  · rintro c ⟨t, low, high, combines, ended, -⟩
    have hsize := combines.size_eq
    cases carry : c.carry with
    | true =>
      obtain rfl : t = n + 1 := ended.resolve_left (by simp [carry])
      have eq := combines.value_eq' (b := oneWord v) rfl (by omega) rfl
      rw [← magnitude_eq length, value] at eq
      simp only [carry, bit_true, mul_one, one_mul] at eq
      exact returns_addIntegerCarry hm (by omega) hsize (unsigned_lt v) eq value
    | false =>
      have eq := combines.value_of_same length (b := oneWord v) rfl low high rfl carry
        (fun _ _ => rfl) fun u hu hu' => combines.frame _ (by simp only; omega)
      rw [one_mul] at eq
      exact Returns.pure_iff.mpr (SumOf.of_value (n := n) rfl hm.isCapacity
        (hsize.trans size) (by simp only; omega) (by simp only; omega)
        (by simp only; omega) (by omega) eq)

theorem unsigned_neg {w : Word} (nonzero : w ≠ 0) :
    unsigned (-w) = wordBase - unsigned w := by
  have pos := unsigned_pos nonzero
  simp only [unsigned] at pos
  simp only [unsigned, wordBase, BitVec.toNat_neg]
  omega

theorem returns_addIntegerOneWord (hm : Valid m) (one : m.integerLength = 1) (v : Word) :
    Returns (m.addIntegerOneWord v) fun r =>
      Holds r (signed m.negative (m.magnitude - unsigned v)) := by
  have range := hm.offset_range
  have size := hm.size_eq
  have value : m.magnitude = unsigned (m.storage.cell m.offset) := by
    rw [magnitude_eq (n := 1) one, wordValue_succ, wordValue_zero, pow_zero, zero_add,
      mul_one, Nat.cast_zero, add_zero]
  have eq := subtractStep_spec false (m.storage.cell m.offset) v
  change unsigned (mbiSubtract _ v).1 + unsigned v =
    _ + wordBase * bit (mbiSubtract _ v).2 at eq
  have lt' := unsigned_lt v
  have nonneg := unsigned_nonneg (mbiSubtract (m.storage.cell m.offset) v).1
  have nonneg' := unsigned_nonneg (m.storage.cell m.offset)
  simp only [addIntegerOneWord, Returns.bind_iff, NativeArray.returns_item,
    NativeArray.returns_put]
  refine ⟨by omega, by omega, ?_⟩
  generalize mbiSubtract (m.storage.cell m.offset) v = subtracted at eq nonneg ⊢
  obtain ⟨w, dec⟩ := subtracted
  rw [value]
  cases dec with
  | true =>
    simp only [bit_true, mul_one] at eq nonneg
    have nonzero : w ≠ 0 := by
      rintro rfl
      rw [unsigned_zero] at eq
      omega
    have flipped := unsigned_neg nonzero
    simp only [if_true, flipWord, Returns.bind_iff, NativeArray.returns_item,
      NativeArray.returns_put, Returns.pure_iff, NativeArray.cell_set_self,
      NativeArray.size_set]
    refine ⟨by omega, by omega, by omega, ?_⟩
    have nonzero' : -w ≠ 0 := fun zero => by
      rw [zero, unsigned_zero] at flipped
      have := unsigned_lt w
      omega
    rw [if_neg nonzero']
    refine Returns.pure_iff.mpr (Holds.of_window 0 hm.isCapacity size
      (by simp only; omega) (by simp only; omega) (by simp only; omega) ?_ ?_)
    · rwa [Nat.cast_zero, add_zero, NativeArray.cell_set_self]
    · rw [wordValue_succ, wordValue_zero, pow_zero, zero_add, mul_one, Nat.cast_zero,
        add_zero, NativeArray.cell_set_self, flipped, signed_not]
      congr 1
      omega
  | false =>
    simp only [bit_false, mul_zero, add_zero] at eq nonneg
    simp only [Bool.false_eq_true, if_false, Returns.some_iff, NativeArray.size_set,
      NativeArray.cell_set_self]
    refine ⟨by omega, ?_⟩
    split
    · rename_i zero
      rw [zero, unsigned_zero] at eq
      have holds := hm.setWithZero_holds
      refine Returns.pure_iff.mpr
        { top_ne_zero := fun h => absurd rfl h, not_negative := fun _ => rfl,
          isCapacity := hm.isCapacity, size_eq := size, length_nonneg := le_rfl,
          length_le := holds.length_le, offset_range := fun h => absurd rfl h,
          value_eq := ?_ }
      rw [value_of_zero rfl, show unsigned (m.storage.cell m.offset) - unsigned v = 0 by
        omega]
      cases m.negative <;> rfl
    · rename_i nonzero
      refine Returns.pure_iff.mpr (Holds.of_window 0 hm.isCapacity size
        (by simp only; omega) (by simp only; omega) (by simp only; omega) ?_ ?_)
      · rwa [Nat.cast_zero, add_zero, NativeArray.cell_set_self]
      · rw [wordValue_succ, wordValue_zero, pow_zero, zero_add, mul_one, Nat.cast_zero,
          add_zero, NativeArray.cell_set_self]
        congr 1
        omega

theorem returns_addIntegerDifferentSign (hm : Valid m) (more : 1 < m.integerLength)
    (v : Word) :
    Returns (m.addIntegerDifferentSign v) fun r =>
      Holds r (signed m.negative (m.magnitude - unsigned v)) := by
  obtain ⟨n, length⟩ := hm.length_eq_succ (by omega)
  obtain ⟨k, rfl⟩ : ∃ k, n = k + 1 := ⟨n - 1, by omega⟩
  have range := hm.offset_range
  have size := hm.size_eq
  have le := hm.le_magnitude (n := k + 1) (by omega)
  have word := unsigned_lt v
  have value := magnitude_oneWord v
  have powers : wordBase ^ k + unsigned v ≤ wordBase ^ (k + 1) := by
    have one_le : 1 ≤ wordBase ^ k := one_le_pow₀ (by decide)
    have base : (1 : ℤ) ≤ wordBase := by decide
    rw [pow_succ]
    nlinarith
  have positive := wordBase_pow_pos k
  rw [addIntegerDifferentSign, Returns.bind_iff, NativeArray.returns_item]
  refine ⟨by omega, (returns_firstRound subtractStep_spec' (by omega) (by omega) v).bind
    fun c₁ common => ?_⟩
  split
  · refine (returns_lastRounds (n := k + 2) common (by omega) (by simp only; omega)
      (by simp only; omega) mbiDec_spec' (fun t c lt combines => ?_)
      fun t c le' combines => ?_).bind ?_
    · have hi := combines.i_eq
      have hsize := combines.size_eq
      simp only at hi hsize
      rw [NativeArray.returns_item, combines.frame _ (by simp only; omega), hi]
      exact ⟨by omega, rfl⟩
    · rw [Bool.not_eq_true']
      refine ⟨.inl, fun ended => ended.elim id ?_⟩
      rintro rfl
      exact combines.no_borrow length (b := oneWord v) rfl (by omega) rfl (by omega)
    · rintro c ⟨t, low, high, combines, ended, -⟩
      have hsize := combines.size_eq
      simp only at hsize
      have carry : c.carry = false := by
        refine ended.elim id ?_
        rintro rfl
        exact combines.no_borrow length (b := oneWord v) rfl (by omega) rfl (by omega)
      have eq : wordValue c.storage m.offset (k + 2) = m.magnitude + -1 * (oneWord v).magnitude :=
        combines.value_of_same length (b := oneWord v) rfl low high rfl carry
          (fun _ _ => rfl) fun u hu hu' => combines.frame _ (by simp only; omega)
      rw [value, neg_one_mul, ← sub_eq_add_neg] at eq
      rw [show m.offset + m.integerLength - 1 = m.offset + ((k + 1 : ℕ) : Int) by
        push_cast; omega, Returns.bind_iff, NativeArray.returns_item]
      refine ⟨by omega, ?_⟩
      split
      · rename_i zero
        rw [wordValue_succ, zero, unsigned_zero, zero_mul, add_zero] at eq
        have top := top_ne_zero_of_le (s := c.storage) (o := m.offset) (n := k) (by omega)
        refine Returns.pure_iff.mpr (Holds.of_window k hm.isCapacity (hsize.trans size)
          (by simp only; omega) (by simp only; omega) (by simp only; omega) top ?_)
        rw [eq]
      · rename_i nonzero
        refine Returns.pure_iff.mpr (Holds.of_window (k + 1) hm.isCapacity
          (hsize.trans size) (by simp only; omega) (by simp only; omega)
          (by simp only; omega) nonzero ?_)
        rw [eq]
  · rename_i carry
    have hsize := common.size_eq
    have eq : wordValue c₁.storage m.offset (k + 2) =
        m.magnitude + -1 * (oneWord v).magnitude :=
      common.value_of_same length (b := oneWord v) rfl le_rfl (by omega) rfl
        (Bool.eq_false_iff.mpr carry) (fun _ _ => rfl)
        fun u hu hu' => common.frame _ (by simp only; omega)
    rw [value, neg_one_mul, ← sub_eq_add_neg] at eq
    have top := hm.top_ne_zero (by omega)
    rw [show m.offset + m.integerLength - 1 = m.offset + ((k + 1 : ℕ) : Int) by
      push_cast; omega, ← common.frame _ (by simp only; omega)] at top
    refine Returns.pure_iff.mpr (Holds.of_window (k + 1) hm.isCapacity
      (hsize.trans size) (by simp only; omega) (by simp only; omega) (by simp only; omega)
      top ?_)
    rw [eq]

theorem returns_addInteger (hm : Valid m) (other : Word) :
    Returns (m.addInteger other) (Holds · (m.value + other.toInt)) := by
  have word := unsigned_absWord other
  rw [addInteger]
  split
  · rename_i zero
    rw [zero, show (0 : Word).toInt = 0 from rfl, add_zero]
    exact Returns.some_iff.mpr hm.holds_self
  split
  · rename_i zero
    rw [value_of_zero zero, zero_add]
    exact (returns_fromInteger hm.fits other).mono fun r ⟨holds, _⟩ => holds
  rename_i nonzero' nonzero
  have differ : ∀ {r : MutableBigInteger},
      m.negative ≠ decide (other.toInt < 0) →
      Holds r (signed m.negative (m.magnitude - unsigned (absWord other))) →
      Holds r (m.value + other.toInt) := fun {r} sign holds => by
    have eq := holds.value_eq
    refine { holds with value_eq := eq.trans ?_ }
    rw [word, value_eq_signed]
    by_cases neg : other.toInt < 0 <;> cases h : m.negative <;>
      simp only [neg, h, decide_true, decide_false, ne_eq, not_true_eq_false, signed_true,
        signed_false] at sign ⊢
    · rw [abs_of_neg neg]
      ring
    · rw [abs_of_nonneg (by omega)]
      ring
  split
  · rename_i sign
    refine (returns_addIntegerSameSign hm nonzero _).mono fun r sum =>
      { sum with value_eq := ?_ }
    rw [value_eq_signed, sum.negative_eq, sum.magnitude_eq', magnitude_oneWord, word,
      signed_add, value_eq_signed, sign]
    congr 1
    by_cases neg : other.toInt < 0
    · rw [decide_eq_true neg, signed_true, abs_of_neg neg, neg_neg]
    · rw [decide_eq_false neg, signed_false, abs_of_nonneg (by omega)]
  · rename_i sign
    split
    · rename_i one
      exact (returns_addIntegerOneWord hm one _).mono fun r holds => differ sign holds
    · have nonneg := hm.length_nonneg
      exact (returns_addIntegerDifferentSign hm (by omega) _).mono fun r holds =>
        differ sign holds

theorem returns_subtractInteger (hm : Valid m) (other : Word) :
    Returns (m.subtractInteger other) (Holds · (m.value - other.toInt)) := by
  rw [subtractInteger]
  split
  · rename_i minimum
    refine (returns_addInteger hm 1).bind fun r first =>
      (returns_addInteger first.toValid maximumInteger).mono fun r' second =>
        { second with value_eq := second.value_eq.trans ?_ }
    rw [first.value_eq, minimum, show (1 : Word).toInt = 1 from rfl,
      show maximumInteger.toInt = 2147483647 from rfl,
      show minimumInteger.toInt = -2147483648 from rfl]
    ring
  · rename_i notMinimum
    refine (returns_addInteger hm (-other)).mono fun r holds =>
      { holds with value_eq := holds.value_eq.trans ?_ }
    rw [BitVec.toInt_neg_of_ne_intMin notMinimum, sub_eq_add_neg]

end Exactness

end MutableBigInteger

end Liberty
