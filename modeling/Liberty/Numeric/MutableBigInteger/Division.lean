import Liberty.Numeric.MutableBigInteger.LongDivision
import Liberty.Numeric.MutableBigInteger.Product
import Liberty.Numeric.MutableBigInteger.SumInteger

/-!
# The parts of a division

The division of the magnitudes by one word and by several words, and the correction of
the signs, which subtracts the remainder from the divisor when the dividend is negative.
-/

namespace Liberty

namespace MutableBigInteger

/-! ## The source -/

/-- `divide_one_word`: the quotient, and the remainder that is returned. -/
def divideOneWord (m : MutableBigInteger) (divisor : Word) :
    Option (MutableBigInteger × Word) :=
  if m.integerLength = 1 then do
    let result ← m.storage.item m.offset
    if unsignedLessThan result divisor then
      return ({ m with integerLength := 0, negative := false }, result)
    else
      let (remainderWord1, word) ← mbiDivide 0 result divisor
      return ({ m with storage := ← m.storage.put word m.offset }, remainderWord1)
  else do
    let i := m.offset + m.integerLength - 1
    let c ← Cursor.downLoop (fun c => decide (c.k < m.offset))
      (fun c : Cursor Word => do
        let (remainderWord1, word) ← mbiDivide c.carry (← c.storage.item c.k) divisor
        return (word, remainderWord1))
      ⟨m.storage, 0, 0, i, 0⟩
    if (← c.storage.item i) = 0 then
      return ({ m with storage := c.storage, integerLength := m.integerLength - 1 }, c.carry)
    else
      return ({ m with storage := c.storage }, c.carry)

/-- `normalize`, which returns the number of left shifts too. -/
def normalize (m : MutableBigInteger) : Option (MutableBigInteger × ℕ) := do
  let head ← m.storage.item (m.offset + m.integerLength - 1)
  let (_, result) ← untilLoop (fun s : Word × ℕ => some (decide (s.1.toInt < 0)))
    (fun (head, result) => some (head <<< 1, result + 1)) 32 (head, 0)
  if result > 0 then
    return (← m.shiftLeft result, result)
  else
    return (m, result)

/-- `divide_sign_correction` and `divide_sign_correction_bis`: the quotient and the
remainder, for a dividend of the sign `negative`. -/
def divideSignCorrection (negative : Bool) (other quotient remainder : MutableBigInteger) :
    Option (MutableBigInteger × MutableBigInteger) :=
  if remainder.isZero then
    some (quotient.setNegative (negative != other.negative), remainder)
  else if negative then do
    let quotient := quotient.setNegative false
    if other.negative then
      let quotient ← quotient.addInteger 1
      let remainder := remainder.setNegative true
      let remainder ← remainder.subtract false other
      return (quotient, remainder)
    else
      let quotient ← quotient.addInteger 1
      let quotient := quotient.setNegative true
      let remainder := remainder.setNegative true
      let remainder ← remainder.add false other
      return (quotient, remainder)
  else if other.negative then
    some (quotient.setNegative true, remainder)
  else
    some (quotient.setNegative false, remainder)

/-- The remainder takes `length` words from the beginning of `storage`. -/
def setRemainder (m : MutableBigInteger) (storage : NativeArray Word) (length : Int) :
    MutableBigInteger :=
  if length = 0 then { m with storage }.setWithZero
  else { m with storage, offset := 0, integerLength := length, negative := false }

/-- D1, for the dividend. -/
def normalizeDividend (m : MutableBigInteger) (shift : ℕ) : Option MutableBigInteger :=
  if shift ≠ 0 then m.shiftLeft shift else some m

/-- D8. -/
def unnormalize (m : MutableBigInteger) (shift : ℕ) : Option MutableBigInteger :=
  if shift > 0 then m.shiftRight shift else some m

/-- D1 to D8: the quotient and the remainder of the magnitudes, put in `quotient` and in
the object `remainder` that holds the dividend, and the normalised divisor, which is a
copy of `other` in `register1`. -/
def divideMagnitude (other quotient remainder register1 : MutableBigInteger) :
    Option (MutableBigInteger × MutableBigInteger × MutableBigInteger) := do
  -- copy divisor storage to protect divisor
  let register1 ← register1.copy other
  -- D1 normalize the divisor
  let (register1, shift) ← register1.normalize
  let remainder ← remainder.normalizeDividend shift
  let (quotient, storage, length) ←
    longDivision register1 remainder.storage remainder.offset remainder.integerLength quotient
  let remainder := remainder.setRemainder storage length
  let remainder ← remainder.unnormalize shift
  return (quotient, remainder, register1)

/-! ## One word -/

section OneWord

variable {m : MutableBigInteger}

/-- The quotient of words whose top one is not zero has at most one word less. -/
theorem pow_le_ediv {n : ℕ} {a b : ℤ} (le : wordBase ^ (n + 1) ≤ a) (pos : 0 < b)
    (lt : b < wordBase) : wordBase ^ n ≤ a / b := by
  rw [Int.le_ediv_iff_mul_le pos]
  refine le_trans ?_ le
  exact mul_le_mul_of_nonneg_left lt.le (wordBase_pow_pos n).le

theorem returns_divideWords {s : NativeArray Word} {o : Int} {n : ℕ} {divisor : Word}
    (low : 0 ≤ o) (high : o + n ≤ s.size) (nonzero : divisor ≠ 0) :
    Returns (Cursor.downLoop (fun c => decide (c.k < o))
        (fun c : Cursor Word => do
          let (remainderWord1, word) ← mbiDivide c.carry (← c.storage.item c.k) divisor
          return (word, remainderWord1))
        ⟨s, 0, 0, o + n - 1, 0⟩) fun c => c.storage.size = s.size ∧
      wordValue c.storage o n = wordValue s o n / unsigned divisor ∧
      unsigned c.carry = wordValue s o n % unsigned divisor := by
  have positive := unsigned_pos nonzero
  refine Cursor.returns_downLoop_of_carry (unsigned divisor) unsigned (words s o) n
    (fun w => unsigned w < unsigned divisor) (by dsimp only; rwa [unsigned_zero])
    (by dsimp only; omega) (by dsimp only; omega) fun t c le sunk small => ?_
  have hk := sunk.k_eq
  have hsize := sunk.size_eq
  dsimp only at hk hsize
  split
  · rename_i stopped
    rw [decide_eq_true_eq] at stopped
    obtain rfl : t = n := by omega
    have eq := sunk.value_eq
    rw [show o + (t : Int) - 1 - t + 1 = o by omega, unsigned_zero, mul_zero, add_zero,
      Positional.value_congr (g := words s o) fun u _ => by rw [Nat.sub_self, Nat.zero_add]]
      at eq
    change _ = wordValue s o t at eq
    have nonneg := unsigned_nonneg c.carry
    refine ⟨hsize, ?_, ?_⟩
    · rw [← eq, add_comm, Int.add_mul_ediv_left _ _ positive.ne',
        Int.ediv_eq_zero_of_lt nonneg small, zero_add]
    · rw [← eq, add_comm, Int.add_mul_emod_self_left, Int.emod_eq_of_lt nonneg small]
  · rename_i going
    rw [decide_eq_true_eq] at going
    rw [Returns.bind_iff, NativeArray.returns_item]
    refine ⟨by omega, by omega, ?_⟩
    obtain ⟨rem, word, run, eq, less⟩ := mbiDivide_spec small
    rw [run, Returns.some_bind, Returns.pure_iff]
    refine ⟨?_, less⟩
    rw [words, show o + ((n - (t + 1) : ℕ) : Int) = c.k by omega,
      ← sunk.frame c.k (by dsimp only; omega)]
    linarith

/-- `divide_one_word` divides the magnitude. -/
theorem returns_divideOneWord (hm : Valid m) (nonzero : m.integerLength ≠ 0) {divisor : Word}
    (divides : divisor ≠ 0) :
    Returns (m.divideOneWord divisor) fun (q, rem) =>
      Holds q (signed m.negative (m.magnitude / unsigned divisor)) ∧
        unsigned rem = m.magnitude % unsigned divisor := by
  have range := hm.offset_range nonzero
  have size := hm.size_eq
  have positive := unsigned_pos divides
  obtain ⟨n, length⟩ := hm.length_eq_succ nonzero
  have magnitude := magnitude_eq (m := m) (n := n + 1) length
  rw [divideOneWord]
  split
  · rename_i one
    obtain rfl : n = 0 := by omega
    have value : m.magnitude = unsigned (m.storage.cell m.offset) := by
      rw [magnitude, wordValue_succ, wordValue_zero, pow_zero, mul_one, zero_add,
        Nat.cast_zero, add_zero]
    have nonneg := unsigned_nonneg (m.storage.cell m.offset)
    rw [value, Returns.bind_iff, NativeArray.returns_item]
    refine ⟨by omega, ?_⟩
    split
    · rename_i less
      rw [unsignedLessThan_iff] at less
      rw [Int.ediv_eq_zero_of_lt nonneg less, Int.emod_eq_of_lt nonneg less]
      refine Returns.pure_iff.mpr ⟨?_, rfl⟩
      rw [show signed m.negative 0 = 0 by cases m.negative <;> rfl]
      exact holds_zero hm.isCapacity size rfl rfl
    · rename_i notLess
      rw [unsignedLessThan_iff, not_lt] at notLess
      obtain ⟨rem, word, run, eq, less⟩ :=
        @mbiDivide_spec 0 (m.storage.cell m.offset) divisor (by rwa [unsigned_zero])
      rw [unsigned_zero, zero_mul, zero_add] at eq
      have nonneg' := unsigned_nonneg rem
      have quotient : unsigned word = unsigned (m.storage.cell m.offset) / unsigned divisor := by
        rw [eq, add_comm, Int.add_mul_ediv_right _ _ positive.ne',
          Int.ediv_eq_zero_of_lt nonneg' less, zero_add]
      have remainder : unsigned rem = unsigned (m.storage.cell m.offset) % unsigned divisor := by
        rw [eq, add_comm, Int.add_mul_emod_self_right, Int.emod_eq_of_lt nonneg' less]
      rw [run, Returns.some_bind]
      rw [Returns.bind_iff, NativeArray.returns_put]
      refine ⟨by omega, Returns.pure_iff.mpr ⟨?_, remainder⟩⟩
      refine Holds.of_window 0 hm.isCapacity size one range.1 (by dsimp only; omega) ?_ ?_
      · dsimp only
        rw [Nat.cast_zero, add_zero, NativeArray.cell_set_self]
        intro zero
        rw [zero, unsigned_zero, zero_mul, zero_add] at eq
        omega
      · dsimp only
        rw [wordValue_succ, wordValue_zero, pow_zero, mul_one, zero_add, Nat.cast_zero,
          add_zero, NativeArray.cell_set_self, quotient]
  · rename_i more
    obtain ⟨n, rfl⟩ : ∃ k, n = k + 1 := ⟨n - 1, by omega⟩
    have least := hm.le_magnitude length
    have least' := pow_le_ediv least positive (unsigned_lt divisor)
    have index : m.offset + m.integerLength - 1 = m.offset + ((n + 1 + 1 : ℕ) : Int) - 1 := by
      omega
    rw [index]
    refine (returns_divideWords range.1 (by push_cast; omega) divides).bind ?_
    rintro c ⟨hsize, quotient, remainder⟩
    rw [← magnitude] at quotient remainder
    rw [Returns.bind_iff, NativeArray.returns_item]
    refine ⟨by push_cast; omega, ?_⟩
    have head : m.offset + ((n + 1 + 1 : ℕ) : Int) - 1 = m.offset + ((n + 1 : ℕ) : Int) := by
      omega
    rw [head]
    split
    · rename_i zero
      rw [wordValue_succ, zero, unsigned_zero, zero_mul, add_zero] at quotient
      refine Returns.pure_iff.mpr ⟨Holds.of_window n hm.isCapacity (hsize.trans size)
        (by dsimp only; omega) range.1 (by dsimp only; omega) ?_ ?_, remainder⟩
      · exact top_ne_zero_of_le (by rwa [quotient])
      · dsimp only
        rw [quotient]
    · rename_i nonzero'
      refine Returns.pure_iff.mpr ⟨Holds.of_window (n + 1) hm.isCapacity (hsize.trans size)
        (by dsimp only; push_cast; omega) range.1 (by dsimp only; push_cast; omega) nonzero'
        ?_, remainder⟩
      rw [quotient]

end OneWord

/-! ## The normalised divisor -/

section Normalize

variable {m : MutableBigInteger}

theorem toInt_neg_iff (w : Word) : w.toInt < 0 ↔ wordBase ≤ 2 * unsigned w := by
  rw [BitVec.toInt_eq_toNat_cond]
  unfold unsigned wordBase
  split <;> omega

/-- A word shifted until its highest bit is on. -/
theorem returns_normalizeHead {w : Word} (nonzero : w ≠ 0) :
    Returns (untilLoop (fun s : Word × ℕ => some (decide (s.1.toInt < 0)))
      (fun (head, result) => some (head <<< 1, result + 1)) 32 (w, 0)) fun (_, shift) =>
      shift < 32 ∧ unsigned w * 2 ^ shift < wordBase ∧
        wordBase ≤ 2 * (unsigned w * 2 ^ shift) ∧
        (shift = 0 ↔ wordBase ≤ 2 * unsigned w) := by
  have positive := unsigned_pos nonzero
  have bounded : ∀ {i : ℕ}, unsigned w * 2 ^ i < wordBase → i < 32 := by
    intro i lt
    have : (2 : ℤ) ^ i < 2 ^ 32 := by
      refine lt_of_le_of_lt ?_ lt
      exact le_mul_of_one_le_left (by positivity) positive
    exact (pow_lt_pow_iff_right₀ (by norm_num)).mp this
  refine returns_untilLoop
    (fun (head, i) => unsigned head = unsigned w * 2 ^ i ∧
      (i ≠ 0 → 2 * unsigned w < wordBase))
    (fun (_, i) => 32 - i)
    ⟨by rw [pow_zero, mul_one], fun nonzero => absurd rfl nonzero⟩ (by dsimp only; omega) ?_
  rintro ⟨head, i⟩ ⟨eq, moved⟩
  have lt := unsigned_lt head
  rw [eq] at lt
  rw [Returns.some_iff]
  split
  · rename_i stopped
    rw [decide_eq_true_eq, toInt_neg_iff, eq] at stopped
    refine ⟨bounded lt, lt, stopped, fun zero => ?_, fun large => ?_⟩
    · rwa [zero, pow_zero, mul_one] at stopped
    · by_contra nonzero
      omega
  · rename_i going
    rw [decide_eq_true_eq, toInt_neg_iff, not_le, eq] at going
    have twice : unsigned (head <<< 1) = unsigned w * 2 ^ (i + 1) := by
      rw [← eq] at going
      have small : head.toNat * 2 < 4294967296 := by
        unfold unsigned wordBase at going
        omega
      rw [pow_succ, ← mul_assoc, ← eq, unsigned, unsigned, BitVec.toNat_shiftLeft,
        Nat.shiftLeft_eq, pow_one, Nat.mod_eq_of_lt small]
      rfl
    have lt' := unsigned_lt (head <<< 1)
    rw [twice] at lt'
    have := bounded lt'
    refine Returns.some_iff.mpr ⟨⟨twice, fun _ => ?_⟩, by dsimp only; omega⟩
    have : (1 : ℤ) ≤ 2 ^ i := one_le_pow₀ (by norm_num)
    nlinarith

theorem Valid.length_of_magnitude {r : MutableBigInteger} (hr : Valid r) {n : ℕ}
    (le : wordBase ^ n ≤ r.magnitude) (lt : r.magnitude < wordBase ^ (n + 1)) :
    r.integerLength = (n + 1 : ℕ) := by
  have nonzero : r.integerLength ≠ 0 := fun zero => by
    have := wordBase_pow_pos n
    rw [magnitude_of_zero zero] at le
    omega
  obtain ⟨k, length⟩ := hr.length_eq_succ nonzero
  have least := hr.le_magnitude length
  have upper := magnitude_lt length
  have base : 1 < wordBase := by decide
  have : k < n + 1 := (pow_lt_pow_iff_right₀ base).mp (least.trans_lt lt)
  have : n < k + 1 := (pow_lt_pow_iff_right₀ base).mp (le.trans_lt upper)
  omega

/-- `normalize` shifts a number until the highest bit of its top word is on. -/
theorem returns_normalize (hm : Valid m) {n : ℕ} (length : m.integerLength = n + 1) :
    Returns m.normalize fun (r, shift) =>
      shift < 32 ∧ Holds r (m.value * 2 ^ shift) ∧ r.integerLength = n + 1 ∧
        wordBase ≤ 2 * unsigned (r.storage.cell (r.offset + n)) ∧
        (shift = 0 ↔ wordBase ≤ 2 * unsigned (m.storage.cell (m.offset + n))) := by
  have range := hm.offset_range (by omega)
  have size := hm.size_eq
  have top := hm.top_ne_zero (by omega)
  have index : m.offset + m.integerLength - 1 = m.offset + n := by omega
  rw [index] at top
  rw [normalize, index, Returns.bind_iff, NativeArray.returns_item]
  refine ⟨by omega, (returns_normalizeHead top).bind ?_⟩
  rintro ⟨_, shift⟩ ⟨small, lt, half, zero⟩
  dsimp only
  split
  · refine (returns_shiftLeft hm shift).bind fun r ⟨holds, _⟩ => Returns.pure_iff.mpr ?_
    have power : (0 : ℤ) < 2 ^ shift := by positivity
    have weight := wordBase_pow_pos n
    have shifted : r.magnitude = m.magnitude * 2 ^ shift := by
      rw [← abs_value, holds.value_eq, abs_mul, abs_value, abs_of_pos power]
    have split := magnitude_eq (m := m) (n := n + 1) length
    rw [wordValue_succ] at split
    have low := wordValue_nonneg m.storage m.offset n
    have low_lt := wordValue_lt m.storage m.offset n
    generalize unsigned (m.storage.cell (m.offset + n)) = h at lt half zero split
    have next : (h + 1) * 2 ^ shift ≤ wordBase := by
      have powers : (2 : ℤ) ^ (32 - shift) * 2 ^ shift = wordBase := two_pow_mul_two_pow small
      rw [← powers] at lt ⊢
      exact mul_le_mul_of_nonneg_right (lt_of_mul_lt_mul_right lt power.le) power.le
    have upper : r.magnitude < wordBase ^ (n + 1) := by
      calc r.magnitude < (h + 1) * wordBase ^ n * 2 ^ shift := by
            rw [shifted, split]
            exact mul_lt_mul_of_pos_right (by linarith) power
        _ = (h + 1) * 2 ^ shift * wordBase ^ n := by ring
        _ ≤ wordBase * wordBase ^ n := mul_le_mul_of_nonneg_right next weight.le
        _ = wordBase ^ (n + 1) := (pow_succ' _ _).symm
    have lower : h * 2 ^ shift * wordBase ^ n ≤ r.magnitude := by
      rw [shifted, split, mul_right_comm]
      exact mul_le_mul_of_nonneg_right (by omega) power.le
    have one : 1 ≤ h * 2 ^ shift := by
      omega
    have length' := holds.toValid.length_of_magnitude
      ((le_mul_of_one_le_left weight.le one).trans lower) upper
    refine ⟨small, holds, by push_cast at length'; exact length', ?_, zero⟩
    have split' := magnitude_eq length'
    rw [wordValue_succ] at split'
    have low_lt' := wordValue_lt r.storage r.offset n
    have : h * 2 ^ shift < unsigned (r.storage.cell (r.offset + n)) + 1 := by
      refine lt_of_mul_lt_mul_right (a := wordBase ^ n) ?_ weight.le
      linarith
    dsimp only
    omega
  · rename_i none
    obtain rfl : shift = 0 := by omega
    exact Returns.pure_iff.mpr ⟨small, by rw [pow_zero, mul_one]; exact hm.holds_self, length,
      by simpa using half, zero⟩

end Normalize

/-! ## The correction of the signs -/

section SignCorrection

/-- The quotient and the remainder are unique. -/
theorem ediv_emod_of_eq {n d q r : ℤ} (eq : n = d * q + r) (nonneg : 0 ≤ r) (lt : r < |d|) :
    n / d = q ∧ n % d = r := by
  have nonzero : d ≠ 0 := by
    rintro rfl
    rw [abs_zero] at lt
    omega
  have remainder : n % d = r := by
    rw [eq, Int.mul_add_emod_self_left, ← Int.emod_abs, Int.emod_eq_of_lt nonneg lt]
  refine ⟨mul_left_cancel₀ nonzero ?_, remainder⟩
  have := Int.mul_ediv_add_emod n d
  omega

/-- Two magnitudes of one length whose difference begins, from the highest words that
differ on, with two zero words. -/
def CancelsTwo (a b : ℤ) : Prop :=
  ∃ t : ℕ, a / wordBase ^ t % wordBase ≠ b / wordBase ^ t % wordBase ∧
    a / wordBase ^ (t + 1) = b / wordBase ^ (t + 1) ∧ wordBase * |a - b| < wordBase ^ t

theorem CancelsTwoWords.cancelsTwo {m other : MutableBigInteger} {n : ℕ}
    (h : CancelsTwoWords m other) (length : m.integerLength = n)
    (length' : other.integerLength = n) : CancelsTwo m.magnitude other.magnitude := by
  obtain ⟨t, lt, differ, above, small⟩ := h
  obtain ⟨k, rfl⟩ : ∃ k, n = t + 1 + k := ⟨n - (t + 1), by omega⟩
  rw [CancelsTwo, magnitude_eq length, magnitude_eq length']
  rw [magnitude_eq length, magnitude_eq length'] at small
  refine ⟨t, ?_, ?_, small⟩
  · rw [wordValue_digit _ _ (by omega), wordValue_digit _ _ (by omega)]
    exact fun same => differ (unsigned_inj.mp same)
  · rw [wordValue_drop, wordValue_drop]
    refine wordValue_congr fun u hu => ?_
    have := above (t + 1 + u) (by omega) (by omega)
    rwa [add_assoc m.offset, add_assoc other.offset]

variable {other quotient remainder : MutableBigInteger} {negative : Bool}

/-- What the correction needs of the remainder: the subtraction of magnitudes that it runs
is exact. -/
def CorrectionExact (negative : Bool) (other remainder : MutableBigInteger) : Prop :=
  negative = true → remainder.integerLength ≠ 0 → SubtractMagnitudeExact remainder other

/-- The subtraction of magnitudes records the capacity. -/
def CorrectionRemembers (negative : Bool) (other remainder : MutableBigInteger) : Prop :=
  negative = true → remainder.integerLength ≠ 0 → ¬ForgetsCapacity remainder other

/-- The quotient takes a sign, so that it must not be zero. -/
def CorrectionSigns (negative : Bool) (other quotient : MutableBigInteger) : Prop :=
  negative = false → other.negative = true → quotient.integerLength ≠ 0

/-- The magnitude of the divisor without the remainder. -/
theorem correctRemainder_spec (hr : Valid remainder) (ho : Valid other)
    (nonzero : remainder.integerLength ≠ 0) (exact : SubtractMagnitudeExact remainder other) :
    Returns (if other.negative = true then (remainder.setNegative true).subtract false other
        else (remainder.setNegative true).add false other) fun r =>
      Exact r (other.magnitude - remainder.magnitude) ∧
        (¬ForgetsCapacity remainder other → Holds r (other.magnitude - remainder.magnitude)) := by
  have negated : Holds (remainder.setNegative true) (-remainder.magnitude) :=
    hr.setNegative_holds true fun _ => nonzero
  have valid := negated.toValid
  split
  · rename_i sign
    have value : (remainder.setNegative true).value - other.value =
        other.magnitude - remainder.magnitude := by
      rw [negated.value_eq, value_eq_signed, sign, signed_true]
      ring
    obtain ⟨whole, remembers⟩ := subtract_spec valid ho
    rw [value] at whole remembers
    have condition : SubtractExact (remainder.setNegative true) other :=
      fun _ _ => ⟨fun differ => absurd sign.symm differ, fun _ =>
        ⟨exact.same_length, exact.longer, exact.shorter⟩⟩
    exact (whole.mpr condition).and_of_imp fun remember =>
      remembers condition fun _ _ _ => remember
  · rename_i sign
    have value : (remainder.setNegative true).value + other.value =
        other.magnitude - remainder.magnitude := by
      rw [negated.value_eq, value_eq_signed, Bool.eq_false_iff.mpr sign, signed_false]
      ring
    obtain ⟨whole, remembers⟩ := add_spec valid ho false
    rw [value] at whole remembers
    have condition : AddExact (remainder.setNegative true) other :=
      fun _ _ => ⟨fun same => absurd same.symm sign, fun _ =>
        ⟨exact.same_length, exact.longer, exact.shorter⟩⟩
    exact (whole.mpr condition).and_of_imp fun remember =>
      remembers condition fun _ _ _ => remember

/-- The quotient and the remainder of the magnitudes become those of the numbers. -/
theorem returns_divideSignCorrection (ho : Valid other) (hq : Valid quotient)
    (hr : Valid remainder) (positive : remainder.negative = false)
    (less : remainder.magnitude < other.magnitude) {n : ℤ}
    (eq : n = signed negative (other.magnitude * quotient.magnitude + remainder.magnitude))
    (some : remainder.integerLength = 0 → quotient.integerLength ≠ 0)
    (exact : CorrectionExact negative other remainder) :
    Returns (divideSignCorrection negative other quotient remainder) fun (q, r) =>
      (CorrectionSigns negative other quotient → Holds q (n / other.value)) ∧
        Exact r (n % other.value) ∧
        (CorrectionRemembers negative other remainder → Holds r (n % other.value)) := by
  have nonneg := remainder.magnitude_nonneg
  have nonneg' := quotient.magnitude_nonneg
  have abs : |other.value| = other.magnitude := abs_value other
  have value := value_eq_signed other
  have unsigned : Holds (quotient.setNegative false) quotient.magnitude :=
    hq.setNegative_holds false fun negated => absurd negated Bool.false_ne_true
  have kept : Holds remainder remainder.magnitude :=
    { hr with value_eq := by rw [value_eq_signed, positive, signed_false] }
  rw [divideSignCorrection, isZero]
  split
  · rename_i zero
    rw [decide_eq_true_eq] at zero
    have none := magnitude_of_zero zero
    have holds := hq.setNegative_holds (negative != other.negative) fun _ => some zero
    obtain ⟨hq', hr'⟩ := ediv_emod_of_eq (n := n) (d := other.value) (r := 0)
      (q := if negative != other.negative then -quotient.magnitude else quotient.magnitude)
      (by
        rw [eq, none, value]
        cases negative <;> cases other.negative <;> simp)
      le_rfl (by omega)
    rw [hq', hr']
    rw [none] at kept
    exact Returns.some_iff.mpr ⟨fun _ => holds, kept.exact, fun _ => kept⟩
  rename_i nonzero
  rw [decide_eq_true_eq] at nonzero
  split
  · rename_i negated
    have difference := correctRemainder_spec hr ho nonzero (exact negated nonzero)
    rw [negated, signed_true] at eq
    have remembers : CorrectionRemembers negative other remainder →
        ¬ForgetsCapacity remainder other := fun h => h negated nonzero
    have pos := hr.magnitude_pos nonzero
    split
    · rename_i sign
      rw [if_pos sign] at difference
      obtain ⟨hq', hr'⟩ := ediv_emod_of_eq (n := n) (d := other.value)
        (q := quotient.magnitude + 1) (r := other.magnitude - remainder.magnitude)
        (by rw [eq, value, sign, signed_true]; ring) (by omega) (by omega)
      rw [hq', hr']
      refine (returns_addInteger unsigned.toValid 1).bind fun q holds => ?_
      refine difference.bind ?_
      rintro r ⟨whole, remember⟩
      refine Returns.pure_iff.mpr ⟨fun _ => ?_, whole, fun h => remember (remembers h)⟩
      rwa [unsigned.value_eq] at holds
    · rename_i sign
      rw [if_neg sign] at difference
      obtain ⟨hq', hr'⟩ := ediv_emod_of_eq (n := n) (d := other.value)
        (q := -(quotient.magnitude + 1)) (r := other.magnitude - remainder.magnitude)
        (by rw [eq, value, Bool.eq_false_iff.mpr sign, signed_false]; ring)
        (by omega) (by omega)
      rw [hq', hr']
      refine (returns_addInteger unsigned.toValid 1).bind fun q holds => ?_
      rw [unsigned.value_eq, show (1 : Word).toInt = 1 from rfl] at holds
      refine difference.bind ?_
      rintro r ⟨whole, remember⟩
      refine Returns.pure_iff.mpr ⟨fun _ => ?_, whole, fun h => remember (remembers h)⟩
      have length : q.integerLength ≠ 0 := fun zero => by
        have := value_of_zero zero
        rw [holds.value_eq] at this
        omega
      have magnitude : q.magnitude = quotient.magnitude + 1 := by
        rw [← abs_value, holds.value_eq, abs_of_pos (by omega)]
      rw [← magnitude]
      exact holds.toValid.setNegative_holds true fun _ => length
  · rename_i notNegated
    rw [Bool.eq_false_iff.mpr notNegated, signed_false] at eq
    split
    · rename_i sign
      obtain ⟨hq', hr'⟩ := ediv_emod_of_eq (n := n) (d := other.value)
        (q := -quotient.magnitude) (r := remainder.magnitude)
        (by rw [eq, value, sign, signed_true]; ring) nonneg (by omega)
      rw [hq', hr']
      exact Returns.some_iff.mpr ⟨fun signs => hq.setNegative_holds true fun _ =>
        signs (Bool.eq_false_iff.mpr notNegated) sign, kept.exact, fun _ => kept⟩
    · rename_i sign
      obtain ⟨hq', hr'⟩ := ediv_emod_of_eq (n := n) (d := other.value)
        (q := quotient.magnitude) (r := remainder.magnitude)
        (by rw [eq, value, Bool.eq_false_iff.mpr sign, signed_false]) nonneg (by omega)
      rw [hq', hr']
      exact Returns.some_iff.mpr ⟨fun _ => unsigned, kept.exact, fun _ => kept⟩

end SignCorrection

/-! ## Several words -/

section SeveralWords

variable {other quotient remainder register1 : MutableBigInteger}

/-- The words of the dividend begin its storage after the shift of the normalisation. -/
def Aligned (m other : MutableBigInteger) : Prop :=
  m.offset = 0 ∨
    2 * unsigned (other.storage.cell (other.offset + other.integerLength - 1)) < wordBase

/-- The object `m` with the words of the remainder. -/
structure RemainderOf (m r : MutableBigInteger) (v : ℤ) : Prop extends Holds r v where
  negative_eq : r.negative = false
  offset_eq : r.offset = 0
  capacity_eq : r.capacity = m.capacity

theorem remainderOf_setRemainder {s : NativeArray Word} {u n : ℕ} (hr : Valid remainder)
    (size : s.size = remainder.storage.size) (le : u ≤ n) (fits : n ≤ remainder.capacity)
    (value : wordValue s 0 u = wordValue s 0 n) (top : u ≠ 0 → s.cell (u - 1) ≠ 0)
    (offset : remainder.offset = 0) :
    RemainderOf remainder (remainder.setRemainder s u) (wordValue s 0 n) := by
  rw [setRemainder]
  split
  · rename_i zero
    obtain rfl : u = 0 := by omega
    rw [← value, wordValue_zero]
    exact ⟨holds_zero hr.isCapacity (size.trans hr.size_eq) rfl rfl, rfl, offset, rfl⟩
  · rename_i nonzero
    obtain ⟨u, rfl⟩ : ∃ v, u = v + 1 := ⟨u - 1, by omega⟩
    have word := top (by omega)
    rw [show ((u + 1 : ℕ) : Int) - 1 = 0 + u by push_cast; omega] at word
    exact ⟨Holds.of_window u hr.isCapacity (size.trans hr.size_eq) (by push_cast; rfl) le_rfl
      (by dsimp only; omega) word value, rfl, rfl, rfl⟩

/-- The shift of the dividend brings its words to the beginning of the storage. -/
theorem returns_normalizeDividend (hr : Valid remainder) (nonzero : remainder.integerLength ≠ 0)
    {shift : ℕ} (small : shift < 32) (aligned : shift = 0 → remainder.offset = 0) :
    Returns (remainder.normalizeDividend shift) fun r =>
      Valid r ∧ r.magnitude = remainder.magnitude * 2 ^ shift ∧ r.offset = 0 := by
  have power : (0 : ℤ) < 2 ^ shift := by positivity
  rw [normalizeDividend]
  split
  · rename_i moves
    refine (returns_shiftLeft hr shift).mono fun r ⟨holds, offset⟩ =>
      ⟨holds.toValid, ?_, offset nonzero (by omega)⟩
    rw [← abs_value, holds.value_eq, abs_mul, abs_of_pos power, abs_value]
  · rename_i stays
    rw [not_not] at stays
    rw [stays, pow_zero, mul_one]
    exact Returns.some_iff.mpr ⟨hr, rfl, aligned stays⟩

theorem returns_unnormalize {rest : MutableBigInteger} {shift : ℕ} (small : shift < 32) {v : ℤ}
    (h : RemainderOf remainder rest (v * 2 ^ shift)) :
    Returns (rest.unnormalize shift) fun r => RemainderOf remainder r v := by
  have power : (0 : ℤ) < 2 ^ shift := by positivity
  have magnitude : rest.magnitude = v * 2 ^ shift := by
    rw [← h.value_eq, value_eq_signed, h.negative_eq, signed_false]
  have nonneg : 0 ≤ v := nonneg_of_mul_nonneg_left (magnitude ▸ rest.magnitude_nonneg) power
  rw [unnormalize]
  split
  · rename_i moves
    refine (returns_shiftRight h.toValid shift fun some none => ?_).mono ?_
    · have := h.length_nonneg
      exact ⟨h.negative_eq, .inl (by omega)⟩
    · rintro r ⟨holds, capacity, offset⟩
      rw [magnitude, Int.mul_ediv_cancel _ power.ne', h.negative_eq, signed_false] at holds
      refine ⟨holds, ?_, offset (by omega) fun _ => h.offset_eq, capacity.trans h.capacity_eq⟩
      rw [← Bool.not_eq_true, ← holds.value_neg_iff, holds.value_eq]
      omega
  · rename_i stays
    obtain rfl : shift = 0 := by omega
    rw [pow_zero, mul_one] at h
    exact Returns.some_iff.mpr h

/-- The division of the magnitudes by several words. -/
theorem returns_divideMagnitude (ho : Valid other) (hq : Valid quotient)
    (hr : Valid remainder) (h₁ : Valid register1) {p : ℕ}
    (length : other.integerLength = (p + 2 : ℕ)) (larger : other.magnitude ≤ remainder.magnitude)
    (aligned : Aligned remainder other) :
    Returns (divideMagnitude other quotient remainder register1) fun (q, r, register1) =>
      Valid q ∧ Valid r ∧ r.negative = false ∧ r.offset = 0 ∧
        other.integerLength ≤ r.capacity ∧
        remainder.magnitude = other.magnitude * q.magnitude + r.magnitude ∧
        r.magnitude < other.magnitude ∧ Valid register1 := by
  refine (returns_copy h₁.fits ho).bind fun copied ⟨copy, _⟩ => ?_
  have length' := copy.length_eq'.trans length
  refine (returns_normalize copy.toValid (n := p + 1) (by push_cast at length'; omega)).bind ?_
  rintro ⟨divisor, shift⟩ ⟨small, holds, dlen, half, zero⟩
  dsimp only at small holds dlen half zero ⊢
  have power : (0 : ℤ) < 2 ^ shift := by positivity
  have nonzero := ho.magnitude_pos (by omega)
  have rlen : remainder.integerLength ≠ 0 := fun none => by
    rw [magnitude_of_zero none] at larger
    omega
  have dmag : divisor.magnitude = other.magnitude * 2 ^ shift := by
    rw [← abs_value, holds.value_eq, abs_mul, abs_of_pos power, abs_value, copy.magnitude_eq']
  have aligned' : shift = 0 → remainder.offset = 0 := fun stays =>
    aligned.resolve_right fun low => by
      have head := zero.mp stays
      have cell := copy.cell_eq (p + 1) (by omega)
      rw [copy.offset_eq, zero_add, cell, show other.offset + ((p + 1 : ℕ) : Int) =
        other.offset + other.integerLength - 1 by push_cast at length ⊢; omega] at head
      omega
  refine (returns_normalizeDividend hr rlen small aligned').bind ?_
  rintro dividend ⟨valid, nmag, origin⟩
  have larger' := mul_le_mul_of_nonneg_right larger power.le
  rw [← dmag, ← nmag] at larger'
  have dpos := holds.toValid.magnitude_pos (by omega)
  have nlen : dividend.integerLength ≠ 0 := fun none => by
    rw [magnitude_of_zero none] at larger'
    omega
  have range := valid.offset_range nlen
  have size := valid.size_eq
  obtain ⟨k, klen⟩ := valid.length_eq_succ nlen
  have whole := magnitude_eq (m := dividend) (n := k + 1) klen
  have top := valid.top_ne_zero nlen
  rw [show dividend.offset + dividend.integerLength - 1 = dividend.offset + k by omega] at top
  have more : (p : Int) + 2 ≤ dividend.integerLength := by
    have least := holds.toNormalised.le_magnitude (n := p + 1) (by push_cast at dlen ⊢; omega)
    have upper := magnitude_lt (m := dividend) (n := k + 1) klen
    have := (pow_lt_pow_iff_right₀ (by decide : 1 < wordBase)).mp
      ((least.trans larger').trans_lt upper)
    omega
  rw [klen]
  refine (returns_longDivision (p := p) holds.toValid hq (by push_cast at dlen ⊢; omega)
    (by push_cast at half; rwa [← add_assoc] at half) range.1 (by omega) top
    (by rwa [whole] at larger')).bind ?_
  rintro ⟨q, s, len⟩ ⟨Q, qholds, -, qsign, ssize, value, less, u, rfl, le, same, strip⟩
  have remainderOf := remainderOf_setRemainder valid ssize le
    (by push_cast; omega) same strip origin
  generalize dividend.setRemainder s u = rest at remainderOf
  rw [← whole, origin, nmag, dmag] at value
  rw [origin, dmag] at less
  generalize wordValue s 0 (p + 2) = R at value less remainderOf
  -- the remainder is a multiple of the power of 2 that the shift brought
  obtain ⟨r₀, rfl⟩ : ∃ r₀, R = r₀ * 2 ^ shift :=
    ⟨remainder.magnitude - other.magnitude * Q, by linarith⟩
  have split : remainder.magnitude = other.magnitude * Q + r₀ :=
    mul_right_cancel₀ power.ne' (by linarith)
  have less' : r₀ < other.magnitude := lt_of_mul_lt_mul_right less power.le
  have qmag : q.magnitude = Q := by
    rw [← qholds.value_eq, value_eq_signed, qsign, signed_false]
  refine (returns_unnormalize small remainderOf).bind fun r rest => Returns.pure_iff.mpr ?_
  have rmag : r.magnitude = r₀ := by
    rw [← rest.value_eq, value_eq_signed, rest.negative_eq, signed_false]
  have capacity := rest.capacity_eq
  exact ⟨qholds.toValid, rest.toValid, rest.negative_eq, rest.offset_eq,
    by dsimp only; push_cast at length; omega, by rw [qmag, rmag, split], by rwa [rmag],
    holds.toValid⟩

end SeveralWords

end MutableBigInteger

end Liberty
