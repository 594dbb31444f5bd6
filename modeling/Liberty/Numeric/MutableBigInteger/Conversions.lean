import Liberty.Numeric.MutableBigInteger.Subtraction
import Liberty.Numeric.MutableBigInteger.DecimalRuns

/-!
# Conversions to INTEGER_32 and INTEGER_64

Whether a number is one of 32 or 64 bits, and the word that it is then.  The tests look at
the signs of the storage words; the minimum of a width is the one magnitude beyond them.
-/

namespace Liberty

namespace MutableBigInteger

/-! ## The source -/

def isInteger32 (m : MutableBigInteger) : Option Bool :=
  if m.integerLength = 0 then return true
  else if m.integerLength = 1 then do
    if 0 < (← m.storage.item m.offset).toInt then return true
    else if m.negative then return (← m.storage.item m.offset) == 0x80000000
    else return false
  else return false

def toInteger32 (m : MutableBigInteger) : Option Word :=
  if m.integerLength > 0 then do
    let result ← m.storage.item m.offset
    return if m.negative then -result else result
  else return 0

def isInteger64 (m : MutableBigInteger) : Option Bool :=
  if m.integerLength ≤ 1 then return true
  else if m.integerLength = 2 then
    if m.negative then do
      if 0 < (← m.storage.item (m.offset + 1)).toInt then return true
      else if (← m.storage.item m.offset) = 0 then
        return (← m.storage.item (m.offset + 1)) == 0x80000000
      else return false
    else do
      return decide (0 < (← m.storage.item (m.offset + 1)).toInt)
  else return false

/-- `inspect integer_length`, with no branch for more than two words. -/
def toInteger64 (m : MutableBigInteger) : Option (BitVec 64) :=
  if m.integerLength = 0 then return 0
  else if m.integerLength = 1 then do
    let result := (← m.storage.item m.offset).zeroExtend 64
    return if m.negative then -result else result
  else if m.integerLength = 2 then do
    let result := (← m.storage.item m.offset).zeroExtend 64
    let v := (← m.storage.item (m.offset + 1)).signExtend 64
    let result := result ^^^ v <<< 32
    return if m.negative then -result else result
  else none

/-! ## Words -/

theorem toInt_pos_iff {w : Word} (nonzero : w ≠ 0) : 0 < w.toInt ↔ unsigned w < 2147483648 := by
  have positive := unsigned_pos nonzero
  unfold unsigned at positive ⊢
  rw [BitVec.toInt_eq_toNat_cond]
  split <;> omega

theorem eq_minimum_iff {w : Word} : w = 0x80000000 ↔ unsigned w = 2147483648 := by
  rw [← unsigned_inj]
  rfl

theorem xor_signExtend (lo hi : Word) :
    lo.zeroExtend 64 ^^^ hi.signExtend 64 <<< 32 = (hi ++ lo).cast rfl := by
  ext i inside
  simp only [BitVec.getElem_xor, BitVec.getElem_cast, BitVec.getElem_append,
    BitVec.getElem_shiftLeft, BitVec.getElem_signExtend, BitVec.truncate_eq_setWidth,
    BitVec.getElem_setWidth]
  by_cases low : i < 32
  · simp [low]
  · simp [low, show i - 32 < 32 by omega, BitVec.getLsbD_of_ge lo i (by omega)]

theorem toNat_xor_signExtend (lo hi : Word) :
    ((lo.zeroExtend 64 ^^^ hi.signExtend 64 <<< 32).toNat : ℤ) =
      unsigned lo + wordBase * unsigned hi := by
  rw [xor_signExtend, BitVec.toNat_cast, BitVec.toNat_append,
    ← Nat.shiftLeft_add_eq_or_of_lt lo.isLt, Nat.shiftLeft_eq]
  unfold unsigned wordBase
  push_cast
  ring

theorem toInt_of_magnitude {width : ℕ} {v : BitVec width} (negative : Bool)
    (positive : width ≠ 0)
    (inside : if negative then 2 * v.toNat ≤ 2 ^ width else 2 * v.toNat < 2 ^ width) :
    (if negative then -v else v).toInt = signed negative v.toNat := by
  have one : (2 : ℕ) ^ width = 2 * 2 ^ (width - 1) := by
    rw [← pow_succ', Nat.sub_add_cancel (Nat.pos_of_ne_zero positive)]
  cases negative
  · rw [if_neg Bool.false_ne_true] at inside ⊢
    rw [BitVec.toInt_eq_toNat_cond, if_pos inside, signed_false]
  · rw [if_pos rfl] at inside ⊢
    rw [BitVec.toInt_eq_toNat_cond, BitVec.toNat_neg, signed_true]
    by_cases zero : v.toNat = 0
    · rw [zero, Nat.sub_zero, Nat.mod_self]
      simp [one]
    · rw [Nat.mod_eq_of_lt (by omega)]
      split <;> omega

/-! ## Exactness -/

section Exactness

variable {m : MutableBigInteger}

/-- The number is an INTEGER_32. -/
def InInteger32 (v : ℤ) : Prop :=
  -2147483648 ≤ v ∧ v < 2147483648

/-- The number is an INTEGER_64. -/
def InInteger64 (v : ℤ) : Prop :=
  -9223372036854775808 ≤ v ∧ v < 9223372036854775808

instance (v : ℤ) : Decidable (InInteger32 v) :=
  inferInstanceAs (Decidable (_ ∧ _))

instance (v : ℤ) : Decidable (InInteger64 v) :=
  inferInstanceAs (Decidable (_ ∧ _))

theorem inInteger32_signed {negative : Bool} {a : ℤ} (nonneg : 0 ≤ a) :
    InInteger32 (signed negative a) ↔
      a < 2147483648 ∨ negative = true ∧ a = 2147483648 := by
  unfold InInteger32
  cases negative
  · rw [signed_false]
    simp only [Bool.false_eq_true, false_and, or_false]
    omega
  · rw [signed_true]
    simp only [true_and]
    omega

theorem inInteger64_signed {negative : Bool} {a : ℤ} (nonneg : 0 ≤ a) :
    InInteger64 (signed negative a) ↔
      a < 9223372036854775808 ∨ negative = true ∧ a = 9223372036854775808 := by
  unfold InInteger64
  cases negative
  · rw [signed_false]
    simp only [Bool.false_eq_true, false_and, or_false]
    omega
  · rw [signed_true]
    simp only [true_and]
    omega

theorem magnitude_of_one (one : m.integerLength = 1) :
    m.magnitude = unsigned (m.storage.cell m.offset) := by
  rw [magnitude_eq (n := 1) one, wordValue_succ, wordValue_zero, pow_zero, zero_add, mul_one,
    Nat.cast_zero, add_zero]

theorem magnitude_of_two (two : m.integerLength = 2) :
    m.magnitude = unsigned (m.storage.cell m.offset) +
      wordBase * unsigned (m.storage.cell (m.offset + 1)) := by
  rw [magnitude_eq (n := 2) two, wordValue_succ', wordValue_succ, wordValue_zero, pow_zero,
    zero_add, mul_one, Nat.cast_zero, add_zero]

theorem Valid.pow_le_magnitude (hm : Valid m) {n : ℕ} (more : (n : Int) < m.integerLength) :
    wordBase ^ n ≤ m.magnitude := by
  obtain ⟨k, length⟩ := hm.length_eq_succ (by omega)
  have least := hm.le_magnitude length
  have power : wordBase ^ n ≤ wordBase ^ k := pow_le_pow_right₀ wordBase_pos (by omega)
  omega

theorem Valid.word_ne_zero (hm : Valid m) (one : m.integerLength = 1) :
    m.storage.cell m.offset ≠ 0 := by
  have top := hm.top_ne_zero (by omega)
  rwa [show m.offset + m.integerLength - 1 = m.offset by omega] at top

theorem Valid.highWord_ne_zero (hm : Valid m) (two : m.integerLength = 2) :
    m.storage.cell (m.offset + 1) ≠ 0 := by
  have top := hm.top_ne_zero (by omega)
  rwa [show m.offset + m.integerLength - 1 = m.offset + 1 by omega] at top

theorem returns_isInteger32 (hm : Valid m) :
    Returns m.isInteger32 fun yes => yes = decide (InInteger32 m.value) := by
  have size := hm.size_eq
  have range := hm.offset_range
  have nonneg := m.magnitude_nonneg
  rw [value_eq_signed]
  simp only [inInteger32_signed nonneg]
  unfold isInteger32
  split
  · rename_i zero
    rw [magnitude_of_zero zero]
    exact Returns.pure_iff.mpr (decide_eq_true (.inl (by norm_num))).symm
  split
  · rename_i one
    have some := hm.word_ne_zero one
    rw [Returns.bind_iff, NativeArray.returns_item]
    refine ⟨by omega, ?_⟩
    have positive := toInt_pos_iff some
    rw [magnitude_of_one one]
    split
    · rename_i low
      exact Returns.pure_iff.mpr (decide_eq_true (.inl (positive.mp low))).symm
    · rename_i notLow
      rw [positive] at notLow
      split
      · rename_i negative
        rw [Returns.bind_iff, NativeArray.returns_item]
        refine ⟨by omega, Returns.pure_iff.mpr ?_⟩
        rw [negative, Bool.eq_iff_iff, beq_iff_eq, decide_eq_true_eq, eq_minimum_iff]
        exact ⟨fun minimum => .inr ⟨rfl, minimum⟩, fun inside => (inside.resolve_left notLow).2⟩
      · rename_i positive
        refine Returns.pure_iff.mpr (decide_eq_false fun inside => ?_).symm
        exact positive (inside.resolve_left notLow).1
  · have more := hm.pow_le_magnitude (n := 1) (by have := hm.length_nonneg; omega)
    unfold wordBase at more
    exact Returns.pure_iff.mpr (decide_eq_false (by omega)).symm

theorem returns_toInteger32 (hm : Valid m) (inside : InInteger32 m.value) :
    Returns m.toInteger32 fun v => v.toInt = m.value := by
  have size := hm.size_eq
  have range := hm.offset_range
  have nonneg := hm.length_nonneg
  rw [toInteger32]
  split
  · rename_i some
    have one : m.integerLength = 1 := by
      by_contra more
      have least := hm.pow_le_magnitude (n := 1) (by omega)
      rw [value_eq_signed, inInteger32_signed m.magnitude_nonneg] at inside
      unfold wordBase at least
      omega
    rw [value_eq_signed, magnitude_of_one one] at inside ⊢
    rw [inInteger32_signed (unsigned_nonneg _)] at inside
    rw [Returns.bind_iff, NativeArray.returns_item]
    refine ⟨by omega, Returns.pure_iff.mpr (toInt_of_magnitude m.negative (by decide) ?_)⟩
    unfold unsigned at inside
    split
    · omega
    · rename_i positive
      have low := inside.resolve_right fun minimum => positive minimum.1
      omega
  · have zero : m.integerLength = 0 := by omega
    rw [value_of_zero zero]
    exact Returns.pure_iff.mpr rfl

theorem returns_isInteger64 (hm : Valid m) :
    Returns m.isInteger64 fun yes => yes = decide (InInteger64 m.value) := by
  have size := hm.size_eq
  have range := hm.offset_range
  have nonneg := m.magnitude_nonneg
  rw [value_eq_signed]
  simp only [inInteger64_signed nonneg]
  unfold isInteger64
  split
  · rename_i short
    obtain ⟨n, length⟩ := hm.length_eq
    have less := magnitude_lt length
    have most : wordBase ^ n ≤ wordBase ^ 1 := pow_le_pow_right₀ wordBase_pos (by omega)
    unfold wordBase at less most
    exact Returns.pure_iff.mpr (decide_eq_true (.inl (by omega))).symm
  split
  · rename_i two
    have some := hm.highWord_ne_zero two
    have low := unsigned_nonneg (m.storage.cell m.offset)
    have less := unsigned_lt (m.storage.cell m.offset)
    unfold wordBase at less
    have positive := toInt_pos_iff some
    rw [magnitude_of_two two]
    unfold wordBase
    split
    · rename_i negative
      rw [Returns.bind_iff, NativeArray.returns_item]
      refine ⟨by omega, ?_⟩
      split
      · rename_i low
        exact Returns.pure_iff.mpr (decide_eq_true (.inl (by omega))).symm
      · rename_i notLow
        rw [Returns.bind_iff, NativeArray.returns_item]
        refine ⟨by omega, ?_⟩
        split
        · rename_i zero
          rw [Returns.bind_iff, NativeArray.returns_item]
          refine ⟨by omega, Returns.pure_iff.mpr ?_⟩
          rw [negative, zero, unsigned_zero, Bool.eq_iff_iff, beq_iff_eq, decide_eq_true_eq,
            eq_minimum_iff]
          simp only [true_and]
          omega
        · rename_i nonzero
          have more := unsigned_pos nonzero
          exact Returns.pure_iff.mpr (decide_eq_false (by omega)).symm
    · rename_i sign
      rw [Returns.bind_iff, NativeArray.returns_item]
      refine ⟨by omega, Returns.pure_iff.mpr (decide_eq_decide.mpr ?_)⟩
      rw [Bool.not_eq_true] at sign
      rw [sign, positive]
      simp only [Bool.false_eq_true, false_and, or_false]
      omega
  · have more := hm.pow_le_magnitude (n := 2) (by push_cast; omega)
    unfold wordBase at more
    exact Returns.pure_iff.mpr (decide_eq_false (by omega)).symm

theorem returns_toInteger64 (hm : Valid m) (inside : InInteger64 m.value) :
    Returns m.toInteger64 fun v => v.toInt = m.value := by
  have size := hm.size_eq
  have range := hm.offset_range
  have nonneg := hm.length_nonneg
  rw [toInteger64]
  split
  · rename_i zero
    rw [value_of_zero zero]
    exact Returns.pure_iff.mpr rfl
  split
  · rename_i one
    have same : ((m.storage.cell m.offset).zeroExtend 64).toNat =
        (m.storage.cell m.offset).toNat := by
      rw [BitVec.zeroExtend_eq_setWidth, BitVec.toNat_setWidth]
      omega
    rw [Returns.bind_iff, NativeArray.returns_item]
    refine ⟨by omega, Returns.pure_iff.mpr ?_⟩
    rw [value_eq_signed, magnitude_of_one one, unsigned, ← same]
    refine toInt_of_magnitude m.negative (by decide) ?_
    split <;> omega
  split
  · rename_i two
    rw [Returns.bind_iff, NativeArray.returns_item]
    refine ⟨by omega, ?_⟩
    rw [Returns.bind_iff, NativeArray.returns_item]
    refine ⟨by omega, Returns.pure_iff.mpr ?_⟩
    have words := toNat_xor_signExtend (m.storage.cell m.offset) (m.storage.cell (m.offset + 1))
    rw [value_eq_signed, magnitude_of_two two, ← words] at inside ⊢
    rw [inInteger64_signed (Int.natCast_nonneg _)] at inside
    refine toInt_of_magnitude m.negative (by decide) ?_
    split
    · omega
    · rename_i positive
      have low := inside.resolve_right fun minimum => positive minimum.1
      omega
  · have least := hm.pow_le_magnitude (n := 2) (by push_cast; omega)
    rw [value_eq_signed, inInteger64_signed m.magnitude_nonneg] at inside
    unfold wordBase at least
    omega

/-- `from_integer_64 (to_integer_64)` is the number again. -/
theorem returns_fromInteger64_toInteger64 {res : MutableBigInteger} (hr : Fits res)
    (hm : Valid m) (inside : InInteger64 m.value) :
    Returns (m.toInteger64 >>= res.fromInteger64) (Holds · m.value) :=
  (returns_toInteger64 hm inside).bind fun v same =>
    (returns_fromInteger64 hr v).mono fun _ ⟨holds, _⟩ => same ▸ holds

end Exactness

end MutableBigInteger

/-!
## Comparisons and conversions in the worlds of a run

In a run of sound commands the comparisons order the objects as the integers they stand
for, and the conversions give these integers.  After a command that leaves a leading zero
word they do not.
-/

namespace MutableBigInteger

namespace World

variable {w : World} {i j : ℕ}

/-- The comparisons of the objects `i` and `j` are those of their values. -/
structure Compares (w : World) (i j : ℕ) : Prop where
  lessThan : (w.object i).lessThan (decide (j = i)) (w.object j) =
    some (decide (w.value i < w.value j))
  isEqual : (w.object i).isEqual (decide (j = i)) (w.object j) =
    some (decide (w.value i = w.value j))
  absCompare : (w.object i).absCompareTo (decide (j = i)) (w.object j) =
    some (|w.value i| - |w.value j|).sign

/-- The conversions of the object `i` give its value, and `from_integer_64`, in any object
that may be initialised, takes it back. -/
structure Converts (w : World) (i : ℕ) : Prop where
  isInteger32 : (w.object i).isInteger32 = some (decide (InInteger32 (w.value i)))
  toInteger32 : InInteger32 (w.value i) →
    Returns (w.object i).toInteger32 (·.toInt = w.value i)
  isInteger64 : (w.object i).isInteger64 = some (decide (InInteger64 (w.value i)))
  toInteger64 : InInteger64 (w.value i) →
    Returns (w.object i).toInteger64 (·.toInt = w.value i)
  fromInteger64 : InInteger64 (w.value i) → ∀ k,
    Returns ((w.object i).toInteger64 >>= (w.object k).fromInteger64) (Exact · (w.value i))

theorem eq_some_of_returns {α : Type} {x : Option α} {a : α} (returns : Returns x (· = a)) :
    x = some a := by
  obtain ⟨b, run, rfl⟩ := returns
  exact run

theorem Valid.compares (hw : w.Valid) (created : w.Created i) (created' : w.Created j) :
    w.Compares i j := by
  have hm := hw.created created
  have ho := hw.created created'
  by_cases same : j = i
  · subst same
    constructor
    · rw [decide_eq_true rfl, decide_eq_false (lt_irrefl _)]
      rfl
    · rw [decide_eq_true rfl, decide_eq_true rfl]
      rfl
    · exact eq_some_of_returns (returns_absCompareTo hm ho _ fun _ => rfl)
  · constructor
    · rw [decide_eq_false same]
      exact eq_some_of_returns (returns_lessThan hm ho)
    · rw [decide_eq_false same]
      exact eq_some_of_returns (returns_isEqual hm ho)
    · exact eq_some_of_returns (returns_absCompareTo hm ho _
        fun eq => absurd (of_decide_eq_true eq) same)

theorem Valid.converts (hw : w.Valid) (created : w.Created i) : w.Converts i where
  isInteger32 := eq_some_of_returns (returns_isInteger32 (hw.created created))
  toInteger32 := returns_toInteger32 (hw.created created)
  isInteger64 := eq_some_of_returns (returns_isInteger64 (hw.created created))
  toInteger64 := returns_toInteger64 (hw.created created)
  fromInteger64 inside k :=
    (returns_fromInteger64_toInteger64 (hw.object k) (hw.created created) inside).mono
      fun _ holds => holds.exact

end World

namespace Printer

variable {p : Printer}

/-- In every program whose commands are sound, any two objects compare as their values, and
every object is converted to its value. -/
theorem Reaches.compares_converts (reached : Reaches World.Sound p) {i j : ℕ}
    (created : p.world.Created i) (created' : p.world.Created j) :
    p.world.Compares i j ∧ p.world.Converts i :=
  ⟨reached.valid.world.compares created created', reached.valid.world.converts created⟩

/-- A run leaves the minimum of 64 bits in the object 0 and its successor in the object 1. -/
theorem Reaches.compares_converts_minimum : ∃ p, Reaches World.Sound p ∧
    p.world.value 0 = -2 ^ 63 ∧ p.world.Compares 0 1 ∧ p.world.Converts 0 := by
  have minimum := Reaches.start (P := World.Sound) |>.command
    (.fromInteger64 0 0x8000000000000000) trivial trivial rfl
  have next := minimum.command (.fromInteger64 1 0x8000000000000001) trivial trivial rfl
  have both := next.compares_converts (i := 0) (j := 1) (by decide) (by decide)
  exact ⟨_, next, by decide, both.1, both.2⟩

/-- `2 ^ 65` less `2 ^ 65 - 1` keeps a leading zero word, so that `is_equal` does not find it
equal to 1. -/
theorem not_compares : ¬∀ p i j, Reaches (fun _ _ => True) p → p.world.Created i →
    p.world.Created j → p.world.Compares i j ∧ p.world.Converts i := by
  intro claim
  have two := Reaches.start (P := fun _ _ => True) |>.command (.fromInteger 0 2) trivial trivial
    rfl
  have shifted := two.command (.shiftLeft 0 64) ⟨by decide, by decide⟩ trivial rfl
  have copied := shifted.command (.copy 1 0) (by unfold World.Allowed; decide) trivial rfl
  have less := copied.command (.subtractInteger 1 1) (by unfold World.Allowed; decide) trivial rfl
  have differs := less.command (.subtract 0 1) ⟨by decide, by decide⟩ trivial rfl
  have one := differs.command (.fromInteger 2 1) trivial trivial rfl
  have equal := (claim _ 0 2 one (by decide) (by decide)).1.isEqual
  exact absurd equal (by decide)

end Printer

end MutableBigInteger

end Liberty
