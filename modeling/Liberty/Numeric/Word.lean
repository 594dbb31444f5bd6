import Mathlib.Tactic.Linarith
import Mathlib.Tactic.LinearCombination
import Mathlib.Tactic.NormNum

/-!
# 32-bit words

The storage words of the big integers and the word primitives of
`mutable_big_integer.c`.  A primitive that stores a word through a pointer and
returns a flag or a word returns both here, the stored word first.
-/

namespace Liberty

/-- A storage word, an `INTEGER_32` taken as 32 bits. -/
abbrev Word := BitVec 32

/-- The number of words, `2 ^ 32`. -/
def wordBase : ℤ := 4294967296

/-- `unsigned_32_to_integer_64`. -/
def unsigned (w : Word) : ℤ := w.toNat

/-- A carry or a borrow. -/
def bit (b : Bool) : ℤ := if b then 1 else 0

@[simp] theorem bit_true : bit true = 1 := rfl

@[simp] theorem bit_false : bit false = 0 := rfl

theorem wordBase_pos : 0 < wordBase := by decide

theorem unsigned_nonneg (w : Word) : 0 ≤ unsigned w := Int.natCast_nonneg _

theorem unsigned_lt (w : Word) : unsigned w < wordBase := by
  unfold unsigned wordBase
  omega

@[simp] theorem unsigned_zero : unsigned 0 = 0 := rfl

@[simp] theorem unsigned_one : unsigned 1 = 1 := rfl

theorem toNat_one : (1 : Word).toNat = 1 := rfl

theorem unsigned_inj {a b : Word} : unsigned a = unsigned b ↔ a = b := by
  unfold unsigned
  rw [Int.natCast_inj, BitVec.toNat_inj]

theorem unsigned_eq_zero {w : Word} : unsigned w = 0 ↔ w = 0 := by
  rw [← unsigned_zero, unsigned_inj]

theorem unsigned_pos {w : Word} (h : w ≠ 0) : 0 < unsigned w := by
  have := unsigned_nonneg w
  have : unsigned w ≠ 0 := fun zero => h (unsigned_eq_zero.mp zero)
  omega

/-! ## Comparisons -/

def unsignedLessThan (a b : Word) : Bool := a.ult b

def unsignedGreaterThan (a b : Word) : Bool := b.ult a

def unsignedGreaterOrEqual (a b : Word) : Bool := b.ule a

@[simp] theorem unsignedLessThan_iff {a b : Word} :
    unsignedLessThan a b = true ↔ unsigned a < unsigned b := by
  simp [unsignedLessThan, unsigned, BitVec.ult]

@[simp] theorem unsignedGreaterThan_iff {a b : Word} :
    unsignedGreaterThan a b = true ↔ unsigned b < unsigned a := by
  simp [unsignedGreaterThan, unsigned, BitVec.ult]

@[simp] theorem unsignedGreaterOrEqual_iff {a b : Word} :
    unsignedGreaterOrEqual a b = true ↔ unsigned b ≤ unsigned a := by
  simp [unsignedGreaterOrEqual, unsigned, BitVec.ule]

/-! ## Carries and borrows -/

def mbiInc (w : Word) : Word × Bool := (w + 1, w + 1 == 0)

def mbiAdd (a b : Word) : Word × Bool := (a + b, (a + b).ult a)

def mbiAddWithInc (a b : Word) : Word × Bool := (a + b + 1, (a + b + 1).ule a)

def mbiDec (w : Word) : Word × Bool := (w - 1, w == 0)

def mbiSubtract (a b : Word) : Word × Bool := (a - b, a.ult (a - b))

def mbiSubtractWithDec (a b : Word) : Word × Bool :=
  (a - b - 1, a.ule (a - b - 1))

/-- `if inc then mbi_add_with_inc (…) else mbi_add (…) end`. -/
def addStep (inc : Bool) (a b : Word) : Word × Bool :=
  if inc then mbiAddWithInc a b else mbiAdd a b

/-- `if dec then mbi_subtract_with_dec (…) else mbi_subtract (…) end`. -/
def subtractStep (dec : Bool) (a b : Word) : Word × Bool :=
  if dec then mbiSubtractWithDec a b else mbiSubtract a b

theorem mbiInc_spec (w : Word) :
    unsigned (mbiInc w).1 + wordBase * bit (mbiInc w).2 = unsigned w + 1 := by
  by_cases top : w + 1 = 0
  · have wrap : (w + 1).toNat = 0 := by rw [top]; rfl
    simp only [BitVec.toNat_add, toNat_one] at wrap
    simp only [mbiInc, top, beq_self_eq_true, bit_true, unsigned_zero]
    simp only [unsigned, wordBase]
    omega
  · have small : (w + 1).toNat ≠ 0 := fun h => top (BitVec.eq_of_toNat_eq h)
    simp only [BitVec.toNat_add, toNat_one] at small
    simp only [mbiInc, beq_eq_false_iff_ne.mpr top, bit_false, unsigned,
      BitVec.toNat_add, toNat_one]
    omega

theorem mbiDec_spec (w : Word) :
    unsigned (mbiDec w).1 + 1 = unsigned w + wordBase * bit (mbiDec w).2 := by
  by_cases zero : w = 0
  · subst zero
    rfl
  · have pos := unsigned_pos zero
    simp only [unsigned] at pos
    simp only [mbiDec, beq_eq_false_iff_ne.mpr zero, bit_false, unsigned,
      BitVec.toNat_sub, toNat_one]
    omega

theorem addStep_spec (inc : Bool) (a b : Word) :
    unsigned (addStep inc a b).1 + wordBase * bit (addStep inc a b).2 =
      unsigned a + unsigned b + bit inc := by
  cases inc with
  | true =>
    simp only [addStep, if_true, mbiAddWithInc, bit, unsigned, wordBase, BitVec.ule,
      BitVec.toNat_add, toNat_one, decide_eq_true_eq]
    split <;> omega
  | false =>
    simp only [addStep, Bool.false_eq_true, if_false, mbiAdd, bit, unsigned, wordBase,
      BitVec.ult, BitVec.toNat_add, decide_eq_true_eq]
    split <;> omega

/-- One step of a subtraction with borrows. -/
theorem subtractStep_spec (dec : Bool) (a b : Word) :
    unsigned (subtractStep dec a b).1 + unsigned b + bit dec =
      unsigned a + wordBase * bit (subtractStep dec a b).2 := by
  cases dec with
  | true =>
    simp only [subtractStep, if_true, mbiSubtractWithDec, bit, unsigned, wordBase,
      BitVec.ule, BitVec.toNat_sub, toNat_one, decide_eq_true_eq]
    split <;> omega
  | false =>
    simp only [subtractStep, Bool.false_eq_true, if_false, mbiSubtract, bit, unsigned,
      wordBase, BitVec.ult, BitVec.toNat_sub, decide_eq_true_eq]
    split <;> omega

/-! ## Products and quotients -/

/-- The low word of a 64-bit product, which is stored, and its high word, which is
returned. -/
def splitProduct (x : BitVec 64) : Word × Word :=
  (x.truncate 32, (x >>> 32).truncate 32)

def mbiMultiply (a b : Word) : Word × Word :=
  splitProduct (a.zeroExtend 64 * b.zeroExtend 64)

def mbiMultiplyWithAdd (a b c : Word) : Word × Word :=
  splitProduct (a.zeroExtend 64 * b.zeroExtend 64 + c.zeroExtend 64)

def mbiMultiplyWith2Add (a b c d : Word) : Word × Word :=
  splitProduct
    (a.zeroExtend 64 * b.zeroExtend 64 + c.zeroExtend 64 + d.zeroExtend 64)

/-- `mbi_divide`: the remainder, which is stored, and the quotient, which is
returned, both cut to 32 bits.  A zero divisor does not return. -/
def mbiDivide (u1 u0 d : Word) : Option (Word × Word) :=
  if d = 0 then none
  else
    let x : BitVec 64 := (u1.zeroExtend 64 <<< 32) + u0.zeroExtend 64
    some ((x % d.zeroExtend 64).truncate 32, (x / d.zeroExtend 64).truncate 32)

theorem splitProduct_spec (x : BitVec 64) :
    unsigned (splitProduct x).1 + wordBase * unsigned (splitProduct x).2 = x.toNat := by
  simp only [splitProduct, unsigned, wordBase, BitVec.truncate_eq_setWidth,
    BitVec.toNat_setWidth, BitVec.toNat_ushiftRight, Nat.shiftRight_eq_div_pow]
  omega

theorem product_lt (a b : Word) : a.toNat * b.toNat ≤ 4294967295 * 4294967295 :=
  Nat.mul_le_mul (Nat.le_of_lt_succ a.isLt) (Nat.le_of_lt_succ b.isLt)

theorem mbiMultiplyWith2Add_spec (a b c d : Word) :
    unsigned (mbiMultiplyWith2Add a b c d).1 +
        wordBase * unsigned (mbiMultiplyWith2Add a b c d).2 =
      unsigned a * unsigned b + unsigned c + unsigned d := by
  have bound := product_lt a b
  rw [mbiMultiplyWith2Add, splitProduct_spec]
  simp only [unsigned, BitVec.truncate_eq_setWidth, BitVec.toNat_add, BitVec.toNat_mul,
    BitVec.toNat_setWidth]
  rw [Nat.mod_eq_of_lt (a := a.toNat) (by omega), Nat.mod_eq_of_lt (a := b.toNat) (by omega),
    Nat.mod_eq_of_lt (a := c.toNat) (by omega), Nat.mod_eq_of_lt (a := d.toNat) (by omega),
    Nat.mod_eq_of_lt (a := a.toNat * b.toNat) (by omega),
    Nat.mod_eq_of_lt (a := a.toNat * b.toNat + c.toNat) (by omega),
    Nat.mod_eq_of_lt (by omega)]
  rfl

theorem mbiMultiplyWithAdd_eq (a b c : Word) :
    mbiMultiplyWithAdd a b c = mbiMultiplyWith2Add a b c 0 := by
  simp [mbiMultiplyWithAdd, mbiMultiplyWith2Add]

theorem mbiMultiply_eq (a b : Word) :
    mbiMultiply a b = mbiMultiplyWith2Add a b 0 0 := by
  simp [mbiMultiply, mbiMultiplyWith2Add]

theorem mbiMultiplyWithAdd_spec (a b c : Word) :
    unsigned (mbiMultiplyWithAdd a b c).1 +
        wordBase * unsigned (mbiMultiplyWithAdd a b c).2 =
      unsigned a * unsigned b + unsigned c := by
  rw [mbiMultiplyWithAdd_eq, mbiMultiplyWith2Add_spec, unsigned_zero, add_zero]

theorem mbiMultiply_spec (a b : Word) :
    unsigned (mbiMultiply a b).1 + wordBase * unsigned (mbiMultiply a b).2 =
      unsigned a * unsigned b := by
  rw [mbiMultiply_eq, mbiMultiplyWith2Add_spec, unsigned_zero, add_zero, add_zero]

/-- The two-word dividend is below `d * 2 ^ 32`, so the quotient is one word. -/
theorem mbiDivide_spec {u1 u0 d : Word} (h : unsigned u1 < unsigned d) :
    ∃ r q, mbiDivide u1 u0 d = some (r, q) ∧
      unsigned u1 * wordBase + unsigned u0 = unsigned q * unsigned d + unsigned r ∧
      unsigned r < unsigned d := by
  have h0 := u0.isLt
  simp only [unsigned, Int.ofNat_lt] at h
  have nonzero : d ≠ 0 := by
    rintro rfl
    simp at h
  have dividend : ((u1.zeroExtend 64 <<< 32) + u0.zeroExtend 64 : BitVec 64).toNat =
      u1.toNat * 4294967296 + u0.toNat := by
    simp only [BitVec.truncate_eq_setWidth, BitVec.toNat_add, BitVec.toNat_shiftLeft,
      BitVec.toNat_setWidth, Nat.shiftLeft_eq]
    omega
  have divisor : (d.zeroExtend 64).toNat = d.toNat := by
    simp only [BitVec.truncate_eq_setWidth, BitVec.toNat_setWidth]
    omega
  refine ⟨_, _, if_neg nonzero, ?_, ?_⟩
  all_goals
    simp only [unsigned, BitVec.truncate_eq_setWidth (w := 64), BitVec.toNat_setWidth,
      BitVec.toNat_umod, BitVec.toNat_udiv, dividend, divisor]
  · have quotient : (u1.toNat * 4294967296 + u0.toNat) / d.toNat < 4294967296 := by
      rw [Nat.div_lt_iff_lt_mul (by omega)]
      nlinarith
    have remainder : (u1.toNat * 4294967296 + u0.toNat) % d.toNat < d.toNat :=
      Nat.mod_lt _ (by omega)
    rw [Nat.mod_eq_of_lt quotient, Nat.mod_eq_of_lt (b := 2 ^ 32) (by omega)]
    have split := Nat.div_add_mod (u1.toNat * 4294967296 + u0.toNat) d.toNat
    simp only [wordBase]
    push_cast at split ⊢
    linarith
  · have remainder : (u1.toNat * 4294967296 + u0.toNat) % d.toNat < d.toNat :=
      Nat.mod_lt _ (by omega)
    omega

end Liberty
