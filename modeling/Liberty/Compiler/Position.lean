import Liberty.Numeric.Word
import Mathlib.Data.BitVec

/-!
# POSITION

The identifier of a class, a line and a column in one word of 32 bits.  The lowest bit tells the two layouts
apart: the identifier on 11 bits, the line on 13 and the column on 7, or else the identifier on 15 bits, the
line on 16 and no column.
-/

namespace Liberty

/-- What `set` may be given. -/
structure PlaceInSource where
  line : Word
  column : Word
  classId : BitVec 16
  line_pos : 1 ≤ line.toInt
  column_pos : 1 ≤ column.toInt
  classId_nonneg : 0 ≤ classId.toInt

structure Position where
  mangling : Word

namespace Position

/-! ## The source -/

/-- The layout of `set` that has a column. -/
def Fits (place : PlaceInSource) : Prop :=
  place.classId.toInt ≤ 2047 ∧ place.line.toInt ≤ 8191 ∧ place.column.toInt ≤ 127

instance (place : PlaceInSource) : Decidable (Fits place) :=
  inferInstanceAs (Decidable (_ ∧ _))

def set (place : PlaceInSource) : Position :=
  if Fits place then
    ⟨place.classId.signExtend 32 <<< 21 ||| place.line <<< 8 ||| place.column <<< 1⟩
  else ⟨place.classId.signExtend 32 <<< 17 ||| place.line <<< 1 ||| 1⟩

/-- `mangling.bit_test(0)` -/
def isLong (p : Position) : Bool :=
  p.mangling.getLsbD 0

def line (p : Position) : Word :=
  if p.isLong then p.mangling.sshiftRight 1 &&& 0x0000FFFF else p.mangling.sshiftRight 8 &&& 0x00001FFF

def column (p : Position) : Word :=
  if p.isLong then 0 else p.mangling.sshiftRight 1 &&& 0x0000007F

def id (p : Position) : BitVec 16 :=
  if p.isLong then (p.mangling >>> 17).setWidth 16 else (p.mangling >>> 21).setWidth 16

def isUnknown (p : Position) : Bool :=
  p.mangling = 0

/-- `infix "<"` -/
def less (p other : Position) : Bool :=
  let type := (p.mangling &&& 1).toInt
  let otherType := (other.mangling &&& 1).toInt
  type < otherType || type = otherType && (p.mangling >>> 1).toInt < (other.mangling >>> 1).toInt

def isEqual (p other : Position) : Bool :=
  p.mangling = other.mangling

def sameLineAs (p other : Position) : Bool :=
  if p.isLong then other.isLong && p.mangling >>> 17 = other.mangling >>> 17
  else !other.isLong && p.mangling >>> 8 = other.mangling >>> 8

/-! ## Fields of a word -/

section Fields

variable {x : Word} {i k : ℕ}

theorem toNat_pack {high low : Word} (inside : low.toNat < 2 ^ i) (fits : high.toNat * 2 ^ i < 2 ^ 32) :
    (high <<< i ||| low).toNat = high.toNat * 2 ^ i + low.toNat := by
  rw [BitVec.toNat_or, BitVec.toNat_shiftLeft, Nat.shiftLeft_eq, Nat.mod_eq_of_lt fits, mul_comm,
    Nat.two_pow_add_eq_or_of_lt inside]

/-- A field that does not reach the sign is the same after both shifts to the right. -/
theorem toNat_field {mask : Word} (ones : mask.toNat = 2 ^ k - 1) (inside : i + k ≤ 32) :
    (x.sshiftRight i &&& mask).toNat = x.toNat / 2 ^ i % 2 ^ k := by
  have same : x.sshiftRight i &&& mask = x >>> i &&& mask := by
    refine BitVec.eq_of_getLsbD_eq fun j low => ?_
    rw [BitVec.getLsbD_and, BitVec.getLsbD_and, BitVec.getLsbD_sshiftRight, BitVec.getLsbD_ushiftRight]
    rcases Nat.lt_or_ge j k with before | behind
    · rw [if_pos (by omega), decide_eq_false (by omega), Bool.not_false, Bool.true_and]
    · have none : mask.getLsbD j = false := by
        rw [BitVec.getLsbD, ones, Nat.testBit_two_pow_sub_one, decide_eq_false (by omega)]
      rw [none, Bool.and_false, Bool.and_false]
  rw [same, BitVec.toNat_and, ones, Nat.and_two_pow_sub_one_eq_mod, BitVec.toNat_ushiftRight,
    Nat.shiftRight_eq_div_pow]

theorem toNat_low16 (x : Word) (i : ℕ) : ((x >>> i).setWidth 16).toNat = x.toNat / 2 ^ i % 2 ^ 16 := by
  rw [BitVec.toNat_setWidth, BitVec.toNat_ushiftRight, Nat.shiftRight_eq_div_pow]

theorem shiftRight_eq_iff (x y : Word) (i : ℕ) : x >>> i = y >>> i ↔ x.toNat / 2 ^ i = y.toNat / 2 ^ i := by
  rw [← BitVec.toNat_inj, BitVec.toNat_ushiftRight, BitVec.toNat_ushiftRight, Nat.shiftRight_eq_div_pow,
    Nat.shiftRight_eq_div_pow]

theorem toInt_of_nonneg {w : ℕ} {x : BitVec w} (nonneg : 0 ≤ x.toInt) : x.toInt = x.toNat := by
  have size := x.isLt
  rw [BitVec.toInt_eq_toNat_cond] at nonneg ⊢
  split at nonneg
  · rw [if_pos ‹_›]
  · omega

end Fields

/-! ## The two layouts -/

variable {place other : PlaceInSource} {p q r : Position}

theorem toNat_classId (place : PlaceInSource) :
    (place.classId.signExtend 32).toNat = place.classId.toNat ∧ place.classId.toNat < 2 ^ 15 := by
  have nonneg := place.classId_nonneg
  have small := BitVec.toInt_lt (x := place.classId)
  have same := toInt_of_nonneg nonneg
  have wide : (place.classId.signExtend 32).toInt = place.classId.toInt :=
    BitVec.toInt_signExtend_of_le (by decide)
  have same' := toInt_of_nonneg (x := place.classId.signExtend 32) (by omega)
  omega

theorem toNat_line (place : PlaceInSource) : place.line.toInt = place.line.toNat ∧ 1 ≤ place.line.toNat := by
  have positive := place.line_pos
  have same := toInt_of_nonneg (x := place.line) (by omega)
  omega

theorem toNat_column (place : PlaceInSource) : place.column.toInt = place.column.toNat ∧ 1 ≤ place.column.toNat := by
  have positive := place.column_pos
  have same := toInt_of_nonneg (x := place.column) (by omega)
  omega

theorem toNat_short (fits : Fits place) : (set place).mangling.toNat =
    place.classId.toNat * 2 ^ 21 + (place.line.toNat * 2 ^ 8 + place.column.toNat * 2) := by
  obtain ⟨identifier, line, column⟩ := fits
  obtain ⟨same, -⟩ := toNat_classId place
  have nonneg := toInt_of_nonneg place.classId_nonneg
  have lines := toNat_line place
  have columns := toNat_column place
  have shifted : (place.column <<< 1).toNat = place.column.toNat * 2 := by
    rw [BitVec.toNat_shiftLeft, Nat.shiftLeft_eq, Nat.mod_eq_of_lt (by omega), pow_one]
  have low : (place.line <<< 8 ||| place.column <<< 1).toNat = place.line.toNat * 2 ^ 8 + place.column.toNat * 2 := by
    rw [toNat_pack (by omega) (by omega), shifted]
  rw [set, if_pos ⟨identifier, line, column⟩]
  change (_ ||| _ ||| _ : Word).toNat = _
  rw [BitVec.or_assoc, toNat_pack (by omega) (by omega), low, same]

theorem toNat_long (long : ¬Fits place) (fits : place.line.toInt ≤ 65535) : (set place).mangling.toNat =
    place.classId.toNat * 2 ^ 17 + (place.line.toNat * 2 + 1) := by
  obtain ⟨same, small⟩ := toNat_classId place
  have lines := toNat_line place
  have one : (1 : Word).toNat = 1 := rfl
  have low : (place.line <<< 1 ||| 1).toNat = place.line.toNat * 2 ^ 1 + 1 := by
    rw [toNat_pack (by decide) (by omega), one]
  rw [set, if_neg long]
  change (_ ||| _ ||| _ : Word).toNat = _
  rw [BitVec.or_assoc, toNat_pack (by omega) (by omega), low, same, pow_one]

theorem isLong_eq (p : Position) : p.isLong = decide (p.mangling.toNat % 2 = 1) := by
  rw [isLong, BitVec.getLsbD, Nat.testBit_zero]

/-- The lowest bit is the layout, even where the line does not fit. -/
theorem isLong_set (place : PlaceInSource) : (set place).isLong = !decide (Fits place) := by
  rcases Decidable.em (Fits place) with fits | long
  · rw [isLong_eq, toNat_short fits, decide_eq_true fits, decide_eq_false (by omega)]
    rfl
  · rw [isLong, set, if_neg long, decide_eq_false long]
    change (_ ||| (1 : Word)).getLsbD 0 = _
    rw [BitVec.getLsbD_or]
    exact Bool.or_true _

/-! ## What is given back -/

/-- The accessors give back what was set, but for the column, which may be 0. -/
structure Faithful (place : PlaceInSource) : Prop where
  id_eq : (set place).id = place.classId
  line_eq : (set place).line = place.line
  column_eq : (set place).column = place.column ∨ (set place).column = 0
  known : (set place).isUnknown = false

theorem isUnknown_eq (nonzero : p.mangling.toNat ≠ 0) : p.isUnknown = false :=
  decide_eq_false fun zero => nonzero (by rw [zero]; rfl)

theorem faithful_of_fits (fits : Fits place) : Faithful place := by
  have value := toNat_short fits
  have layout := isLong_set place
  rw [decide_eq_true fits, Bool.not_true] at layout
  obtain ⟨identifier, line, column⟩ := fits
  have nonneg := toInt_of_nonneg place.classId_nonneg
  have lines := toNat_line place
  have columns := toNat_column place
  refine ⟨?_, ?_, .inl ?_, isUnknown_eq (by omega)⟩
  · rw [id, layout, if_neg Bool.false_ne_true, ← BitVec.toNat_inj, toNat_low16]
    omega
  · rw [Position.line, layout, if_neg Bool.false_ne_true, ← BitVec.toNat_inj, toNat_field (k := 13) rfl (by decide)]
    omega
  · rw [Position.column, layout, if_neg Bool.false_ne_true, ← BitVec.toNat_inj, toNat_field (k := 7) rfl (by decide)]
    omega

theorem faithful_of_long (long : ¬Fits place) (short : place.line.toInt ≤ 65535) : Faithful place := by
  have value := toNat_long long short
  have layout := isLong_set place
  rw [decide_eq_false long, Bool.not_false] at layout
  obtain ⟨-, small⟩ := toNat_classId place
  have lines := toNat_line place
  refine ⟨?_, ?_, .inr ?_, isUnknown_eq (by omega)⟩
  · rw [id, layout, if_pos rfl, ← BitVec.toNat_inj, toNat_low16]
    omega
  · rw [Position.line, layout, if_pos rfl, ← BitVec.toNat_inj, toNat_field (k := 16) rfl (by decide)]
    omega
  · rw [Position.column, layout, if_pos rfl]

theorem faithful_iff : Faithful place ↔ place.line.toInt ≤ 65535 := by
  constructor
  · intro faithful
    rcases Decidable.em (Fits place) with fits | long
    · have := fits.2.1
      omega
    · have same := faithful.line_eq
      have layout := isLong_set place
      rw [decide_eq_false long, Bool.not_false] at layout
      rw [Position.line, layout, if_pos rfl, ← BitVec.toNat_inj, toNat_field (k := 16) rfl (by decide)] at same
      have lines := toNat_line place
      omega
  · intro short
    rcases Decidable.em (Fits place) with fits | long
    · exact faithful_of_fits fits
    · exact faithful_of_long long short

/-! ## `same_line_as` -/

/-- `same_line_as` tells whether the identifiers and the lines are the same. -/
def ComparesLines (place other : PlaceInSource) : Prop :=
  (set place).sameLineAs (set other) = true ↔ place.classId = other.classId ∧ place.line = other.line

/-- Two places of one class of which the layouts hide the line, or differ. -/
def HidesLine (place other : PlaceInSource) : Prop :=
  place.classId = other.classId ∧
    (¬Fits place ∧ ¬Fits other ∧ place.line ≠ other.line ∨ ¬(Fits place ↔ Fits other) ∧ place.line = other.line)

/-- The long layout is shifted past the line, and two layouts are never on one line. -/
theorem comparesLines_iff (short : place.line.toInt ≤ 65535) (short' : other.line.toInt ≤ 65535) :
    ComparesLines place other ↔ ¬HidesLine place other := by
  have layout := isLong_set place
  have layout' := isLong_set other
  have lines := toNat_line place
  have lines' := toNat_line other
  unfold ComparesLines HidesLine sameLineAs
  rw [layout, layout', ← BitVec.toNat_inj (x := place.classId), ne_eq, ← BitVec.toNat_inj (x := place.line)]
  rcases Decidable.em (Fits place) with fits | long <;> rcases Decidable.em (Fits other) with fits' | long'
  · have value := toNat_short fits
    have value' := toNat_short fits'
    have ⟨_, inside, small⟩ := fits
    have ⟨_, inside', small'⟩ := fits'
    have columns := toNat_column place
    have columns' := toNat_column other
    simp only [fits, fits', decide_true, Bool.not_true, Bool.false_eq_true, if_false, Bool.not_false, Bool.true_and,
      decide_eq_true_eq, shiftRight_eq_iff, not_true_eq_false, false_and, or_self, and_false, not_false_eq_true, iff_true]
    omega
  · simp [fits, long']
  · simp [long, fits']
  · have value := toNat_long long short
    have value' := toNat_long long' short'
    simp only [long, long', decide_false, Bool.not_false, if_true, Bool.true_and, decide_eq_true_eq, shiftRight_eq_iff,
      not_false_eq_true, true_and, not_true_eq_false, false_and, or_false, not_and, not_not]
    omega

/-! ## The order -/

theorem less_iff : p.less q = true ↔ p.mangling.toNat % 2 < q.mangling.toNat % 2 ∨
    p.mangling.toNat % 2 = q.mangling.toNat % 2 ∧ p.mangling.toNat / 2 < q.mangling.toNat / 2 := by
  have bit : ∀ x : Word, (x &&& 1).toInt = (x.toNat % 2 : ℕ) := fun x => by
    rw [toInt_of_nonneg, BitVec.toNat_and]
    · exact congrArg _ (Nat.and_one_is_mod _)
    · rw [BitVec.toInt_eq_toNat_of_lt]
      · omega
      · have := Nat.and_le_right (n := x.toNat) (m := 1)
        rw [BitVec.toNat_and]
        change 2 * (x.toNat &&& 1) < _
        omega
  have half : ∀ x : Word, (x >>> 1).toInt = (x.toNat / 2 : ℕ) := fun x => by
    have size := x.isLt
    have value : (x >>> 1).toNat = x.toNat / 2 := by
      rw [BitVec.toNat_ushiftRight, Nat.shiftRight_eq_div_pow, pow_one]
    rw [BitVec.toInt_eq_toNat_of_lt (by omega), value]
  unfold less
  simp only [bit, half, Bool.or_eq_true, Bool.and_eq_true, decide_eq_true_eq, Int.ofNat_lt, Int.ofNat_inj]

theorem isEqual_iff : p.isEqual q = true ↔ p.mangling.toNat = q.mangling.toNat := by
  rw [isEqual, decide_eq_true_eq, BitVec.toNat_inj]

/-- `<` is a strict total order of which `is_equal` is the equality. -/
structure IsOrder : Prop where
  irreflexive : ∀ p q : Position, p.isEqual q = true → p.less q = false
  transitive : ∀ p q r : Position, p.less q = true → q.less r = true → p.less r = true
  total : ∀ p q : Position, p.less q = true ∨ p.isEqual q = true ∨ q.less p = true

theorem isOrder : IsOrder where
  irreflexive p q equal := by
    rw [isEqual_iff] at equal
    rw [← Bool.not_eq_true, less_iff, equal]
    omega
  transitive p q r first second := by
    rw [less_iff] at first second ⊢
    omega
  total p q := by
    rw [less_iff, less_iff, isEqual_iff]
    omega

/-! ## The packing -/

/-- Two positions are packed faithfully, compare their lines and are ordered. -/
structure Packs (place other : PlaceInSource) : Prop where
  first : Faithful place
  second : Faithful other
  lines : ComparesLines place other
  order : IsOrder

/-- The packing is right when both lines fit in 16 bits, unless two lines of one class are in long layouts or one
line is in both layouts. -/
theorem packs_iff (place other : PlaceInSource) :
    Packs place other ↔ place.line.toInt ≤ 65535 ∧ other.line.toInt ≤ 65535 ∧ ¬HidesLine place other := by
  constructor
  · intro packs
    have short := faithful_iff.mp packs.first
    have short' := faithful_iff.mp packs.second
    exact ⟨short, short', (comparesLines_iff short short').mp packs.lines⟩
  · intro ⟨short, short', apart⟩
    exact ⟨faithful_iff.mpr short, faithful_iff.mpr short', (comparesLines_iff short short').mpr apart, isOrder⟩

/-- The lines 1 and 2 of the class 2048 are told to be the same line. -/
theorem not_packs : ¬∀ place other, Packs place other := by
  intro claim
  have lines := (claim ⟨1, 1, 2048, by decide, by decide, by decide⟩ ⟨2, 1, 2048, by decide, by decide, by decide⟩).lines
  exact absurd (lines.mp (by decide)).2 (by decide)

end Position

end Liberty
