import Liberty.Library.CommandProgram
import Liberty.Numeric.MutableBigInteger.World

/-!
# The registers of NUMBER

The operations of a NUMBER compute in four MUTABLE_BIG_INTEGERs that all the NUMBERs share.  What an
operation does with them is a program whose commands are those of MUTABLE_BIG_INTEGER on the objects 1 to
4 of a world.  The third register only receives results: `divide_to` may leave a zero with a sign in it,
which does no harm there.
-/

namespace Liberty

namespace MutableBigInteger

/-! ## Objects that receive a result -/

section Receivers

variable {m other : MutableBigInteger}

theorem fromInteger_setNegative (m : MutableBigInteger) (n : Bool) (v : Word) :
    (m.setNegative n).fromInteger v = m.fromInteger v := by
  unfold fromInteger
  rcases Decidable.em (m.capacity = 0) with empty | filled
  · have empty' : (m.setNegative n).capacity = 0 := empty
    simp only [if_pos empty, if_pos empty']
    rfl
  · have filled' : ¬(m.setNegative n).capacity = 0 := filled
    simp only [if_neg filled, if_neg filled']
    rfl

theorem enlarge_setNegative (m : MutableBigInteger) (n : Bool) (cap : Int) :
    (m.setNegative n).enlarge cap = (m.enlarge cap).map (·.setNegative n) := by
  unfold enlarge
  by_cases more : cap > m.capacity
  · rw [if_pos more, if_pos (show cap > (m.setNegative n).capacity from more)]
    change (do let capacity ← capacityFromLowerBound m.capacity cap; _) = _
    cases capacityFromLowerBound m.capacity cap <;> rfl
  · rw [if_neg more, if_neg (show ¬cap > (m.setNegative n).capacity from more)]
    rfl

/-- The sign that the object has before does not matter for the product that it receives. -/
theorem multiplyTo_setNegative (m other res : MutableBigInteger) (n : Bool) :
    m.multiplyTo false other (res.setNegative n) = m.multiplyTo false other res := by
  have human : m.multiplyToLikeHuman false other (res.setNegative n) =
      m.multiplyToLikeHuman false other res := by
    unfold multiplyToLikeHuman
    dsimp only
    rw [enlarge_setNegative]
    cases res.enlarge (m.integerLength + other.integerLength) <;> rfl
  unfold multiplyTo
  rw [human]
  rfl

theorem divideTo_setNegative (m other quotient remainder register1 : MutableBigInteger) (n : Bool) :
    m.divideTo other (quotient.setNegative n) remainder register1 =
      m.divideTo other quotient remainder register1 := by
  unfold divideTo unitQuotient
  rw [fromInteger_setNegative, fromInteger_setNegative]
  rfl

/-- What `divide_to` puts when the quotient is a zero that takes the sign of the divisor. -/
theorem returns_divideTo_of_negativeZero (hm : Valid m) (ho : Valid other) {remainder : MutableBigInteger}
    (hr : Valid remainder) (zero : NegativeZeroQuotient m other) (quotient register1 : MutableBigInteger) :
    Returns (m.divideTo other quotient remainder register1) fun (q, r, register1') =>
      q = quotient.setWithZero.setNegative true ∧ Holds r m.value ∧ register1' = register1 := by
  obtain ⟨positive, negative, less⟩ := zero
  have nonzero : m.integerLength ≠ 0 := fun empty => by
    rw [value_of_zero empty] at positive
    exact absurd positive (lt_irrefl 0)
  have sign : m.negative = false := by
    by_contra signed
    have := hm.value_neg_iff.mpr (Bool.eq_true_of_not_eq_false signed)
    omega
  have sign' : other.negative = true := ho.value_neg_iff.mp negative
  rw [divideTo, if_neg nonzero]
  refine (returns_absCompare hm ho).bind ?_
  intro _ compared
  subst compared
  rw [if_pos (sign_sub_neg_iff.mpr less)]
  obtain ⟨r, run, copy, -⟩ := returns_copy hr.fits hm
  rw [run, Returns.some_bind]
  have some : (r.setNegative false).isZero = false :=
    decide_eq_false fun empty => nonzero (copy.length_eq'.symm.trans empty)
  have kept : r.setNegative false = r := by
    have positive' := copy.negative_eq.trans sign
    cases r
    exact congrArg (MutableBigInteger.mk _ _ _ _) positive'.symm
  dsimp only
  unfold divideSignCorrection
  rw [sign, sign', some, kept]
  exact Returns.some_iff.mpr ⟨rfl, copy.toHolds, rfl⟩

end Receivers

end MutableBigInteger

open MutableBigInteger

/-! ## Programs on the registers -/

/-- What an operation of a NUMBER does with the registers. -/
abbrev Calculation (α : Type) := CommandProgram World Command α

namespace Calculation

/-- The command does not lose a word, an offset or a capacity of a register. -/
def Sound (w : World) : Command → Prop
  | .divideTo i other _ remainder => ¬CancelsInCorrection (w.object i) (w.object other) ∧
      DivideToRemembers (w.object i) (w.object other) (w.object remainder)
  | c => w.Sound c

/-- The registers between two operations: the operands satisfy the class invariant, and so does the third
register but for the sign of a zero. -/
structure Ready (w : World) : Prop where
  operand : ∀ i, i = 1 ∨ i = 2 ∨ i = 4 → Valid (w.object i)
  result : Valid ((w.object 3).setNegative false)
  register1 : Valid w.register1
  register2 : Valid w.register2

/-- The object `i` is exactly `v`, and every other object is as it was. -/
structure Loads (w : World) (i : ℕ) (v : ℤ) (w' : World) : Prop where
  ready : Ready w'
  holds : Holds (w'.object i) v
  others : ∀ j, j ≠ i → w'.object j = w.object j

/-- What holds when every command is sound. -/
abbrev Assures (w : World) {α : Type} (p : Calculation α) (Q : α → World → Prop) : Prop :=
  CommandProgram.Assures World.run Sound w p Q

/-- There is a result from any registers, when every command is sound, and what holds of it. -/
abbrev Produces {α : Type} (p : Calculation α) (Q : α → Prop) : Prop :=
  CommandProgram.Produces World.run Sound Ready p Q

/-- What holds of the result, if there is one, when every command is sound. -/
abbrev ProducesIfDefined {α : Type} (p : Calculation α) (Q : α → Prop) : Prop :=
  CommandProgram.ProducesIfDefined World.run Sound Ready p Q

section Commands

variable {w : World}

theorem Ready.set (h : Ready w) (i : ℕ) {m : MutableBigInteger} (valid : Valid m) : Ready (w.set i m) where
  operand j isOperand := by
    by_cases same : j = i
    · rw [same, World.set_object_self]
      exact valid
    · rw [World.set_object_of_ne w m same]
      exact h.operand j isOperand
  result := by
    by_cases same : 3 = i
    · rw [← same, World.set_object_self]
      exact (valid.setNegative_holds false fun negated => absurd negated Bool.false_ne_true).toValid
    · rw [World.set_object_of_ne w m same]
      exact h.result
  register1 := h.register1
  register2 := h.register2

theorem Ready.loads (h : Ready w) (i : ℕ) {m : MutableBigInteger} {v : ℤ} (holds : Holds m v) :
    Loads w i v (w.set i m) where
  ready := h.set i holds.toValid
  holds := by
    rw [World.set_object_self]
    exact holds
  others _ differ := World.set_object_of_ne w m differ

theorem Ready.registers (h : Ready w) {register1 register2 : MutableBigInteger} (valid : Valid register1)
    (valid' : Valid register2) : Ready { w with register1, register2 } :=
  ⟨h.operand, h.result, valid, valid'⟩

theorem Loads.registers {w' : World} {i : ℕ} {v : ℤ} (h : Loads w i v w')
    {register1 register2 : MutableBigInteger} (valid : Valid register1) (valid' : Valid register2) :
    Loads w i v { w' with register1, register2 } :=
  ⟨h.ready.registers valid valid', h.holds, h.others⟩

theorem Ready.assures_set (h : Ready w) {c : Command} {i : ℕ} {x : Option MutableBigInteger} {v : ℤ}
    (runs : w.run c = x >>= fun m => pure (w.set i m)) (holds : Sound w c → Returns x (Holds · v)) :
    Assures w (.send c) fun _ w' => Loads w i v w' := by
  refine .send fun sound => ?_
  rw [runs]
  exact (holds sound).bind fun m exact => Returns.pure_iff.mpr (h.loads i exact)

theorem Ready.assures_fromInteger64 (h : Ready w) {i : ℕ} (operand : i = 1 ∨ i = 2 ∨ i = 4)
    (value : BitVec 64) :
    Assures w (.send (.fromInteger64 i value)) fun _ w' => Loads w i value.toInt w' :=
  h.assures_set rfl fun _ => (returns_fromInteger64 (h.operand i operand).fits value).mono
    fun _ ⟨holds, _⟩ => holds

/-- The third register may be given a number too. -/
theorem Ready.assures_fromInteger (h : Ready w) (value : Word) :
    Assures w (.send (.fromInteger 3 value)) fun _ w' => Loads w 3 value.toInt w' := by
  refine h.assures_set rfl fun _ => ?_
  rw [← fromInteger_setNegative (w.object 3) false]
  exact (returns_fromInteger h.result.fits value).mono fun _ ⟨holds, _⟩ => holds

theorem Ready.assures_fromNativeArray (h : Ready w) {i : ℕ} (operand : i = 1 ∨ i = 2 ∨ i = 4)
    {na : NativeArray Word} {n : ℕ} (inside : (n : Int) + 1 ≤ na.size) (top : na.cell n ≠ 0) (neg : Bool) :
    Assures w (.send (.fromNativeArray i na (n + 1) neg)) fun _ w' =>
      Loads w i (signed neg (wordValue na 0 (n + 1))) w' :=
  h.assures_set rfl fun _ => (returns_fromNativeArray (h.operand i operand) inside top neg).mono
    fun _ ⟨holds, _⟩ => holds

theorem Ready.assures_negate (h : Ready w) {x : ℤ} (holds : Holds (w.object 1) x) :
    Assures w (.send (.negate 1)) fun _ w' => Loads w 1 (-x) w' := by
  refine .send fun _ => Returns.some_iff.mpr (h.loads 1 ?_)
  have negated := (h.operand 1 (.inl rfl)).negate_holds
  rwa [holds.value_eq] at negated

theorem Ready.assures_add (h : Ready w) {x y : ℤ} (first : Holds (w.object 1) x)
    (second : Holds (w.object 2) y) :
    Assures w (.send (.add 1 2)) fun _ w' => Loads w 1 (x + y) w' := by
  refine h.assures_set rfl fun sound => ?_
  have sum : Returns ((w.object 1).add false (w.object 2)) _ :=
    (sound (by decide)).returns_add first.toValid second.toValid
  rwa [first.value_eq, second.value_eq] at sum

theorem Ready.assures_addInteger64 (h : Ready w) {x : ℤ} (first : Holds (w.object 1) x)
    (other : BitVec 64) :
    Assures w (.send (.addInteger64 1 other)) fun _ w' => Loads w 1 (x + other.toInt) w' := by
  refine .send fun sound => ?_
  obtain ⟨r, run, holds, -⟩ := returns_fromInteger64 h.register1.fits other
  have sum : Returns ((w.object 1).add false r) _ := (sound r run).returns_add first.toValid holds.toValid
  rw [first.value_eq, holds.value_eq] at sum
  change Returns ((w.object 1).addInteger64 other w.register1 >>= _) _
  rw [addInteger64, run, Returns.some_bind, bind_assoc]
  exact sum.bind fun m exact => Returns.pure_iff.mpr ((h.loads 1 exact).registers holds.toValid h.register2)

theorem Ready.assures_multiplyTo (h : Ready w) {x y : ℤ} (first : Holds (w.object 1) x)
    (second : Holds (w.object 2) y) :
    Assures w (.send (.multiplyTo 1 2 3)) fun _ w' => Loads w 3 (x * y) w' := by
  refine h.assures_set rfl fun _ => ?_
  have product := returns_multiplyTo first.toValid second.toValid h.result
  rwa [multiplyTo_setNegative, first.value_eq, second.value_eq] at product

theorem Ready.assures_gcd (h : Ready w) {x y : ℤ} (first : Holds (w.object 1) x)
    (second : Holds (w.object 2) y) :
    Assures w (.send (.gcd 1 2)) fun _ w' => Loads w 1 (Int.gcd x y) w' := by
  refine .send fun sound => ?_
  refine (returns_gcd first.toValid second.toValid h.register1 h.register2 (decide (2 = 1))
    (fun same => absurd same (by decide)) fun _ => sound (by decide)).bind ?_
  intro (m, register1, register2) ⟨holds, valid, valid'⟩
  rw [first.value_eq, second.value_eq] at holds
  exact Returns.pure_iff.mpr ((h.loads 1 holds).registers valid valid')

/-- `divide_to` leaves the quotient in the third register, but for the sign of a zero, and the remainder in
the fourth one. -/
structure Divides (x y : ℤ) (w' : World) : Prop where
  ready : Ready w'
  quotient : Holds (w'.object 3) (x / y) ∨ (w'.object 3).integerLength = 0 ∧ x / y = 0
  remainder : Holds (w'.object 4) (x % y)

theorem Ready.assures_divideTo (h : Ready w) {x y : ℤ} (first : Holds (w.object 1) x)
    (second : Holds (w.object 2) y) (nonzero : y ≠ 0) :
    Assures w (.send (.divideTo 1 2 3 4)) fun _ w' => Divides x y w' := by
  refine .send fun ⟨cancels, remembers⟩ => ?_
  have h₄ := h.operand 4 (.inr (.inr rfl))
  have divides : (w.object 2).integerLength ≠ 0 := fun empty => nonzero <| by
    rw [← second.value_eq, value_of_zero empty]
  by_cases zero : NegativeZeroQuotient (w.object 1) (w.object 2)
  · refine (returns_divideTo_of_negativeZero first.toValid second.toValid h₄ zero _ _).bind ?_
    intro (q, r, register1) ⟨quotient, remainder, same⟩
    obtain ⟨positive, negative, less⟩ := zero
    rw [first.value_eq] at positive remainder
    rw [second.value_eq] at negative
    rw [← abs_value, ← abs_value, first.value_eq, second.value_eq, abs_of_pos positive,
      abs_of_neg negative] at less
    have none : x / y = 0 := by
      rw [← neg_neg y, Int.ediv_neg, Int.ediv_eq_zero_of_lt positive.le less, neg_zero]
    have whole : x % y = x := by rw [Int.emod_def, none, mul_zero, sub_zero]
    rw [← whole] at remainder
    subst quotient same
    have signless : Valid ((w.object 3).setNegative false).setWithZero := h.result.setWithZero_holds.toValid
    refine Returns.pure_iff.mpr ⟨⟨fun i operand => ?_, ?_, h.register1, h.register2⟩, .inr ⟨rfl, none⟩, ?_⟩
    · rcases operand with rfl | rfl | rfl
      · exact h.operand 1 (.inl rfl)
      · exact h.operand 2 (.inr (.inl rfl))
      · exact remainder.toValid
    · exact signless
    · exact remainder
  · have run := returns_divideTo first.toValid second.toValid h.result h₄ h.register1 divides ⟨zero, cancels⟩
    rw [divideTo_setNegative] at run
    refine run.bind ?_
    intro (q, r, register1) ⟨quotient, _, rest, valid⟩
    have remainder := rest remembers
    rw [first.value_eq, second.value_eq] at quotient remainder
    have ready := ((h.set 3 quotient.toValid).set 4 remainder.toValid).registers valid h.register2
    exact Returns.pure_iff.mpr ⟨ready, .inl quotient, remainder⟩

end Commands

end Calculation

end Liberty
