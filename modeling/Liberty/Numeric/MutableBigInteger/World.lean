import Liberty.Numeric.MutableBigInteger.MultiplyInteger
import Liberty.Numeric.MutableBigInteger.Gcd
import Liberty.Numeric.MutableBigInteger.FromString
import Mathlib.Logic.Function.Basic

/-!
# Runs of commands

A world is all the objects of a program and the two registers that they share.  A command
names the objects that it is given, so that it sees when two of them are the same.

`Allowed` is the precondition of a command.  `Sound` tells that the command does not come
to one of the branches that lose a word, a sign, an offset or a capacity; each condition
is the one of the command's own module.
-/

namespace Liberty

namespace MutableBigInteger

/-! ## The source -/

structure World where
  object : ℕ → MutableBigInteger
  register1 : MutableBigInteger
  register2 : MutableBigInteger

/-- What `from_integer (0)` creates. -/
def zeroed : MutableBigInteger where
  storage := .calloc 4
  capacity := 4
  integerLength := 0
  offset := 0
  negative := false

/-- The exported commands on the object `i`, with their arguments. -/
inductive Command where
  | fromInteger (i : ℕ) (value : Word)
  | fromInteger64 (i : ℕ) (value : BitVec 64)
  | fromString (i : ℕ) (str : List Char)
  | fromNativeArray (i : ℕ) (na : NativeArray Word) (cap : Int) (neg : Bool)
  | add (i other : ℕ)
  | addTo (i other res : ℕ)
  | addInteger (i : ℕ) (other : Word)
  | addInteger64 (i : ℕ) (other : BitVec 64)
  | addNatural (i other : ℕ)
  | subtract (i other : ℕ)
  | subtractTo (i other res : ℕ)
  | subtractInteger (i : ℕ) (other : Word)
  | divide (i other : ℕ)
  | mod (i other : ℕ)
  | divideWithRemainderTo (i other remainder : ℕ)
  | remainderWithQuotientTo (i other quotient : ℕ)
  | divideTo (i other quotient remainder : ℕ)
  | shiftLeft (i n : ℕ)
  | shiftRight (i n : ℕ)
  | gcd (i other : ℕ)
  | multiply (i other : ℕ)
  | multiplyTo (i other res : ℕ)
  | multiplyInteger (i : ℕ) (other : Word) (res : ℕ)
  | negate (i : ℕ)
  | abs (i : ℕ)
  | setWithZero (i : ℕ)
  | copy (i other : ℕ)
  | swapWith (i other : ℕ)

namespace World

/-- No object, and the registers before their first use. -/
def start : World where
  object _ := blank
  register1 := zeroed
  register2 := zeroed

def set (w : World) (i : ℕ) (m : MutableBigInteger) : World :=
  { w with object := Function.update w.object i m }

/-- The command on the objects that it names. -/
def run (w : World) : Command → Option World
  | .fromInteger i value => do return w.set i (← (w.object i).fromInteger value)
  | .fromInteger64 i value => do return w.set i (← (w.object i).fromInteger64 value)
  | .fromString i str => do
      let (m, register1) ← (w.object i).fromString str w.register1
      return { w.set i m with register1 }
  | .fromNativeArray i na cap neg => do
      return w.set i (← (w.object i).fromNativeArray na cap neg)
  | .add i other => do
      return w.set i (← (w.object i).add (decide (other = i)) (w.object other))
  | .addTo i other res => do
      return w.set res (← (w.object i).addTo (w.object other) (w.object res))
  | .addInteger i other => do return w.set i (← (w.object i).addInteger other)
  | .addInteger64 i other => do
      let (m, register1) ← (w.object i).addInteger64 other w.register1
      return { w.set i m with register1 }
  | .addNatural i other => do
      return w.set i (← (w.object i).addNatural (decide (other = i)) (w.object other))
  | .subtract i other => do
      return w.set i (← (w.object i).subtract (decide (other = i)) (w.object other))
  | .subtractTo i other res => do
      return w.set res (← (w.object i).subtractTo (w.object other) (w.object res))
  | .subtractInteger i other => do return w.set i (← (w.object i).subtractInteger other)
  | .divide i other => do
      let (m, register1, register2) ←
        (w.object i).divide (w.object other) w.register1 w.register2
      return { w.set i m with register1, register2 }
  | .mod i other => do
      let (m, register1) ← (w.object i).mod (w.object other) w.register1
      return { w.set i m with register1 }
  | .divideWithRemainderTo i other remainder => do
      let (m, r, register1) ←
        (w.object i).divideWithRemainderTo (w.object other) (w.object remainder) w.register1
      return { (w.set i m).set remainder r with register1 }
  | .remainderWithQuotientTo i other quotient => do
      let (m, q, register1) ←
        (w.object i).remainderWithQuotientTo (w.object other) (w.object quotient) w.register1
      return { (w.set i m).set quotient q with register1 }
  | .divideTo i other quotient remainder =>
    -- one object cannot receive both results: that call is left out
    if quotient = remainder then none
    else do
      let (q, r, register1) ← (w.object i).divideTo (w.object other) (w.object quotient)
        (w.object remainder) w.register1
      return { (w.set quotient q).set remainder r with register1 }
  | .shiftLeft i n => do return w.set i (← (w.object i).shiftLeft n)
  | .shiftRight i n => do return w.set i (← (w.object i).shiftRight n)
  | .gcd i other => do
      let (m, register1, register2) ←
        (w.object i).gcd (decide (other = i)) (w.object other) w.register1 w.register2
      return { w.set i m with register1, register2 }
  | .multiply i other => do
      let (m, register1) ←
        (if other = i then (w.object i).multiplySelf w.register1
        else (w.object i).multiply (w.object other) w.register1)
      return { w.set i m with register1 }
  | .multiplyTo i other res => do
      return w.set res
        (← (w.object i).multiplyTo (decide (res = other)) (w.object other) (w.object res))
  | .multiplyInteger i other res => do
      let (m, r) ← (w.object i).multiplyInteger other (w.object res)
      return (w.set i m).set res r
  | .negate i => some (w.set i (w.object i).negate)
  | .abs i => some (w.set i (w.object i).abs)
  | .setWithZero i => some (w.set i (w.object i).setWithZero)
  | .copy i other => do
      let m ← (if other = i then (w.object i).copySelf else (w.object i).copy (w.object other))
      return w.set i m
  | .swapWith i other => some ((w.set i (w.object other)).set other (w.object i))

/-! ## Preconditions -/

/-- The object has been created: it has a storage. -/
def Created (w : World) (i : ℕ) : Prop :=
  (w.object i).capacity ≠ 0

instance (w : World) (i : ℕ) : Decidable (w.Created i) :=
  inferInstanceAs (Decidable (_ ≠ _))

/-- The object is created and is not zero. -/
def Divides (w : World) (i : ℕ) : Prop :=
  w.Created i ∧ (w.object i).integerLength ≠ 0

/-- The precondition of a command. -/
def Allowed (w : World) : Command → Prop
  | .fromInteger _ _ | .fromInteger64 _ _ => True
  | .fromString _ str => ∃ numeral, readSign str = some numeral
  | .fromNativeArray i na cap _ => w.Created i ∧
      0 < cap ∧ cap ≤ na.size ∧ na.cell (cap - 1) ≠ 0
  | .add i other | .subtract i other | .gcd i other | .multiply i other |
    .swapWith i other => w.Created i ∧ w.Created other
  | .addTo i other res | .subtractTo i other res =>
    w.Created i ∧ w.Created other ∧ w.Created res ∧ res ≠ i ∧ res ≠ other
  | .addInteger i _ | .addInteger64 i _ | .subtractInteger i _ | .negate i | .abs i |
    .setWithZero i => w.Created i
  | .addNatural i other => w.Divides i ∧ w.Divides other ∧
      (w.object i).negative = false ∧ (w.object other).negative = false
  | .divide i other | .mod i other => w.Created i ∧ w.Divides other ∧ other ≠ i
  | .divideWithRemainderTo i other result | .remainderWithQuotientTo i other result =>
    w.Created i ∧ w.Divides other ∧ w.Created result ∧ result ≠ other ∧ result ≠ i
  | .divideTo i other quotient remainder =>
    w.Created i ∧ w.Divides other ∧ w.Created quotient ∧ w.Created remainder ∧
      quotient ≠ other ∧ quotient ≠ i ∧ remainder ≠ other ∧ remainder ≠ i
  | .shiftLeft i n | .shiftRight i n => w.Created i ∧ 0 < n
  | .multiplyTo i other res => w.Created i ∧ w.Created other ∧ w.Created res ∧ res ≠ i
  | .multiplyInteger i _ res => w.Created i ∧ w.Created res ∧ res ≠ i
  | .copy _ other => w.Created other

/-! ## Sound commands -/

/-- `add` is exact and records the capacity. -/
def AddSound (m other : MutableBigInteger) : Prop :=
  AddExact m other ∧ SumRemembers m other (m.negative = other.negative)

/-- `subtract` is exact and records the capacity. -/
def SubtractSound (m other : MutableBigInteger) : Prop :=
  SubtractExact m other ∧ SumRemembers m other (m.negative ≠ other.negative)

/-- `remainder_with_quotient_to` is exact and records the capacity. -/
def DivisionSound (m other quotient : MutableBigInteger) : Prop :=
  RemainderExact m other quotient ∧ RemainderRemembers m other ∧ ¬NegativeZeroQuotient m other

/-- The command does not lose a word, a sign, an offset or a capacity. -/
def Sound (w : World) : Command → Prop
  | .add i other => other ≠ i → AddSound (w.object i) (w.object other)
  | .addTo i other res =>
    ∀ r, (w.object res).copy (w.object i) = some r → AddSound r (w.object other)
  | .addInteger64 i other =>
    ∀ r, w.register1.fromInteger64 other = some r → AddSound (w.object i) r
  | .addNatural i other => other ≠ i → ¬SumOverflows (w.object i) (w.object other)
  | .subtract i other => other ≠ i → SubtractSound (w.object i) (w.object other)
  | .subtractTo i other res =>
    ∀ r, (w.object res).copy (w.object i) = some r → SubtractSound r (w.object other)
  | .divide i other => DivisionSound (w.object i) (w.object other) w.register2
  | .mod i other => ModSound (w.object i) (w.object other)
  | .divideWithRemainderTo i other result | .remainderWithQuotientTo i other result =>
    DivisionSound (w.object i) (w.object other) (w.object result)
  | .divideTo i other quotient remainder => quotient ≠ remainder ∧
      DivideToExact (w.object i) (w.object other) ∧
      DivideToRemembers (w.object i) (w.object other) (w.object remainder)
  | .shiftRight i n => ShiftRightExact (w.object i) n
  | .gcd i other => other ≠ i → (w.object other).integerLength ≠ 0 →
      (w.object i).integerLength ≠ 0 →
        GcdSound (w.object i) (w.object other) w.register1 w.register2
  | .multiplyTo i other res => res = other →
      MultiplyToOtherExact (w.object i) (w.object other)
  | .multiplyInteger i other res => MultiplyIntegerExact (w.object i) (w.object res) other
  | .copy i other => other = i → WordsAtOrigin (w.object i)
  | _ => True

/-! ## The class invariant over a run -/

/-- Every object that has been created and both registers satisfy the class invariant. -/
structure Valid (w : World) : Prop where
  object : ∀ i, Fits (w.object i)
  register1 : MutableBigInteger.Valid w.register1
  register2 : MutableBigInteger.Valid w.register2

/-- The worlds that allowed and sound commands come to. -/
inductive Reachable : World → Prop
  | start : Reachable start
  | step {w w' : World} {c : Command} (reachable : Reachable w) (allowed : w.Allowed c)
      (sound : w.Sound c) (run : w.run c = some w') : Reachable w'

section Invariant

variable {w : World}

@[simp] theorem set_object_self (w : World) (i : ℕ) (m : MutableBigInteger) :
    (w.set i m).object i = m := by
  change Function.update w.object i m i = m
  rw [Function.update_self]

theorem set_object_of_ne (w : World) {i j : ℕ} (m : MutableBigInteger) (differ : j ≠ i) :
    (w.set i m).object j = w.object j := by
  change Function.update w.object i m j = w.object j
  rw [Function.update_of_ne differ]

theorem zeroed_valid : MutableBigInteger.Valid zeroed :=
  (holds_zero ⟨0, rfl⟩ rfl rfl rfl).toValid

theorem start_valid : start.Valid where
  object _ := fits_blank
  register1 := zeroed_valid
  register2 := zeroed_valid

theorem Valid.created (hw : w.Valid) {i : ℕ} (created : w.Created i) :
    MutableBigInteger.Valid (w.object i) := by
  rcases hw.object i with blank | valid
  · exact absurd (congrArg MutableBigInteger.capacity blank) created
  · exact valid

theorem Valid.set (hw : w.Valid) {i : ℕ} {m : MutableBigInteger}
    (hm : MutableBigInteger.Valid m) : (w.set i m).Valid where
  object j := by
    by_cases same : j = i
    · rw [same, set_object_self]
      exact hm.fits
    · rw [set_object_of_ne w m same]
      exact hw.object j
  register1 := hw.register1
  register2 := hw.register2

theorem Valid.registers (hw : w.Valid) {register1 register2 : MutableBigInteger}
    (h₁ : MutableBigInteger.Valid register1) (h₂ : MutableBigInteger.Valid register2) :
    Valid { w with register1, register2 } :=
  ⟨hw.object, h₁, h₂⟩

theorem Valid.returns_set (hw : w.Valid) {x : Option MutableBigInteger} (i : ℕ)
    (h : Returns x MutableBigInteger.Valid) :
    Returns (x >>= fun m => pure (w.set i m)) Valid :=
  h.bind fun _ hm => Returns.pure_iff.mpr (hw.set hm)

theorem AddSound.returns_add {m other : MutableBigInteger}
    (hm : MutableBigInteger.Valid m) (ho : MutableBigInteger.Valid other) {same : Bool}
    (sound : AddSound m other) :
    Returns (m.add same other) (Holds · (m.value + other.value)) :=
  (add_spec hm ho same).2 sound.1 sound.2

theorem SubtractSound.returns_subtract {m other : MutableBigInteger}
    (hm : MutableBigInteger.Valid m) (ho : MutableBigInteger.Valid other)
    (sound : SubtractSound m other) :
    Returns (m.subtract false other) (Holds · (m.value - other.value)) :=
  (subtract_spec hm ho).2 sound.1 sound.2

/-- `add` and `subtract`, whether or not the two objects are the same. -/
theorem Valid.returns_add (hw : w.Valid) {i other : ℕ} (created : w.Created i)
    (created' : w.Created other) (sound : w.Sound (.add i other)) :
    Returns ((w.object i).add (decide (other = i)) (w.object other))
      (Holds · ((w.object i).value + (w.object other).value)) := by
  have hm := hw.created created
  by_cases same : other = i
  · rw [same, decide_eq_true rfl]
    exact returns_add_self hm
  · exact (sound same).returns_add hm (hw.created created')

theorem Valid.returns_subtract (hw : w.Valid) {i other : ℕ} (created : w.Created i)
    (created' : w.Created other) (sound : w.Sound (.subtract i other)) :
    Returns ((w.object i).subtract (decide (other = i)) (w.object other))
      (Holds · ((w.object i).value - (w.object other).value)) := by
  have hm := hw.created created
  by_cases same : other = i
  · rw [same, decide_eq_true rfl, MutableBigInteger.subtract, if_pos rfl, sub_self]
    exact Returns.some_iff.mpr hm.setWithZero_holds
  · rw [decide_eq_false same]
    exact (sound same).returns_subtract hm (hw.created created')

theorem Valid.returns_multiply (hw : w.Valid) {i other : ℕ} (created : w.Created i)
    (created' : w.Created other) :
    Returns (if other = i then (w.object i).multiplySelf w.register1
      else (w.object i).multiply (w.object other) w.register1) fun (r, register1) =>
        Holds r ((w.object i).value * (w.object other).value) ∧
          MutableBigInteger.Valid register1 := by
  have hm := hw.created created
  split
  · rename_i same
    rw [same]
    exact returns_multiplySelf hm hw.register1
  · exact MutableBigInteger.returns_multiply hm (hw.created created') hw.register1

theorem Valid.returns_multiplyTo (hw : w.Valid) {i other res : ℕ} (created : w.Created i)
    (created' : w.Created other) (created'' : w.Created res)
    (sound : w.Sound (.multiplyTo i other res)) :
    Returns ((w.object i).multiplyTo (decide (res = other)) (w.object other) (w.object res))
      (Holds · ((w.object i).value * (w.object other).value)) := by
  have hm := hw.created created
  have ho := hw.created created'
  by_cases same : res = other
  · rw [same, decide_eq_true rfl]
    exact returns_multiplyTo_other hm ho (sound same)
  · rw [decide_eq_false same]
    exact MutableBigInteger.returns_multiplyTo hm ho (hw.created created'')

/-- A copy, of another object or of the object itself. -/
theorem Valid.returns_copy (hw : w.Valid) {i other : ℕ} (created : w.Created other)
    (sound : w.Sound (.copy i other)) :
    Returns (if other = i then (w.object i).copySelf else (w.object i).copy (w.object other))
      (Holds · (w.object other).value) := by
  have ho := hw.created created
  split
  · rename_i same
    subst same
    obtain ⟨r, run, s, size, words, rfl⟩ := returns_copySelf ho
    refine ⟨_, run, ?_⟩
    by_cases zero : (w.object other).integerLength = 0
    · rw [value_of_zero zero]
      exact holds_zero ho.isCapacity (size.trans ho.size_eq) zero (ho.not_negative zero)
    · exact ((exact_copySelf_iff ho zero size words (w.object other).negative).mpr
        (sound rfl)).holds ho.isCapacity (size.trans ho.size_eq)
  · exact (MutableBigInteger.returns_copy (hw.object i) ho).mono fun r ⟨copy, _⟩ =>
      copy.toHolds

/-- One allowed and sound command keeps the class invariant of every object. -/
theorem Valid.returns_run (hw : w.Valid) {c : Command} (allowed : w.Allowed c)
    (sound : w.Sound c) : Returns (w.run c) Valid := by
  have h₁ := hw.register1
  have h₂ := hw.register2
  cases c with
  | fromInteger i value =>
    exact hw.returns_set i ((returns_fromInteger (hw.object i) value).mono
      fun r ⟨holds, _⟩ => holds.toValid)
  | fromInteger64 i value =>
    exact hw.returns_set i ((returns_fromInteger64 (hw.object i) value).mono
      fun r ⟨holds, _⟩ => holds.toValid)
  | fromString i str =>
    obtain ⟨⟨neg, cc, rest⟩, numeral⟩ := allowed
    refine (returns_fromString (hw.object i) h₁ numeral).bind ?_
    intro (m, register1) ⟨holds, valid⟩
    exact Returns.pure_iff.mpr ((hw.set holds.toValid).registers valid h₂)
  | fromNativeArray i na cap neg =>
    obtain ⟨created, pos, inside, top⟩ := allowed
    obtain ⟨n, rfl⟩ : ∃ n : ℕ, cap = n + 1 := ⟨(cap - 1).toNat, by omega⟩
    rw [add_sub_cancel_right] at top
    exact hw.returns_set i ((returns_fromNativeArray (hw.created created) inside top neg).mono
      fun r ⟨holds, _⟩ => holds.toValid)
  | add i other =>
    exact hw.returns_set i ((hw.returns_add allowed.1 allowed.2 sound).mono
      fun r holds => holds.toValid)
  | addTo i other res =>
    obtain ⟨created, created', created'', -, -⟩ := allowed
    refine hw.returns_set res ?_
    obtain ⟨r, run, copy, -⟩ :=
      MutableBigInteger.returns_copy (hw.object res) (hw.created created)
    rw [addTo, run, Returns.some_bind]
    exact ((sound r run).returns_add copy.toValid (hw.created created')).mono
      fun r holds => holds.toValid
  | addInteger i other =>
    exact hw.returns_set i ((returns_addInteger (hw.created allowed) other).mono
      fun r holds => holds.toValid)
  | addInteger64 i other =>
    obtain ⟨r, run, holds, -⟩ := returns_fromInteger64 h₁.fits other
    have sum : Returns ((w.object i).add false r) _ :=
      (sound r run).returns_add (hw.created allowed) holds.toValid
    refine Returns.bind (P := fun s => MutableBigInteger.Valid s.1 ∧
      MutableBigInteger.Valid s.2) ?_ ?_
    · rw [addInteger64, run, Returns.some_bind]
      exact sum.bind fun m hm => Returns.pure_iff.mpr ⟨hm.toValid, holds.toValid⟩
    · intro (m, register1) ⟨hm, valid⟩
      exact Returns.pure_iff.mpr ((hw.set hm).registers valid h₂)
  | addNatural i other =>
    obtain ⟨⟨created, nonzero⟩, ⟨created', -⟩, -, -⟩ := allowed
    have fits : ¬SumOverflows (w.object i) (w.object other) := by
      by_cases same : other = i
      · rw [same]
        exact not_sumOverflows_self _
      · exact sound same
    exact hw.returns_set i ((returns_addMagnitude (hw.created created) (hw.created created')
      nonzero _ fits).mono fun r sum => sum.toValid)
  | subtract i other =>
    exact hw.returns_set i ((hw.returns_subtract allowed.1 allowed.2 sound).mono
      fun r holds => holds.toValid)
  | subtractTo i other res =>
    obtain ⟨created, created', created'', -, -⟩ := allowed
    refine hw.returns_set res ?_
    obtain ⟨r, run, copy, -⟩ :=
      MutableBigInteger.returns_copy (hw.object res) (hw.created created)
    rw [subtractTo, run, Returns.some_bind]
    exact ((sound r run).returns_subtract copy.toValid (hw.created created')).mono
      fun r holds => holds.toValid
  | subtractInteger i other =>
    exact hw.returns_set i ((returns_subtractInteger (hw.created allowed) other).mono
      fun r holds => holds.toValid)
  | divide i other =>
    obtain ⟨created, ⟨created', nonzero⟩, -⟩ := allowed
    obtain ⟨exact, remembers, signs⟩ := sound
    refine (returns_divide (hw.created created) (hw.created created') h₁ h₂ nonzero
      exact).bind ?_
    intro (m, register1, register2) ⟨quotient, valid, valid'⟩
    exact Returns.pure_iff.mpr
      ((hw.set (quotient signs).toValid).registers valid (valid' remembers))
  | mod i other =>
    obtain ⟨created, ⟨created', nonzero⟩, -⟩ := allowed
    refine (returns_mod_of_sound (hw.created created) (hw.created created') h₁ nonzero
      sound).bind ?_
    intro (m, register1) ⟨holds, valid⟩
    exact Returns.pure_iff.mpr ((hw.set holds.toValid).registers valid h₂)
  | divideWithRemainderTo i other remainder =>
    obtain ⟨created, ⟨created', nonzero⟩, created'', -, -⟩ := allowed
    obtain ⟨exact, remembers, signs⟩ := sound
    refine (returns_divideWithRemainderTo (hw.created created) (hw.created created')
      (hw.created created'') h₁ nonzero exact).bind ?_
    intro (m, r, register1) ⟨quotient, _, rest, valid⟩
    exact Returns.pure_iff.mpr (((hw.set (quotient signs).toValid).set
      (rest remembers).toValid).registers valid h₂)
  | remainderWithQuotientTo i other quotient =>
    obtain ⟨created, ⟨created', nonzero⟩, created'', -, -⟩ := allowed
    obtain ⟨exact, remembers, signs⟩ := sound
    refine (returns_remainderWithQuotientTo (hw.created created) (hw.created created')
      (hw.created created'') h₁ nonzero exact).bind ?_
    intro (m, q, register1) ⟨quotient, _, rest, valid⟩
    exact Returns.pure_iff.mpr (((hw.set (rest remembers).toValid).set
      (quotient signs).toValid).registers valid h₂)
  | divideTo i other quotient remainder =>
    obtain ⟨created, ⟨created', nonzero⟩, createdQ, createdR, -⟩ := allowed
    obtain ⟨differ, exact, remembers⟩ := sound
    rw [run, if_neg differ]
    refine (returns_divideTo (hw.created created) (hw.created created')
      (hw.created createdQ) (hw.created createdR) h₁ nonzero exact).bind ?_
    intro (q, r, register1) ⟨quotient, _, rest, valid⟩
    exact Returns.pure_iff.mpr (((hw.set quotient.toValid).set
      (rest remembers).toValid).registers valid h₂)
  | shiftLeft i n =>
    exact hw.returns_set i ((returns_shiftLeft (hw.created allowed.1) n).mono
      fun r ⟨holds, _⟩ => holds.toValid)
  | shiftRight i n =>
    exact hw.returns_set i ((returns_shiftRight (hw.created allowed.1) n sound).mono
      fun r ⟨holds, _⟩ => holds.toValid)
  | gcd i other =>
    refine (returns_gcd (hw.created allowed.1) (hw.created allowed.2) h₁ h₂
      (decide (other = i)) (fun same => by rw [of_decide_eq_true same])
      (fun differ => sound (of_decide_eq_false differ))).bind ?_
    intro (m, register1, register2) ⟨holds, valid, valid'⟩
    exact Returns.pure_iff.mpr ((hw.set holds.toValid).registers valid valid')
  | multiply i other =>
    refine (hw.returns_multiply allowed.1 allowed.2).bind ?_
    intro (m, register1) ⟨holds, valid⟩
    exact Returns.pure_iff.mpr ((hw.set holds.toValid).registers valid h₂)
  | multiplyTo i other res =>
    obtain ⟨created, created', created'', -⟩ := allowed
    exact hw.returns_set res ((hw.returns_multiplyTo created created' created'' sound).mono
      fun r holds => holds.toValid)
  | multiplyInteger i other res =>
    obtain ⟨created, created', -⟩ := allowed
    refine (returns_multiplyInteger (hw.created created) (hw.created created') sound).bind ?_
    intro (m, r) ⟨same, holds⟩
    exact Returns.pure_iff.mpr ((hw.set (same ▸ hw.created created)).set holds.toValid)
  | negate i =>
    exact Returns.some_iff.mpr (hw.set (hw.created allowed).negate_holds.toValid)
  | abs i =>
    exact Returns.some_iff.mpr (hw.set (hw.created allowed).abs_holds.toValid)
  | setWithZero i =>
    exact Returns.some_iff.mpr (hw.set (hw.created allowed).setWithZero_holds.toValid)
  | copy i other =>
    exact hw.returns_set i ((hw.returns_copy allowed sound).mono
      fun r holds => holds.toValid)
  | swapWith i other =>
    exact Returns.some_iff.mpr
      ((hw.set (hw.created allowed.2)).set (hw.created allowed.1))

/-- Every world that a run comes to satisfies the class invariant. -/
theorem Reachable.valid (h : Reachable w) : w.Valid := by
  induction h with
  | start => exact start_valid
  | step _ allowed sound run ih => exact (ih.returns_run allowed sound).unique run

end Invariant

end World

end MutableBigInteger

end Liberty
