import Liberty.Numeric.MutableBigInteger.Comparison
import Liberty.Numeric.MutableBigInteger.Exactness
import Liberty.Numeric.MutableBigInteger.Printing

/-!
# The texts of the numbers of a run

What is printed of an object is the numeral of its value, and the numeral is read back as an
equal object.
-/

namespace Liberty

namespace MutableBigInteger

open DecimalNumeral

/-! ## The source -/

/-- The objects of a program and the buffer in which they are printed. -/
structure Printer where
  world : World
  charBuffer : CharBuffer

namespace Printer

def start : Printer :=
  ⟨.start, .make 4096⟩

/-- `append_in` of the object `i`. -/
def appendIn (p : Printer) (i : ℕ) (buffer : List Char) : Option (List Char × Printer) := do
  let (text, register1, charBuffer) ←
    (p.world.object i).appendIn p.world.register1 p.charBuffer buffer
  return (text, ⟨{ p.world with register1 }, charBuffer⟩)

/-- The programs that print some of their objects; every command met the condition `P`. -/
inductive Reaches (P : World → Command → Prop) : Printer → Prop
  | start : Reaches P start
  | command {p : Printer} {w : World} (c : Command) (before : Reaches P p)
      (allowed : p.world.Allowed c) (condition : P p.world c) (run : p.world.run c = some w) :
      Reaches P ⟨w, p.charBuffer⟩
  | print {p p' : Printer} {text : List Char} (i : ℕ) (buffer : List Char) (before : Reaches P p)
      (created : p.world.Created i) (printable : (p.world.object i).IsPrintable)
      (run : p.appendIn i buffer = some (text, p')) : Reaches P p'

/-! ## Texts -/

section Texts

variable {p : Printer} {i : ℕ}

structure Valid (p : Printer) : Prop where
  world : p.world.Valid
  charBuffer : p.charBuffer.Valid

theorem start_valid : start.Valid :=
  ⟨World.start_valid, CharBuffer.make_valid (by decide)⟩

theorem Valid.returns_appendIn (h : p.Valid) (created : p.world.Created i) (buffer : List Char) :
    Returns (p.appendIn i buffer) fun (text, p') => text = buffer ++ ofInt (p.world.value i) ∧
      p'.world.object = p.world.object ∧ p'.Valid := by
  refine ((h.world.created created).returns_appendIn h.world.register1 h.charBuffer buffer).bind ?_
  rintro ⟨text, register1, charBuffer⟩ ⟨printed, valid, valid'⟩
  exact Returns.pure_iff.mpr ⟨printed, rfl, h.world.registers valid h.world.register2, valid'⟩

theorem Valid.returns_fromString (h : p.Valid) (k : ℕ) {str : List Char} {v : ℤ}
    (accepts : Accepts str v) :
    Returns (p.world.run (.fromString k str)) fun w => Holds (w.object k) v := by
  refine (accepts.returns_fromString (h.world.object k) h.world.register1).bind ?_
  rintro ⟨m, register1⟩ ⟨holds, -⟩
  rw [Returns.pure_iff]
  rwa [World.set_object_self]

theorem Reaches.valid (reached : Reaches World.Sound p) : p.Valid := by
  induction reached with
  | start => exact start_valid
  | command c _ allowed sound run ih =>
    exact ⟨(ih.world.returns_run allowed sound).unique run, ih.charBuffer⟩
  | print i buffer _ created _ run ih => exact ((ih.returns_appendIn created buffer).unique run).2.2

/-- **Numbers and their decimal texts.**  In every program whose commands are sound, what is
printed of an object is the numeral of its value, the numeral is read back as an equal object, and
every text that `from_string` takes gives the number that it stands for. -/
theorem Reaches.decimal_texts (reached : Reaches World.Sound p) :
    (∀ i, p.world.Created i → (p.world.object i).IsPrintable → ∀ buffer,
      Returns (p.appendIn i buffer) fun (text, p') => text = buffer ++ ofInt (p.world.value i) ∧
        p'.world.object = p.world.object) ∧
    (∀ i k, p.world.Created i →
      Returns (p.world.run (.fromString k (ofInt (p.world.value i)))) fun w =>
        w.value k = p.world.value i ∧ (w.object k).isEqual false (p.world.object i) = some true) ∧
    ∀ k str v, Accepts str v →
      Returns (p.world.run (.fromString k str)) fun w => w.value k = v := by
  have h := reached.valid
  refine ⟨fun i created _ buffer => ?_, fun i k created => ?_, fun k str v accepts => ?_⟩
  · exact (h.returns_appendIn created buffer).mono fun _ printed => ⟨printed.1, printed.2.1⟩
  · refine (h.returns_fromString k (accepts_ofInt _)).mono fun w holds => ⟨holds.value_eq, ?_⟩
    obtain ⟨equal, run, same⟩ := returns_isEqual holds.toValid (h.world.created created)
    rw [run, same]
    exact congrArg some (decide_eq_true holds.value_eq)
  · exact (h.returns_fromString k accepts).mono fun w holds => holds.value_eq

/-- A run prints `2 ^ 65`. -/
theorem Reaches.decimal_texts_power : ∃ p, Reaches World.Sound p ∧ p.world.value 0 = 2 ^ 65 ∧
    (Returns (p.appendIn 0 []) fun (text, p') => text = [] ++ ofInt (p.world.value 0) ∧
      p'.world.object = p.world.object) ∧
    Returns (p.world.run (.fromString 1 (ofInt (p.world.value 0)))) fun w =>
      w.value 1 = p.world.value 0 ∧ (w.object 1).isEqual false (p.world.object 0) = some true := by
  have two := Reaches.start (P := World.Sound) |>.command (.fromInteger 0 2) trivial trivial rfl
  have shifted := two.command (.shiftLeft 0 64) ⟨by decide, by decide⟩ trivial rfl
  have texts := shifted.decimal_texts
  exact ⟨_, shifted, by decide, texts.1 0 (by decide) (by unfold IsPrintable; decide) [],
    texts.2.1 0 1 (by decide)⟩

/-- The quotient of 1 by -2 is zero with a sign, and the zero that is read back has none. -/
theorem not_decimal_texts : ¬∀ p i k, Reaches (fun _ _ => True) p → p.world.Created i →
    (p.world.object i).IsPrintable →
      Returns (p.world.run (.fromString k (ofInt (p.world.value i)))) fun w =>
        (w.object k).isEqual false (p.world.object i) = some true := by
  intro claim
  have one := Reaches.start (P := fun _ _ => True) |>.command (.fromInteger 0 1) trivial trivial rfl
  have two := one.command (.fromInteger 1 (-2)) trivial trivial rfl
  have quotient := two.command (.fromInteger 2 0) trivial trivial rfl
  have remainder := quotient.command (.fromInteger 3 0) trivial trivial rfl
  have divided := remainder.command (.divideTo 0 1 2 3)
    ⟨by decide, ⟨by decide, by decide⟩, by decide, by decide, by decide, by decide, by decide,
      by decide⟩ trivial rfl
  have equal := (claim _ 2 4 divided (by decide) (by unfold IsPrintable; decide)).unique rfl
  exact absurd equal (by decide)

end Texts

end Printer

end MutableBigInteger

end Liberty
