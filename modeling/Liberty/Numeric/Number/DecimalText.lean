import Liberty.Library.DecimalExpansion
import Liberty.Numeric.MutableBigInteger.Printing
import Liberty.Numeric.Number.ExactRuns
import Liberty.Text.IntegerPrinting

/-!
# append_decimal_in

The digits of a fraction after the point are computed by a long division, which stops when the
remainder is zero.
-/

namespace Liberty

open Calculation
open DecimalNumeral hiding value

/-! ## The source -/

namespace IntegerGeneralNumber

/-- `append_in`: an INTEGER_64 is `spelled`, and a big number is printed from the first register.
What that leaves in `register_1` and in the character buffer is overwritten before it is read. -/
def appendIn (buffer : List Char) : IntegerGeneralNumber → Calculation (List Char)
  | integer64 value => pure (buffer ++ (spelled value.toInt).map fun c => Char.ofNat c.toNat)
  | bigInteger n => do
      (bigInteger n).putIntoMutableBigInteger 1
      .read fun w => ((w.object 1).appendIn w.register1 (.make 1) buffer).map (·.1)

/-- One round of the long division: the counter, the remainder and the text. -/
def decimalRound (denom : IntegerGeneralNumber) (t : Int × IntegerGeneralNumber × List Char) :
    Calculation (Int × IntegerGeneralNumber × List Char) := do
  let (counter, remainder, buffer) := t
  let n ← remainder.multiplyInteger64 10
  let buffer ← (← n.integerDivide denom).appendIn buffer
  return (counter + 1, ← n.remainder denom, buffer)

/-- `decimal_in` from the division on. -/
def decimalQuotientIn (n denom : IntegerGeneralNumber) (buffer : List Char) (digits : Int)
    (allDigits : Bool) : Calculation (List Char) := do
  let buffer ← (← n.integerDivide denom).appendIn buffer
  let remainder ← n.remainder denom
  if digits > 0 ∧ (allDigits = true ∨ remainder.isZero = false) then
    let (counter, _, buffer) ← CommandProgram.untilLoop
      (fun t => pure (decide (t.1 > digits) || t.2.1.isZero)) (decimalRound denom) digits.toNat
      (1, remainder, buffer ++ ['.'])
    return if allDigits then buffer ++ .replicate (digits + 1 - counter).toNat '0' else buffer
  else
    return buffer

def decimalIn (num denom : IntegerGeneralNumber) (buffer : List Char) (digits : Int)
    (allDigits : Bool) : Calculation (List Char) := do
  if num.isNegative then
    (← num.negate).decimalQuotientIn denom (buffer ++ ['-']) digits allDigits
  else
    num.decimalQuotientIn denom buffer digits allDigits

end IntegerGeneralNumber

namespace ExactNumber

def appendDecimalIn (buffer : List Char) (digits : Int) (allDigits : Bool) :
    ExactNumber → Calculation (List Char)
  | integer n => do
      let buffer ← n.appendIn buffer
      return if allDigits then buffer ++ '.' :: .replicate digits.toNat '0' else buffer
  | fraction n d => n.decimalIn d buffer digits allDigits

/-! ## The text -/

/-- The point and the digits of `n / d` after it.  Without `allDigits` the zeros at the end are
dropped, and the point when nothing follows it. -/
def decimalPart (n d digits : ℕ) (allDigits : Bool) : List Char :=
  let part := if allDigits then DecimalNumeral.fraction n d digits else trimmed n d digits
  if part = [] then [] else '.' :: part

/-- The expansion of `q`, truncated after `digits` digits, with its sign. -/
def decimalText (q : ℚ) (digits : ℕ) (allDigits : Bool) : List Char :=
  (if q < 0 then ['-'] else []) ++ ofNat (q.num.natAbs / q.den) ++
    decimalPart q.num.natAbs q.den digits allDigits

/-- An integer is not printed with `all_digits` and no digits, and of a fraction that goes on the
last digit is not zero. -/
def PrintsExactly (q : ℚ) (digits : ℕ) (allDigits : Bool) : Prop :=
  (q.den = 1 → allDigits = true → digits ≠ 0) ∧
    (allDigits = false → ∀ k, digits = k + 1 →
      q.den ∣ q.num.natAbs * 10 ^ digits ∨ fractionDigit q.num.natAbs q.den k ≠ 0)

end ExactNumber

/-! ## Long division -/

theorem spelled_eq (x : ℤ) : ((spelled x).map fun c => Char.ofNat c.toNat) = ofInt x := by
  have digits : ∀ n : ℕ, (digitsOf n).map (fun c => Char.ofNat c.toNat) =
      (Nat.digits 10 n).map digit := by
    intro n
    unfold digitsOf
    rw [List.map_map]
    refine List.map_congr_left fun d mem => ?_
    have all : ∀ d : Fin 10, Char.ofNat (decimalDigit ((d : ℕ) : Int)).toNat = digit d := by decide
    exact all ⟨d, Nat.digits_lt_base (by decide) mem⟩
  unfold spelled ofInt
  rcases lt_trichotomy x 0 with negative | rfl | positive
  · have nonzero : x.natAbs ≠ 0 := by omega
    rw [if_neg (by omega), if_neg (by omega), if_pos negative, List.map_append, List.map_reverse,
      digits, ofNat_of_ne_zero nonzero]
    rfl
  · rfl
  · have nonzero : x.natAbs ≠ 0 := by omega
    rw [if_neg (by omega), if_pos positive, if_neg (by omega), List.nil_append, List.map_reverse,
      digits, ofNat_of_ne_zero nonzero]

namespace IntegerGeneralNumber

variable {n denom : IntegerGeneralNumber} {x : ℤ} {a d : ℕ} {buffer : List Char} {digits : ℕ}
  {allDigits : Bool}

theorem Represents.produces_appendIn (h : n.Represents x) (buffer : List Char) :
    Produces (n.appendIn buffer) (· = buffer ++ ofInt x) := by
  cases n with
  | integer64 value =>
    have same : value.toInt = x := h
    subst same
    exact .done (by rw [spelled_eq])
  | bigInteger n =>
    refine produces_put h fun w ready holds => ?_
    refine .read (P := (· = buffer ++ ofInt x)) ?_ fun a text => ⟨ready, text⟩
    obtain ⟨⟨text, _, _⟩, run, eq, -⟩ := holds.toValid.returns_appendIn ready.register1
      (CharBuffer.make_valid (n := 1) (by decide)) buffer
    rw [holds.value_eq] at eq
    exact ⟨text, by rw [run]; rfl, eq⟩

/-- The quotient and the remainder of natural numbers. -/
theorem Represents.produces_divideNat (h : n.Represents (a : ℤ)) (h' : denom.Represents (d : ℤ))
    (positive : 0 < d) : Produces (n.integerDivide denom) (·.Represents ((a / d : ℕ) : ℤ)) ∧
      Produces (n.remainder denom) (·.Represents ((a % d : ℕ) : ℤ)) := by
  have nonzero : (d : ℤ) ≠ 0 := by omega
  have regular : ¬DividesShort (a : ℤ) d := fun short => absurd short.1 (by omega)
  constructor
  · refine (h.produces_integerDivide h' nonzero).mono fun q ⟨v, represents, exact⟩ => ?_
    rwa [exact regular] at represents
  · refine (h.produces_remainder h' nonzero).mono fun q ⟨v, represents, exact, _⟩ => ?_
    rwa [exact regular] at represents

theorem ofInt_natCast (m : ℕ) : ofInt m = ofNat m :=
  if_neg (by omega)

theorem ofNat_of_lt (less : a < 10) : ofNat a = [digit a] := by
  interval_cases a <;> decide

/-- The state after `k` rounds of the long division of `a` by `d`. -/
structure Digits (a d k : ℕ) (start : List Char) (t : Int × IntegerGeneralNumber × List Char) :
    Prop where
  counter_eq : t.1 = k + 1
  remainder : t.2.1.Represents ((a * 10 ^ k % d : ℕ) : ℤ)
  text_eq : t.2.2 = start ++ fraction a d k

theorem produces_decimalRound (h : denom.Represents (d : ℤ)) (positive : 0 < d) {k : ℕ}
    {start : List Char} {t : Int × IntegerGeneralNumber × List Char} (digits : Digits a d k start t) :
    Produces (decimalRound denom t) (Digits a d (k + 1) start) := by
  obtain ⟨counter, remainder, text⟩ := t
  obtain ⟨counter_eq, represents, text_eq⟩ := digits
  have ten := represents.produces_multiplyInteger64 10
  rw [show (10 : BitVec 64).toInt = ((10 : ℕ) : ℤ) from rfl, ← Int.natCast_mul] at ten
  refine CommandProgram.Produces.bind ten fun n product => ?_
  obtain ⟨divides, rest⟩ := product.produces_divideNat h positive
  refine CommandProgram.Produces.bind divides fun q quotient => ?_
  refine CommandProgram.Produces.bind (quotient.produces_appendIn text) fun text' appended => ?_
  refine CommandProgram.Produces.bind rest fun r represents' => .done ⟨?_, ?_, ?_⟩
  · change counter + 1 = _
    rw [show counter = k + 1 from counter_eq]
    rfl
  · rwa [remainder_eq] at represents'
  · have less : fractionDigit a d k < 10 := Nat.mod_lt _ (by decide)
    change text' = _
    rw [appended, show text = _ from text_eq, fractionDigit_eq positive, ofInt_natCast,
      ofNat_of_lt less, fraction_succ, List.append_assoc]

/-- Where the long division stops: after all the digits, or where the expansion ends. -/
structure Stops (a d digits k : ℕ) : Prop where
  le : k ≤ digits
  ends : k = digits ∨ d ∣ a * 10 ^ k
  before : ∀ j < k, ¬d ∣ a * 10 ^ j

theorem produces_digits (h : denom.Represents (d : ℤ)) (positive : 0 < d) {start : List Char}
    {remainder : IntegerGeneralNumber} (represents : remainder.Represents ((a % d : ℕ) : ℤ)) :
    Produces (CommandProgram.untilLoop
        (fun t => pure (decide (t.1 > (digits : Int)) || t.2.1.isZero)) (decimalRound denom) digits
        (1, remainder, start))
      fun t => ∃ k, Stops a d digits k ∧ Digits a d k start t := by
  intro w ready
  refine CommandProgram.Assures.untilLoop
    (fun t w => Ready w ∧ ∃ k, (k ≤ digits ∧ ∀ j < k, ¬d ∣ a * 10 ^ j) ∧ Digits a d k start t)
    (fun t _ => (digits + 1 - t.1).toNat) ⟨ready, 0, ⟨Nat.zero_le _, fun j less => nomatch less⟩,
      rfl, ?_, (List.append_nil _).symm⟩ (by dsimp only; omega) ?_
  · rwa [pow_zero, mul_one]
  · intro t w ⟨ready, k, ⟨le, before⟩, held⟩
    have counter := held.counter_eq
    refine .done ?_
    rw [held.remainder.isZero_eq]
    split
    · rename_i stopped
      refine ⟨ready, k, ⟨le, ?_, before⟩, held⟩
      rcases (Bool.or_eq_true _ _).mp stopped with all | zero
      · exact .inl (by have := of_decide_eq_true all; omega)
      · exact .inr (Nat.dvd_of_mod_eq_zero (Int.ofNat_eq_zero.mp (of_decide_eq_true zero)))
    · rename_i going
      rw [Bool.not_eq_true, Bool.or_eq_false_iff, decide_eq_false_iff_not, decide_eq_false_iff_not]
        at going
      refine (produces_decimalRound h positive held w ready).mono fun t' w' ⟨ready', held'⟩ =>
        ⟨⟨ready', k + 1, ⟨by omega, fun j less => ?_⟩, held'⟩, ?_⟩
      · rcases Nat.lt_succ_iff_lt_or_eq.mp less with earlier | rfl
        · exact before j earlier
        · exact fun ends => going.2 (by rw [Nat.mod_eq_zero_of_dvd ends]; rfl)
      · have counter' := held'.counter_eq
        omega

/-- What is printed after the quotient of `a` and `d`. -/
inductive PrintsPart (a d digits : ℕ) (allDigits : Bool) : List Char → Prop
  | nothing (none : digits = 0 ∨ allDigits = false ∧ d ∣ a) : PrintsPart a d digits allDigits []
  | all (all : allDigits = true) (some : digits ≠ 0) :
      PrintsPart a d digits allDigits ('.' :: fraction a d digits)
  | stopped (k : ℕ) (not_all : allDigits = false) (going : ¬d ∣ a) (stops : Stops a d digits (k + 1)) :
      PrintsPart a d digits allDigits ('.' :: fraction a d (k + 1))

theorem Represents.produces_decimalQuotientIn (h : n.Represents (a : ℤ)) (h' : denom.Represents (d : ℤ))
    (positive : 0 < d) (buffer : List Char) (digits : ℕ) (allDigits : Bool) :
    Produces (n.decimalQuotientIn denom buffer digits allDigits) fun text =>
      ∃ part, text = buffer ++ ofNat (a / d) ++ part ∧ PrintsPart a d digits allDigits part := by
  obtain ⟨divides, rest⟩ := h.produces_divideNat h' positive
  refine CommandProgram.Produces.bind divides fun q quotient => ?_
  refine CommandProgram.Produces.bind (quotient.produces_appendIn buffer) fun buffer' appended => ?_
  refine CommandProgram.Produces.bind rest fun remainder represents => ?_
  rw [ofInt_natCast] at appended
  subst appended
  have going_iff : remainder.isZero = false ↔ ¬d ∣ a := by
    rw [represents.isZero_eq, decide_eq_false_iff_not, Int.natCast_eq_zero, Nat.dvd_iff_mod_eq_zero]
  split
  · rename_i prints
    have some : digits ≠ 0 := by omega
    refine CommandProgram.Produces.bind (produces_digits h' positive represents)
      fun ⟨counter, r, text⟩ ⟨k, stops, state⟩ => .done ?_
    obtain ⟨counter_eq, -, text_eq⟩ := state
    dsimp only at counter_eq text_eq ⊢
    rw [text_eq]
    cases allDigits with
    | true =>
      refine ⟨_, ?_, .all rfl some⟩
      have count : ((digits : Int) + 1 - counter).toNat = digits - k := by omega
      have zeros : fraction a d digits = fraction a d k ++ .replicate (digits - k) '0' := by
        rcases stops.ends with rfl | ends
        · rw [Nat.sub_self, List.replicate_zero, List.append_nil]
        · rw [← fraction_add positive ends, Nat.add_sub_cancel' stops.le]
      rw [if_pos rfl, count, zeros, List.append_assoc, List.append_assoc]
      rfl
    | false =>
      have going := going_iff.mp (prints.2.resolve_left nofun)
      cases k with
      | zero =>
        rcases stops.ends with none | ends
        · exact absurd none.symm some
        · rw [pow_zero, mul_one] at ends
          exact absurd ends going
      | succ k => exact ⟨_, List.append_assoc _ _ _, .stopped k rfl going stops⟩
  · rename_i nothing
    refine .done ⟨[], (List.append_nil _).symm, .nothing ?_⟩
    rcases Nat.eq_zero_or_pos digits with zero | some
    · exact .inl zero
    · cases allDigits with
      | true => exact absurd ⟨Int.natCast_pos.mpr some, .inl rfl⟩ nothing
      | false =>
        exact .inr ⟨rfl, Decidable.not_not.mp fun going =>
          nothing ⟨Int.natCast_pos.mpr some, .inr (going_iff.mpr going)⟩⟩

/-- A long division that stopped has all the digits without the zeros exactly where the last digit that
was asked for is not a zero in front of other digits. -/
theorem Stops.trimmed_eq_iff {k : ℕ} (stops : Stops a d digits (k + 1)) (positive : 0 < d) :
    trimmed a d digits = fraction a d (k + 1) ↔
      ∀ j, digits = j + 1 → d ∣ a * 10 ^ digits ∨ fractionDigit a d j ≠ 0 := by
  have last : d ∣ a * 10 ^ (k + 1) → fractionDigit a d k ≠ 0 :=
    fractionDigit_ne_zero positive (stops.before k (Nat.lt_succ_self k))
  rcases stops.ends with rfl | ends
  · rw [DecimalNumeral.trimmed_eq_iff]
    constructor
    · intro nonzero j same
      obtain rfl := Nat.succ.inj same
      exact .inr nonzero
    · exact fun exact => (exact k rfl).elim last id
  · obtain ⟨more, rfl⟩ := Nat.exists_eq_add_of_le stops.le
    rw [trimmed_of_ends positive ends, DecimalNumeral.trimmed_eq_iff]
    exact iff_of_true (last ends) fun _ _ => .inl (ends_mono ends stops.le)

open ExactNumber in
theorem PrintsPart.eq_iff {part : List Char} (prints : PrintsPart a d digits allDigits part)
    (positive : 0 < d) (going : ¬d ∣ a) : part = decimalPart a d digits allDigits ↔
      (allDigits = false → ∀ k, digits = k + 1 →
        d ∣ a * 10 ^ digits ∨ fractionDigit a d k ≠ 0) := by
  cases prints with
  | nothing none =>
    obtain rfl := none.resolve_right fun ends => going ends.2
    refine iff_of_true ?_ fun _ _ same => nomatch same
    cases allDigits <;> rfl
  | all all some =>
    subst all
    refine iff_of_true ?_ nofun
    have nonempty : fraction a d digits ≠ [] := fun none => some (by
      rw [← length_fraction a d digits, none, List.length_nil])
    exact (if_neg nonempty).symm
  | stopped k not_all going stops =>
    subst not_all
    rw [forall_prop_of_true rfl, ← stops.trimmed_eq_iff positive]
    change _ = (if trimmed a d digits = [] then [] else '.' :: trimmed a d digits) ↔ _
    have nonempty : fraction a d (k + 1) ≠ [] := fun none => by
      have length := length_fraction a d (k + 1)
      rw [none] at length
      exact nomatch length
    split
    · rename_i empty
      exact iff_of_false (List.cons_ne_nil _ _) fun same => nonempty (same.symm.trans empty)
    · exact ⟨fun same => (List.cons.inj same).2.symm, fun same => by rw [same]⟩

end IntegerGeneralNumber

/-! ## The NUMBERs of a run -/

namespace ExactNumber

variable {a : ExactNumber} {q : ℚ}

theorem decimalPart_one (n digits : ℕ) (allDigits : Bool) :
    decimalPart n 1 digits allDigits =
      if allDigits = true ∧ digits ≠ 0 then '.' :: .replicate digits '0' else [] := by
  have ends : 1 ∣ n * 10 ^ 0 := Nat.one_dvd _
  have all := fraction_add one_pos ends digits
  have none := trimmed_of_ends one_pos ends digits
  rw [Nat.zero_add] at all none
  unfold decimalPart
  cases allDigits with
  | false =>
    rw [none]
    rfl
  | true =>
    rw [all]
    cases digits <;> rfl

/-- An integer has a point with `all_digits`, also when no zero follows it. -/
theorem integer_text_iff (x : ℤ) (buffer : List Char) (digits : ℕ) (allDigits : Bool) :
    (if allDigits then buffer ++ ofInt x ++ '.' :: .replicate digits '0' else buffer ++ ofInt x) =
        buffer ++ decimalText x digits allDigits ↔ PrintsExactly x digits allDigits := by
  have sign : ofInt x = (if (x : ℚ) < 0 then ['-'] else []) ++ ofNat x.natAbs := by
    unfold ofInt
    simp only [Int.cast_lt_zero]
    split <;> rfl
  have printed : PrintsExactly x digits allDigits ↔ (allDigits = true → digits ≠ 0) :=
    ⟨fun exact => exact.1 (Rat.den_intCast x),
      fun some => ⟨fun _ => some, fun _ _ _ => .inl (by rw [Rat.den_intCast]; exact Nat.one_dvd _)⟩⟩
  have text : decimalText x digits allDigits = ofInt x ++
      if allDigits = true ∧ digits ≠ 0 then '.' :: .replicate digits '0' else [] := by
    rw [decimalText, Rat.den_intCast, Rat.num_intCast, Nat.div_one, ← sign, decimalPart_one]
  rw [text, printed, ← List.append_assoc]
  cases allDigits with
  | false => exact iff_of_true (List.append_nil _).symm nofun
  | true =>
    rw [if_pos rfl, List.append_cancel_left_eq, forall_prop_of_true rfl]
    cases digits with
    | zero => exact iff_of_false (List.cons_ne_nil _ _) fun ne => ne rfl
    | succ digits => exact iff_of_true rfl (Nat.succ_ne_zero _)

theorem Represents.not_dvd {n d : IntegerGeneralNumber} (h : (fraction n d).Represents q) :
    ¬q.den ∣ q.num.natAbs :=
  fun divides => h.1 (Nat.Coprime.eq_one_of_dvd q.reduced.symm divides)

theorem Represents.produces_decimalIn {n d : IntegerGeneralNumber} (h : (fraction n d).Represents q)
    (buffer : List Char) (digits : ℕ) (allDigits : Bool) :
    Produces (n.decimalIn d buffer digits allDigits) fun text =>
      ∃ part, text = buffer ++ (if q < 0 then ['-'] else []) ++ ofNat (q.num.natAbs / q.den) ++ part ∧
        IntegerGeneralNumber.PrintsPart q.num.natAbs q.den digits allDigits part := by
  obtain ⟨-, numerator, denominator⟩ := h
  unfold IntegerGeneralNumber.decimalIn
  rw [numerator.isNegative_eq]
  simp only [decide_eq_true_eq, Rat.num_neg]
  rcases lt_or_ge q 0 with negative | positive
  · simp only [if_pos negative]
    refine CommandProgram.Produces.bind numerator.produces_negate fun m opposite => ?_
    have less := Rat.num_neg.mpr negative
    have value : -q.num = (q.num.natAbs : ℤ) := by omega
    rw [value] at opposite
    exact opposite.produces_decimalQuotientIn denominator q.pos _ digits allDigits
  · simp only [if_neg (not_lt.mpr positive), List.append_nil]
    have nonneg := Rat.num_nonneg.mpr positive
    have value : q.num = (q.num.natAbs : ℤ) := by omega
    rw [value] at numerator
    exact numerator.produces_decimalQuotientIn denominator q.pos buffer digits allDigits

/-- `append_decimal_in` appends the truncated expansion of a NUMBER in canonical form exactly where the
text says so. -/
theorem Represents.produces_appendDecimalIn (h : a.Represents q) (buffer : List Char) (digits : ℕ)
    (allDigits : Bool) :
    Produces (a.appendDecimalIn buffer digits allDigits) fun text =>
      text = buffer ++ decimalText q digits allDigits ↔ PrintsExactly q digits allDigits := by
  cases a with
  | integer n =>
    obtain ⟨x, represents, rfl⟩ := h.integer_eq
    refine CommandProgram.Produces.bind (represents.produces_appendIn buffer) fun text same => .done ?_
    rw [same]
    exact integer_text_iff x buffer digits allDigits
  | fraction n d =>
    refine (h.produces_decimalIn buffer digits allDigits).mono fun text ⟨part, same, prints⟩ => ?_
    rw [same, decimalText, ← List.append_assoc, ← List.append_assoc, List.append_cancel_left_eq,
      prints.eq_iff q.pos h.not_dvd]
    exact (and_iff_right fun one => absurd one h.1).symm

end ExactNumber

namespace NumberPool

open ExactNumber MutableBigInteger

variable {s : NumberPool} {a : ExactNumber}

/-- The decimal texts of the NUMBERs of a run are the truncated expansions exactly where an integer is not
printed with `all_digits` and no digits, and a fraction not with zeros before the place where it is cut. -/
theorem Reaches.decimals (reached : Reaches Sound s) (member : a ∈ s.numbers) (buffer : List Char)
    (digits : ℕ) (allDigits : Bool) (meets : s.Meets (a.appendDecimalIn buffer digits allDigits)) :
    Returns ((a.appendDecimalIn buffer digits allDigits).run World.run s.registers)
        (fun (text, _) => text = buffer ++ decimalText a.value digits allDigits) ↔
      PrintsExactly a.value digits allDigits := by
  have canonical := reached.canonical
  obtain ⟨result, run, -, text_iff⟩ :=
    (canonical.represents member).produces_appendDecimalIn buffer digits allDigits s.registers
      canonical.registers meets
  constructor
  · intro ⟨result', run', same⟩
    obtain rfl := Option.some.inj (run.symm.trans run')
    exact text_iff.mp same
  · exact fun exact => ⟨result, run, text_iff.mpr exact⟩

theorem two_decimals :
    Returns (((integer (.integer64 2)).appendDecimalIn [] (1 : ℕ) true).run World.run start.registers)
        (fun (text, _) => text = [] ++ decimalText (integer (.integer64 2)).value 1 true) ↔
      PrintsExactly (integer (.integer64 2)).value 1 true := by
  have two : Reaches Sound ⟨[.integer (.integer64 2)], start.registers⟩ :=
    .step (.fromInteger64 2) .start trivial ⟨trivial, id⟩ rfl
  exact two.decimals (List.mem_singleton.mpr rfl) [] 1 true trivial

/-- One sixteenth is printed as `0.0` with one digit, although zeros at the end are not wanted. -/
theorem not_decimals : ¬∀ s, Reaches (fun _ _ => True) s → ∀ a ∈ s.numbers,
    ∀ (buffer : List Char) (digits : ℕ) (allDigits : Bool),
      Returns ((a.appendDecimalIn buffer digits allDigits).run World.run s.registers)
        (fun (text, _) => text = buffer ++ decimalText a.value digits allDigits) := by
  intro claim
  have nothing : Reaches (fun _ _ => True) start := .start
  have sixteen := nothing.step (.fromInteger64 16) trivial trivial rfl
  have part := sixteen.step (.unary .inverse 0) (fun a same => by obtain rfl := Option.some.inj same; rfl)
    trivial rfl
  obtain ⟨⟨text, _⟩, run, same⟩ := claim _ part _ (List.mem_of_getElem? (i := 1) rfl) [] 1 false
  have zero : text = ['0', '.', '0'] :=
    congrArg Prod.fst (Option.some.inj (run.symm.trans (rfl : _ = some (['0', '.', '0'], _))))
  have expected : decimalText (fraction (.integer64 1) (.integer64 16)).value 1 false = ['0'] := by
    decide +kernel
  rw [zero] at same
  exact absurd (same.trans expected) (by decide)

end NumberPool

end Liberty
