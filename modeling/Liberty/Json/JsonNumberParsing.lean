import Liberty.Json.JsonNumberLiteral

/-!
# parse_number

What `parse_number` accepts: a number before a character that does not go on with it, or a zero at the end
of the data.
-/

namespace Liberty

namespace JsonParser

namespace NumberLiteral

/-- The sign, as `parse_number` gives it to the number. -/
def sign (l : NumberLiteral) : Int :=
  if l.negative then -1 else 1

/-- The number of the literal. -/
def number (l : NumberLiteral) : JsonNumber where
  sign := l.sign
  int := naturalWrap64 (digitsFrom 0 l.int)
  frac := naturalWrap64 (digitsFrom 0 l.frac)
  fracExp := l.frac.length
  exp := wrap64 (signLocal l.exponent * exponentLocal l.exponent)

/-- The literals `0` and `-0` -/
def IsZero (l : NumberLiteral) : Prop :=
  l.int = ['0'.toUInt8] ∧ l.frac = [] ∧ l.exponent = none

/-- The literal ends before another character, or it is a zero at the end of the data that does not go on
with what the stream answers there. -/
def Delimited (l : NumberLiteral) (rest : List Character) (afterEnd : Character) : Prop :=
  StopsAt rest (fun c => ¬l.Continues c) ∨ (rest = [] ∧ l.IsZero ∧ ¬l.Continues afterEnd)

theorem not_continues_iff {l : NumberLiteral} {c : Character} :
    ¬l.Continues c ↔ StopsNumber l.frac l.exponent c := by
  unfold Continues StopsNumber IsMark
  rw [← Bool.not_eq_true]
  tauto

end NumberLiteral

/-- An integer part without a superfluous zero. -/
def IntegerPart (int : List Character) : Prop :=
  int ≠ [] ∧ AllDigits int ∧ ∀ rest, int = '0'.toUInt8 :: rest → rest = []

section Parsing

variable {context context' : JsonParseContext} {rest tail data : List Character} {s' : NumberLocals} {c : Character}
  {afterEnd : Character} {errors : List JsonError}

/-- A zero before a character that is not a digit is read as an integer part. -/
theorem numberDigits_zero (stop : c.isDecimalDigit = false) :
    numberDigits ⟨'0'.toUInt8 :: c :: tail, afterEnd, errors⟩ =
      numberLoop .integral (integralLocals 0 0) (c :: tail) := by
  change (if c = '.'.toUInt8 then numberLoop .fractionalFirst .blank tail
    else if c = 'e'.toUInt8 ∨ c = 'E'.toUInt8 then numberLoop .exponential .blank tail
    else if c.isDecimalDigit = true then (.error .invalidNumber, c :: tail)
    else (.ok .blank, c :: tail)) = _
  rw [numberLoop, numberRound, if_neg (Bool.eq_false_iff.mp stop), if_neg (Bool.eq_false_iff.mp stop)]
  by_cases point : c = '.'.toUInt8
  · rw [if_pos point, if_pos point]
    rfl
  · rw [if_neg point, if_neg point]
    by_cases isMark : c = 'e'.toUInt8 ∨ c = 'E'.toUInt8
    · rw [if_pos isMark, if_pos isMark]
      rfl
    · rw [if_neg isMark, if_neg isMark]
      rfl

/-- At the end of the data, a zero is read when what the stream answers there does not go on with it. -/
theorem numberDigits_zero_end :
    numberDigits ⟨['0'.toUInt8], afterEnd, errors⟩ = (.ok s', rest) ↔
      rest = [] ∧ StopsNumber [] none afterEnd ∧ s' = .blank := by
  change (if afterEnd = '.'.toUInt8 then numberLoop .fractionalFirst .blank []
    else if afterEnd = 'e'.toUInt8 ∨ afterEnd = 'E'.toUInt8 then numberLoop .exponential .blank []
    else if afterEnd.isDecimalDigit = true then (.error .invalidNumber, [])
    else (.ok .blank, [])) = _ ↔ _
  by_cases point : afterEnd = '.'.toUInt8
  · rw [if_pos point]
    exact iff_of_false (nomatch ·) fun found => found.2.1.2.2 rfl rfl point
  · rw [if_neg point]
    by_cases isMark : afterEnd = 'e'.toUInt8 ∨ afterEnd = 'E'.toUInt8
    · rw [if_pos isMark]
      exact iff_of_false (nomatch ·) fun found => found.2.1.2.1 rfl isMark
    · rw [if_neg isMark]
      by_cases digit : afterEnd.isDecimalDigit = true
      · rw [if_pos digit]
        exact iff_of_false (nomatch ·) fun found => Bool.eq_false_iff.mp found.2.1.1 digit
      · rw [if_neg digit]
        constructor
        · intro run
          cases run
          exact ⟨rfl, ⟨Bool.eq_false_iff.mpr digit, fun _ => isMark, fun _ _ => point⟩, rfl⟩
        · intro found
          obtain ⟨rfl, -, rfl⟩ := found
          rfl

/-- What `parse_number` reads from the first digit on: the parts of a number before a character that ends it,
or a zero at the end of the data. -/
theorem numberDigits_iff :
    numberDigits context = (.ok s', rest) ↔
      (∃ int frac o, IntegerPart int ∧ AllDigits frac ∧
        context.data = int ++ (fractionText frac ++ (exponentText o ++ rest)) ∧ StopsAt rest (StopsNumber frac o) ∧
          s' = readLocals (digitsFrom 0 int) frac o) ∨
        (context.data = ['0'.toUInt8] ∧ rest = [] ∧ StopsNumber [] none context.afterEnd ∧ s' = .blank) := by
  obtain ⟨data, afterEnd, errors⟩ := context
  cases data with
  | nil =>
    refine iff_of_false (nomatch ·) fun found => ?_
    rcases found with ⟨int, frac, o, part, -, same, -⟩ | ⟨same, -⟩
    · exact part.1 (List.append_eq_nil_iff.mp same.symm).1
    · cases same
  | cons c tail =>
    by_cases zero : c = '0'.toUInt8
    · subst zero
      have part : IntegerPart ['0'.toUInt8] :=
        ⟨List.cons_ne_nil _ _, AllDigits.cons rfl fun _ mem => (List.not_mem_nil mem).elim,
          fun _ same => (List.cons.inj same).2.symm⟩
      have alone : ∀ {int : List Character} {more : List Character}, IntegerPart int →
          '0'.toUInt8 :: tail = int ++ more → int = ['0'.toUInt8] ∧ more = tail := by
        intro int more part same
        cases int with
        | nil => exact absurd rfl part.1
        | cons d digits =>
          obtain ⟨rfl, behind⟩ := List.cons.inj same
          obtain rfl := part.2.2 digits rfl
          exact ⟨rfl, behind.symm⟩
      cases tail with
      | nil =>
        rw [numberDigits_zero_end]
        constructor
        · intro found
          exact .inr ⟨rfl, found⟩
        · intro found
          rcases found with ⟨int, frac, o, part, -, same, ⟨d, rest', rfl, -⟩, -⟩ | found
          · have nothing := (alone part same).2
            exact absurd (List.append_eq_nil_iff.mp (List.append_eq_nil_iff.mp nothing).2).2
              (List.cons_ne_nil _ _)
          · exact found.2
      | cons d tail =>
        have next : ∀ {frac o}, StopsAt rest (StopsNumber frac o) →
            fractionText frac ++ (exponentText o ++ rest) = d :: tail → d.isDecimalDigit = false := by
          intro frac o stops same
          obtain ⟨e, rest', atRest, stop⟩ := stops
          rcases behind_cases same.symm with ⟨-, -, -, rfl, -⟩ | ⟨-, -, -, isMark, -⟩ | ⟨-, -, whole⟩
          · rfl
          · exact isDecimalDigit_of_isMark isMark
          · obtain ⟨rfl, -⟩ := List.cons.inj (atRest.symm.trans whole)
            exact stop.1
        by_cases digit : d.isDecimalDigit = true
        · refine iff_of_false ?_ fun found => ?_
          · obtain ⟨point, mark, mark', -⟩ := not_special_of_digit digit
            change (if d = '.'.toUInt8 then numberLoop .fractionalFirst .blank tail
              else if d = 'e'.toUInt8 ∨ d = 'E'.toUInt8 then numberLoop .exponential .blank tail
              else if d.isDecimalDigit = true then (.error .invalidNumber, d :: tail)
              else (.ok .blank, d :: tail)) ≠ _
            rw [if_neg point, if_neg (by tauto), if_pos digit]
            exact (nomatch ·)
          · rcases found with ⟨int, frac, o, part, -, same, stops, -⟩ | ⟨same, -⟩
            · exact Bool.eq_false_iff.mp (next stops (alone part same).2) digit
            · cases same
        · rw [numberDigits_zero (Bool.eq_false_iff.mpr digit), integralEnd_iff (Bool.eq_false_iff.mpr digit)]
          constructor
          · intro found
            obtain ⟨frac, o, all, same, stops, rfl⟩ := found
            exact .inl ⟨_, frac, o, part, all, by rw [← same]; rfl, stops, rfl⟩
          · intro found
            rcases found with ⟨int, frac, o, part, all, same, stops, rfl⟩ | ⟨same, -⟩
            · obtain ⟨rfl, behind⟩ := alone part same
              exact ⟨frac, o, all, behind.symm, stops, rfl⟩
            · cases same
    · by_cases digit : c.isDecimalDigit = true
      · have first : ({ NumberLocals.blank with int := c.decimalValue.toNat } : NumberLocals) =
            integralLocals c.decimalValue.toNat 0 := by
          have bounds := decimalValue_bounds digit
          unfold integralLocals naturalWrap64
          rw [Nat.mod_eq_of_lt (by omega)]
        have run : numberDigits ⟨c :: tail, afterEnd, errors⟩ =
            numberLoop .integral (integralLocals c.decimalValue.toNat 0) tail := by
          rw [← first]
          exact (if_pos rfl).trans ((if_neg zero).trans (if_pos digit))
        rw [run, integral_iff]
        constructor
        · intro found
          obtain ⟨digits, frac, o, all, fracDigits, rfl, stops, rfl⟩ := found
          refine .inl ⟨c :: digits, frac, o, ⟨List.cons_ne_nil _ _, all.cons digit, fun _ same => ?_⟩, fracDigits, rfl,
            stops, ?_⟩
          · exact absurd (List.cons.inj same).1 zero
          · rw [digitsFrom_cons, Nat.zero_mul, Nat.zero_add]
        · intro found
          rcases found with ⟨int, frac, o, part, fracDigits, same, stops, rfl⟩ | ⟨same, -⟩
          · cases int with
            | nil => exact absurd rfl part.1
            | cons d digits =>
              obtain ⟨rfl, behind⟩ := List.cons.inj same
              refine ⟨digits, frac, o, part.2.1.tail, fracDigits, behind, stops, ?_⟩
              rw [digitsFrom_cons, Nat.zero_mul, Nat.zero_add]
          · exact absurd (List.cons.inj same).1 zero
      · have run : numberDigits ⟨c :: tail, afterEnd, errors⟩ = (.error .invalidNumber, c :: tail) := by
          exact (if_pos rfl).trans ((if_neg zero).trans (if_neg digit))
        rw [run]
        refine iff_of_false (nomatch ·) fun found => ?_
        rcases found with ⟨int, frac, o, part, -, same, -⟩ | ⟨same, -⟩
        · cases int with
          | nil => exact part.1 rfl
          | cons d digits =>
            obtain ⟨rfl, -⟩ := List.cons.inj same
            exact digit (part.2.1 c List.mem_cons_self)
        · exact zero (List.cons.inj same).1

theorem parseNumber_eq (negative : Bool)
    (sign : (context.item = '-'.toUInt8) ↔ negative = true) :
    parseNumber context =
      match numberDigits (if negative = true then context.next else context) with
      | (.ok s, rest) =>
        (some ⟨if negative = true then -1 else 1, s.int, s.frac, s.fracExp, wrap64 (s.expneg * s.exp)⟩,
          { context with data := rest })
      | (.error e, rest) => (none, { context with data := rest }.error e) := by
  have same : (context.item = '-'.toUInt8) = (negative = true) := propext sign
  unfold parseNumber
  simp only [same] <;> rfl

theorem NumberLiteral.text_eq (l : NumberLiteral) (rest : List Character) :
    l.text ++ rest = (if l.negative = true then ['-'.toUInt8] else []) ++
      (l.int ++ (fractionText l.frac ++ (exponentText l.exponent ++ rest))) := by
  have unsigned : l.unsigned ++ rest = l.int ++ (fractionText l.frac ++ (exponentText l.exponent ++ rest)) := by
    unfold NumberLiteral.unsigned
    rw [List.append_assoc, List.append_assoc]
  rw [← unsigned]
  unfold NumberLiteral.text
  by_cases negative : l.negative = true
  · rw [if_pos negative, if_pos negative]
    rfl
  · rw [if_neg negative, if_neg negative]
    rfl

/-- The item at the beginning of a literal tells its sign. -/
theorem item_iff_negative {l : NumberLiteral} (same : context.data = l.text ++ rest) :
    context.item = '-'.toUInt8 ↔ l.negative = true := by
  rw [l.text_eq] at same
  unfold JsonParseContext.item
  rw [same]
  by_cases negative : l.negative = true
  · rw [if_pos negative]
    exact iff_of_true rfl negative
  · rw [if_neg negative]
    refine iff_of_false (fun isMinus => ?_) negative
    cases first : l.int with
    | nil => exact l.intNonempty first
    | cons d digits =>
      have digit := l.intDigits d (by rw [first]; exact List.mem_cons_self)
      rw [first] at isMinus
      exact (not_special_of_digit digit).2.2.2.2 isMinus

/-- What is left behind the sign of a literal. -/
theorem data_of_sign {l : NumberLiteral} (same : context.data = l.text ++ rest) :
    (if l.negative = true then context.next else context).data =
      l.int ++ (fractionText l.frac ++ (exponentText l.exponent ++ rest)) := by
  rw [l.text_eq] at same
  by_cases negative : l.negative = true
  · rw [if_pos negative] at same ⊢
    rw [JsonParseContext.data_next, same]
    rfl
  · rw [if_neg negative] at same ⊢
    exact same

/-- The literal that `parse_number` has read, by its sign and the parts behind it. -/
theorem exists_literal {int frac : List Character} {o : Option Exponent} (part : IntegerPart int)
    (fracDigits : AllDigits frac) (negative : Bool) (sign : context.item = '-'.toUInt8 ↔ negative = true)
    (same : (if negative = true then context.next else context).data =
      int ++ (fractionText frac ++ (exponentText o ++ rest))) :
    ∃ l : NumberLiteral, l.negative = negative ∧ l.int = int ∧ l.frac = frac ∧ l.exponent = o ∧
      context.data = l.text ++ rest := by
  refine ⟨⟨negative, int, frac, o, part.1, part.2.1, part.2.2, fracDigits⟩, rfl, rfl, rfl, rfl, ?_⟩
  rw [NumberLiteral.text_eq]
  by_cases isNegative : negative = true
  · rw [if_pos isNegative] at same
    rw [if_pos isNegative, ← same]
    obtain ⟨data, afterEnd, errors⟩ := context
    cases data with
    | nil => exact absurd (List.append_eq_nil_iff.mp same.symm).1 part.1
    | cons c tail =>
      obtain rfl : c = '-'.toUInt8 := sign.mpr isNegative
      rfl
  · rw [if_neg isNegative] at same
    rw [if_neg isNegative, same]
    rfl

/-- `parse_number` reads the literals that end before another character, and a zero at the end of the data. -/
theorem parseNumber_iff {number : JsonNumber} :
    parseNumber context = (some number, context') ↔
      ∃ l : NumberLiteral, context.data = l.text ++ context'.data ∧
        l.Delimited context'.data context.afterEnd ∧ number = l.number ∧
          context' = { context with data := context'.data } := by
  constructor
  · intro run
    obtain ⟨negative, sign⟩ : ∃ negative : Bool, context.item = '-'.toUInt8 ↔ negative = true :=
      ⟨decide (context.item = '-'.toUInt8), decide_eq_true_iff.symm⟩
    rw [parseNumber_eq negative sign] at run
    have afterEnd_eq : (if negative = true then context.next else context).afterEnd = context.afterEnd := by
      split <;> rfl
    generalize reads : numberDigits (if negative = true then context.next else context) = r at run
    obtain ⟨read, rest⟩ := r
    cases read with
    | error e => cases run
    | ok s =>
      cases run
      rcases numberDigits_iff.mp reads with
        ⟨int, frac, o, part, fracDigits, same, ⟨c, rest', atRest, stop⟩, rfl⟩ | ⟨same, rfl, stop, rfl⟩
      · obtain ⟨l, rfl, rfl, rfl, rfl, whole⟩ := exists_literal part fracDigits negative sign same
        exact ⟨l, whole, .inl ⟨c, rest', atRest, NumberLiteral.not_continues_iff.mpr stop⟩, rfl, rfl⟩
      · have part : IntegerPart ['0'.toUInt8] :=
          ⟨List.cons_ne_nil _ _, AllDigits.cons rfl fun _ mem => (List.not_mem_nil mem).elim,
            fun _ same => (List.cons.inj same).2.symm⟩
        obtain ⟨l, rfl, int, frac, exponent, whole⟩ :=
          @exists_literal _ [] _ [] none part (fun _ mem => (List.not_mem_nil mem).elim) negative sign same
        rw [afterEnd_eq] at stop
        refine ⟨l, whole, .inr ⟨rfl, ⟨int, frac, exponent⟩, NumberLiteral.not_continues_iff.mpr ?_⟩, ?_, rfl⟩
        · rw [frac, exponent]
          exact stop
        · unfold NumberLiteral.number
          rw [int, frac, exponent]
          rfl
  · intro found
    obtain ⟨l, whole, delimited, rfl, unchanged⟩ := found
    have afterEnd_eq : (if l.negative = true then context.next else context).afterEnd = context.afterEnd := by
      split <;> rfl
    have reads : numberDigits (if l.negative = true then context.next else context) = (.ok l.locals, context'.data) := by
      rw [numberDigits_iff, data_of_sign whole, afterEnd_eq]
      rcases delimited with ⟨c, rest', atRest, stop⟩ | ⟨atRest, ⟨int, frac, exponent⟩, stop⟩
      · exact .inl ⟨l.int, l.frac, l.exponent, ⟨l.intNonempty, l.intDigits, l.noZero⟩, l.fracDigits, rfl,
          ⟨c, rest', atRest, NumberLiteral.not_continues_iff.mp stop⟩, rfl⟩
      · have stopped := NumberLiteral.not_continues_iff.mp stop
        rw [frac, exponent] at stopped
        refine .inr ⟨?_, atRest, stopped, ?_⟩
        · rw [int, frac, exponent, atRest]
          rfl
        · unfold NumberLiteral.locals
          rw [int, frac, exponent]
          rfl
    rw [parseNumber_eq l.negative (item_iff_negative whole), reads]
    dsimp only
    rw [← unchanged]
    rfl

end Parsing

end JsonParser

end Liberty
