import Liberty.Json.JsonParser

/-!
# JSON numbers

The grammar of JSON numbers, and what the loop of `parse_number` reads.
-/

namespace Liberty

namespace JsonParser

/-! ## The grammar -/

def AllDigits (digits : List Character) : Prop :=
  ∀ c ∈ digits, c.isDecimalDigit = true

/-- The number that is `n` before some more digits. -/
def digitsFrom (n : ℕ) (digits : List Character) : ℕ :=
  digits.foldl (fun n c => n * 10 + c.decimalValue.toNat) n

inductive ExponentSign
  | none
  | plus
  | minus

namespace ExponentSign

def text : ExponentSign → List Character
  | none => []
  | plus => ['+'.toUInt8]
  | minus => ['-'.toUInt8]

def value : ExponentSign → Int
  | none => 1
  | plus => 1
  | minus => -1

end ExponentSign

/-- A mark, a sign and some digits. -/
structure Exponent where
  mark : Character
  sign : ExponentSign
  digits : List Character
  isMark : mark = 'e'.toUInt8 ∨ mark = 'E'.toUInt8
  nonempty : digits ≠ []
  areDigits : AllDigits digits

/-- A JSON number: an integer part without a superfluous zero, digits behind the point unless there is none,
and perhaps an exponent. -/
structure NumberLiteral where
  negative : Bool
  int : List Character
  frac : List Character
  exponent : Option Exponent
  intNonempty : int ≠ []
  intDigits : AllDigits int
  noZero : ∀ rest, int = '0'.toUInt8 :: rest → rest = []
  fracDigits : AllDigits frac

def Exponent.text (e : Exponent) : List Character :=
  e.mark :: (e.sign.text ++ e.digits)

/-- The text of a fraction, empty where there is none. -/
def fractionText : List Character → List Character
  | [] => []
  | c :: digits => '.'.toUInt8 :: c :: digits

def exponentText : Option Exponent → List Character
  | none => []
  | some e => e.text

namespace NumberLiteral

/-- The text without the sign. -/
def unsigned (l : NumberLiteral) : List Character :=
  l.int ++ (fractionText l.frac ++ exponentText l.exponent)

def text (l : NumberLiteral) : List Character :=
  if l.negative then '-'.toUInt8 :: l.unsigned else l.unsigned

/-- The characters with which the number would go on. -/
def Continues (l : NumberLiteral) (c : Character) : Prop :=
  c.isDecimalDigit = true ∨ (c = '.'.toUInt8 ∧ l.frac = [] ∧ l.exponent = none) ∨
    ((c = 'e'.toUInt8 ∨ c = 'E'.toUInt8) ∧ l.exponent = none)

/-- The text behind the number does not go on with it. -/
def Ends (l : NumberLiteral) (rest : List Character) : Prop :=
  ∀ c, rest.head? = some c → ¬l.Continues c

end NumberLiteral

/-- `exp` of `parse_number` behind an exponent. -/
def exponentLocal : Option Exponent → Int
  | none => 0
  | some e => wrap64 (digitsFrom 0 e.digits)

/-- `expneg` of `parse_number` behind an exponent. -/
def signLocal : Option Exponent → Int
  | none => 0
  | some e => e.sign.value

/-- The locals of `parse_number` behind the number. -/
def NumberLiteral.locals (l : NumberLiteral) : NumberLocals where
  int := naturalWrap64 (digitsFrom 0 l.int)
  frac := naturalWrap64 (digitsFrom 0 l.frac)
  fracExp := l.frac.length
  exp := exponentLocal l.exponent
  expneg := signLocal l.exponent

/-! ## Rounds of digits -/

section Rounds

variable {data rest digits : List Character} {s s' : NumberLocals} {n : ℕ} {c : Character}

theorem decimalValue_bounds (digit : c.isDecimalDigit = true) : 0 ≤ c.decimalValue ∧ c.decimalValue ≤ 9 := by
  unfold Character.isDecimalDigit at digit
  rw [Bool.and_eq_true, decide_eq_true_eq, decide_eq_true_eq] at digit
  unfold Character.decimalValue
  omega

theorem naturalWrap64_digit (n d : ℕ) :
    naturalWrap64 (naturalWrap64 (naturalWrap64 n * 10) + d) = naturalWrap64 (n * 10 + d) := by
  unfold naturalWrap64
  omega

theorem wrap64_digit (digit : c.isDecimalDigit = true) (n : ℕ) :
    wrap64 (wrap64 (wrap64 (n : Int) * 10) + c.decimalValue) =
      wrap64 ((n * 10 + c.decimalValue.toNat : ℕ) : Int) := by
  have low := (decimalValue_bounds digit).1
  rw [wrap64_wrap64_mul, wrap64_wrap64_add]
  congr 1
  omega

/-- The text goes on, with a character of some kind. -/
def StopsAt (rest : List Character) (stops : Character → Prop) : Prop :=
  ∃ c rest', rest = c :: rest' ∧ stops c

theorem AllDigits.cons (digit : c.isDecimalDigit = true) (all : AllDigits digits) : AllDigits (c :: digits) := by
  intro d mem
  rcases List.mem_cons.mp mem with rfl | mem
  · exact digit
  · exact all d mem

theorem AllDigits.tail (all : AllDigits (c :: digits)) : AllDigits digits :=
  fun d mem => all d (List.mem_cons_of_mem _ mem)

theorem exists_digits (data : List Character) :
    ∃ digits tail, data = digits ++ tail ∧ AllDigits digits ∧ ∀ c, tail.head? = some c → c.isDecimalDigit = false := by
  induction data with
  | nil => exact ⟨[], [], rfl, fun _ mem => (List.not_mem_nil mem).elim, fun _ found => nomatch found⟩
  | cons item data ih =>
    by_cases digit : item.isDecimalDigit = true
    · obtain ⟨digits, tail, rfl, all, stops⟩ := ih
      exact ⟨item :: digits, tail, rfl, all.cons digit, stops⟩
    · refine ⟨[], item :: data, rfl, fun _ mem => (List.not_mem_nil mem).elim, fun c found => ?_⟩
      cases found
      exact Bool.eq_false_iff.mpr digit

/-- A state that reads digits: `f` tells the locals by the number and how many digits it has. -/
theorem numberLoop_digits {state : NumberState} (f : ℕ → ℕ → NumberLocals)
    (reads : ∀ n k c, c.isDecimalDigit = true →
      numberRound c (f n k) state = .next (state, f (n * 10 + c.decimalValue.toNat) (k + 1)))
    (all : AllDigits digits) (n k : ℕ) (data : List Character) :
    numberLoop state (f n k) (digits ++ data) =
      numberLoop state (f (digitsFrom n digits) (k + digits.length)) data := by
  induction digits generalizing n k with
  | nil => rfl
  | cons item digits ih =>
    rw [List.cons_append, numberLoop, reads n k item (all item List.mem_cons_self), List.length_cons,
      show k + (digits.length + 1) = k + 1 + digits.length by omega]
    exact ih all.tail _ _

/-- The locals while an exponent is read. -/
def exponentLocals (s : NumberLocals) (n _ : ℕ) : NumberLocals :=
  { s with exp := wrap64 n }

/-- The locals while a fraction is read. -/
def fractionLocals (s : NumberLocals) (n k : ℕ) : NumberLocals :=
  { s with frac := naturalWrap64 n, fracExp := k }

/-- The locals while the integer part is read. -/
def integralLocals (n _ : ℕ) : NumberLocals :=
  { NumberLocals.blank with int := naturalWrap64 n }

theorem exponentLocals_reads (s : NumberLocals) (n k : ℕ) (c : Character) (digit : c.isDecimalDigit = true) :
    numberRound c (exponentLocals s n k) .exponentialNext =
      .next (.exponentialNext, exponentLocals s (n * 10 + c.decimalValue.toNat) (k + 1)) := by
  unfold exponentLocals
  rw [numberRound, if_pos digit, wrap64_digit digit]

theorem fractionLocals_reads (s : NumberLocals) (n k : ℕ) (c : Character) (digit : c.isDecimalDigit = true) :
    numberRound c (fractionLocals s n k) .fractional =
      .next (.fractional, fractionLocals s (n * 10 + c.decimalValue.toNat) (k + 1)) := by
  unfold fractionLocals
  rw [numberRound, if_pos digit, naturalWrap64_digit]
  rfl

theorem not_special_of_digit (digit : c.isDecimalDigit = true) :
    c ≠ '.'.toUInt8 ∧ c ≠ 'e'.toUInt8 ∧ c ≠ 'E'.toUInt8 ∧ c ≠ '+'.toUInt8 ∧ c ≠ '-'.toUInt8 := by
  refine ⟨?_, ?_, ?_, ?_, ?_⟩ <;>
  · intro same
    rw [same] at digit
    exact absurd digit (by decide)

theorem integralLocals_reads (n k : ℕ) (c : Character) (digit : c.isDecimalDigit = true) :
    numberRound c (integralLocals n k) .integral =
      .next (.integral, integralLocals (n * 10 + c.decimalValue.toNat) (k + 1)) := by
  obtain ⟨point, mark, mark', -⟩ := not_special_of_digit digit
  unfold integralLocals
  rw [numberRound, if_neg point, if_neg (by tauto), if_pos digit, naturalWrap64_digit]

/-! ## The parts of a number -/

/-- The rest of an exponent, behind its first digit. -/
theorem exponentialNext_iff {k : ℕ} :
    numberLoop .exponentialNext (exponentLocals s n k) data = (.ok s', rest) ↔
      ∃ digits, data = digits ++ rest ∧ AllDigits digits ∧
        StopsAt rest (fun c => c.isDecimalDigit = false) ∧ s' = exponentLocals s (digitsFrom n digits) 0 := by
  constructor
  · intro run
    obtain ⟨digits, tail, rfl, all, stops⟩ := exists_digits data
    rw [numberLoop_digits _ (exponentLocals_reads s) all] at run
    cases tail with
    | nil => cases run
    | cons c tail =>
      have stop := stops c rfl
      rw [numberLoop, numberRound, if_neg (Bool.eq_false_iff.mp stop)] at run
      cases run
      exact ⟨digits, rfl, all, ⟨c, tail, rfl, stop⟩, rfl⟩
  · intro found
    obtain ⟨digits, rfl, all, ⟨c, tail, rfl, stop⟩, rfl⟩ := found
    rw [numberLoop_digits _ (exponentLocals_reads s) all, numberLoop, numberRound, if_neg (Bool.eq_false_iff.mp stop)]
    rfl

theorem wrap64_decimalValue (digit : c.isDecimalDigit = true) :
    wrap64 (c.decimalValue.toNat : Int) = c.decimalValue := by
  have bounds := decimalValue_bounds digit
  rw [Int.toNat_of_nonneg bounds.1]
  exact wrap64_of_inRange (by omega) (by omega)

theorem digitsFrom_cons (n : ℕ) (c : Character) (digits : List Character) :
    digitsFrom n (c :: digits) = digitsFrom (n * 10 + c.decimalValue.toNat) digits :=
  rfl

theorem exponentialSigned_iff :
    numberLoop .exponentialSigned s data = (.ok s', rest) ↔
      ∃ digits, digits ≠ [] ∧ data = digits ++ rest ∧ AllDigits digits ∧
        StopsAt rest (fun c => c.isDecimalDigit = false) ∧ s' = exponentLocals s (digitsFrom 0 digits) 0 := by
  cases data with
  | nil =>
    refine iff_of_false (nomatch ·) fun found => ?_
    obtain ⟨digits, nonempty, same, -⟩ := found
    exact nonempty (List.append_eq_nil_iff.mp same.symm).1
  | cons c data =>
    rw [numberLoop, numberRound]
    by_cases digit : c.isDecimalDigit = true
    · have first : ({ s with exp := c.decimalValue } : NumberLocals) = exponentLocals s c.decimalValue.toNat 0 := by
        unfold exponentLocals
        rw [wrap64_decimalValue digit]
      rw [if_pos digit]
      rw [first, exponentialNext_iff]
      constructor
      · intro found
        obtain ⟨digits, rfl, all, stops, rfl⟩ := found
        refine ⟨c :: digits, List.cons_ne_nil _ _, rfl, all.cons digit, stops, ?_⟩
        rw [digitsFrom_cons, Nat.zero_mul, Nat.zero_add]
      · intro found
        obtain ⟨digits, nonempty, same, all, stops, rfl⟩ := found
        cases digits with
        | nil => exact absurd rfl nonempty
        | cons c' digits =>
          cases same
          refine ⟨digits, rfl, all.tail, stops, ?_⟩
          rw [digitsFrom_cons, Nat.zero_mul, Nat.zero_add]
    · rw [if_neg digit]
      refine iff_of_false (nomatch ·) fun found => ?_
      obtain ⟨digits, nonempty, same, all, -⟩ := found
      cases digits with
      | nil => exact nonempty rfl
      | cons c' digits =>
        cases same
        exact digit (all c List.mem_cons_self)

theorem exponential_iff :
    numberLoop .exponential s data = (.ok s', rest) ↔
      ∃ sign digits, digits ≠ [] ∧ data = ExponentSign.text sign ++ (digits ++ rest) ∧ AllDigits digits ∧
        StopsAt rest (fun c => c.isDecimalDigit = false) ∧
          s' = exponentLocals { s with expneg := sign.value } (digitsFrom 0 digits) 0 := by
  have signed : ∀ (c : Character) (data : List Character) (sign : ExponentSign), ExponentSign.text sign = [c] →
      c.isDecimalDigit = false → (∀ other : ExponentSign, ∀ d text, other.text = d :: text → d = c → other = sign) →
      (numberLoop .exponentialSigned { s with expneg := sign.value } data = (.ok s', rest) ↔
        ∃ sign digits, digits ≠ [] ∧ c :: data = ExponentSign.text sign ++ (digits ++ rest) ∧ AllDigits digits ∧
          StopsAt rest (fun c => c.isDecimalDigit = false) ∧
            s' = exponentLocals { s with expneg := sign.value } (digitsFrom 0 digits) 0) := by
    intro c data sign text notDigit only
    rw [exponentialSigned_iff]
    constructor
    · intro found
      obtain ⟨digits, nonempty, rfl, all, stops, rfl⟩ := found
      exact ⟨sign, digits, nonempty, by rw [text]; rfl, all, stops, rfl⟩
    · intro found
      obtain ⟨other, digits, nonempty, same, all, stops, rfl⟩ := found
      cases first : other.text with
      | nil =>
        rw [first] at same
        cases digits with
        | nil => exact absurd rfl nonempty
        | cons d digits =>
          cases same
          rw [all c List.mem_cons_self] at notDigit
          cases notDigit
      | cons d more =>
        rw [first] at same
        obtain rfl := only other d more first (List.cons.inj same).1.symm
        rw [text] at first
        cases first
        exact ⟨digits, nonempty, (List.cons.inj same).2, all, stops, rfl⟩
  cases data with
  | nil =>
    refine iff_of_false (nomatch ·) fun found => ?_
    obtain ⟨sign, digits, nonempty, same, -⟩ := found
    exact nonempty (List.append_eq_nil_iff.mp (List.append_eq_nil_iff.mp same.symm).2).1
  | cons c data =>
    rw [numberLoop, numberRound]
    by_cases plus : c = '+'.toUInt8
    · rw [if_pos plus]
      subst plus
      refine signed _ data .plus rfl (by decide) fun other d text first same => ?_
      cases other with
      | none => cases first
      | plus => rfl
      | minus =>
        cases first
        cases same
    · rw [if_neg plus]
      by_cases minus : c = '-'.toUInt8
      · rw [if_pos minus]
        subst minus
        refine signed _ data .minus rfl (by decide) fun other d text first same => ?_
        cases other with
        | none => cases first
        | plus =>
          cases first
          cases same
        | minus => rfl
      · rw [if_neg minus]
        -- Without a sign, the character is read like the first one behind a plus.
        have unsigned : numberLoop .exponentialSigned { s with expneg := 1 } (c :: data) = (.ok s', rest) ↔ _ :=
          exponentialSigned_iff
        rw [numberLoop, numberRound] at unsigned
        refine unsigned.trans ?_
        constructor
        · intro found
          obtain ⟨digits, nonempty, same, all, stops, rfl⟩ := found
          exact ⟨.none, digits, nonempty, same, all, stops, rfl⟩
        · intro found
          obtain ⟨sign, digits, nonempty, same, all, stops, rfl⟩ := found
          cases sign with
          | none => exact ⟨digits, nonempty, same, all, stops, rfl⟩
          | plus => exact absurd (List.cons.inj same).1 plus
          | minus => exact absurd (List.cons.inj same).1 minus

/-- The mark of an exponent. -/
def IsMark (c : Character) : Prop :=
  c = 'e'.toUInt8 ∨ c = 'E'.toUInt8

/-- What is read behind the mark of an exponent is an exponent. -/
theorem exponential_iff_exponent (isMark : IsMark c) :
    numberLoop .exponential s data = (.ok s', rest) ↔
      ∃ e : Exponent, c :: data = e.text ++ rest ∧ StopsAt rest (fun c => c.isDecimalDigit = false) ∧
        s' = { s with exp := exponentLocal (some e), expneg := signLocal (some e) } := by
  rw [exponential_iff]
  constructor
  · intro found
    obtain ⟨sign, digits, nonempty, rfl, all, stops, rfl⟩ := found
    refine ⟨⟨c, sign, digits, isMark, nonempty, all⟩, ?_, stops, rfl⟩
    unfold Exponent.text
    rw [List.cons_append, List.append_assoc]
  · intro found
    obtain ⟨e, same, stops, rfl⟩ := found
    refine ⟨e.sign, e.digits, e.nonempty, ?_, e.areDigits, stops, rfl⟩
    unfold Exponent.text at same
    rw [List.cons_append, List.append_assoc] at same
    exact (List.cons.inj same).2

theorem exponentText_head {e : Exponent} {text : List Character} (same : c :: text = e.text ++ rest) : IsMark c := by
  rw [(List.cons.inj same).1]
  exact e.isMark

/-- The locals when a number has been read. -/
def readLocals (int : ℕ) (frac : List Character) (o : Option Exponent) : NumberLocals where
  int := naturalWrap64 int
  frac := naturalWrap64 (digitsFrom 0 frac)
  fracExp := frac.length
  exp := exponentLocal o
  expneg := signLocal o

theorem fractional_iff {i n k : ℕ} :
    numberLoop .fractional (fractionLocals (integralLocals i 0) n k) data = (.ok s', rest) ↔
      ∃ digits o, AllDigits digits ∧ data = digits ++ (exponentText o ++ rest) ∧
        StopsAt rest (fun c => c.isDecimalDigit = false ∧ (o = none → ¬IsMark c)) ∧
          s' = { fractionLocals (integralLocals i 0) (digitsFrom n digits) (k + digits.length) with
            exp := exponentLocal o, expneg := signLocal o } := by
  constructor
  · intro run
    obtain ⟨digits, tail, rfl, all, stops⟩ := exists_digits data
    rw [numberLoop_digits _ (fractionLocals_reads _) all] at run
    cases tail with
    | nil => cases run
    | cons c tail =>
      have stop := stops c rfl
      rw [numberLoop, numberRound, if_neg (Bool.eq_false_iff.mp stop)] at run
      by_cases isMark : c = 'e'.toUInt8 ∨ c = 'E'.toUInt8
      · rw [if_pos isMark] at run
        obtain ⟨e, same, stops, rfl⟩ := (exponential_iff_exponent isMark).mp run
        refine ⟨digits, some e, all, by rw [same]; rfl, ?_, rfl⟩
        obtain ⟨c, rest', rfl, stop⟩ := stops
        exact ⟨c, rest', rfl, stop, (nomatch ·)⟩
      · rw [if_neg isMark] at run
        cases run
        exact ⟨digits, none, all, rfl, ⟨c, tail, rfl, stop, fun _ => isMark⟩, rfl⟩
  · intro found
    obtain ⟨digits, o, all, rfl, ⟨c, tail, rfl, stop, unmarked⟩, rfl⟩ := found
    rw [numberLoop_digits _ (fractionLocals_reads _) all]
    cases o with
    | none =>
      have plain : ¬(c = 'e'.toUInt8 ∨ c = 'E'.toUInt8) := unmarked rfl
      change numberLoop .fractional _ (c :: tail) = _
      rw [numberLoop, numberRound, if_neg (Bool.eq_false_iff.mp stop), if_neg plain]
      rfl
    | some e =>
      have notDigit : e.mark.isDecimalDigit ≠ true := by
        intro digit
        obtain ⟨-, mark, mark', -⟩ := not_special_of_digit digit
        exact e.isMark.elim mark mark'
      change numberLoop .fractional _ (e.mark :: (_ ++ c :: tail)) = _
      rw [numberLoop, numberRound, if_neg notDigit, if_pos e.isMark]
      exact (exponential_iff_exponent e.isMark).mpr ⟨e, rfl, ⟨c, tail, rfl, stop⟩, rfl⟩

theorem fractionalFirst_iff {i : ℕ} :
    numberLoop .fractionalFirst (integralLocals i 0) data = (.ok s', rest) ↔
      ∃ frac o, frac ≠ [] ∧ AllDigits frac ∧ data = frac ++ (exponentText o ++ rest) ∧
        StopsAt rest (fun c => c.isDecimalDigit = false ∧ (o = none → ¬IsMark c)) ∧ s' = readLocals i frac o := by
  cases data with
  | nil =>
    refine iff_of_false (nomatch ·) fun found => ?_
    obtain ⟨frac, o, nonempty, -, same, -⟩ := found
    exact nonempty (List.append_eq_nil_iff.mp same.symm).1
  | cons c data =>
    rw [numberLoop, numberRound]
    by_cases digit : c.isDecimalDigit = true
    · have bounds := decimalValue_bounds digit
      have first : ({ integralLocals i 0 with frac := c.decimalValue.toNat, fracExp := 1 } : NumberLocals) =
          fractionLocals (integralLocals i 0) c.decimalValue.toNat 1 := by
        unfold fractionLocals naturalWrap64
        rw [Nat.mod_eq_of_lt (by omega)]
        rfl
      rw [if_pos digit]
      rw [first, fractional_iff]
      have total : ∀ digits : List Character, ((1 + digits.length : ℕ) : Int) = ((c :: digits).length : ℕ) := by
        intro digits
        rw [List.length_cons, Nat.add_comm]
      constructor
      · intro found
        obtain ⟨digits, o, all, rfl, stops, rfl⟩ := found
        refine ⟨c :: digits, o, List.cons_ne_nil _ _, all.cons digit, rfl, stops, ?_⟩
        unfold readLocals fractionLocals
        rw [digitsFrom_cons, Nat.zero_mul, Nat.zero_add, ← total]
        rfl
      · intro found
        obtain ⟨frac, o, nonempty, all, same, stops, rfl⟩ := found
        cases frac with
        | nil => exact absurd rfl nonempty
        | cons c' digits =>
          cases same
          refine ⟨digits, o, all.tail, rfl, stops, ?_⟩
          unfold readLocals fractionLocals
          rw [digitsFrom_cons, Nat.zero_mul, Nat.zero_add, ← total]
          rfl
    · rw [if_neg digit]
      refine iff_of_false (nomatch ·) fun found => ?_
      obtain ⟨frac, o, nonempty, all, same, -⟩ := found
      cases frac with
      | nil => exact nonempty rfl
      | cons c' digits =>
        cases same
        exact digit (all c List.mem_cons_self)

/-- A character that ends a number with this fraction and this exponent. -/
def StopsNumber (frac : List Character) (o : Option Exponent) (c : Character) : Prop :=
  c.isDecimalDigit = false ∧ (o = none → ¬IsMark c) ∧ (frac = [] → o = none → c ≠ '.'.toUInt8)

theorem not_isMark_point : ¬IsMark '.'.toUInt8 := by
  intro isMark
  cases isMark <;>
  · rename_i same
    exact absurd same (by decide)

theorem isDecimalDigit_of_isMark (isMark : IsMark c) : c.isDecimalDigit = false := by
  cases isMark with
  | inl same => rw [same]; rfl
  | inr same => rw [same]; rfl

/-- The characters from which the parts behind the integer part are told. -/
theorem behind_cases {frac : List Character} {o : Option Exponent}
    (same : c :: data = fractionText frac ++ (exponentText o ++ rest)) :
    (∃ digits d, frac = d :: digits ∧ c = '.'.toUInt8 ∧ data = frac ++ (exponentText o ++ rest)) ∨
      (∃ e, frac = [] ∧ o = some e ∧ IsMark c ∧ c :: data = e.text ++ rest) ∨
        (frac = [] ∧ o = none ∧ rest = c :: data) := by
  cases frac with
  | cons d digits =>
    cases same
    exact .inl ⟨digits, d, rfl, rfl, rfl⟩
  | nil =>
    cases o with
    | some e => exact .inr (.inl ⟨e, rfl, rfl, exponentText_head same, same⟩)
    | none => exact .inr (.inr ⟨rfl, rfl, same.symm⟩)

/-- What stands behind an integer part that has been read. -/
theorem integralEnd_iff {i : ℕ} (stop : c.isDecimalDigit = false) :
    numberLoop .integral (integralLocals i 0) (c :: data) = (.ok s', rest) ↔
      ∃ frac o, AllDigits frac ∧ c :: data = fractionText frac ++ (exponentText o ++ rest) ∧
        StopsAt rest (StopsNumber frac o) ∧ s' = readLocals i frac o := by
  have noDigits : AllDigits [] := fun _ mem => (List.not_mem_nil mem).elim
  rw [numberLoop, numberRound]
  by_cases point : c = '.'.toUInt8
  · rw [if_pos point]
    rw [fractionalFirst_iff]
    constructor
    · intro found
      obtain ⟨frac, o, nonempty, all, rfl, ⟨d, tail, rfl, stop, unmarked⟩, rfl⟩ := found
      refine ⟨frac, o, all, ?_, ⟨d, tail, rfl, stop, unmarked, fun blank => absurd blank nonempty⟩, rfl⟩
      cases frac with
      | nil => exact absurd rfl nonempty
      | cons f digits => rw [point]; rfl
    · intro found
      obtain ⟨frac, o, all, same, ⟨d, tail, atRest, stop, unmarked, noPoint⟩, rfl⟩ := found
      rcases behind_cases same with ⟨digits, f, rfl, -, more⟩ | ⟨e, -, -, isMark, -⟩ | ⟨rfl, rfl, whole⟩
      · exact ⟨f :: digits, o, List.cons_ne_nil _ _, all, more, ⟨d, tail, atRest, stop, unmarked⟩, rfl⟩
      · rw [point] at isMark
        exact absurd isMark not_isMark_point
      · obtain ⟨rfl, -⟩ := List.cons.inj (atRest.symm.trans whole)
        exact absurd point (noPoint rfl rfl)
  · rw [if_neg point]
    by_cases isMark : c = 'e'.toUInt8 ∨ c = 'E'.toUInt8
    · rw [if_pos isMark]
      rw [exponential_iff_exponent isMark]
      constructor
      · intro found
        obtain ⟨e, same, ⟨d, tail, rfl, stop⟩, rfl⟩ := found
        exact ⟨[], some e, noDigits, same, ⟨d, tail, rfl, stop, (nomatch ·), fun _ => (nomatch ·)⟩, rfl⟩
      · intro found
        obtain ⟨frac, o, all, same, ⟨d, tail, atRest, stop, unmarked, noPoint⟩, rfl⟩ := found
        rcases behind_cases same with ⟨digits, f, -, isPoint, -⟩ | ⟨e, rfl, rfl, -, more⟩ | ⟨rfl, rfl, whole⟩
        · exact absurd isPoint point
        · exact ⟨e, more, ⟨d, tail, atRest, stop⟩, rfl⟩
        · obtain ⟨rfl, -⟩ := List.cons.inj (atRest.symm.trans whole)
          exact absurd isMark (unmarked rfl)
    · rw [if_neg isMark, if_neg (Bool.eq_false_iff.mp stop)]
      constructor
      · intro run
        cases run
        exact ⟨[], none, noDigits, rfl, ⟨c, data, rfl, stop, fun _ => isMark, fun _ _ => point⟩, rfl⟩
      · intro found
        obtain ⟨frac, o, all, same, -, rfl⟩ := found
        rcases behind_cases same with ⟨digits, f, -, isPoint, -⟩ | ⟨e, -, -, marked, -⟩ | ⟨rfl, rfl, rfl⟩
        · exact absurd isPoint point
        · exact absurd marked isMark
        · rfl

/-- The rest of an integer part, and what stands behind it. -/
theorem integral_iff {n : ℕ} :
    numberLoop .integral (integralLocals n 0) data = (.ok s', rest) ↔
      ∃ digits frac o, AllDigits digits ∧ AllDigits frac ∧
        data = digits ++ (fractionText frac ++ (exponentText o ++ rest)) ∧ StopsAt rest (StopsNumber frac o) ∧
          s' = readLocals (digitsFrom n digits) frac o := by
  constructor
  · intro run
    obtain ⟨digits, tail, rfl, all, stops⟩ := exists_digits data
    rw [numberLoop_digits _ integralLocals_reads all] at run
    cases tail with
    | nil => cases run
    | cons c tail =>
      obtain ⟨frac, o, fracDigits, same, stop, rfl⟩ := (integralEnd_iff (stops c rfl)).mp run
      exact ⟨digits, frac, o, all, fracDigits, by rw [same], stop, rfl⟩
  · intro found
    obtain ⟨digits, frac, o, all, fracDigits, rfl, stop, rfl⟩ := found
    rw [numberLoop_digits _ integralLocals_reads all]
    obtain ⟨d, rest', atRest, stopped⟩ := id stop
    cases behind : fractionText frac ++ (exponentText o ++ rest) with
    | nil =>
      rw [atRest] at behind
      exact absurd (List.append_eq_nil_iff.mp (List.append_eq_nil_iff.mp behind).2).2 (List.cons_ne_nil _ _)
    | cons c tail =>
      have notDigit : c.isDecimalDigit = false := by
        rcases behind_cases behind.symm with ⟨-, -, -, rfl, -⟩ | ⟨-, -, -, isMark, -⟩ | ⟨-, -, whole⟩
        · rfl
        · exact isDecimalDigit_of_isMark isMark
        · obtain ⟨rfl, -⟩ := List.cons.inj (atRest.symm.trans whole)
          exact stopped.1
      exact (integralEnd_iff notDigit).mpr ⟨frac, o, fracDigits, behind.symm, stop, rfl⟩

end Rounds

end JsonParser

end Liberty
