import Liberty.Library.Recognizer
import Liberty.Text.AbstractString
import Mathlib.Tactic.Abel

/-!
# is_real

The automaton of `is_real` and the grammar of its comment.  The automaton does not reject what ends at a
decimal point, at the mark of the exponent or at its sign, and it does without the digits before the
decimal point.  The values that it computes on its way decide on the range only: they are left out.
-/

namespace Liberty

namespace Character

/-- `' '`, `'%T'`, `'%N'`, `'%R'`, `'%U'` and `'%F'`. -/
def isSeparator (c : Character) : Bool :=
  c == 32 || c == 9 || c == 10 || c == 13 || c == 0 || c == 12

def plus : Character :=
  '+'.toUInt8

def minus : Character :=
  '-'.toUInt8

def point : Character :=
  '.'.toUInt8

end Character

open Character

/-! ## The source -/

/-- The states of `is_real`, from 0 to 9. -/
inductive RealState
  | nothing
  | sign
  | number
  | point
  | fraction
  | mark
  | exponentSign
  | exponent
  | after
  | error
  deriving DecidableEq

namespace RealState

/-- The `inspect` of `is_real`; there is no branch for the last state. -/
def next (state : RealState) (cc : Character) : Option RealState :=
  match state with
  | nothing =>
    if cc.isSeparator then some nothing
    else if cc = plus then some sign
    else if cc = minus then some sign
    else if cc.isDecimalDigit then some number
    else if cc = Character.point then some point
    else some error
  | sign =>
    if cc.isDecimalDigit then some number else if cc = Character.point then some point else some error
  | number =>
    if cc.isDecimalDigit then some number
    else if cc = Character.point then some point
    else if cc = 'e'.toUInt8 ∨ cc = 'E'.toUInt8 then some mark
    else if cc.isSeparator then some after
    else some error
  | point => if cc.isDecimalDigit then some fraction else some error
  | fraction =>
    if cc.isDecimalDigit then some fraction
    else if cc.isSeparator then some after
    else if cc = 'e'.toUInt8 ∨ cc = 'E'.toUInt8 then some mark
    else some error
  | mark =>
    if cc = minus then some exponentSign
    else if cc = plus then some exponentSign
    else if cc.isDecimalDigit then some exponent
    else some error
  | exponentSign => if cc.isDecimalDigit then some exponent else some error
  | exponent =>
    if cc.isDecimalDigit then some exponent else if cc.isSeparator then some after else some error
  | after => if cc.isSeparator then some after else some error
  | error => none

/-- `state /= 0 and then state /= 9 and then state /= 1` -/
def accepting (state : RealState) : Bool :=
  state != nothing && state != error && state != sign

end RealState

/-- The state in which the loop of `is_real` ends. -/
def realAutomaton (a : AbstractString) : Option RealState :=
  recognize (· == .error) RealState.next a.item 1 a.count .nothing

/-! ## The grammar -/

namespace RealGrammar

open Computability

def separator : Language Character :=
  letter fun c => c.isSeparator = true

def sign : Language Character :=
  letter fun c => c = plus ∨ c = minus

def digit : Language Character :=
  letter fun c => c.isDecimalDigit = true

def decimalPoint : Language Character :=
  letter fun c => c = point

def mark : Language Character :=
  letter fun c => c = 'e'.toUInt8 ∨ c = 'E'.toUInt8

def optional (l : Language Character) : Language Character :=
  1 + l

def integer : Language Character :=
  digit * digit∗

def integerLiteral : Language Character :=
  optional sign * integer

def decimalLiteral : Language Character :=
  integerLiteral * optional (decimalPoint * integer)

def exponentPart : Language Character :=
  mark * integerLiteral

def realLiteral : Language Character :=
  decimalLiteral * optional exponentPart

/-- A real literal between separators. -/
def realText : Language Character :=
  separator∗ * (realLiteral * separator∗)

theorem separator_eq : separator = letter fun c => c.isSeparator = true :=
  rfl

theorem sign_eq : sign = letter fun c => c = plus ∨ c = minus :=
  rfl

theorem digit_eq : digit = letter fun c => c.isDecimalDigit = true :=
  rfl

theorem decimalPoint_eq : decimalPoint = letter fun c => c = point :=
  rfl

theorem mark_eq : mark = letter fun c => c = 'e'.toUInt8 ∨ c = 'E'.toUInt8 :=
  rfl

theorem optional_eq (l : Language Character) : optional l = 1 + l :=
  rfl

theorem integer_eq : integer = digit * digit∗ :=
  rfl

theorem realText_parts : realText = separator∗ * (optional sign * integer * optional (decimalPoint * integer) *
    optional (mark * (optional sign * integer)) * separator∗) :=
  rfl

/-- What ends at the decimal point, at the mark of the exponent or at its sign. -/
def unfinished : Language Character :=
  separator∗ * (optional sign * (optional integer * decimalPoint)) +
    separator∗ * (optional sign * ((integer * optional (decimalPoint * integer) + decimalPoint * integer) *
      (mark * optional sign)))

/-- A real literal without digits before its decimal point, between separators. -/
def withoutInteger : Language Character :=
  separator∗ * (optional sign * (decimalPoint * integer) * optional exponentPart * separator∗)

theorem unfinished_parts : unfinished =
    separator∗ * (optional sign * (optional integer * decimalPoint)) +
      separator∗ * (optional sign * ((integer * optional (decimalPoint * integer) + decimalPoint * integer) *
        (mark * optional sign))) :=
  rfl

theorem withoutInteger_parts : withoutInteger =
    separator∗ * (optional sign * (decimalPoint * integer) * optional (mark * (optional sign * integer)) *
      separator∗) :=
  rfl

end RealGrammar

/-! ## The letters -/

/-- What the automaton and the grammar tell apart. -/
inductive RealLetter
  | separator
  | sign
  | digit
  | point
  | mark
  | other
  deriving DecidableEq

def Character.realLetter (c : Character) : RealLetter :=
  if c.isSeparator then .separator
  else if c = plus ∨ c = minus then .sign
  else if c.isDecimalDigit then .digit
  else if c = point then .point
  else if c = 'e'.toUInt8 ∨ c = 'E'.toUInt8 then .mark
  else .other

section Letters

variable {c : Character}

/-- A fact of all characters, code by code. -/
theorem Character.of_codes (P : Character → Prop) (all : ∀ k : Fin 256, P (UInt8.ofNat k)) (c : Character) :
    P c := by
  have here := all ⟨c.toNat, c.toNat_lt⟩
  rwa [UInt8.ofNat_toNat] at here

/-- The comparisons of the machine, by the kinds of letters. -/
theorem realLetter_spec : (c.isSeparator = true ↔ c.realLetter = .separator) ∧
    (c = plus ∨ c = minus ↔ c.realLetter = .sign) ∧ (c.isDecimalDigit = true ↔ c.realLetter = .digit) ∧
    (c = point ↔ c.realLetter = .point) ∧ (c = 'e'.toUInt8 ∨ c = 'E'.toUInt8 ↔ c.realLetter = .mark) :=
  of_codes (fun c => (c.isSeparator = true ↔ c.realLetter = .separator) ∧
    (c = plus ∨ c = minus ↔ c.realLetter = .sign) ∧ (c.isDecimalDigit = true ↔ c.realLetter = .digit) ∧
    (c = point ↔ c.realLetter = .point) ∧ (c = 'e'.toUInt8 ∨ c = 'E'.toUInt8 ↔ c.realLetter = .mark))
    (by decide +kernel) c

theorem isSeparator_iff : c.isSeparator = true ↔ c.realLetter = .separator :=
  realLetter_spec.1

theorem isSign_iff : c = plus ∨ c = minus ↔ c.realLetter = .sign :=
  realLetter_spec.2.1

theorem isDecimalDigit_iff : c.isDecimalDigit = true ↔ c.realLetter = .digit :=
  realLetter_spec.2.2.1

theorem isPoint_iff : c = point ↔ c.realLetter = .point :=
  realLetter_spec.2.2.2.1

theorem isMark_iff : c = 'e'.toUInt8 ∨ c = 'E'.toUInt8 ↔ c.realLetter = .mark :=
  realLetter_spec.2.2.2.2

end Letters

namespace RealState

/-- The transitions, by the kind of the letter. -/
@[simp] def step : RealState → RealLetter → RealState
  | nothing, .separator => nothing
  | nothing, .sign => sign
  | nothing, .digit => number
  | nothing, .point => point
  | sign, .digit => number
  | sign, .point => point
  | number, .digit => number
  | number, .point => point
  | number, .mark => mark
  | number, .separator => after
  | point, .digit => fraction
  | fraction, .digit => fraction
  | fraction, .separator => after
  | fraction, .mark => mark
  | mark, .sign => exponentSign
  | mark, .digit => exponent
  | exponentSign, .digit => exponent
  | exponent, .digit => exponent
  | exponent, .separator => after
  | after, .separator => after
  | _, _ => error

theorem next_eq {state : RealState} (going : state ≠ error) (c : Character) :
    state.next c = some (state.step c.realLetter) := by
  obtain ⟨separator, sign, digit, point, mark⟩ := @realLetter_spec c
  cases state <;> cases kind : c.realLetter <;> simp_all [next, step] <;> tauto

end RealState

open RealGrammar Computability

/-- The texts that lead from a state to an accepting one. -/
def realAccepted : RealState → Language Character :=
  accepted (· == .error) RealState.next RealState.accepting

section Accepted

variable {state : RealState} {c : Character} {xs : List Character}

theorem nil_mem_realAccepted : [] ∈ realAccepted state ↔ state.accepting = true :=
  nil_mem_accepted

theorem cons_mem_realAccepted (going : state ≠ .error) :
    c :: xs ∈ realAccepted state ↔ xs ∈ realAccepted (state.step c.realLetter) :=
  cons_mem_accepted (beq_false_of_ne going) (RealState.next_eq going c)

theorem realAccepted_error : xs ∉ realAccepted .error :=
  mem_accepted_error rfl rfl

theorem realAccepted_after : realAccepted .after = separator∗ := by
  ext xs
  induction xs with
  | nil => exact iff_of_true (nil_mem_realAccepted.mpr rfl) nil_mem_kstar
  | cons c xs ih =>
    rw [separator_eq] at ih ⊢
    rw [cons_mem_realAccepted (by decide), cons_mem_kstar, isSeparator_iff]
    cases kind : c.realLetter <;> simp [realAccepted_error, ih]

theorem realAccepted_exponent : realAccepted .exponent = digit∗ * separator∗ := by
  ext xs
  induction xs with
  | nil => exact iff_of_true (nil_mem_realAccepted.mpr rfl) (nil_mem_kstar_mul.mpr nil_mem_kstar)
  | cons c xs ih =>
    rw [digit_eq, separator_eq] at ih ⊢
    rw [cons_mem_realAccepted (by decide), cons_mem_kstar_mul, cons_mem_kstar, isSeparator_iff,
      isDecimalDigit_iff]
    cases kind : c.realLetter <;> simp [realAccepted_error, ih, realAccepted_after, separator_eq]

theorem realAccepted_exponentSign : realAccepted .exponentSign = 1 + digit * realAccepted .exponent := by
  ext xs
  cases xs with
  | nil => exact iff_of_true (nil_mem_realAccepted.mpr rfl) (.inl rfl)
  | cons c xs =>
    rw [digit_eq]
    rw [cons_mem_realAccepted (by decide), Language.mem_add, cons_mem_letter_mul, isDecimalDigit_iff]
    cases kind : c.realLetter <;> simp [realAccepted_error, Language.mem_one]

theorem realAccepted_mark : realAccepted .mark =
    1 + sign * realAccepted .exponentSign + digit * realAccepted .exponent := by
  ext xs
  cases xs with
  | nil => exact iff_of_true (nil_mem_realAccepted.mpr rfl) (.inl (.inl rfl))
  | cons c xs =>
    rw [sign_eq, digit_eq]
    rw [cons_mem_realAccepted (by decide), Language.mem_add, Language.mem_add, cons_mem_letter_mul,
      cons_mem_letter_mul, isDecimalDigit_iff, isSign_iff]
    cases kind : c.realLetter <;> simp [realAccepted_error, Language.mem_one]

theorem realAccepted_fraction : realAccepted .fraction =
    digit∗ * (separator∗ + mark * realAccepted .mark) := by
  ext xs
  induction xs with
  | nil =>
    exact iff_of_true (nil_mem_realAccepted.mpr rfl) (nil_mem_kstar_mul.mpr (.inl nil_mem_kstar))
  | cons c xs ih =>
    rw [digit_eq, separator_eq, mark_eq] at ih ⊢
    rw [cons_mem_realAccepted (by decide), cons_mem_kstar_mul, Language.mem_add, cons_mem_kstar,
      cons_mem_letter_mul, isSeparator_iff, isDecimalDigit_iff, isMark_iff]
    cases kind : c.realLetter <;> simp [realAccepted_error, ih, realAccepted_after, separator_eq]

theorem realAccepted_point : realAccepted .point = 1 + digit * realAccepted .fraction := by
  ext xs
  cases xs with
  | nil => exact iff_of_true (nil_mem_realAccepted.mpr rfl) (.inl rfl)
  | cons c xs =>
    rw [digit_eq]
    rw [cons_mem_realAccepted (by decide), Language.mem_add, cons_mem_letter_mul, isDecimalDigit_iff]
    cases kind : c.realLetter <;> simp [realAccepted_error, Language.mem_one]

theorem realAccepted_number : realAccepted .number =
    digit∗ * (separator∗ + decimalPoint * realAccepted .point + mark * realAccepted .mark) := by
  ext xs
  induction xs with
  | nil =>
    exact iff_of_true (nil_mem_realAccepted.mpr rfl) (nil_mem_kstar_mul.mpr (.inl (.inl nil_mem_kstar)))
  | cons c xs ih =>
    rw [digit_eq, separator_eq, decimalPoint_eq, mark_eq] at ih ⊢
    rw [cons_mem_realAccepted (by decide), cons_mem_kstar_mul, Language.mem_add, Language.mem_add,
      cons_mem_kstar, cons_mem_letter_mul, cons_mem_letter_mul, isSeparator_iff, isDecimalDigit_iff,
      isPoint_iff, isMark_iff]
    cases kind : c.realLetter <;> simp [realAccepted_error, ih, realAccepted_after, separator_eq]

theorem realAccepted_sign : realAccepted .sign =
    digit * realAccepted .number + decimalPoint * realAccepted .point := by
  ext xs
  cases xs with
  | nil =>
    refine iff_of_false (fun mem => nomatch nil_mem_realAccepted.mp mem) fun mem => ?_
    rcases mem with mem | mem
    · exact nil_notMem_letter_mul mem
    · exact nil_notMem_letter_mul mem
  | cons c xs =>
    rw [digit_eq, decimalPoint_eq]
    rw [cons_mem_realAccepted (by decide), Language.mem_add, cons_mem_letter_mul, cons_mem_letter_mul,
      isDecimalDigit_iff, isPoint_iff]
    cases kind : c.realLetter <;> simp [realAccepted_error]

theorem realAccepted_nothing : realAccepted .nothing =
    separator∗ * (sign * realAccepted .sign + realAccepted .sign) := by
  rw [realAccepted_sign]
  ext xs
  induction xs with
  | nil =>
    refine iff_of_false (fun mem => nomatch nil_mem_realAccepted.mp mem) fun mem => ?_
    rcases nil_mem_kstar_mul.mp mem with mem | mem | mem
    · exact nil_notMem_letter_mul mem
    · exact nil_notMem_letter_mul mem
    · exact nil_notMem_letter_mul mem
  | cons c xs ih =>
    rw [digit_eq, separator_eq, sign_eq, decimalPoint_eq] at ih ⊢
    rw [cons_mem_realAccepted (by decide), cons_mem_kstar_mul, Language.mem_add, Language.mem_add,
      cons_mem_letter_mul, cons_mem_letter_mul, cons_mem_letter_mul, isSeparator_iff, isDecimalDigit_iff,
      isPoint_iff, isSign_iff]
    cases kind : c.realLetter <;>
      simp [realAccepted_error, ih, realAccepted_sign, digit_eq, decimalPoint_eq]

/-- What comes after the mark of an exponent. -/
theorem realAccepted_mark_eq : realAccepted .mark =
    RealGrammar.optional sign + RealGrammar.optional sign * (integer * separator∗) := by
  rw [realAccepted_mark, realAccepted_exponentSign, realAccepted_exponent]
  rw [optional_eq, integer_eq]
  simp only [mul_add, add_mul, mul_one, one_mul, mul_assoc]
  rw [add_assoc, add_assoc, add_comm (digit * _), add_assoc]

theorem digit_mul_fraction : digit * realAccepted .fraction =
    integer * (separator∗ + mark * realAccepted .mark) := by
  rw [realAccepted_fraction, ← mul_assoc]
  rfl

theorem digit_mul_number : digit * realAccepted .number = integer *
    (separator∗ + decimalPoint * (1 + digit * realAccepted .fraction) + mark * realAccepted .mark) := by
  rw [realAccepted_number, realAccepted_point, ← mul_assoc]
  rfl

theorem realAccepted_nothing_eq : realAccepted .nothing =
    separator∗ * (RealGrammar.optional sign * realAccepted .sign) := by
  rw [realAccepted_nothing]
  rw [optional_eq, add_mul, one_mul, add_comm]

/-- The automaton accepts the grammar, and more. -/
theorem realAccepted_eq : realAccepted .nothing = realText + (unfinished + withoutInteger) := by
  rw [realAccepted_nothing_eq, realAccepted_sign, digit_mul_number, realAccepted_point, digit_mul_fraction,
    realAccepted_mark_eq]
  rw [realText_parts, unfinished_parts, withoutInteger_parts]
  generalize integer = i, decimalPoint = p, mark = m, RealGrammar.optional sign = g, separator∗ = s
  simp only [optional_eq, mul_add, add_mul, mul_one, one_mul, mul_assoc]
  abel

/-! ## What is accepted beyond the grammar -/

theorem getLast?_of_mem_mul_letter {p : Character → Prop} {l : Language Character} (mem : xs ∈ l * letter p) :
    ∃ x, p x ∧ xs.getLast? = some x := by
  obtain ⟨front, -, -, ⟨x, passes, rfl⟩, rfl⟩ := mem
  exact ⟨x, passes, List.getLast?_concat⟩

/-- What comes before the last digits of a real literal. -/
def beforeLastInteger : Language Character :=
  separator∗ * (RealGrammar.optional sign * (1 + integer * decimalPoint +
    (integer + integer * (decimalPoint * integer)) * (mark * RealGrammar.optional sign)))

theorem beforeLastInteger_eq : beforeLastInteger =
    separator∗ * (RealGrammar.optional sign * (1 + integer * decimalPoint +
      (integer + integer * (decimalPoint * integer)) * (mark * RealGrammar.optional sign))) :=
  rfl

theorem realText_eq : realText = beforeLastInteger * (digit * (digit∗ * separator∗)) := by
  rw [realText_parts, beforeLastInteger_eq]
  simp only [optional_eq, integer_eq, mul_add, add_mul, mul_one, one_mul, mul_assoc]

/-- A real literal ends in a digit, and then come the separators. -/
theorem getLast?_realText (mem : xs ∈ realText) :
    ∃ x, (x.isDecimalDigit = true ∨ x.isSeparator = true) ∧ xs.getLast? = some x := by
  rw [realText_eq] at mem
  obtain ⟨front, -, -, ⟨-, ⟨d, isDigit, rfl⟩, -, ⟨digits, areDigits, separators, areSeparators, rfl⟩, rfl⟩, rfl⟩ := mem
  have each : ∀ x ∈ d :: (digits ++ separators), x.isDecimalDigit = true ∨ x.isSeparator = true := by
    intro x mem
    rcases List.mem_cons.mp mem with same | mem
    · exact .inl (same ▸ isDigit)
    · rcases List.mem_append.mp mem with mem | mem
      · exact .inl (mem_kstar_letter.mp areDigits x mem)
      · exact .inr (mem_kstar_letter.mp areSeparators x mem)
  have nonempty : d :: (digits ++ separators) ≠ [] := List.cons_ne_nil _ _
  refine ⟨(d :: (digits ++ separators)).getLast nonempty, each _ (List.getLast_mem nonempty), ?_⟩
  exact (List.getLast?_append_of_ne_nil _ nonempty).trans (List.getLast?_eq_some_getLast nonempty)

/-- What comes before the mark of an exponent in an unfinished literal. -/
def beforeMark : Language Character :=
  separator∗ * (RealGrammar.optional sign *
    (integer * RealGrammar.optional (decimalPoint * integer) + decimalPoint * integer))

theorem beforeMark_eq : beforeMark = separator∗ * (RealGrammar.optional sign *
    (integer * RealGrammar.optional (decimalPoint * integer) + decimalPoint * integer)) :=
  rfl

theorem unfinished_eq : unfinished =
    separator∗ * (RealGrammar.optional sign * RealGrammar.optional integer) * decimalPoint +
      (beforeMark * mark + beforeMark * mark * sign) := by
  rw [unfinished_parts, beforeMark_eq]
  simp only [optional_eq, mul_add, add_mul, mul_one, one_mul, mul_assoc]

theorem notMem_realText_of_unfinished (mem : xs ∈ unfinished) : xs ∉ realText := by
  intro literal
  obtain ⟨x, last, found⟩ := getLast?_realText literal
  have other : ∃ y, (y = point ∨ (y = 'e'.toUInt8 ∨ y = 'E'.toUInt8) ∨ y = plus ∨ y = minus) ∧
      xs.getLast? = some y := by
    rw [unfinished_eq] at mem
    rcases mem with mem | mem | mem
    · obtain ⟨y, isPoint, found⟩ := getLast?_of_mem_mul_letter mem
      exact ⟨y, .inl isPoint, found⟩
    · obtain ⟨y, isMark, found⟩ := getLast?_of_mem_mul_letter mem
      exact ⟨y, .inr (.inl isMark), found⟩
    · obtain ⟨y, isSign, found⟩ := getLast?_of_mem_mul_letter mem
      exact ⟨y, .inr (.inr isSign), found⟩
  obtain ⟨y, different, found'⟩ := other
  cases found.symm.trans found'
  rw [isDecimalDigit_iff, isSeparator_iff] at last
  rw [isPoint_iff, isMark_iff, isSign_iff] at different
  rcases last with last | last <;> simp [last] at different

theorem notMem_of_head {l l' : Language Character} (mem : xs ∈ (letter fun c => c = point) * l) :
    xs ∉ (letter fun c => c.isDecimalDigit = true) * l' := by
  cases xs with
  | nil => exact nil_notMem_letter_mul
  | cons c xs =>
    rw [cons_mem_letter_mul, isPoint_iff] at mem
    rw [cons_mem_letter_mul, isDecimalDigit_iff, mem.1]
    exact fun both => nomatch both.1

/-- After the separators and the sign comes a digit or the decimal point. -/
theorem notMem_of_point {l l' : Language Character}
    (mem : xs ∈ separator∗ * (RealGrammar.optional sign * (decimalPoint * l))) :
    xs ∉ separator∗ * (RealGrammar.optional sign * (digit * l')) := by
  rw [optional_eq, separator_eq, sign_eq, decimalPoint_eq, add_mul, one_mul] at mem
  rw [optional_eq, separator_eq, sign_eq, digit_eq, add_mul, one_mul]
  induction xs with
  | nil =>
    rcases nil_mem_kstar_mul.mp mem with mem | mem
    · exact absurd mem nil_notMem_letter_mul
    · exact absurd mem nil_notMem_letter_mul
  | cons c xs ih =>
    rw [cons_mem_kstar_mul, Language.mem_add, cons_mem_letter_mul, cons_mem_letter_mul, isSeparator_iff,
      isPoint_iff, isSign_iff] at mem
    rw [cons_mem_kstar_mul, Language.mem_add, cons_mem_letter_mul, cons_mem_letter_mul, isSeparator_iff,
      isDecimalDigit_iff, isSign_iff]
    cases kind : c.realLetter with
    | separator =>
      simp [kind] at mem ⊢
      exact ih mem
    | sign =>
      simp [kind] at mem ⊢
      exact notMem_of_head mem
    | digit => simp [kind] at mem
    | point => simp
    | mark => simp
    | other => simp

theorem notMem_realText_of_withoutInteger (mem : xs ∈ withoutInteger) : xs ∉ realText := by
  have before : ∃ l, withoutInteger = separator∗ * (RealGrammar.optional sign * (decimalPoint * l)) := by
    refine ⟨integer * (RealGrammar.optional (mark * (RealGrammar.optional sign * integer)) * separator∗), ?_⟩
    rw [withoutInteger_parts]
    simp only [mul_assoc]
  have digits : ∃ l, realText = separator∗ * (RealGrammar.optional sign * (digit * l)) := by
    refine ⟨digit∗ * (RealGrammar.optional (decimalPoint * integer) *
      (RealGrammar.optional (mark * (RealGrammar.optional sign * integer)) * separator∗)), ?_⟩
    rw [realText_parts]
    simp only [integer_eq, mul_assoc]
  obtain ⟨l, before⟩ := before
  obtain ⟨l', digits⟩ := digits
  rw [before] at mem
  rw [digits]
  exact notMem_of_point mem

theorem runAlong_realState (xs : List Character) (state : RealState) :
    ∃ t, runAlong (· == .error) RealState.next xs state = some t := by
  induction xs generalizing state with
  | nil => exact ⟨state, rfl⟩
  | cons c xs ih =>
    by_cases stopped : state = .error
    · exact ⟨state, runAlong_error (beq_iff_eq.mpr stopped)⟩
    · obtain ⟨t, run⟩ := ih (state.step c.realLetter)
      refine ⟨t, ?_⟩
      have going : (state == RealState.error) = false := beq_false_of_ne stopped
      have step : runAlong (· == .error) RealState.next (c :: xs) state =
          state.next c >>= runAlong (· == .error) RealState.next xs := runAlong_cons going
      rw [step, RealState.next_eq stopped]
      exact run

end Accepted

/-- **The automaton of `is_real` accepts what the grammar produces between separators, and nothing else,
exactly on the texts that do not end at a decimal point, a mark or a sign of the exponent, and that have
digits before their decimal point.** -/
theorem realAutomaton_iff {a : AbstractString} (h : a.Readable) : ∃ state, realAutomaton a = some state ∧
    ((state.accepting = true ↔ a.chars ∈ realText) ↔ a.chars ∉ unfinished + withoutInteger) := by
  obtain ⟨state, run⟩ := runAlong_realState a.chars .nothing
  have loop : realAutomaton a = some state := by
    rw [← run]
    refine recognize_eq (fun k x found => ?_) ?_
    · rw [Int.add_comm]
      exact h.spells.item_eq k x found
    · rw [h.spells.count_eq]
      exact Int.add_comm _ _
  have accepts : state.accepting = true ↔ a.chars ∈ realAccepted .nothing := by
    constructor
    · exact fun accepting => ⟨state, run, accepting⟩
    · rintro ⟨t, run', accepting⟩
      cases run.symm.trans run'
      exact accepting
  refine ⟨state, loop, ?_⟩
  rw [accepts, realAccepted_eq, Language.mem_add]
  constructor
  · intro same more
    rcases more with more | more
    · exact notMem_realText_of_unfinished more (same.mp (.inr (.inl more)))
    · exact notMem_realText_of_withoutInteger more (same.mp (.inr (.inr more)))
  · exact fun exact' => or_iff_left exact'

/-! ## Runs -/

/-- The text `1.5`. -/
theorem realAutomaton_half : ∃ state, realAutomaton (.string (.spelling [49, 46, 53])) = some state ∧
    ((state.accepting = true ↔ AbstractString.chars (.string (.spelling [49, 46, 53])) ∈ realText) ↔
      AbstractString.chars (.string (.spelling [49, 46, 53])) ∉ unfinished + withoutInteger) :=
  realAutomaton_iff (NativelyStoredString.readable_spelling [49, 46, 53])

/-- The text `1.` is accepted. -/
theorem not_realAutomaton_exact : ¬∀ a : AbstractString, a.Readable →
    ∃ state, realAutomaton a = some state ∧ (state.accepting = true ↔ a.chars ∈ realText) := by
  intro claim
  obtain ⟨state, run, exact'⟩ := claim (.string (.spelling [49, 46])) (NativelyStoredString.readable_spelling _)
  cases run
  have literal := exact'.mp rfl
  obtain ⟨x, last, found⟩ := getLast?_realText literal
  cases found
  exact absurd last (by decide)

end Liberty
