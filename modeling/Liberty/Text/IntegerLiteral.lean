import Liberty.Numeric.Integer32
import Liberty.Text.RealLiteral

/-!
# is_integer and to_integer

The automaton of `is_integer` watches the value that it accumulates, one digit before an overflow;
`to_integer` accumulates the opposite of the value.  The features for INTEGER_64 are the same with another
width.
-/

namespace Liberty

open Character

/-! ## The source -/

/-- The states of `is_integer`, from 0 to 5. -/
inductive IntegerState
  | nothing
  | sign
  | error
  | number
  | critical
  | after
  deriving DecidableEq

/-- The local variables of `is_integer`. -/
structure IntegerScan where
  state : IntegerState
  value : Int
  bound : Int
  criticalBound : Int

namespace IntegerScan

def start : IntegerScan where
  state := .nothing
  value := 0
  bound := 0
  criticalBound := 0

/-- `bound` and `critical_bound` of a number that is not negative. -/
def setPositiveBounds (width : ℕ) (s : IntegerScan) : IntegerScan :=
  { s with bound := (maximumOf width).tmod 10, criticalBound := (maximumOf width).tdiv 10 }

/-- `bound` and `critical_bound` after a minus sign. -/
def setNegativeBounds (width : ℕ) (s : IntegerScan) : Option IntegerScan := do
  return { s with
    bound := ← checked width (-(minimumOf width).tmod 10)
    criticalBound := ← checked width (-(minimumOf width).tdiv 10) }

/-- The digit after a number that is not critical. -/
def nextDigit (width : ℕ) (s : IntegerScan) (digit : Int) : Option IntegerScan := do
  let value ← checked width ((← checked width (10 * s.value)) + digit)
  return if value ≥ s.criticalBound then { s with value, state := .critical } else { s with value }

/-- The `inspect` of `is_integer`; there is no branch for the state of error. -/
def next (width : ℕ) (s : IntegerScan) (cc : Character) : Option IntegerScan :=
  match s.state with
  | .nothing =>
    if cc.isSeparator then some s
    else if cc = plus then some { s.setPositiveBounds width with state := .sign }
    else if cc = minus then do return { ← s.setNegativeBounds width with state := .sign }
    else if cc.isDecimalDigit then
      some { s.setPositiveBounds width with value := cc.decimalValue, state := .number }
    else some { s with state := .error }
  | .sign =>
    if cc.isDecimalDigit then some { s with value := cc.decimalValue, state := .number }
    else some { s with state := .error }
  | .number =>
    if cc.isDecimalDigit then s.nextDigit width cc.decimalValue
    else if cc.isSeparator then some { s with state := .after }
    else some { s with state := .error }
  | .critical =>
    if cc.isDecimalDigit then
      if s.value > s.criticalBound then some { s with state := .error }
      else if cc.decimalValue ≤ s.bound then some { s with state := .after }
      else some { s with state := .error }
    else if cc.isSeparator then some { s with state := .after }
    else some { s with state := .error }
  | .after => if cc.isSeparator then some s else some { s with state := .error }
  | .error => none

/-- `state >= 3` -/
def accepting (s : IntegerScan) : Bool :=
  s.state == .number || s.state == .critical || s.state == .after

end IntegerScan

namespace AbstractString

/-- `is_integer` and `is_integer_64`. -/
def isIntegerOf (width : ℕ) (a : AbstractString) : Option Bool := do
  let s ← recognize (fun s : IntegerScan => s.state == .error) (IntegerScan.next width) a.item 1 a.count .start
  return s.accepting

/-- The loop of `to_integer` that goes past the separators. -/
def skipSeparators (a : AbstractString) : Option Int :=
  untilLoop (fun i => do return !(← a.item i).isSeparator) (fun i => some (i + 1)) a.count.toNat 1

/-- The sign, the first character after it and the next index. -/
def readSign (a : AbstractString) (i : Int) : Option (Bool × Character × Int) := do
  let cc ← a.item i
  if cc = plus then return (false, ← a.item (i + 1), i + 2)
  else if cc = minus then return (true, ← a.item (i + 1), i + 2)
  else return (false, cc, i + 1)

/-- One round of the loop over the digits; another character ends the loop. -/
def nextResult (width : ℕ) (a : AbstractString) (s : Int × Int) : Option (Int × Int) := do
  let cc ← a.item s.1
  if cc.isDecimalDigit then
    return (s.1 + 1, ← checked width ((← checked width (10 * s.2)) - cc.decimalValue))
  else return (a.count + 1, s.2)

/-- `to_integer` and `to_integer_64`. -/
def toIntegerOf (width : ℕ) (a : AbstractString) : Option Int := do
  let (negative, cc, i) ← a.readSign (← a.skipSeparators)
  let result ← checked width (-cc.decimalValue)
  let (_, result) ← untilLoop (fun s => some (decide (s.1 > a.count))) (a.nextResult width)
    a.count.toNat (i, result)
  if negative then return result else checked width (-result)

def isInteger (a : AbstractString) : Option Bool :=
  a.isIntegerOf 32

def isInteger64 (a : AbstractString) : Option Bool :=
  a.isIntegerOf 64

def toInteger (a : AbstractString) : Option Int :=
  a.toIntegerOf 32

def toInteger64 (a : AbstractString) : Option Int :=
  a.toIntegerOf 64

end AbstractString

/-! ## Literals -/

/-- What a sequence of digits makes of the number before it. -/
def numeralFrom (v : Int) (digits : List Character) : Int :=
  digits.foldl (fun v d => 10 * v + d.decimalValue) v

/-- The text of an integer: between separators, a sequence of digits, perhaps with a sign. -/
structure IntegerText (xs : List Character) (v : Int) where
  before : List Character
  sign : List Character
  digits : List Character
  behind : List Character
  parts : xs = before ++ (sign ++ (digits ++ behind))
  separatorsBefore : ∀ c ∈ before, c.isSeparator = true
  separatorsBehind : ∀ c ∈ behind, c.isSeparator = true
  signs : sign = [] ∨ sign = [plus] ∨ sign = [minus]
  nonempty : digits ≠ []
  areDigits : ∀ c ∈ digits, c.isDecimalDigit = true
  value_eq : v = if sign = [minus] then -numeralFrom 0 digits else numeralFrom 0 digits

/-- The text denotes the integer. -/
def Denotes (xs : List Character) (v : Int) : Prop :=
  Nonempty (IntegerText xs v)

section Numerals

variable {v limit : Int} {c : Character} {xs digits : List Character}

theorem decimalValue_of_digit (isDigit : c.isDecimalDigit = true) : 0 ≤ c.decimalValue ∧ c.decimalValue ≤ 9 := by
  unfold isDecimalDigit at isDigit
  rw [Bool.and_eq_true, decide_eq_true_iff, decide_eq_true_iff] at isDigit
  unfold decimalValue
  omega

/-- The number does not get smaller, digit by digit. -/
theorem le_numeralFrom (nonneg : 0 ≤ v) (areDigits : ∀ c ∈ digits, c.isDecimalDigit = true) :
    v ≤ numeralFrom v digits := by
  induction digits generalizing v with
  | nil => exact Int.le_refl _
  | cons d digits ih =>
    have value := decimalValue_of_digit (areDigits d List.mem_cons_self)
    have rest := ih (v := 10 * v + d.decimalValue) (by omega) fun c mem => areDigits c (List.mem_cons_of_mem d mem)
    change v ≤ numeralFrom (10 * v + d.decimalValue) digits
    omega

/-- The digits and then the separators of what is left of a text, where the number stays in its limit. -/
def Finishes (limit v : Int) (xs : List Character) : Prop :=
  ∃ digits behind, xs = digits ++ behind ∧ (∀ c ∈ digits, c.isDecimalDigit = true) ∧
    (∀ c ∈ behind, c.isSeparator = true) ∧ numeralFrom v digits ≤ limit

theorem not_separator_of_digit (isDigit : c.isDecimalDigit = true) : c.isSeparator = false := by
  rw [isDecimalDigit_iff] at isDigit
  refine Bool.eq_false_iff.mpr fun isSeparator => ?_
  rw [isSeparator_iff, isDigit] at isSeparator
  cases isSeparator

theorem finishes_nil (le : v ≤ limit) : Finishes limit v [] :=
  ⟨[], [], rfl, fun _ mem => (nomatch mem), fun _ mem => (nomatch mem), le⟩

theorem finishes_digit (isDigit : c.isDecimalDigit = true) :
    Finishes limit v (c :: xs) ↔ Finishes limit (10 * v + c.decimalValue) xs := by
  constructor
  · rintro ⟨digits, behind, parts, areDigits, areSeparators, le⟩
    cases digits with
    | nil =>
      rw [List.nil_append] at parts
      have isSeparator := areSeparators c (parts ▸ List.mem_cons_self)
      rw [not_separator_of_digit isDigit] at isSeparator
      cases isSeparator
    | cons d digits =>
      obtain ⟨rfl, rest⟩ := List.cons.inj (parts.trans (List.cons_append ..))
      exact ⟨digits, behind, rest, fun c mem => areDigits c (List.mem_cons_of_mem _ mem), areSeparators, le⟩
  · rintro ⟨digits, behind, parts, areDigits, areSeparators, le⟩
    refine ⟨c :: digits, behind, congrArg (c :: ·) parts, ?_, areSeparators, le⟩
    exact List.forall_mem_cons.mpr ⟨isDigit, areDigits⟩

theorem finishes_of_not_digit (notDigit : c.isDecimalDigit = false) :
    Finishes limit v (c :: xs) ↔ v ≤ limit ∧ c.isSeparator = true ∧ ∀ x ∈ xs, x.isSeparator = true := by
  constructor
  · rintro ⟨digits, behind, parts, areDigits, areSeparators, le⟩
    cases digits with
    | nil =>
      rw [List.nil_append] at parts
      rw [← parts] at areSeparators
      exact ⟨le, List.forall_mem_cons.mp areSeparators⟩
    | cons d digits =>
      obtain ⟨rfl, -⟩ := List.cons.inj (parts.trans (List.cons_append ..))
      have isDigit := areDigits c List.mem_cons_self
      rw [notDigit] at isDigit
      cases isDigit
  · rintro ⟨le, first, rest⟩
    exact ⟨[], c :: xs, rfl, fun _ mem => (nomatch mem), List.forall_mem_cons.mpr ⟨first, rest⟩, le⟩

theorem not_finishes (nonneg : 0 ≤ v) (less : limit < v) : ¬Finishes limit v xs := by
  rintro ⟨digits, behind, -, areDigits, -, le⟩
  have grows := le_numeralFrom nonneg areDigits
  omega

end Numerals

/-! ## The automaton -/

section Automaton

variable {width : ℕ} {critical bound v : Int} {s : IntegerScan} {c : Character} {xs : List Character}

theorem IntegerScan.next_sign (state : s.state = .sign) : s.next width c =
    some (if c.isDecimalDigit then { s with value := c.decimalValue, state := .number }
      else { s with state := .error }) := by
  unfold next
  rw [state]
  dsimp only
  split <;> rfl

theorem IntegerScan.next_number (state : s.state = .number) : s.next width c =
    if c.isDecimalDigit then s.nextDigit width c.decimalValue
    else some (if c.isSeparator then { s with state := .after } else { s with state := .error }) := by
  unfold next
  rw [state]
  dsimp only
  split
  · rfl
  · split <;> rfl

theorem IntegerScan.next_critical (state : s.state = .critical) : s.next width c =
    some (if c.isDecimalDigit then
      if s.value > s.criticalBound then { s with state := .error }
      else if c.decimalValue ≤ s.bound then { s with state := .after } else { s with state := .error }
    else if c.isSeparator then { s with state := .after } else { s with state := .error }) := by
  unfold next
  rw [state]
  dsimp only
  split
  · split
    · rfl
    · split <;> rfl
  · split <;> rfl

theorem IntegerScan.next_after (state : s.state = .after) : s.next width c =
    some (if c.isSeparator then s else { s with state := .error }) := by
  unfold next
  rw [state]
  dsimp only
  split <;> rfl

/-- The loop ends, and accepts exactly where the proposition holds. -/
def Decides (width : ℕ) (xs : List Character) (s : IntegerScan) (P : Prop) : Prop :=
  ∃ t, runAlong (fun s : IntegerScan => s.state == .error) (IntegerScan.next width) xs s = some t ∧
    (t.accepting = true ↔ P)

theorem decides_nil {P : Prop} (same : s.accepting = true ↔ P) : Decides width [] s P :=
  ⟨s, rfl, same⟩

theorem decides_cons {P : Prop} {t : IntegerScan} (going : s.state ≠ .error) (step : s.next width c = some t)
    (rest : Decides width xs t P) : Decides width (c :: xs) s P := by
  obtain ⟨u, run, same⟩ := rest
  refine ⟨u, ?_, same⟩
  have stays : (s.state == .error) = false := beq_false_of_ne going
  have first : runAlong (fun s : IntegerScan => s.state == .error) (IntegerScan.next width) (c :: xs) s =
      s.next width c >>= runAlong (fun s : IntegerScan => s.state == .error) (IntegerScan.next width) xs :=
    runAlong_cons stays
  rw [first, step]
  exact run

theorem decides_error {P : Prop} (stopped : s.state = .error) (fails : ¬P) : Decides width xs s P := by
  have stays : (fun s : IntegerScan => s.state == .error) s = true := beq_iff_eq.mpr stopped
  refine ⟨s, runAlong_error stays, iff_of_false ?_ fails⟩
  unfold IntegerScan.accepting
  rw [stopped]
  decide

theorem Decides.congr {P Q : Prop} (h : Decides width xs s P) (same : P ↔ Q) : Decides width xs s Q := by
  obtain ⟨t, run, accepts⟩ := h
  exact ⟨t, run, accepts.trans same⟩

theorem IntegerScan.accepting_iff : s.accepting = true ↔
    s.state = .number ∨ s.state = .critical ∨ s.state = .after := by
  unfold accepting
  cases s.state <;> decide

/-- After the number only separators are accepted. -/
theorem decides_after (state : s.state = .after) :
    Decides width xs s (∀ c ∈ xs, c.isSeparator = true) := by
  induction xs with
  | nil =>
    exact decides_nil (iff_of_true (IntegerScan.accepting_iff.mpr (.inr (.inr state))) fun _ mem => nomatch mem)
  | cons c xs ih =>
    have going : s.state ≠ .error := by
      rw [state]
      decide
    by_cases isSeparator : c.isSeparator = true
    · refine decides_cons going ?_ (ih.congr ?_)
      · rw [IntegerScan.next_after state, if_pos isSeparator]
      · rw [List.forall_mem_cons]
        exact (and_iff_right isSeparator).symm
    · refine decides_cons (t := { s with state := .error }) going ?_ (decides_error rfl ?_)
      · rw [IntegerScan.next_after state, if_neg isSeparator]
      · exact fun all => isSeparator (all c List.mem_cons_self)

/-- What the automaton holds in the middle of a number `v`. -/
structure InNumber (critical bound : Int) (s : IntegerScan) (v : Int) : Prop where
  nonneg : 0 ≤ v
  critical_eq : s.criticalBound = critical
  bound_eq : s.bound = bound
  states : s.state = .number ∧ s.value = v ∧ v < critical ∨
    s.state = .critical ∧ s.value = v ∧ critical ≤ v ∧ v < 10 * critical ∨
      s.state = .after ∧ 10 * critical ≤ v ∧ v ≤ 10 * critical + bound

theorem InNumber.le (h : InNumber critical bound s v) (positive : 0 < critical) (nonneg : 0 ≤ bound) :
    v ≤ 10 * critical + bound := by
  rcases h.states with ⟨-, -, less⟩ | ⟨-, -, -, less⟩ | ⟨-, -, le⟩
  · omega
  · omega
  · exact le

/-- In the middle of a number, the automaton accepts what finishes it in the limit. -/
theorem InNumber.decides (h : InNumber critical bound s v) (positive : 0 < critical) (nonneg : 0 ≤ bound)
    (small : bound ≤ 9) (fits : ∀ n, 0 ≤ n → n < 10 * critical → InWidth width n) :
    Decides width xs s (Finishes (10 * critical + bound) v xs) := by
  induction xs generalizing s v with
  | nil =>
    refine decides_nil (iff_of_true (IntegerScan.accepting_iff.mpr ?_) (finishes_nil (h.le positive nonneg)))
    rcases h.states with ⟨state, -⟩ | ⟨state, -⟩ | ⟨state, -⟩
    · exact .inl state
    · exact .inr (.inl state)
    · exact .inr (.inr state)
  | cons c xs ih =>
    have zero := h.nonneg
    by_cases isDigit : c.isDecimalDigit = true
    · have digit := decimalValue_of_digit isDigit
      have notSeparator := not_separator_of_digit isDigit
      refine Decides.congr ?_ (finishes_digit isDigit).symm
      rcases h.states with ⟨state, value, less⟩ | ⟨state, value, le, less⟩ | ⟨state, le, le'⟩
      · -- A number that is not critical takes one more digit.
        have going : s.state ≠ .error := by
          rw [state]
          decide
        have product : checked width (10 * s.value) = some (10 * v) := by
          rw [value]
          exact checked_eq (fits _ (by omega) (by omega))
        have sum : checked width (10 * v + c.decimalValue) = some (10 * v + c.decimalValue) :=
          checked_eq (fits _ (by omega) (by omega))
        have step : s.next width c = some (if 10 * v + c.decimalValue ≥ s.criticalBound then
            { s with value := 10 * v + c.decimalValue, state := .critical }
            else { s with value := 10 * v + c.decimalValue }) := by
          rw [IntegerScan.next_number state, if_pos isDigit]
          unfold IntegerScan.nextDigit
          rw [product, Returns.some_bind, sum, Returns.some_bind]
          split <;> rfl
        refine decides_cons going step (ih ?_)
        by_cases reached : 10 * v + c.decimalValue ≥ s.criticalBound
        · rw [if_pos reached]
          refine ⟨by omega, h.critical_eq, h.bound_eq, .inr (.inl ⟨rfl, rfl, ?_, by omega⟩)⟩
          rw [← h.critical_eq]
          exact reached
        · rw [if_neg reached]
          refine ⟨by omega, h.critical_eq, h.bound_eq, .inl ⟨state, rfl, ?_⟩⟩
          rw [← h.critical_eq]
          omega
      · -- The last digit of a critical number is compared with the bound.
        have going : s.state ≠ .error := by
          rw [state]
          decide
        have step : s.next width c = some (if s.value > s.criticalBound then { s with state := .error }
            else if c.decimalValue ≤ s.bound then { s with state := .after }
            else { s with state := .error }) := by
          rw [IntegerScan.next_critical state, if_pos isDigit]
        refine decides_cons going step ?_
        have criticalEq := h.critical_eq
        have boundEq := h.bound_eq
        by_cases big : s.value > s.criticalBound
        · rw [if_pos big]
          exact decides_error rfl (not_finishes (by omega) (by omega))
        · rw [if_neg big]
          by_cases last : c.decimalValue ≤ s.bound
          · rw [if_pos last]
            have full : InNumber critical bound { s with state := .after } (10 * v + c.decimalValue) :=
              ⟨by omega, h.critical_eq, h.bound_eq, .inr (.inr ⟨rfl, by omega, by omega⟩)⟩
            exact ih full
          · rw [if_neg last]
            exact decides_error rfl (not_finishes (by omega) (by omega))
      · -- No digit comes after a number of full length.
        have going : s.state ≠ .error := by
          rw [state]
          decide
        refine decides_cons (t := { s with state := .error }) going ?_
          (decides_error rfl (not_finishes (by omega) (by omega)))
        rw [IntegerScan.next_after state, notSeparator]
        rfl
    · have notDigit : c.isDecimalDigit = false := Bool.eq_false_iff.mpr isDigit
      refine Decides.congr ?_ (finishes_of_not_digit notDigit).symm
      have going : s.state ≠ .error := by
        rcases h.states with ⟨state, -⟩ | ⟨state, -⟩ | ⟨state, -⟩
        · rw [state]
          decide
        · rw [state]
          decide
        · rw [state]
          decide
      have step : ∃ t, s.next width c = some t ∧
          t.state = if c.isSeparator then .after else .error := by
        rcases h.states with ⟨state, -⟩ | ⟨state, -⟩ | ⟨state, -⟩
        · rw [IntegerScan.next_number state, if_neg isDigit]
          exact ⟨_, rfl, by split <;> rfl⟩
        · rw [IntegerScan.next_critical state, if_neg isDigit]
          exact ⟨_, rfl, by split <;> rfl⟩
        · rw [IntegerScan.next_after state]
          refine ⟨_, rfl, ?_⟩
          split
          · exact state
          · rfl
      obtain ⟨t, step, state⟩ := step
      refine decides_cons going step ?_
      by_cases isSeparator : c.isSeparator = true
      · rw [if_pos isSeparator] at state
        refine (decides_after state).congr ?_
        exact ⟨fun rest => ⟨h.le positive nonneg, isSeparator, rest⟩, fun all => all.2.2⟩
      · rw [if_neg isSeparator] at state
        exact decides_error state fun all => isSeparator all.2.1

/-- A digit, and what finishes the number that it begins. -/
def Number (limit : Int) (xs : List Character) : Prop :=
  ∃ d rest, xs = d :: rest ∧ d.isDecimalDigit = true ∧ Finishes limit d.decimalValue rest

theorem number_cons {limit : Int} : Number limit (c :: xs) ↔
    c.isDecimalDigit = true ∧ Finishes limit c.decimalValue xs := by
  constructor
  · rintro ⟨d, rest, same, isDigit, finishes⟩
    cases same
    exact ⟨isDigit, finishes⟩
  · exact fun ⟨isDigit, finishes⟩ => ⟨c, xs, rfl, isDigit, finishes⟩

theorem decides_sign (state : s.state = .sign) (criticalEq : s.criticalBound = critical) (boundEq : s.bound = bound)
    (big : 10 ≤ critical) (nonneg : 0 ≤ bound) (small : bound ≤ 9)
    (fits : ∀ n, 0 ≤ n → n < 10 * critical → InWidth width n) :
    Decides width xs s (Number (10 * critical + bound) xs) := by
  have going : s.state ≠ .error := by
    rw [state]
    decide
  cases xs with
  | nil =>
    refine decides_nil (iff_of_false (fun accepts => ?_) fun ⟨_, _, same, _⟩ => nomatch same)
    rcases IntegerScan.accepting_iff.mp accepts with other | other | other
    · cases state.symm.trans other
    · cases state.symm.trans other
    · cases state.symm.trans other
  | cons c xs =>
    refine Decides.congr ?_ number_cons.symm
    by_cases isDigit : c.isDecimalDigit = true
    · have digit := decimalValue_of_digit isDigit
      have inNumber : InNumber critical bound { s with value := c.decimalValue, state := .number } c.decimalValue :=
        ⟨digit.1, criticalEq, boundEq, .inl ⟨rfl, rfl, by omega⟩⟩
      refine decides_cons going ?_ ((inNumber.decides (by omega) nonneg small fits).congr ?_)
      · rw [IntegerScan.next_sign state, if_pos isDigit]
      · exact (and_iff_right isDigit).symm
    · refine decides_cons (t := { s with state := .error }) going ?_ (decides_error rfl fun all => isDigit all.1)
      rw [IntegerScan.next_sign state, if_neg isDigit]

/-- What `is_integer` accepts, from its first state on. -/
inductive Begins (width : ℕ) : List Character → Prop
  | separator {c : Character} {xs : List Character} (isSeparator : c.isSeparator = true)
      (rest : Begins width xs) : Begins width (c :: xs)
  | digits {xs : List Character} (number : Number (maximumOf width) xs) : Begins width xs
  | plus {xs : List Character} (number : Number (maximumOf width) xs) : Begins width (Character.plus :: xs)
  | minus {xs : List Character} (number : Number (-minimumOf width) xs) : Begins width (Character.minus :: xs)

theorem not_begins_nil : ¬Begins width [] := by
  intro begins
  cases begins with
  | digits number =>
    obtain ⟨_, _, same, -⟩ := number
    cases same

/-- The bounds of a width with three digits at least. -/
theorem positiveBounds (wide : 100 ≤ maximumOf width) : 10 ≤ (maximumOf width).tdiv 10 ∧
    0 ≤ (maximumOf width).tmod 10 ∧ (maximumOf width).tmod 10 ≤ 9 ∧
      10 * (maximumOf width).tdiv 10 + (maximumOf width).tmod 10 = maximumOf width := by
  rw [Int.tdiv_eq_ediv_of_nonneg (by omega), Int.tmod_eq_emod_of_nonneg (by omega)]
  omega

theorem negativeBounds (wide : 100 ≤ maximumOf width) : 10 ≤ -(minimumOf width).tdiv 10 ∧
    0 ≤ -(minimumOf width).tmod 10 ∧ -(minimumOf width).tmod 10 ≤ 9 ∧
      10 * -(minimumOf width).tdiv 10 + -(minimumOf width).tmod 10 = -minimumOf width := by
  have same : minimumOf width = -(maximumOf width + 1) := by
    rw [minimumOf_eq]
    omega
  rw [same, Int.neg_tdiv, Int.neg_tmod, Int.tdiv_eq_ediv_of_nonneg (by omega),
    Int.tmod_eq_emod_of_nonneg (by omega)]
  omega

theorem inWidth_of_nonneg {n : Int} (nonneg : 0 ≤ n) (le : n ≤ maximumOf width) : InWidth width n := by
  have low := minimumOf_eq width
  exact ⟨by omega, le⟩

theorem decides_start (wide : 100 ≤ maximumOf width) (state : s.state = .nothing) :
    Decides width xs s (Begins width xs) := by
  have going : s.state ≠ .error := by
    rw [state]
    decide
  obtain ⟨bigP, nonnegP, smallP, limitP⟩ := positiveBounds wide
  obtain ⟨bigN, nonnegN, smallN, limitN⟩ := negativeBounds wide
  have low := minimumOf_eq width
  induction xs with
  | nil =>
    refine decides_nil (iff_of_false (fun accepts => ?_) not_begins_nil)
    rcases IntegerScan.accepting_iff.mp accepts with other | other | other
    · cases state.symm.trans other
    · cases state.symm.trans other
    · cases state.symm.trans other
  | cons c xs ih =>
    have fitsP : ∀ n, 0 ≤ n → n < 10 * (maximumOf width).tdiv 10 → InWidth width n :=
      fun n nonneg less => inWidth_of_nonneg nonneg (by omega)
    have fitsN : ∀ n, 0 ≤ n → n < 10 * -(minimumOf width).tdiv 10 → InWidth width n :=
      fun n nonneg less => inWidth_of_nonneg nonneg (by omega)
    have separator := @isSeparator_iff c
    have sign := @isSign_iff c
    have digit := @isDecimalDigit_iff c
    by_cases isSeparator : c.isSeparator = true
    · have kind := separator.mp isSeparator
      refine decides_cons going ?_ (ih.congr ⟨.separator isSeparator, fun begins => ?_⟩)
      · unfold IntegerScan.next
        rw [state]
        exact if_pos isSeparator
      · cases begins with
        | separator _ rest => exact rest
        | digits number =>
          have isDigit := digit.mp (number_cons.mp number).1
          cases kind.symm.trans isDigit
        | plus number => cases kind.symm.trans (sign.mp (.inl rfl))
        | minus number => cases kind.symm.trans (sign.mp (.inr rfl))
    · by_cases isPlus : c = plus
      · have kind := sign.mp (.inl isPlus)
        have rest : Decides width xs { s.setPositiveBounds width with state := .sign }
            (Number (10 * (maximumOf width).tdiv 10 + (maximumOf width).tmod 10) xs) :=
          decides_sign rfl rfl rfl bigP nonnegP smallP fitsP
        rw [limitP] at rest
        refine decides_cons going ?_ (rest.congr ?_)
        · unfold IntegerScan.next
          rw [state]
          rw [if_neg isSeparator, if_pos isPlus]
        · subst isPlus
          refine ⟨.plus, fun begins => ?_⟩
          cases begins with
          | separator isSeparator' _ => exact absurd isSeparator' isSeparator
          | digits number => cases kind.symm.trans (digit.mp (number_cons.mp number).1)
          | plus number => exact number
      · by_cases isMinus : c = minus
        · have kind := sign.mp (.inr isMinus)
          have rest : Decides width xs { s with
              bound := -(minimumOf width).tmod 10
              criticalBound := -(minimumOf width).tdiv 10
              state := .sign }
              (Number (10 * -(minimumOf width).tdiv 10 + -(minimumOf width).tmod 10) xs) :=
            decides_sign rfl rfl rfl bigN nonnegN smallN fitsN
          rw [limitN] at rest
          refine decides_cons going ?_ (rest.congr ?_)
          · unfold IntegerScan.next IntegerScan.setNegativeBounds
            rw [state]
            rw [if_neg isSeparator, if_neg isPlus, if_pos isMinus,
              checked_eq (inWidth_of_nonneg nonnegN (by omega)),
              checked_eq (inWidth_of_nonneg (by omega) (by omega))]
            rfl
          · subst isMinus
            refine ⟨.minus, fun begins => ?_⟩
            cases begins with
            | separator isSeparator' _ => exact absurd isSeparator' isSeparator
            | digits number => cases kind.symm.trans (digit.mp (number_cons.mp number).1)
            | minus number => exact number
        · have begins_iff : Begins width (c :: xs) ↔ Number (maximumOf width) (c :: xs) := by
            refine ⟨fun begins => ?_, .digits⟩
            cases begins with
            | separator isSeparator' _ => exact absurd isSeparator' isSeparator
            | digits number => exact number
            | plus number => exact absurd rfl isPlus
            | minus number => exact absurd rfl isMinus
          refine Decides.congr ?_ (begins_iff.trans number_cons).symm
          by_cases isDigit : c.isDecimalDigit = true
          · have value := decimalValue_of_digit isDigit
            have inNumber : InNumber _ _
                { s.setPositiveBounds width with value := c.decimalValue, state := .number } c.decimalValue :=
              ⟨value.1, rfl, rfl, .inl ⟨rfl, rfl, by
                change _ < (maximumOf width).tdiv 10
                omega⟩⟩
            refine decides_cons going ?_ ((inNumber.decides ?_ nonnegP smallP fitsP).congr ?_)
            · unfold IntegerScan.next
              rw [state]
              rw [if_neg isSeparator, if_neg isPlus, if_neg isMinus, if_pos isDigit]
            · change 0 < (maximumOf width).tdiv 10
              omega
            · change Finishes (10 * (maximumOf width).tdiv 10 + (maximumOf width).tmod 10) _ _ ↔ _
              rw [limitP]
              exact (and_iff_right isDigit).symm
          · refine decides_cons (t := { s with state := .error }) going ?_
              (decides_error rfl fun all => isDigit all.1)
            unfold IntegerScan.next
            rw [state]
            rw [if_neg isSeparator, if_neg isPlus, if_neg isMinus, if_neg isDigit]

/-! ## The texts that are accepted -/

theorem numeralFrom_cons (v : Int) (d : Character) (digits : List Character) :
    numeralFrom v (d :: digits) = numeralFrom (10 * v + d.decimalValue) digits :=
  rfl

theorem numeralFrom_zero_cons (d : Character) (digits : List Character) :
    numeralFrom 0 (d :: digits) = numeralFrom d.decimalValue digits := by
  rw [numeralFrom_cons, Int.mul_zero, Int.zero_add]

theorem Number.exists_digits {limit : Int} (number : Number limit xs) : ∃ digits behind,
    xs = digits ++ behind ∧ digits ≠ [] ∧ (∀ c ∈ digits, c.isDecimalDigit = true) ∧
      (∀ c ∈ behind, c.isSeparator = true) ∧ 0 ≤ numeralFrom 0 digits ∧ numeralFrom 0 digits ≤ limit := by
  obtain ⟨d, rest, rfl, isDigit, digits, behind, rfl, areDigits, areSeparators, le⟩ := number
  have all : ∀ c ∈ d :: digits, c.isDecimalDigit = true := List.forall_mem_cons.mpr ⟨isDigit, areDigits⟩
  refine ⟨d :: digits, behind, rfl, List.cons_ne_nil _ _, all, areSeparators,
    le_numeralFrom (Int.le_refl _) all, ?_⟩
  rw [numeralFrom_zero_cons]
  exact le

theorem number_of_digits {limit : Int} {digits behind : List Character} (nonempty : digits ≠ [])
    (areDigits : ∀ c ∈ digits, c.isDecimalDigit = true) (areSeparators : ∀ c ∈ behind, c.isSeparator = true)
    (le : numeralFrom 0 digits ≤ limit) : Number limit (digits ++ behind) := by
  match digits, nonempty with
  | d :: digits, _ =>
    obtain ⟨isDigit, areDigits⟩ := List.forall_mem_cons.mp areDigits
    rw [numeralFrom_zero_cons] at le
    exact ⟨d, digits ++ behind, rfl, isDigit, digits, behind, rfl, areDigits, areSeparators, le⟩

theorem Begins.exists_denotes (begins : Begins width xs) : ∃ v, Denotes xs v ∧ InWidth width v := by
  have noSeparator : ∀ c ∈ ([] : List Character), c.isSeparator = true := fun _ mem => nomatch mem
  induction begins with
  | separator isSeparator _ ih =>
    obtain ⟨v, ⟨t⟩, inside⟩ := ih
    refine ⟨v, ⟨{ t with before := _ :: t.before, parts := congrArg _ t.parts, separatorsBefore := ?_ }⟩, inside⟩
    exact List.forall_mem_cons.mpr ⟨isSeparator, t.separatorsBefore⟩
  | digits number =>
    obtain ⟨digits, behind, rfl, nonempty, areDigits, areSeparators, nonneg, le⟩ := number.exists_digits
    exact ⟨_, ⟨⟨[], [], digits, behind, rfl, noSeparator, areSeparators, .inl rfl, nonempty, areDigits, rfl⟩⟩,
      inWidth_of_nonneg nonneg le⟩
  | plus number =>
    obtain ⟨digits, behind, rfl, nonempty, areDigits, areSeparators, nonneg, le⟩ := number.exists_digits
    exact ⟨_, ⟨⟨[], [Character.plus], digits, behind, rfl, noSeparator, areSeparators, .inr (.inl rfl), nonempty, areDigits,
      rfl⟩⟩, inWidth_of_nonneg nonneg le⟩
  | minus number =>
    obtain ⟨digits, behind, rfl, nonempty, areDigits, areSeparators, nonneg, le⟩ := number.exists_digits
    refine ⟨-numeralFrom 0 digits, ⟨⟨[], [Character.minus], digits, behind, rfl, noSeparator, areSeparators,
      .inr (.inr rfl), nonempty, areDigits, (if_pos rfl).symm⟩⟩, by omega, ?_⟩
    have high := maximumOf_nonneg width
    omega

theorem begins_of_denotes {v : Int} (t : IntegerText xs v) (inside : InWidth width v) : Begins width xs := by
  obtain ⟨before, sign, digits, behind, rfl, separatorsBefore, separatorsBehind, signs, nonempty, areDigits,
    value⟩ := t
  induction before with
  | cons c before ih =>
    obtain ⟨isSeparator, separatorsBefore⟩ := List.forall_mem_cons.mp separatorsBefore
    exact .separator isSeparator (ih separatorsBefore)
  | nil =>
    rcases signs with rfl | rfl | rfl
    · rw [if_neg (List.cons_ne_nil _ _).symm] at value
      change Begins width (digits ++ behind)
      exact .digits (number_of_digits nonempty areDigits separatorsBehind (value ▸ inside.2))
    · rw [if_neg (by decide)] at value
      change Begins width (plus :: (digits ++ behind))
      exact .plus (number_of_digits nonempty areDigits separatorsBehind (value ▸ inside.2))
    · rw [if_pos rfl] at value
      have low := inside.1
      change Begins width (minus :: (digits ++ behind))
      exact .minus (number_of_digits nonempty areDigits separatorsBehind (by omega))

end Automaton

/-! ## The conversion -/

namespace AbstractString

variable {a : AbstractString} {width : ℕ} {v : Int} {front before digits behind : List Character} {x : Character}

/-- **`is_integer` accepts the texts of the integers of the width.** -/
theorem Readable.isIntegerOf_iff (h : a.Readable) (wide : 100 ≤ maximumOf width) :
    ∃ b, a.isIntegerOf width = some b ∧ (b = true ↔ ∃ v, Denotes a.chars v ∧ InWidth width v) := by
  obtain ⟨t, run, accepts⟩ : Decides width a.chars .start (Begins width a.chars) := decides_start wide rfl
  refine ⟨t.accepting, ?_, accepts.trans ⟨Begins.exists_denotes, fun ⟨v, ⟨text⟩, inside⟩ =>
    begins_of_denotes text inside⟩⟩
  have loop : recognize (fun s : IntegerScan => s.state == .error) (IntegerScan.next width) a.item 1 a.count
      .start = some t := by
    rw [← run]
    refine recognize_eq (fun k x found => ?_) ?_
    · rw [Int.add_comm]
      exact h.spells.item_eq k x found
    · rw [h.spells.count_eq]
      exact Int.add_comm _ _
  unfold isIntegerOf
  rw [loop]
  rfl

/-- The character behind a part of the text. -/
theorem Readable.item_of_parts (h : a.Readable) (parts : a.chars = front ++ x :: behind) :
    a.item (front.length + 1) = some x := by
  refine h.spells.item_eq front.length x ?_
  rw [parts, List.getElem?_append_right (Nat.le_refl _), Nat.sub_self, List.getElem?_cons_zero]

theorem Readable.count_of_parts (h : a.Readable) (parts : a.chars = front ++ behind) :
    a.count = front.length + behind.length := by
  rw [h.spells.count_eq, parts, List.length_append, Int.natCast_add]

theorem Readable.skip_eq (h : a.Readable) (front : List Character) (fuel : ℕ)
    (parts : a.chars = front ++ (before ++ x :: behind))
    (areSeparators : ∀ c ∈ before, c.isSeparator = true) (stops : x.isSeparator = false)
    (enough : before.length ≤ fuel) :
    untilLoop (fun i => do return !(← a.item i).isSeparator) (fun i => some (i + 1)) fuel
      (front.length + 1 : Int) = some (front.length + before.length + 1 : Int) := by
  induction before generalizing front fuel with
  | nil =>
    rw [untilLoop_stopped]
    · rw [List.length_nil, Int.natCast_zero, Int.add_zero]
    · rw [h.item_of_parts parts, Returns.some_bind, stops]
      rfl
  | cons c before ih =>
    obtain ⟨isSeparator, areSeparators⟩ := List.forall_mem_cons.mp areSeparators
    rw [List.length_cons] at enough ⊢
    obtain ⟨fuel, rfl⟩ : ∃ k, fuel = k + 1 := ⟨fuel - 1, by omega⟩
    have parts' : a.chars = (front ++ [c]) ++ (before ++ x :: behind) := by
      rw [parts, List.append_assoc]
      rfl
    have rest := ih _ fuel parts' areSeparators (Nat.le_of_succ_le_succ enough)
    rw [List.length_append, List.length_singleton, Int.natCast_add, Int.natCast_one] at rest
    have goes : (do return !(← a.item (front.length + 1 : Int)).isSeparator) = some false := by
      rw [h.item_of_parts parts, Returns.some_bind, isSeparator]
      rfl
    rw [untilLoop, goes, Returns.some_bind, if_neg Bool.false_ne_true, Returns.some_bind, rest,
      Int.natCast_add, Int.natCast_one]
    exact congrArg some (by omega)

theorem Readable.skipSeparators_eq (h : a.Readable) (parts : a.chars = before ++ x :: behind)
    (areSeparators : ∀ c ∈ before, c.isSeparator = true) (stops : x.isSeparator = false) :
    a.skipSeparators = some (before.length + 1 : Int) := by
  have count := h.count_of_parts parts
  have run := h.skip_eq [] a.count.toNat parts areSeparators stops (by omega)
  rw [List.length_nil, Int.natCast_zero, Int.zero_add, Int.zero_add] at run
  exact run

/-- The first digit stands behind the sign, or in its place. -/
theorem Readable.readSign_eq (h : a.Readable) {sign : List Character} (isDigit : x.isDecimalDigit = true)
    (parts : a.chars = front ++ (sign ++ x :: behind)) (signs : sign = [] ∨ sign = [plus] ∨ sign = [minus]) :
    a.readSign (front.length + 1) =
      some (decide (sign = [minus]), x, ((front ++ (sign ++ [x])).length + 1 : Int)) := by
  have second {c : Character} (parts : a.chars = front ++ c :: x :: behind) :
      a.item (front.length + 1 + 1) = some x := by
    have parts' : a.chars = (front ++ [c]) ++ x :: behind := by
      rw [parts, List.append_assoc]
      rfl
    have found := h.item_of_parts parts'
    rw [List.length_append, List.length_singleton, Int.natCast_add, Int.natCast_one] at found
    exact found
  unfold readSign
  rcases signs with rfl | rfl | rfl
  · have kind := isDecimalDigit_iff.mp isDigit
    have notPlus : x ≠ plus := fun same => nomatch kind.symm.trans (isSign_iff.mp (.inl same))
    have notMinus : x ≠ minus := fun same => nomatch kind.symm.trans (isSign_iff.mp (.inr same))
    rw [h.item_of_parts parts, Returns.some_bind, if_neg notPlus, if_neg notMinus, List.nil_append,
      List.length_append, List.length_singleton, Int.natCast_add]
    rfl
  · rw [h.item_of_parts parts, Returns.some_bind, if_pos rfl, second parts, List.length_append,
      Int.natCast_add, Returns.some_bind]
    exact congrArg (fun i => some (false, x, i)) (Int.add_assoc _ 1 2)
  · have notPlus : minus ≠ plus := by decide
    rw [h.item_of_parts parts, Returns.some_bind, if_neg notPlus, if_pos rfl, second parts, List.length_append,
      Int.natCast_add, Returns.some_bind]
    exact congrArg (fun i => some (true, x, i)) (Int.add_assoc _ 1 2)

/-- The loop over the digits accumulates the opposite of the value. -/
theorem Readable.digits_eq (h : a.Readable) (fuel : ℕ) (parts : a.chars = front ++ (digits ++ behind)) (nonneg : 0 ≤ v)
    (areDigits : ∀ c ∈ digits, c.isDecimalDigit = true) (areSeparators : ∀ c ∈ behind, c.isSeparator = true)
    (inside : InWidth width (-numeralFrom v digits)) (enough : digits.length + behind.length ≤ fuel) :
    ∃ i, untilLoop (fun s : Int × Int => some (decide (s.1 > a.count))) (a.nextResult width) fuel
      (front.length + 1, -v) = some (i, -numeralFrom v digits) := by
  induction digits generalizing front v fuel with
  | nil =>
    rw [List.nil_append] at parts
    cases behind with
    | nil =>
      have count := h.count_of_parts parts
      rw [List.length_nil, Int.natCast_zero, Int.add_zero] at count
      refine ⟨front.length + 1, untilLoop_stopped (congrArg some (decide_eq_true ?_))⟩
      omega
    | cons x behind =>
      have count := h.count_of_parts parts
      rw [List.length_cons] at count enough
      obtain ⟨fuel, rfl⟩ : ∃ k, fuel = k + 1 := ⟨fuel - 1, by omega⟩
      have isSeparator := areSeparators x List.mem_cons_self
      have notDigit : ¬x.isDecimalDigit = true := fun isDigit => by
        rw [not_separator_of_digit isDigit] at isSeparator
        cases isSeparator
      have goes : decide ((front.length + 1 : Int) > a.count) = false := decide_eq_false (by omega)
      have round : a.nextResult width (front.length + 1, -v) = some (a.count + 1, -v) := by
        unfold nextResult
        rw [h.item_of_parts parts, Returns.some_bind, if_neg notDigit]
        rfl
      have past : decide (a.count + 1 > a.count) = true := decide_eq_true (by omega)
      have ended : untilLoop (fun s : Int × Int => some (decide (s.1 > a.count))) (a.nextResult width) fuel
          (a.count + 1, -v) = some (a.count + 1, -v) := untilLoop_stopped (congrArg some past)
      refine ⟨a.count + 1, ?_⟩
      rw [untilLoop]
      rw [goes, Returns.some_bind, if_neg Bool.false_ne_true, round, Returns.some_bind, ended]
      rfl
  | cons d digits ih =>
    rw [List.cons_append] at parts
    have count := h.count_of_parts parts
    rw [List.length_cons, List.length_append] at count
    rw [List.length_cons] at enough
    obtain ⟨fuel, rfl⟩ : ∃ k, fuel = k + 1 := ⟨fuel - 1, by omega⟩
    obtain ⟨isDigit, areDigits⟩ := List.forall_mem_cons.mp areDigits
    have digit := decimalValue_of_digit isDigit
    have grows := le_numeralFrom (v := 10 * v + d.decimalValue) (by omega) areDigits
    rw [numeralFrom_cons] at inside ⊢
    have zero : InWidth width 0 := inWidth_of_nonneg (Int.le_refl 0) (maximumOf_nonneg width)
    have product : checked width (10 * -v) = some (10 * -v) :=
      checked_eq (inside.of_le_of_le zero (by omega) (by omega))
    have difference : checked width (10 * -v - d.decimalValue) = some (-(10 * v + d.decimalValue)) := by
      rw [show 10 * -v - d.decimalValue = -(10 * v + d.decimalValue) by omega]
      exact checked_eq (inside.of_le_of_le zero (by omega) (by omega))
    have goes : decide ((front.length + 1 : Int) > a.count) = false := decide_eq_false (by omega)
    have round : a.nextResult width (front.length + 1, -v) =
        some ((front.length + 1 + 1 : Int), -(10 * v + d.decimalValue)) := by
      unfold nextResult
      rw [h.item_of_parts parts, Returns.some_bind, if_pos isDigit, product, Returns.some_bind, difference]
      rfl
    have parts' : a.chars = (front ++ [d]) ++ (digits ++ behind) := by
      rw [parts, List.append_assoc]
      rfl
    obtain ⟨i, rest⟩ := ih fuel parts' (by omega) areDigits inside (by omega)
    rw [List.length_append, List.length_singleton, Int.natCast_add, Int.natCast_one] at rest
    refine ⟨i, ?_⟩
    rw [untilLoop]
    rw [goes, Returns.some_bind, if_neg Bool.false_ne_true, round, Returns.some_bind]
    exact rest

/-- **`to_integer` returns the integer that the text denotes, and nothing overflows on the way.** -/
theorem Readable.toIntegerOf_eq (h : a.Readable) (denotes : Denotes a.chars v) (inside : InWidth width v) :
    a.toIntegerOf width = some v := by
  obtain ⟨before, sign, digits, behind, parts, separatorsBefore, separatorsBehind, signs, nonempty, areDigits,
    value⟩ := denotes.some
  obtain ⟨d, digits, rfl⟩ := List.exists_cons_of_ne_nil nonempty
  obtain ⟨isDigit, areDigits⟩ := List.forall_mem_cons.mp areDigits
  have digit := decimalValue_of_digit isDigit
  have grows := le_numeralFrom digit.1 areDigits
  have high := maximumOf_nonneg width
  have low := minimumOf_eq width
  rw [numeralFrom_zero_cons] at value
  have opposite : InWidth width (-numeralFrom d.decimalValue digits) := by
    split at value
    · exact value ▸ inside
    · have le := inside.2
      exact ⟨by omega, by omega⟩
  have first : checked width (-d.decimalValue) = some (-d.decimalValue) :=
    checked_eq (opposite.of_le_of_le (inWidth_of_nonneg (Int.le_refl 0) high) (by omega) (by omega))
  have parts' : a.chars = (before ++ (sign ++ [d])) ++ (digits ++ behind) := by
    rw [parts, List.append_assoc, List.append_assoc]
    rfl
  have start : a.skipSeparators = some (before.length + 1 : Int) := by
    have stops := not_separator_of_digit isDigit
    rcases signs with rfl | rfl | rfl
    · exact h.skipSeparators_eq parts separatorsBefore stops
    · exact h.skipSeparators_eq parts separatorsBefore (by decide)
    · exact h.skipSeparators_eq parts separatorsBefore (by decide)
  have read := h.readSign_eq isDigit parts signs
  have count := h.count_of_parts parts'
  have lengths : (digits ++ behind).length = digits.length + behind.length := List.length_append
  obtain ⟨i, loop⟩ := h.digits_eq a.count.toNat parts' digit.1 areDigits separatorsBehind opposite
    (by omega)
  unfold toIntegerOf
  rw [start, Returns.some_bind, read, Returns.some_bind]
  dsimp only
  rw [first, Returns.some_bind, loop, Returns.some_bind]
  by_cases negative : sign = [minus]
  · rw [if_pos negative] at value
    rw [if_pos (decide_eq_true negative), value]
    rfl
  · rw [if_neg negative] at value
    have notNegative : ¬decide (sign = [minus]) = true := fun holds => negative (of_decide_eq_true holds)
    rw [if_neg notNegative, Int.neg_neg, ← value]
    exact checked_eq inside

end AbstractString

end Liberty
