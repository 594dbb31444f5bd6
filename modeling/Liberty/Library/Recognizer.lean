import Liberty.Library.Returns
import Mathlib.Computability.Language
import Mathlib.Data.Int.Notation

/-!
# Recognizers

A loop that goes through the items of a sequence with a state, and stops early in a state of error.  What
it accepts is a language; the languages of letters and of their repetitions are told by the first item.
-/

/-- `from i := lower until error(state) or else i > upper loop state := next(state, item(i)); i := i + 1
end`: the last state. -/
def recognize {σ α : Type} (error : σ → Bool) (next : σ → α → Option σ) (item : Int → Option α)
    (lower upper : Int) (s : σ) : Option σ := do
  return (← untilLoop (fun s => some (error s.1 || decide (s.2 > upper)))
    (fun s => do return (← next s.1 (← item s.2), s.2 + 1)) (upper + 1 - lower).toNat (s, lower)).1

/-- The same along a list. -/
def runAlong {σ α : Type} (error : σ → Bool) (next : σ → α → Option σ) : List α → σ → Option σ
  | [], s => some s
  | x :: xs, s => if error s = true then some s else next s x >>= runAlong error next xs

section Recognizers

variable {σ α : Type} {error : σ → Bool} {next : σ → α → Option σ} {item : Int → Option α}
  {s t : σ} {x : α} {xs : List α}

theorem runAlong_error (stopped : error s = true) : runAlong error next xs s = some s := by
  cases xs with
  | nil => rfl
  | cons x xs => exact if_pos stopped

theorem runAlong_cons (going : error s = false) :
    runAlong error next (x :: xs) s = next s x >>= runAlong error next xs :=
  if_neg (Bool.eq_false_iff.mp going)

/-- The loop over the indexes runs along the list of the items. -/
theorem recognize_eq {lower upper : Int} (spells : ∀ (k : ℕ) x, xs[k]? = some x → item (lower + k) = some x)
    (length : upper + 1 = lower + xs.length) :
    recognize error next item lower upper s = runAlong error next xs s := by
  unfold recognize
  rw [show (upper + 1 - lower).toNat = xs.length by omega]
  induction xs generalizing s lower with
  | nil =>
    rw [List.length_nil] at length
    have past : decide (lower > upper) = true := decide_eq_true (by omega)
    rw [untilLoop_stopped (by rw [past, Bool.or_true])]
    rfl
  | cons x xs ih =>
    rw [List.length_cons] at length
    cases stopped : error s with
    | true =>
      rw [untilLoop_stopped (by rw [stopped, Bool.true_or]), runAlong_error stopped]
      rfl
    | false =>
      have inside : decide (lower > upper) = false := decide_eq_false (by omega)
      have here := spells 0 x rfl
      rw [Int.natCast_zero, Int.add_zero] at here
      have behind : ∀ (k : ℕ) y, xs[k]? = some y → item (lower + 1 + k) = some y := by
        intro k y found
        have there := spells (k + 1) y found
        rwa [Int.natCast_succ, Int.add_comm (k : Int), ← Int.add_assoc] at there
      rw [runAlong_cons stopped, List.length_cons]
      cases step : next s x with
      | none => simp [untilLoop, stopped, inside, here, step]
      | some t =>
        have rest := ih (s := t) behind (by omega)
        rw [Returns.some_bind, ← rest]
        simp [untilLoop, stopped, inside, here, step]

/-! ## What is accepted -/

/-- The sequences that lead from a state to an accepting one. -/
def accepted (error : σ → Bool) (next : σ → α → Option σ) (accepting : σ → Bool) (s : σ) : Language α :=
  {xs | ∃ t, runAlong error next xs s = some t ∧ accepting t = true}

variable {accepting : σ → Bool}

theorem nil_mem_accepted : [] ∈ accepted error next accepting s ↔ accepting s = true := by
  constructor
  · rintro ⟨t, run, accepts⟩
    cases run
    exact accepts
  · exact fun accepts => ⟨s, rfl, accepts⟩

theorem cons_mem_accepted (going : error s = false) (step : next s x = some t) :
    x :: xs ∈ accepted error next accepting s ↔ xs ∈ accepted error next accepting t := by
  change (∃ _, _) ↔ ∃ _, _
  rw [runAlong_cons going, step]
  rfl

theorem mem_accepted_error (stopped : error s = true) (rejects : accepting s = false) :
    xs ∉ accepted error next accepting s := by
  rintro ⟨t, run, accepts⟩
  rw [runAlong_error stopped] at run
  cases run
  rw [rejects] at accepts
  cases accepts

end Recognizers

/-! ## Letters and their repetitions -/

section Letters

open Computability

variable {α : Type} {p q : α → Prop} {x : α} {xs : List α} {l : Language α}

/-- The sequences of one letter. -/
def letter (p : α → Prop) : Language α :=
  {xs | ∃ x, p x ∧ xs = [x]}

theorem nil_notMem_letter_mul : [] ∉ letter p * l := by
  rintro ⟨a, ⟨y, -, rfl⟩, b, -, same⟩
  cases same

theorem cons_mem_letter_mul : x :: xs ∈ letter p * l ↔ p x ∧ xs ∈ l := by
  constructor
  · rintro ⟨a, ⟨y, passes, rfl⟩, b, mem, same⟩
    cases same
    exact ⟨passes, mem⟩
  · rintro ⟨passes, mem⟩
    exact ⟨[x], ⟨x, passes, rfl⟩, xs, mem, rfl⟩

theorem kstar_mul_eq (l : Language α) : (letter p)∗ * l = letter p * ((letter p)∗ * l) + l := by
  calc (letter p)∗ * l = (1 + letter p * (letter p)∗) * l := by rw [Language.one_add_self_mul_kstar_eq_kstar]
    _ = letter p * ((letter p)∗ * l) + l := by rw [add_mul, one_mul, mul_assoc, add_comm]

theorem nil_mem_kstar_mul : [] ∈ (letter p)∗ * l ↔ [] ∈ l := by
  rw [kstar_mul_eq, Language.mem_add]
  exact or_iff_right nil_notMem_letter_mul

theorem cons_mem_kstar_mul : x :: xs ∈ (letter p)∗ * l ↔ (p x ∧ xs ∈ (letter p)∗ * l) ∨ x :: xs ∈ l := by
  conv_lhs => rw [kstar_mul_eq, Language.mem_add, cons_mem_letter_mul]

theorem nil_mem_kstar : [] ∈ (letter p)∗ :=
  Language.nil_mem_kstar _

theorem cons_mem_kstar : x :: xs ∈ (letter p)∗ ↔ p x ∧ xs ∈ (letter p)∗ := by
  have h : x :: xs ∈ (letter p)∗ * (1 : Language α) ↔ (p x ∧ xs ∈ (letter p)∗ * (1 : Language α)) ∨
      x :: xs ∈ (1 : Language α) := cons_mem_kstar_mul
  rw [mul_one, Language.mem_one] at h
  exact h.trans (or_iff_left (List.cons_ne_nil x xs))

theorem mem_kstar_letter : xs ∈ (letter p)∗ ↔ ∀ x ∈ xs, p x := by
  induction xs with
  | nil => exact iff_of_true nil_mem_kstar fun _ mem => nomatch mem
  | cons x xs ih => rw [cons_mem_kstar, ih, List.forall_mem_cons]

end Letters
