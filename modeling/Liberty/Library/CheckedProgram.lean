import Liberty.Library.Returns
import Mathlib.Data.Nat.Notation
import Mathlib.Order.Lattice.Nat

/-!
# Programs whose accesses are checked

A program that tells an access out of range from a loop that goes on: the loops are cut after
a number of rounds, so that what holds for any number of rounds holds of every access that is
ever made.  `InRange x Q` says that `x` makes no access out of range and that its result, if it
ends, satisfies `Q`.
-/

/-- Why a program gives no result. -/
inductive Halt
  | outOfRange
  | unfinished

abbrev Checked (α : Type) : Type := Except Halt α

/-- `from s until stop loop body end`, cut after `rounds` rounds. -/
def checkedLoop {σ : Type} (stop : σ → Checked Bool) (body : σ → Checked σ) : ℕ → σ → Checked σ
  | 0, s => do
      if ← stop s then return s else throw .unfinished
  | rounds + 1, s => do
      if ← stop s then return s else checkedLoop stop body rounds (← body s)

def InRange {α : Type} (x : Checked α) (Q : α → Prop) : Prop :=
  match x with
  | .ok a => Q a
  | .error .outOfRange => False
  | .error .unfinished => True

namespace InRange

variable {α β : Type} {x : Checked α} {f : α → Checked β} {P Q : α → Prop} {R : β → Prop} {a : α}

@[simp] theorem pure_iff : InRange (pure a) Q ↔ Q a := Iff.rfl

@[simp] theorem ok_iff : InRange (.ok a) Q ↔ Q a := Iff.rfl

@[simp] theorem bind_iff : InRange (x >>= f) R ↔ InRange x fun a => InRange (f a) R := by
  cases x with
  | ok a => exact Iff.rfl
  | error halt => cases halt <;> exact Iff.rfl

theorem mono (h : InRange x P) (weaken : ∀ a, P a → Q a) : InRange x Q := by
  cases x with
  | ok a => exact weaken a h
  | error halt =>
    cases halt with
    | outOfRange => exact h
    | unfinished => trivial

theorem bind (h : InRange x P) (next : ∀ a, P a → InRange (f a) R) : InRange (x >>= f) R :=
  bind_iff.mpr (h.mono next)

/-- What is done with the result does not matter where only the accesses do. -/
theorem answer (h : InRange x P) (g : α → β) : InRange (do return g (← x)) fun _ => True :=
  h.bind fun _ _ => pure_iff.mpr trivial

theorem of_ok (h : InRange x P) (run : x = .ok a) : P a := by
  rw [run] at h
  exact h

theorem ne_outOfRange (h : InRange x P) : x ≠ .error .outOfRange := by
  intro out
  rw [out] at h
  exact h

end InRange

section Loop

variable {σ : Type} {stop : σ → Checked Bool} {body : σ → Checked σ}

theorem inRange_checkedLoop {Q : σ → Prop} (invariant : σ → Prop) (rounds : ℕ) {s : σ}
    (init : invariant s)
    (step : ∀ s, invariant s → InRange (stop s) fun stopped =>
      if stopped = true then Q s else InRange (body s) invariant) :
    InRange (checkedLoop stop body rounds s) Q := by
  induction rounds generalizing s with
  | zero =>
    rw [checkedLoop, InRange.bind_iff]
    refine (step s init).mono fun stopped next => ?_
    split
    · rename_i ends
      rwa [if_pos ends] at next
    · trivial
  | succ rounds ih =>
    rw [checkedLoop, InRange.bind_iff]
    refine (step s init).mono fun stopped next => ?_
    split
    · rename_i ends
      rwa [if_pos ends] at next
    · rename_i goes
      rw [if_neg goes] at next
      exact next.bind fun s' kept => ih kept

end Loop

/-! ## Programs that returned -/

/-- What holds of the result of a program that gives one. -/
def OnReturn {α : Type} (x : Checked α) (Q : α → Prop) : Prop :=
  ∀ a, x = .ok a → Q a

theorem InRange.onReturn {α : Type} {x : Checked α} {Q : α → Prop} (h : InRange x Q) : OnReturn x Q :=
  fun _ run => h.of_ok run

namespace OnReturn

variable {α β : Type} {x : Checked α} {f : α → Checked β} {P Q : α → Prop} {R : β → Prop} {a : α}

theorem pure (holds : Q a) : OnReturn (Pure.pure a) Q := by
  intro b same
  cases same
  exact holds

theorem bind (h : OnReturn x P) (next : ∀ a, P a → OnReturn (f a) R) : OnReturn (x >>= f) R := by
  intro b run
  cases first : x with
  | error halt =>
    rw [first] at run
    cases run
  | ok a =>
    rw [first] at run
    exact next a (h a first) b run

theorem mono (h : OnReturn x P) (weaken : ∀ a, P a → Q a) : OnReturn x Q :=
  fun a run => weaken a (h a run)

theorem trivial (x : Checked α) : OnReturn x fun _ => True :=
  fun _ _ => True.intro

theorem loop {σ : Type} {stop : σ → Checked Bool} {body : σ → Checked σ} {Q : σ → Prop}
    (invariant : σ → Prop) (rounds : ℕ) {s : σ} (init : invariant s)
    (step : ∀ s, invariant s → OnReturn (stop s) fun stopped =>
      if stopped = true then Q s else OnReturn (body s) invariant) :
    OnReturn (checkedLoop stop body rounds s) Q := by
  induction rounds generalizing s with
  | zero =>
    refine (step s init).bind fun stopped next => ?_
    split
    · rename_i ends
      rw [if_pos ends] at next
      exact .pure next
    · intro a run
      cases run
  | succ rounds ih =>
    refine (step s init).bind fun stopped next => ?_
    split
    · rename_i ends
      rw [if_pos ends] at next
      exact .pure next
    · rename_i goes
      rw [if_neg goes] at next
      exact next.bind fun s' kept => ih kept

end OnReturn

section Loop

variable {σ : Type} {stop : σ → Checked Bool} {body : σ → Checked σ}

/-- A loop ends whose invariant holds with a number of rounds that gets smaller. -/
theorem checkedLoop_ends (invariant : σ → ℕ → Prop)
    (step : ∀ s m, invariant s m → stop s = .ok true ∨
      stop s = .ok false ∧ ∃ s' m', m = m' + 1 ∧ body s = .ok s' ∧ invariant s' m')
    {s : σ} {m : ℕ} (init : invariant s m) :
    ∃ a, ∀ rounds ≥ m, checkedLoop stop body rounds s = .ok a := by
  have now {s : σ} (test : stop s = .ok true) (rounds : ℕ) : checkedLoop stop body rounds s = .ok s := by
    cases rounds <;> rw [checkedLoop, test] <;> rfl
  induction m generalizing s with
  | zero =>
    rcases step s 0 init with test | ⟨-, s', m', more, -⟩
    · exact ⟨s, fun rounds _ => now test rounds⟩
    · exact absurd more (Nat.succ_ne_zero m').symm
  | succ m ih =>
    rcases step s (m + 1) init with test | ⟨test, s', m', more, run, kept⟩
    · exact ⟨s, fun rounds _ => now test rounds⟩
    · cases more
      obtain ⟨a, ends⟩ := ih kept
      refine ⟨a, fun rounds le => ?_⟩
      obtain ⟨rounds, rfl⟩ : ∃ n, rounds = n + 1 := ⟨rounds - 1, by omega⟩
      rw [checkedLoop, test]
      rw [run]
      exact ends rounds (Nat.le_of_succ_le_succ le)

/-- A loop whose invariant never lets it stop does not end, for however many rounds. -/
theorem checkedLoop_unfinished (invariant : σ → Prop)
    (step : ∀ s, invariant s → stop s = .ok false ∧ ∃ s', body s = .ok s' ∧ invariant s')
    (rounds : ℕ) {s : σ} (init : invariant s) :
    checkedLoop stop body rounds s = .error .unfinished := by
  induction rounds generalizing s with
  | zero =>
    rw [checkedLoop, (step s init).1]
    rfl
  | succ rounds ih =>
    obtain ⟨test, s', run, kept⟩ := step s init
    rw [checkedLoop, test]
    rw [run]
    exact ih kept

end Loop
