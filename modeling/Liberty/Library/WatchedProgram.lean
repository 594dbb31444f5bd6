import Mathlib.Data.Nat.Notation
import Mathlib.Order.Lattice.Nat

/-!
# Programs that are watched

A program gives a result, or a reason why it gives none.  A recursive program takes fuel, and one of the
reasons is that it has used it up.  A program that is watched stops where the other one would go on:
`Follows` compares the two, `Yields` says what holds of a result, and `Settles` that the program comes to
an end of its own when it has enough fuel.
-/

variable {ε α β : Type}

/-! ## What holds of a result -/

def Yields (x : Except ε α) (Q : α → Prop) : Prop :=
  ∀ a, x = .ok a → Q a

namespace Yields

variable {x : Except ε α} {f : α → Except ε β} {P Q : α → Prop} {R : β → Prop}

theorem pure {a : α} (holds : Q a) : Yields (Pure.pure a : Except ε α) Q := by
  intro b same
  cases same
  exact holds

theorem error {e : ε} : Yields (.error e : Except ε α) Q :=
  fun _ same => nomatch same

theorem bind (h : Yields x P) (next : ∀ a, P a → Yields (f a) R) : Yields (x >>= f) R := by
  intro b run
  cases first : x with
  | error e =>
    rw [first] at run
    cases run
  | ok a =>
    rw [first] at run
    exact next a (h a first) b run

theorem mono (h : Yields x P) (weaken : ∀ a, P a → Q a) : Yields x Q :=
  fun a run => weaken a (h a run)

end Yields

/-! ## Two programs -/

/-- What `y` returns, `x` returns too if it does not stop for an excused reason. -/
def Follows (excused : ε → Prop) (x y : Except ε α) : Prop :=
  ∀ a, y = .ok a → x = .ok a ∨ ∃ e, excused e ∧ x = .error e

namespace Follows

variable {excused : ε → Prop} {x y : Except ε α} {f g : α → Except ε β} {a : α} {e : ε}

theorem refl (x : Except ε α) : Follows excused x x :=
  fun _ run => Or.inl run

theorem stopped (h : excused e) : Follows excused (.error e) y :=
  fun _ _ => Or.inr ⟨e, h, rfl⟩

theorem of_ne (h : ∀ a, y ≠ .ok a) : Follows excused x y :=
  fun a run => absurd run (h a)

theorem of_error : Follows excused x (.error e) :=
  of_ne fun _ same => nomatch same

theorem bind (h : Follows excused x y) (next : ∀ a, y = .ok a → Follows excused (f a) (g a)) :
    Follows excused (x >>= f) (y >>= g) := by
  intro b run
  cases first : y with
  | error e =>
    rw [first] at run
    cases run
  | ok a =>
    rw [first] at run
    rcases h a first with same | ⟨e, ok, same⟩
    · rw [same]
      exact next a first b run
    · rw [same]
      exact Or.inr ⟨e, ok, rfl⟩

theorem ite {c : Prop} [Decidable c] {x' y' : Except ε α} (h : c → Follows excused x y)
    (h' : ¬c → Follows excused x' y') : Follows excused (if c then x else x') (if c then y else y') := by
  split
  · exact h ‹c›
  · exact h' ‹¬c›

theorem ne_error (h : Follows excused x y) (run : y = .ok a) (not : ¬excused e) : x ≠ .error e := by
  intro stop
  rcases h a run with same | ⟨e', ok, same⟩
  · cases stop.symm.trans same
  · cases stop.symm.trans same
    exact not ok

theorem ok (h : Follows (fun _ => False) x y) (run : y = .ok a) : x = .ok a := by
  rcases h a run with same | ⟨_, none, _⟩
  · exact same
  · exact none.elim

end Follows

/-! ## Programs that come to an end -/

/-- With enough fuel the program ends in the same way, and not for the reason `unfinished`. -/
def Settles (unfinished : ε) (x : ℕ → Except ε α) : Prop :=
  ∃ enough y, y ≠ .error unfinished ∧ ∀ fuel ≥ enough, x fuel = y

namespace Settles

variable {unfinished : ε} {x : ℕ → Except ε α} {f : ℕ → α → Except ε β}

theorem const {y : Except ε α} (ends : y ≠ .error unfinished) : Settles unfinished fun _ => y :=
  ⟨0, y, ends, fun _ _ => rfl⟩

theorem pure (a : α) : Settles unfinished fun _ => (Pure.pure a : Except ε α) :=
  const fun same => nomatch same

theorem bind (h : Settles unfinished x) (next : ∀ fuel a, x fuel = .ok a → Settles unfinished fun fuel => f fuel a) :
    Settles unfinished fun fuel => x fuel >>= f fuel := by
  obtain ⟨enough, y, ends, run⟩ := h
  cases y with
  | error e =>
    refine ⟨enough, .error e, fun same => ends (congrArg _ (Except.error.inj same)), fun fuel le => ?_⟩
    change x fuel >>= f fuel = _
    rw [run fuel le]
    rfl
  | ok a =>
    obtain ⟨enough', z, ends', run'⟩ := next enough a (run enough (Nat.le_refl _))
    refine ⟨max enough enough', z, ends', fun fuel le => ?_⟩
    change x fuel >>= f fuel = z
    rw [run fuel (Nat.le_trans (Nat.le_max_left _ _) le)]
    exact run' fuel (Nat.le_trans (Nat.le_max_right _ _) le)

theorem ite {c : Prop} [Decidable c] {x' : ℕ → Except ε α} (h : c → Settles unfinished x)
    (h' : ¬c → Settles unfinished x') : Settles unfinished fun fuel => if c then x fuel else x' fuel := by
  split
  · exact h ‹c›
  · exact h' ‹¬c›

theorem congr_from {y : ℕ → Except ε α} (enough : ℕ) (h : Settles unfinished y)
    (same : ∀ fuel ≥ enough, x fuel = y fuel) : Settles unfinished x := by
  obtain ⟨enough', z, ends, run⟩ := h
  refine ⟨max enough enough', z, ends, fun fuel le => ?_⟩
  exact (same fuel (Nat.le_trans (Nat.le_max_left _ _) le)).trans (run fuel (Nat.le_trans (Nat.le_max_right _ _) le))

/-- A recursive call has one unit of fuel less. -/
theorem of_succ (h : Settles unfinished fun fuel => x (fuel + 1)) : Settles unfinished x := by
  obtain ⟨enough, y, ends, run⟩ := h
  refine ⟨enough + 1, y, ends, fun fuel le => ?_⟩
  obtain ⟨fuel, rfl⟩ : ∃ n, fuel = n + 1 := ⟨fuel - 1, by omega⟩
  exact run fuel (Nat.le_of_succ_le_succ le)

/-- A program that settles and is not stopped for a reason of its own returns. -/
theorem returns (h : Settles unfinished x) (none : ∀ fuel e, x fuel = .error e → e = unfinished) :
    ∃ fuel a, x fuel = .ok a := by
  obtain ⟨enough, y, ends, run⟩ := h
  cases y with
  | ok a => exact ⟨enough, a, run enough (Nat.le_refl _)⟩
  | error e => exact absurd (congrArg Except.error (none enough e (run enough (Nat.le_refl _)))) ends

end Settles

/-! ## Loops -/

/-- `from s until stop loop body end`, cut after a number of rounds. -/
def watchedLoop {σ : Type} (unfinished : ε) (stop : σ → Bool) (body : σ → Except ε σ) : ℕ → σ → Except ε σ
  | 0, s => if stop s then .ok s else .error unfinished
  | rounds + 1, s => if stop s then .ok s else body s >>= watchedLoop unfinished stop body rounds

section Loop

variable {σ : Type} {unfinished : ε} {stop : σ → Bool}

theorem watchedLoop_stopped {body : σ → Except ε σ} {s : σ} (stopped : stop s = true) (rounds : ℕ) :
    watchedLoop unfinished stop body rounds s = .ok s := by
  cases rounds <;> exact if_pos stopped

theorem watchedLoop_succ {body : σ → Except ε σ} {s : σ} (going : stop s = false) (rounds : ℕ) :
    watchedLoop unfinished stop body (rounds + 1) s = body s >>= watchedLoop unfinished stop body rounds :=
  if_neg (Bool.eq_false_iff.mp going)

/-- A loop in a state that each round leads back to does not return. -/
theorem watchedLoop_ne_ok {body : σ → Except ε σ} (again : σ → Prop) (going : ∀ s, again s → stop s = false)
    (step : ∀ s s', again s → body s = .ok s' → again s') {rounds : ℕ} {s s' : σ} (inside : again s) :
    watchedLoop unfinished stop body rounds s ≠ .ok s' := by
  induction rounds generalizing s with
  | zero =>
    intro run
    rw [watchedLoop, if_neg (Bool.eq_false_iff.mp (going s inside))] at run
    cases run
  | succ rounds ih =>
    intro run
    rw [watchedLoop_succ (going s inside)] at run
    cases round : body s with
    | error e =>
      rw [round] at run
      cases run
    | ok next =>
      rw [round] at run
      exact ih (step s next inside round) run

/-- What holds of the state when a loop has ended. -/
theorem yields_watchedLoop {body : σ → Except ε σ} (invariant : σ → Prop)
    (step : ∀ s, invariant s → stop s = false → Yields (body s) invariant) {rounds : ℕ} {s : σ} (init : invariant s) :
    Yields (watchedLoop unfinished stop body rounds s) fun s' => invariant s' ∧ stop s' = true := by
  induction rounds generalizing s with
  | zero =>
    intro s' run
    cases test : stop s with
    | true =>
      rw [watchedLoop_stopped test] at run
      cases run
      exact ⟨init, test⟩
    | false =>
      rw [watchedLoop, if_neg (Bool.eq_false_iff.mp test)] at run
      cases run
  | succ rounds ih =>
    cases test : stop s with
    | true =>
      rw [watchedLoop_stopped test]
      exact Yields.pure ⟨init, test⟩
    | false =>
      rw [watchedLoop_succ test]
      exact (step s init test).bind fun s' kept => ih kept

/-- A loop each of whose rounds comes to an end, with an invariant and a variant. -/
theorem settles_watchedLoop {body : ℕ → σ → Except ε σ} (invariant : σ → Prop) (variant : σ → ℕ)
    (round : ∀ s, invariant s → stop s = false → Settles unfinished fun fuel => body fuel s)
    (step : ∀ fuel s, invariant s → stop s = false →
      Yields (body fuel s) fun s' => invariant s' ∧ variant s' < variant s) {s : σ} (init : invariant s) :
    Settles unfinished fun fuel => watchedLoop unfinished stop (body fuel) fuel s := by
  suffices all : ∀ size s, variant s = size → invariant s → ∃ enough y, y ≠ .error unfinished ∧
      ∀ fuel ≥ enough, ∀ rounds > size, watchedLoop unfinished stop (body fuel) rounds s = y by
    obtain ⟨enough, y, ends, run⟩ := all _ s rfl init
    exact ⟨max enough (variant s + 1), y, ends, fun fuel le => run fuel (Nat.le_trans (Nat.le_max_left _ _) le) fuel
      (Nat.le_trans (Nat.le_max_right _ _) le)⟩
  intro size
  induction size using Nat.strongRecOn with
  | _ size ih =>
    intro s same inv
    cases test : stop s with
    | true => exact ⟨0, .ok s, (nomatch ·), fun fuel _ rounds _ => watchedLoop_stopped test rounds⟩
    | false =>
      obtain ⟨enough, y, ends, run⟩ := round s inv test
      cases y with
      | error e =>
        refine ⟨enough, .error e, fun same => ends (congrArg _ (Except.error.inj same)),
          fun fuel le rounds le' => ?_⟩
        obtain ⟨rounds, rfl⟩ : ∃ n, rounds = n + 1 := ⟨rounds - 1, by omega⟩
        have first : body fuel s = .error e := run fuel le
        rw [watchedLoop_succ test, first]
        rfl
      | ok s' =>
        obtain ⟨inv', less⟩ := step enough s inv test s' (run enough (Nat.le_refl _))
        obtain ⟨enough', z, ends', run'⟩ := ih (variant s') (same ▸ less) s' rfl inv'
        refine ⟨max enough enough', z, ends', fun fuel le rounds le' => ?_⟩
        obtain ⟨rounds, rfl⟩ : ∃ n, rounds = n + 1 := ⟨rounds - 1, by omega⟩
        have first : body fuel s = .ok s' := run fuel (Nat.le_trans (Nat.le_max_left _ _) le)
        rw [watchedLoop_succ test, first]
        exact run' fuel (Nat.le_trans (Nat.le_max_right _ _) le) rounds (by omega)

/-- Two loops whose rounds follow each other where the second one returns. -/
theorem follows_watchedLoop {excused : ε → Prop} {body body' : σ → Except ε σ}
    (step : ∀ s rounds s', stop s = false → watchedLoop unfinished stop body' rounds s = .ok s' →
      Follows excused (body s) (body' s)) (rounds : ℕ) (s : σ) :
    Follows excused (watchedLoop unfinished stop body rounds s) (watchedLoop unfinished stop body' rounds s) := by
  induction rounds generalizing s with
  | zero => exact .refl _
  | succ rounds ih =>
    cases test : stop s with
    | true =>
      rw [watchedLoop_stopped test, watchedLoop_stopped test]
      exact .refl _
    | false =>
      intro s' run
      have first := step s _ s' test run
      rw [watchedLoop_succ test] at run ⊢
      exact first.bind (fun next _ => ih next) s' run

end Loop

/-! ## More fuel -/

/-- What `x` comes to when it is not cut, `y` comes to. -/
def Extends (unfinished : ε) (x y : Except ε α) : Prop :=
  x ≠ .error unfinished → y = x

theorem Extends.bind {unfinished : ε} {x y : Except ε α} {f g : α → Except ε β} (h : Extends unfinished x y)
    (next : ∀ a, Extends unfinished (f a) (g a)) : Extends unfinished (x >>= f) (y >>= g) := by
  intro ends
  cases first : x with
  | error e =>
    rw [first] at ends h
    rw [h fun same => ends (congrArg _ (Except.error.inj same))]
    rfl
  | ok a =>
    rw [first] at ends h
    rw [h (nomatch ·)]
    exact next a ends

theorem extends_watchedLoop {σ : Type} {unfinished : ε} {stop : σ → Bool} {body body' : σ → Except ε σ}
    (step : ∀ s, Extends unfinished (body s) (body' s)) {rounds rounds' : ℕ} (le : rounds ≤ rounds') (s : σ) :
    Extends unfinished (watchedLoop unfinished stop body rounds s) (watchedLoop unfinished stop body' rounds' s) := by
  induction rounds generalizing rounds' s with
  | zero =>
    cases test : stop s with
    | true =>
      rw [watchedLoop_stopped test, watchedLoop_stopped test]
      exact fun _ => rfl
    | false =>
      intro ends
      rw [watchedLoop, if_neg (Bool.eq_false_iff.mp test)] at ends
      exact absurd rfl ends
  | succ rounds ih =>
    obtain ⟨rounds', rfl⟩ : ∃ n, rounds' = n + 1 := ⟨rounds' - 1, by omega⟩
    cases test : stop s with
    | true =>
      rw [watchedLoop_stopped test, watchedLoop_stopped test]
      exact fun _ => rfl
    | false =>
      rw [watchedLoop_succ test, watchedLoop_succ test]
      exact (step s).bind fun next => ih (by omega) next

/-! ## Relations of programs -/

/-- A relation of programs that goes through sequences: what two programs are made of in the same way is
related when their parts are. -/
structure SequenceCongruence (R : ∀ {α : Type}, Except ε α → Except ε α → Prop) : Prop where
  refl : ∀ {α : Type} (x : Except ε α), R x x
  bind : ∀ {α β : Type} {x y : Except ε α} {f g : α → Except ε β}, R x y → (∀ a, R (f a) (g a)) →
    R (x >>= f) (y >>= g)

theorem congruent_follows (excused : ε → Prop) : SequenceCongruence (Follows excused) where
  refl := .refl
  bind first next := first.bind fun a _ => next a

theorem congruent_extends (unfinished : ε) : SequenceCongruence (Extends unfinished) where
  refl _ _ := rfl
  bind first next := first.bind next
