import Liberty.Library.Returns

/-!
# Rules for loops

A counting loop, loops and recursions that take fuel, and two loops that run in step.
-/

/-!
## Enough fuel

A recursive routine of the source is a function that takes fuel.  It terminates when, with enough fuel, it
returns, and then more fuel changes nothing: so two calls can share the fuel.
-/

/-- With enough fuel, whatever more there is, the program returns `a`. -/
def Completes {α : Type} (program : Nat → Option α) (a : α) : Prop :=
  ∃ enough, ∀ fuel, enough ≤ fuel → program fuel = some a

namespace Completes

variable {α β : Type}

theorem of_eq {program : Nat → Option α} {a : α} (run : ∀ fuel, program fuel = some a) : Completes program a :=
  ⟨0, fun fuel _ => run fuel⟩

theorem bind {program : Nat → Option α} {next : Nat → α → Option β} {a : α} {b : β} (h : Completes program a)
    (h' : Completes (fun fuel => next fuel a) b) : Completes (fun fuel => program fuel >>= next fuel) b := by
  obtain ⟨enough, run⟩ := h
  obtain ⟨enough', run'⟩ := h'
  refine ⟨max enough enough', fun fuel le => ?_⟩
  have first := run fuel (Nat.le_trans (Nat.le_max_left _ _) le)
  have rest := run' fuel (Nat.le_trans (Nat.le_max_right _ _) le)
  simpa [first] using rest

/-- A recursive call has one unit of fuel less. -/
theorem of_succ {program : Nat → Option α} {a : α} (h : Completes (fun fuel => program (fuel + 1)) a) :
    Completes program a := by
  obtain ⟨enough, run⟩ := h
  refine ⟨enough + 1, fun fuel le => ?_⟩
  obtain ⟨fuel, rfl⟩ : ∃ k, fuel = k + 1 := ⟨fuel - 1, by omega⟩
  exact run fuel (Nat.le_of_succ_le_succ le)

theorem returns {program : Nat → Option α} {a : α} (h : Completes program a) : ∃ fuel, program fuel = some a := by
  obtain ⟨enough, run⟩ := h
  exact ⟨enough, run enough (Nat.le_refl _)⟩

theorem unique {program : Nat → Option α} {a a' : α} (h : Completes program a) (h' : Completes program a') : a = a' := by
  obtain ⟨enough, run⟩ := h
  obtain ⟨enough', run'⟩ := h'
  have same := (run (max enough enough') (Nat.le_max_left _ _)).symm.trans (run' _ (Nat.le_max_right _ _))
  exact Option.some.inj same

theorem congr {program program' : Nat → Option α} {a : α} (h : Completes program a)
    (same : ∀ fuel, program' fuel = program fuel) : Completes program' a := by
  obtain ⟨enough, run⟩ := h
  exact ⟨enough, fun fuel le => (same fuel).trans (run fuel le)⟩

end Completes

/-- A loop whose rounds each end with enough fuel: an invariant and a variant. -/
theorem completes_untilLoop {σ : Type} {stop : σ → Bool} {body : Nat → σ → Option σ} (invariant : σ → Prop) (variant : σ → Nat)
    (step : ∀ s, invariant s → stop s = false →
      ∃ s', Completes (fun fuel => body fuel s) s' ∧ invariant s' ∧ variant s' < variant s) {s : σ}
    (init : invariant s) :
    ∃ s', Completes (fun fuel => untilLoop (fun s => some (stop s)) (body fuel) fuel s) s' := by
  suffices all : ∀ v s, variant s = v → invariant s → ∃ s' enough rounds, ∀ fuel n, enough ≤ fuel → rounds ≤ n →
      untilLoop (fun s => some (stop s)) (body fuel) n s = some s' by
    obtain ⟨s', enough, rounds, run⟩ := all _ s rfl init
    exact ⟨s', max enough rounds, fun fuel le => run fuel fuel (Nat.le_trans (Nat.le_max_left _ _) le)
      (Nat.le_trans (Nat.le_max_right _ _) le)⟩
  intro v
  induction v using Nat.strongRecOn with
  | _ v ih =>
    intro s same inv
    cases test : stop s with
    | true => exact ⟨s, 0, 0, fun fuel n _ _ => untilLoop_stopped (congrArg some test)⟩
    | false =>
      obtain ⟨next, ⟨enough, round⟩, kept, smaller⟩ := step s inv test
      obtain ⟨s', enough', rounds, run⟩ := ih (variant next) (same ▸ smaller) next rfl kept
      refine ⟨s', max enough enough', rounds + 1, fun fuel n le le' => ?_⟩
      obtain ⟨n, rfl⟩ : ∃ k, n = k + 1 := ⟨n - 1, by omega⟩
      have first := round fuel (Nat.le_trans (Nat.le_max_left _ _) le)
      have rest := run fuel n (Nat.le_trans (Nat.le_max_right _ _) le) (Nat.le_of_succ_le_succ le')
      simpa [untilLoop, test, first] using rest

/-- What holds of the state when a loop has ended. -/
theorem holds_of_untilLoop {σ : Type} {stop : σ → Option Bool} {body : σ → Option σ} (invariant : σ → Prop)
    (step : ∀ s s', invariant s → stop s = some false → body s = some s' → invariant s') {fuel : Nat} {s s' : σ}
    (init : invariant s) (run : untilLoop stop body fuel s = some s') : invariant s' ∧ stop s' = some true := by
  induction fuel generalizing s with
  | zero =>
    cases test : stop s with
    | none => simp [untilLoop, test] at run
    | some stopped =>
      cases stopped with
      | true =>
        rw [untilLoop_stopped test] at run
        cases run
        exact ⟨init, test⟩
      | false => simp [untilLoop, test] at run
  | succ fuel ih =>
    cases test : stop s with
    | none => simp [untilLoop, test] at run
    | some stopped =>
      cases stopped with
      | true =>
        rw [untilLoop_stopped test] at run
        cases run
        exact ⟨init, test⟩
      | false =>
        cases round : body s with
        | none => simp [untilLoop, test, round] at run
        | some next => exact ih (step s next init test round) (by simpa [untilLoop, test, round] using run)

/-- A loop whose rounds return: an invariant, which holds at its end, and a variant. -/
theorem completes_untilLoop_holds {σ : Type} {stop : σ → Bool} {body : σ → Option σ} (invariant : σ → Prop)
    (variant : σ → Nat) (step : ∀ s, invariant s → stop s = false →
      Returns (body s) fun s' => invariant s' ∧ variant s' < variant s) {s : σ} (init : invariant s) :
    ∃ s', Completes (fun fuel => untilLoop (fun s => some (stop s)) body fuel s) s' ∧ invariant s' ∧
      stop s' = true := by
  have ends : ∃ s', Completes (fun fuel => untilLoop (fun s => some (stop s)) body fuel s) s' := by
    refine completes_untilLoop invariant variant (fun s inv going => ?_) init
    obtain ⟨s', run, kept⟩ := step s inv going
    exact ⟨s', .of_eq fun _ => run, kept⟩
  obtain ⟨s', completes⟩ := ends
  obtain ⟨fuel, run⟩ := completes.returns
  obtain ⟨holds, stopped⟩ := holds_of_untilLoop invariant
    (fun s s' inv going round => ((step s inv (Option.some.inj going)).unique round).1) init run
  exact ⟨s', completes, holds, Option.some.inj stopped⟩

/-!
## Two loops in step

A loop whose states are seen as the states of another one, round by round: it comes to a state
that is seen as the one that the other loop comes to, and does not return where the other one
does not.
-/

section Simulation

variable {σ τ : Type} {stop : σ → Option Bool} {body : σ → Option σ} {stop' : τ → Option Bool}
  {body' : τ → Option τ}

/-- A round is seen as one of the other loop, and keeps the invariant. -/
def InStep (view : σ → τ) (invariant : σ → Prop) (x : Option σ) (y : Option τ) : Prop :=
  x.map view = y ∧ ∀ s, x = some s → invariant s

theorem InStep.none {view : σ → τ} {invariant : σ → Prop} :
    InStep view invariant none none :=
  ⟨rfl, nofun⟩

theorem InStep.some {view : σ → τ} {invariant : σ → Prop} {s : σ} {t : τ} (same : view s = t)
    (kept : invariant s) : InStep view invariant (some s) (some t) := by
  refine ⟨congrArg Option.some same, fun s' found => ?_⟩
  cases found
  exact kept

/-- The rule of two loops in step, with an invariant of the first one. -/
theorem inStep_untilLoop (view : σ → τ) (invariant : σ → Prop) {s : σ} (init : invariant s)
    (same_stop : ∀ s, invariant s → stop s = stop' (view s))
    (round : ∀ s, invariant s → stop s = Option.some false →
      InStep view invariant (body s) (body' (view s)))
    (fuel : Nat) :
    InStep view invariant (untilLoop stop body fuel s) (untilLoop stop' body' fuel (view s)) := by
  induction fuel generalizing s with
  | zero =>
    cases test : stop s with
    | none => simp [untilLoop, test, ← same_stop s init, InStep]
    | some stopped => cases stopped <;> simp [untilLoop, test, ← same_stop s init, InStep, init]
  | succ fuel ih =>
    cases test : stop s with
    | none => simp [untilLoop, test, ← same_stop s init, InStep]
    | some stopped =>
      cases stopped with
      | true => simp [untilLoop, test, ← same_stop s init, InStep, init]
      | false =>
        obtain ⟨same, kept⟩ := round s init test
        cases run : body s with
        | none =>
          simp [untilLoop, test, run, ← same_stop s init, ← same, InStep]
        | some s' =>
          have rest := ih (kept s' run)
          simpa [untilLoop, test, run, ← same_stop s init, ← same] using rest

end Simulation
