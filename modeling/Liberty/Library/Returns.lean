import Mathlib.Tactic.Basic

/-!
# Programs that may not return

A program is an `Option`: `none` when it does not return normally (an access out of
bounds, a failed assertion, a loop that does not stop).  `Returns x Q` says that `x`
returns and that its result satisfies `Q`; the rules below compute it through
sequences, branches and loops, so that running a program symbolically is rewriting
with them.
-/

/-- `x` returns a result that satisfies `Q`. -/
def Returns {α : Type} (x : Option α) (Q : α → Prop) : Prop :=
  ∃ a, x = some a ∧ Q a

namespace Returns

variable {α β : Type}

@[simp] theorem some_iff {a : α} {Q : α → Prop} : Returns (some a) Q ↔ Q a := by
  simp [Returns]

@[simp] theorem pure_iff {a : α} {Q : α → Prop} : Returns (pure a) Q ↔ Q a :=
  some_iff

@[simp] theorem none_iff {Q : α → Prop} : Returns none Q ↔ False := by
  simp [Returns]

@[simp] theorem bind_iff {x : Option α} {f : α → Option β} {Q : β → Prop} :
    Returns (x >>= f) Q ↔ Returns x fun a => Returns (f a) Q := by
  cases x <;> simp [Returns]

theorem some_bind {a : α} {f : α → Option β} : (some a >>= f) = f a := rfl

theorem none_bind {f : α → Option β} : ((none : Option α) >>= f) = none := rfl

theorem ite_iff {c : Prop} [Decidable c] {x y : Option α} {Q : α → Prop} :
    Returns (if c then x else y) Q ↔ (c → Returns x Q) ∧ (¬c → Returns y Q) := by
  split <;> simp [*]

theorem mono {x : Option α} {P Q : α → Prop} (h : Returns x P)
    (weaken : ∀ a, P a → Q a) : Returns x Q := by
  obtain ⟨a, run, ha⟩ := h
  exact ⟨a, run, weaken a ha⟩

theorem bind {x : Option α} {f : α → Option β} {P : α → Prop} {Q : β → Prop}
    (h : Returns x P) (next : ∀ a, P a → Returns (f a) Q) : Returns (x >>= f) Q :=
  bind_iff.mpr (h.mono next)

theorem unique {x : Option α} {P : α → Prop} {a : α} (h : Returns x P)
    (run : x = some a) : P a := by
  obtain ⟨b, run', hb⟩ := h
  cases run.symm.trans run'
  exact hb

theorem and {x : Option α} {P Q : α → Prop} (h : Returns x P) (h' : Returns x Q) :
    Returns x fun a => P a ∧ Q a := by
  obtain ⟨a, run, ha⟩ := h
  exact ⟨a, run, ha, h'.unique run⟩

/-- Two descriptions of a result, of which the second needs a condition. -/
theorem and_of_imp {x : Option α} {P Q : α → Prop} {c : Prop} (h : Returns x P)
    (h' : c → Returns x Q) : Returns x fun a => P a ∧ (c → Q a) := by
  obtain ⟨a, run, ha⟩ := h
  exact ⟨a, run, ha, fun hc => (h' hc).unique run⟩

theorem isSome {x : Option α} {P : α → Prop} (h : Returns x P) :
    ∃ a, x = some a := by
  obtain ⟨a, run, -⟩ := h
  exact ⟨a, run⟩

/-- Once the result of a program is described exactly enough, another description
holds of it or fails of it. -/
theorem iff_of {x : Option α} {P Q : α → Prop} {c : Prop} (h : Returns x P)
    (decided : ∀ a, P a → (Q a ↔ c)) : Returns x Q ↔ c := by
  obtain ⟨a, run, ha⟩ := h
  subst run
  simpa using decided a ha

end Returns

/-! ## Loops -/

/-- `from s until stop loop body end`, cut after `fuel` rounds. -/
def untilLoop {σ : Type} (stop : σ → Option Bool) (body : σ → Option σ) :
    Nat → σ → Option σ
  | 0, s => do
      if ← stop s then return s else none
  | fuel + 1, s => do
      if ← stop s then return s else untilLoop stop body fuel (← body s)

section Loop

variable {σ : Type} {stop : σ → Option Bool} {body : σ → Option σ}

/-- A loop that stops before its first round. -/
theorem untilLoop_stopped {fuel : Nat} {s : σ} (stopped : stop s = some true) :
    untilLoop stop body fuel s = some s := by
  cases fuel <;> simp [untilLoop, stopped]

theorem returns_untilLoop_stopped {Q : σ → Prop} {fuel : Nat} {s : σ} (stopped : stop s = some true)
    (holds : Q s) : Returns (untilLoop stop body fuel s) Q :=
  ⟨s, untilLoop_stopped stopped, holds⟩

/-- The rule of the loop: an invariant and a variant that the fuel bounds. -/
theorem returns_untilLoop {Q : σ → Prop} (invariant : σ → Prop) (variant : σ → Nat)
    {fuel : Nat} {s : σ} (init : invariant s) (bound : variant s ≤ fuel)
    (step : ∀ s, invariant s → Returns (stop s) fun stopped =>
      if stopped = true then Q s
      else Returns (body s) fun s' => invariant s' ∧ variant s' < variant s) :
    Returns (untilLoop stop body fuel s) Q := by
  induction fuel generalizing s with
  | zero =>
    obtain ⟨stopped, test, next⟩ := step s init
    cases stopped with
    | true => simpa [untilLoop, test] using next
    | false =>
      obtain ⟨s', -, -, smaller⟩ := next
      omega
  | succ fuel ih =>
    obtain ⟨stopped, test, next⟩ := step s init
    cases stopped with
    | true => simpa [untilLoop, test] using next
    | false =>
      obtain ⟨s', run, kept, smaller⟩ := next
      have rest := ih kept (by omega)
      simpa [untilLoop, test, run] using rest

/-- The states that a loop comes to. -/
inductive LoopPasses (stop : σ → Option Bool) (body : σ → Option σ) (s₀ : σ) : σ → Prop
  | start : LoopPasses stop body s₀ s₀
  | round {s s' : σ} (passes : LoopPasses stop body s₀ s) (going : stop s = some false)
      (run : body s = some s') : LoopPasses stop body s₀ s'

/-- The rule of the loop, with what is known of the states that it comes to. -/
theorem returns_untilLoop_of_passes {Q : σ → Prop} (invariant : σ → Prop)
    (variant : σ → Nat) {fuel : Nat} {s : σ} (init : invariant s) (bound : variant s ≤ fuel)
    (step : ∀ s', LoopPasses stop body s s' → invariant s' →
      Returns (stop s') fun stopped =>
        if stopped = true then Q s'
        else Returns (body s') fun s'' => invariant s'' ∧ variant s'' < variant s') :
    Returns (untilLoop stop body fuel s) Q := by
  refine returns_untilLoop (fun s' => LoopPasses stop body s s' ∧ invariant s') variant
    ⟨.start, init⟩ bound ?_
  rintro s' ⟨passes, inv⟩
  obtain ⟨stopped, test, next⟩ := step s' passes inv
  refine ⟨stopped, test, ?_⟩
  split at next
  · rwa [if_pos ‹_›]
  · rename_i going
    rw [if_neg going]
    obtain ⟨s'', run, kept, smaller⟩ := next
    exact ⟨s'', run, ⟨passes.round (by rw [test, Bool.eq_false_iff.mpr going]) run, kept⟩,
      smaller⟩

/-- A loop whose invariant never lets it stop does not return, whatever the fuel. -/
theorem untilLoop_eq_none (invariant : σ → Prop) {s : σ} (init : invariant s)
    (never : ∀ s, invariant s → stop s ≠ some true)
    (step : ∀ s s', invariant s → body s = some s' → invariant s') (fuel : Nat) :
    untilLoop stop body fuel s = none := by
  induction fuel generalizing s with
  | zero =>
    cases test : stop s with
    | none => simp [untilLoop, test]
    | some stopped => cases stopped <;> simp_all [untilLoop]
  | succ fuel ih =>
    have := never s init
    cases test : stop s with
    | none => simp [untilLoop, test]
    | some stopped =>
      cases stopped with
      | true => exact absurd test this
      | false =>
        cases run : body s with
        | none => simp [untilLoop, test, run]
        | some s' => simpa [untilLoop, test, run] using ih (step s s' init run)

/-- A loop that ends does so with more fuel, and with rounds that return where its rounds do. -/
theorem untilLoop_mono {body' : σ → Option σ} {s' : σ}
    (more : ∀ s s', body s = some s' → body' s = some s') {fuel fuel' : Nat} (le : fuel ≤ fuel') {s : σ}
    (run : untilLoop stop body fuel s = some s') : untilLoop stop body' fuel' s = some s' := by
  induction fuel generalizing s fuel' with
  | zero =>
    cases test : stop s with
    | none => simp [untilLoop, test] at run
    | some stopped =>
      cases stopped with
      | true =>
        rw [untilLoop_stopped test] at run ⊢
        exact run
      | false => simp [untilLoop, test] at run
  | succ fuel ih =>
    cases test : stop s with
    | none => simp [untilLoop, test] at run
    | some stopped =>
      cases stopped with
      | true =>
        rw [untilLoop_stopped test] at run ⊢
        exact run
      | false =>
        obtain ⟨more_fuel, rfl⟩ : ∃ k, fuel' = k + 1 := ⟨fuel' - 1, by omega⟩
        cases round : body s with
        | none => simp [untilLoop, test, round] at run
        | some next =>
          have rest : untilLoop stop body fuel next = some s' := by
            simpa [untilLoop, test, round] using run
          simpa [untilLoop, test, more s next round] using ih (Nat.le_of_succ_le_succ le) rest

/-- Two loops whose rounds are the same where the invariant holds. -/
theorem untilLoop_congr {body' : σ → Option σ} (invariant : σ → Prop)
    (same : ∀ s, invariant s → body s = body' s)
    (step : ∀ s s', invariant s → body s = some s' → invariant s') (fuel : Nat) {s : σ}
    (init : invariant s) : untilLoop stop body fuel s = untilLoop stop body' fuel s := by
  induction fuel generalizing s with
  | zero => rfl
  | succ fuel ih =>
    cases test : stop s with
    | none => simp [untilLoop, test]
    | some stopped =>
      cases stopped with
      | true => simp [untilLoop, test]
      | false =>
        cases run : body s with
        | none => simp [untilLoop, test, run, ← same s init]
        | some s' => simpa [untilLoop, test, run, ← same s init] using ih (step s s' init run)

end Loop
