import Liberty.Library.Returns
import Mathlib.Data.Nat.Notation

/-!
# Programs that command a machine

A program sends commands to a machine, looks at its state, and gives a result.  It is data: it can be
run, and it can be asked whether every command that it comes to meets a condition in the state in which
it is sent.  `Assures` says that there is a result when they all do, and what holds of it and of the last state;
`Produces` says the same of every state that is ready for the program, and `ProducesIfDefined` only what
holds of the result when there is one.
-/

/-- A program over the states `σ` and the commands `C`. -/
inductive CommandProgram (σ C α : Type) : Type
  | done (a : α)
  | undefined
  | look (next : σ → CommandProgram σ C α)
  | command (c : C) (next : CommandProgram σ C α)

namespace CommandProgram

variable {σ C α β : Type}

/-- One program after the other. -/
def bind : CommandProgram σ C α → (α → CommandProgram σ C β) → CommandProgram σ C β
  | done a, f => f a
  | undefined, _ => undefined
  | look next, f => look fun s => (next s).bind f
  | command c next, f => command c (next.bind f)

instance : Monad (CommandProgram σ C) where
  pure := done
  bind := bind

/-- The command alone. -/
def send (c : C) : CommandProgram σ C Unit :=
  command c (done ())

/-- What is read of the state, where it can be. -/
def read (f : σ → Option α) : CommandProgram σ C α :=
  look fun s => match f s with
    | some a => done a
    | none => undefined

section Runs

variable (step : σ → C → Option σ)

/-- The result and the last state. -/
def run : CommandProgram σ C α → σ → Option (α × σ)
  | done a, s => some (a, s)
  | undefined, _ => none
  | look next, s => (next s).run s
  | command c next, s => do next.run (← step s c)

variable (condition : σ → C → Prop)

/-- Every command that the program comes to meets the condition. -/
def Meets : CommandProgram σ C α → σ → Prop
  | done _, _ => True
  | undefined, _ => True
  | look next, s => (next s).Meets s
  | command c next, s => condition s c ∧ ∀ s', step s c = some s' → next.Meets s'

/-- What holds of the result and of the last state, if the commands meet the condition. -/
def Assures (s : σ) (p : CommandProgram σ C α) (Q : α → σ → Prop) : Prop :=
  p.Meets step condition s → Returns (p.run step s) fun (a, s') => Q a s'

/-- What holds of the result from every state that is ready, and the last state is ready again. -/
def Produces (ready : σ → Prop) (p : CommandProgram σ C α) (Q : α → Prop) : Prop :=
  ∀ s, ready s → Assures step condition s p fun a s' => ready s' ∧ Q a

/-- What holds of the result if there is one, and the last state is ready again. -/
def ProducesIfDefined (ready : σ → Prop) (p : CommandProgram σ C α) (Q : α → Prop) : Prop :=
  ∀ s, ready s → p.Meets step condition s → ∀ a s', p.run step s = some (a, s') → ready s' ∧ Q a

end Runs

section Rules

variable {step : σ → C → Option σ} {condition : σ → C → Prop} {s : σ}

theorem run_bind (p : CommandProgram σ C α) (f : α → CommandProgram σ C β) (s : σ) :
    (p.bind f).run step s = p.run step s >>= fun r => (f r.1).run step r.2 := by
  induction p generalizing s with
  | done a => rfl
  | undefined => rfl
  | look next ih => exact ih s s
  | command c next ih =>
    change step s c >>= (next.bind f).run step = (step s c >>= next.run step) >>= _
    cases step s c with
    | none => rfl
    | some s' => exact ih s'

theorem run_read (f : σ → Option α) (s : σ) :
    (read f : CommandProgram σ C α).run step s = (f s).map fun a => (a, s) := by
  change (match f s with | some a => done a | none => undefined : CommandProgram σ C α).run step s = _
  cases f s <;> rfl

theorem meets_read (f : σ → Option α) (g : α → β) (s : σ) :
    (read f >>= fun a => pure (g a) : CommandProgram σ C β).Meets step condition s := by
  change (CommandProgram.bind (match f s with | some a => done a | none => undefined) _).Meets step condition s
  cases f s <;> exact trivial

/-- A sequence meets the condition when its first part does and what follows its result does. -/
theorem meets_bind {p : CommandProgram σ C α} {f : α → CommandProgram σ C β} {s : σ}
    (h : (p.bind f).Meets step condition s) :
    p.Meets step condition s ∧
      ∀ a s', p.run step s = some (a, s') → (f a).Meets step condition s' := by
  induction p generalizing s with
  | done a =>
    refine ⟨trivial, fun a' s' same => ?_⟩
    cases same
    exact h
  | undefined => exact ⟨trivial, fun a s' run => nomatch run⟩
  | look next ih => exact ih s h
  | command c next ih =>
    refine ⟨⟨h.1, fun s' run => (ih (h.2 s' run)).1⟩, fun a s'' run => ?_⟩
    obtain ⟨s', first, rest⟩ := Option.bind_eq_some_iff.mp run
    exact (ih (h.2 s' first)).2 a s'' rest

namespace Assures

variable {p : CommandProgram σ C α} {f : α → CommandProgram σ C β} {P Q : α → σ → Prop}
  {R : β → σ → Prop}

theorem done {a : α} (holds : Q a s) : Assures step condition s (pure a) Q :=
  fun _ => Returns.some_iff.mpr holds

theorem bind (h : Assures step condition s p P)
    (next : ∀ a s', P a s' → Assures step condition s' (f a) R) :
    Assures step condition s (p >>= f) R := by
  intro meets
  obtain ⟨first, rest⟩ := meets_bind meets
  obtain ⟨⟨a, s'⟩, run, holds⟩ := h first
  change Returns ((p.bind f).run step s) _
  rw [run_bind, run]
  exact next a s' holds (rest a s' run)

theorem mono (h : Assures step condition s p P) (weaken : ∀ a s', P a s' → Q a s') :
    Assures step condition s p Q :=
  fun meets => (h meets).mono fun r holds => weaken r.1 r.2 holds

theorem look {next : σ → CommandProgram σ C α} (h : Assures step condition s (next s) Q) :
    Assures step condition s (look next) Q :=
  h

theorem read {f : σ → Option α} {P : α → Prop} (h : Returns (f s) P)
    (holds : ∀ a, P a → Q a s) : Assures step condition s (read f) Q := by
  obtain ⟨a, value, ha⟩ := h
  refine look ?_
  rw [value]
  exact done (holds a ha)

theorem send {c : C} {Q : Unit → σ → Prop}
    (h : condition s c → Returns (step s c) fun s' => Q () s') :
    Assures step condition s (send c) Q := by
  intro meets
  obtain ⟨s', run, holds⟩ := h meets.1
  exact ⟨((), s'), by change step s c >>= _ = _; rw [run]; rfl, holds⟩

end Assures

namespace Produces

variable {ready : σ → Prop} {p : CommandProgram σ C α} {f : α → CommandProgram σ C β}
  {P Q : α → Prop} {R : β → Prop}

theorem done {a : α} (holds : Q a) : Produces step condition ready (pure a) Q :=
  fun _ isReady => .done ⟨isReady, holds⟩

theorem read {f : σ → Option α} (h : ∀ s, Returns (f s) Q) :
    Produces step condition ready (read f) Q :=
  fun s isReady => .read (h s) fun _ holds => ⟨isReady, holds⟩

theorem bind (h : Produces step condition ready p P)
    (next : ∀ a, P a → Produces step condition ready (f a) R) :
    Produces step condition ready (p >>= f) R :=
  fun s isReady => (h s isReady).bind fun a s' ⟨isReady', holds⟩ => next a holds s' isReady'

theorem mono (h : Produces step condition ready p P) (weaken : ∀ a, P a → Q a) :
    Produces step condition ready p Q :=
  fun s isReady => (h s isReady).mono fun a _ ⟨isReady', holds⟩ => ⟨isReady', weaken a holds⟩

theorem ifDefined (h : Produces step condition ready p Q) : ProducesIfDefined step condition ready p Q :=
  fun s isReady meets _ _ run => (h s isReady meets).unique run

end Produces

namespace ProducesIfDefined

variable {ready : σ → Prop} {p : CommandProgram σ C α} {f : α → CommandProgram σ C β}
  {P Q : α → Prop} {R : β → Prop}

theorem done {a : α} (holds : Q a) : ProducesIfDefined step condition ready (pure a) Q :=
  (Produces.done holds).ifDefined

theorem undefined : ProducesIfDefined step condition ready (undefined : CommandProgram σ C α) Q :=
  fun _ _ _ _ _ run => nomatch run

theorem read {f : σ → Option α} (h : ∀ s a, f s = some a → Q a) :
    ProducesIfDefined step condition ready (read f) Q := by
  intro s isReady _ a s' run
  rw [run_read] at run
  obtain ⟨b, value, same⟩ := Option.map_eq_some_iff.mp run
  cases same
  exact ⟨isReady, h s _ value⟩

theorem bind (h : ProducesIfDefined step condition ready p P)
    (next : ∀ a, P a → ProducesIfDefined step condition ready (f a) R) :
    ProducesIfDefined step condition ready (p >>= f) R := by
  intro s isReady meets b s'' run
  obtain ⟨first, rest⟩ := meets_bind meets
  change (p.bind f).run step s = _ at run
  rw [run_bind] at run
  obtain ⟨⟨a, s'⟩, run', run''⟩ := Option.bind_eq_some_iff.mp run
  obtain ⟨isReady', holds⟩ := h s isReady first a s' run'
  exact next a holds s' isReady' (rest a s' run') b s'' run''

theorem mono (h : ProducesIfDefined step condition ready p P) (weaken : ∀ a, P a → Q a) :
    ProducesIfDefined step condition ready p Q := by
  intro s isReady meets a s' run
  obtain ⟨isReady', holds⟩ := h s isReady meets a s' run
  exact ⟨isReady', weaken a holds⟩

end ProducesIfDefined

/-! ## Harmless programs -/

/-- Every command of the program is a good one. -/
def SendsOnly (good : C → Prop) : CommandProgram σ C α → Prop
  | done _ => True
  | undefined => True
  | look next => ∀ s, (next s).SendsOnly good
  | command c next => good c ∧ next.SendsOnly good

namespace SendsOnly

variable {good : C → Prop} {p : CommandProgram σ C α} {f : α → CommandProgram σ C β}

theorem bind (h : p.SendsOnly good) (next : ∀ a, (f a).SendsOnly good) : (p >>= f).SendsOnly good := by
  induction p with
  | done a => exact next a
  | undefined => exact trivial
  | look rest ih => exact fun s => ih s (h s)
  | command c rest ih => exact ⟨h.1, ih h.2⟩

theorem send {c : C} (h : good c) : (CommandProgram.send c : CommandProgram σ C Unit).SendsOnly good :=
  ⟨h, trivial⟩

theorem read (f : σ → Option α) : (CommandProgram.read f : CommandProgram σ C α).SendsOnly good := by
  intro s
  dsimp only
  cases f s <;> exact trivial

/-- Where a good command meets the condition in every state, the program does. -/
theorem meets (h : p.SendsOnly good) (always : ∀ s c, good c → condition s c) (s : σ) :
    p.Meets step condition s := by
  induction p generalizing s with
  | done a => exact trivial
  | undefined => exact trivial
  | look rest ih => exact ih s (h s) s
  | command c rest ih => exact ⟨always s c h.1, fun s' _ => ih h.2 s'⟩

end SendsOnly

/-! ## Loops -/

variable {τ : Type}

/-- `from t until stop loop body end`, cut in the round that has no fuel. -/
def untilLoop (stop : τ → CommandProgram σ C Bool) (body : τ → CommandProgram σ C τ) :
    ℕ → τ → CommandProgram σ C τ
  | 0, t => do
      if ← stop t then return t else body t >>= fun _ => undefined
  | fuel + 1, t => do
      if ← stop t then return t else untilLoop stop body fuel (← body t)

/-- The rule of the loop: an invariant, and a variant that the fuel bounds. -/
theorem Assures.untilLoop {stop : τ → CommandProgram σ C Bool} {body : τ → CommandProgram σ C τ}
    {Q : τ → σ → Prop} (invariant : τ → σ → Prop) (variant : τ → σ → ℕ) {fuel : ℕ} {t : τ}
    (init : invariant t s) (bound : variant t s ≤ fuel)
    (round : ∀ t s, invariant t s → Assures step condition s (stop t) fun stopped s' =>
      if stopped = true then Q t s'
      else Assures step condition s' (body t) fun t' s'' =>
        invariant t' s'' ∧ variant t' s'' < variant t s) :
    Assures step condition s (untilLoop stop body fuel t) Q := by
  induction fuel generalizing t s with
  | zero =>
    refine (round t s init).bind fun stopped s' next => ?_
    cases stopped with
    | true => exact .done next
    | false =>
      rw [if_neg Bool.false_ne_true] at next
      exact Assures.bind next fun t' s'' ⟨_, smaller⟩ => absurd smaller (by omega)
  | succ fuel ih =>
    refine (round t s init).bind fun stopped s' next => ?_
    cases stopped with
    | true => exact .done next
    | false =>
      rw [if_neg Bool.false_ne_true] at next
      exact Assures.bind next fun t' s'' ⟨kept, smaller⟩ => ih kept (by omega)

end Rules

end CommandProgram
