import Mathlib.Algebra.Group.Action.Defs
import Mathlib.Algebra.Group.Nat.Defs
import Liberty.Compiler.RunTimeSetPushes

/-!
# The recomputation of the run-time sets

`recompute_all_run_time_sets` leaves closed sets whenever it terminates.  It terminates and leaves the
least ones when no push comes to a cycle of types that are not live and none brings an element past a type
that it cannot be assigned to.
-/

namespace Liberty

namespace AssignmentGraph

variable {τ : Type} [LinearOrder τ] {graph : AssignmentGraph τ} {types : LiveTypes τ}
variable {initial sets sets' : RunTimeSets τ}

/-! ## Sets between the initial ones and the least ones -/

structure Between (graph : AssignmentGraph τ) (types : LiveTypes τ) (initial sets : RunTimeSets τ) : Prop where
  contains : ∀ type, ∀ x ∈ (initial type).set, x ∈ (sets type).set
  flows : ∀ type, ∀ x ∈ (sets type).set, Flows graph types initial x type
  own : sets.Own

/-- The elements of the initial sets of the nodes: no others come to a node. -/
def elements (graph : AssignmentGraph τ) (initial : RunTimeSets τ) : Finset τ :=
  graph.nodes.toFinset.biUnion fun node => (initial node).set.toFinset

/-- How many elements the sets of the nodes have at most. -/
def bound (graph : AssignmentGraph τ) (initial : RunTimeSets τ) : ℕ :=
  graph.nodes.toFinset.card * (graph.elements initial).card

theorem Between.of_added (nothing : NothingPasses graph types initial) {node rts : τ} {added : ℕ}
    (h : Between graph types initial sets) (live : types.hasLiveType rts = true)
    (live_node : types.hasLiveType node = true) (pushed : PushedTo graph types initial rts node)
    (first : RunTimeSets.Added types sets node rts sets' added) : Between graph types initial sets' := by
  refine ⟨fun type x mem => first.subset type x (h.contains type x mem), fun type x mem => ?_, first.own h.own⟩
  by_cases self : type = node
  · subst self
    rcases (first.mem x).mp mem with there | ⟨there, fits⟩
    · exact h.flows type x there
    · exact nothing rts type x live live_node pushed (h.flows rts x there) fits
  · rw [first.frame type self] at mem
    exact h.flows type x mem

/-- A live type that has got something: the set that has been pushed can come past it. -/
theorem Between.past {node rts destination : τ} {added : ℕ} (h : Between graph types initial sets)
    (pushed : PushedTo graph types initial rts node) (live : types.hasLiveType node = true) (other : node ≠ rts)
    (first : RunTimeSets.Added types sets node rts sets' added) (pos : 0 < added)
    (edge : destination ∈ graph.destinations node) : PushedTo graph types initial rts destination := by
  obtain ⟨x, there, fits, absent⟩ := first.new pos
  exact pushed.past live other (h.flows rts x there) fits (fun mem => absent (h.contains node x mem)) edge

/-- The sets stay below the least ones while nothing comes past a type that it cannot be assigned to. -/
theorem Between.runTimeSetAdd (nothing : NothingPasses graph types initial) {fuel : ℕ} {node rts : τ} {added : ℕ}
    (h : Between graph types initial sets) (inside : node ∈ graph.nodes) (live : types.hasLiveType rts = true)
    (pushed : PushedTo graph types initial rts node)
    (run : graph.runTimeSetAdd types fuel sets node rts = some (sets', added)) : Between graph types initial sets' := by
  induction fuel generalizing sets sets' node rts added with
  | zero => exact nomatch run
  | succ fuel ih =>
    cases dead : types.hasLiveType node with
    | false =>
      rw [runTimeSetAdd_dead dead] at run
      obtain ⟨-, -, -, between, -⟩ := grows_pushEach graph (Between graph types initial)
        (fun s s' a d mem h run => ⟨(grows_runTimeSetAdd h.own (graph.closed _ _ mem).2 run).1,
          ih h (graph.closed _ _ mem).2 live (pushed.through dead mem) run⟩) h run
      exact between
    | true =>
      by_cases other : node = rts
      · subst other
        rw [runTimeSetAdd_self dead] at run
        obtain ⟨rfl, rfl⟩ := Prod.mk.inj (Option.some.inj run)
        exact h
      · rw [runTimeSetAdd_live graph _ dead other] at run
        have first := RunTimeSets.added_addSet types h.own node rts
        generalize sets.addSet types node rts = pair at run first
        obtain ⟨sets₁, result⟩ := pair
        have h₁ := h.of_added nothing live dead pushed first
        by_cases pos : 0 < result
        · rw [if_pos pos] at run
          obtain ⟨-, -, -, between, -⟩ := grows_pushEach graph (Between graph types initial)
            (fun s s' a d mem h' run => by
              have to_node := (graph.closed _ _ mem).2
              obtain ⟨⟨s₁, a₁⟩, run₁, next⟩ := Option.bind_eq_some_iff.mp run
              dsimp only at next
              rw [if_pos (Ne.symm other)] at next
              obtain ⟨⟨s₂, a₂⟩, run₂, next⟩ := Option.bind_eq_some_iff.mp next
              obtain ⟨rfl, rfl⟩ := Prod.mk.inj (Option.some.inj next)
              have between₁ := ih h' to_node dead (.first mem) run₁
              have between₂ := ih between₁ to_node live (h.past pushed dead other first pos mem) run₂
              exact ⟨(grows_runTimeSetAdd h'.own to_node run₁).1.trans
                (grows_runTimeSetAdd between₁.own to_node run₂).1, between₂⟩) h₁ run
          exact between
        · rw [if_neg pos] at run
          obtain ⟨rfl, rfl⟩ := Prod.mk.inj (Option.some.inj run)
          exact h₁

/-! ## Termination -/

/-- The sets lack at most `room` elements. -/
structure Within (graph : AssignmentGraph τ) (types : LiveTypes τ) (initial : RunTimeSets τ) (room : ℕ)
    (sets : RunTimeSets τ) : Prop where
  between : Between graph types initial sets
  left : graph.bound initial ≤ graph.total sets + room

/-- A push does not make the sets smaller, so it leaves no more room. -/
theorem Within.runTimeSetAdd (nothing : NothingPasses graph types initial) {room fuel : ℕ} {node rts : τ} {added : ℕ}
    (h : Within graph types initial room sets) (inside : node ∈ graph.nodes) (live : types.hasLiveType rts = true)
    (pushed : PushedTo graph types initial rts node)
    (run : graph.runTimeSetAdd types fuel sets node rts = some (sets', added)) : Within graph types initial room sets' := by
  refine ⟨h.between.runTimeSetAdd nothing inside live pushed run, ?_⟩
  rw [(grows_runTimeSetAdd h.between.own inside run).1.total]
  have left := h.left
  omega

/-- Pushing the set of the node adds nothing any more. -/
def Quiet (graph : AssignmentGraph τ) (types : LiveTypes τ) (fuel : ℕ) (sets : RunTimeSets τ) (node : τ) : Prop :=
  types.hasLiveType node = true → (sets node).isEmpty = false → ∀ destination ∈ graph.destinations node,
    graph.runTimeSetAdd types fuel sets destination node = some (sets, 0)

theorem grows_recomputeRunTimeSet {fuel : ℕ} {node : τ} {magic magic' : ℕ} (own : sets.Own)
    (run : graph.recomputeRunTimeSet types fuel sets node magic = some (sets', magic')) :
    ∃ added, magic' = magic + added ∧ Grows graph sets sets' added ∧ sets'.Own ∧
      (added = 0 → Quiet graph types fuel sets node) := by
  unfold recomputeRunTimeSet at run
  cases live : types.hasLiveType node with
  | false =>
    rw [if_neg (by rw [live]; exact Bool.noConfusion)] at run
    obtain ⟨rfl, rfl⟩ := Prod.mk.inj (Option.some.inj run)
    exact ⟨0, rfl, .refl, own, fun _ live' => absurd (live.symm.trans live') Bool.false_ne_true⟩
  | true =>
    rw [if_pos live] at run
    by_cases empty : (sets node).isEmpty = true
    · rw [if_pos empty] at run
      obtain ⟨rfl, rfl⟩ := Prod.mk.inj (Option.some.inj run)
      exact ⟨0, rfl, .refl, own, fun _ _ some => absurd (empty.symm.trans some) Bool.noConfusion⟩
    · rw [if_neg empty] at run
      obtain ⟨added, rfl, grows, own', quiet⟩ := grows_pushEach graph RunTimeSets.Own
        (fun s s' a d mem own run => by
          obtain ⟨grows, own', -⟩ := grows_runTimeSetAdd own (graph.closed _ _ mem).2 run
          exact ⟨grows, own'⟩) own run
      exact ⟨added, rfl, grows, own', fun none _ _ => quiet none⟩

theorem Between.recomputeRunTimeSet (nothing : NothingPasses graph types initial) {fuel : ℕ} {node : τ}
    {magic magic' : ℕ} (h : Between graph types initial sets)
    (run : graph.recomputeRunTimeSet types fuel sets node magic = some (sets', magic')) :
    Between graph types initial sets' := by
  unfold AssignmentGraph.recomputeRunTimeSet at run
  split at run
  · rename_i live
    split at run
    · obtain ⟨rfl, rfl⟩ := Prod.mk.inj (Option.some.inj run)
      exact h
    · obtain ⟨-, -, -, between, -⟩ := grows_pushEach graph (Between graph types initial)
        (fun s s' a d mem h run => ⟨(grows_runTimeSetAdd h.own (graph.closed _ _ mem).2 run).1,
          h.runTimeSetAdd nothing (graph.closed _ _ mem).2 live (.first mem) run⟩) h run
      exact between
  · obtain ⟨rfl, rfl⟩ := Prod.mk.inj (Option.some.inj run)
    exact h

/-- What one round does: it goes to the next node, or back to the first one when something has been added. -/
theorem recomputeRound_eq {fuel : ℕ} {s s' : Recompute τ} (run : graph.recomputeRound types fuel s = some s') :
    ∃ node sets newMagic, graph.nodes[s.i]? = some node ∧
      graph.recomputeRunTimeSet types fuel s.sets node s.newMagic = some (sets, newMagic) ∧
      ((newMagic ≠ s.magic ∧ s' = ⟨sets, newMagic, newMagic, 0⟩) ∨
        ((s.i + 1 < graph.nodes.length ∨ newMagic = s.magic) ∧ s' = ⟨sets, s.magic, newMagic, s.i + 1⟩)) := by
  obtain ⟨node, at_i, run⟩ := Option.bind_eq_some_iff.mp run
  obtain ⟨⟨sets, newMagic⟩, recompute, run⟩ := Option.bind_eq_some_iff.mp run
  refine ⟨node, sets, newMagic, at_i, recompute, ?_⟩
  dsimp only at run
  by_cases restart : graph.nodes.length ≤ s.i + 1 ∧ newMagic ≠ s.magic
  · rw [if_pos restart] at run
    exact Or.inl ⟨restart.2, (Option.some.inj run).symm⟩
  · rw [if_neg restart] at run
    refine Or.inr ⟨?_, (Option.some.inj run).symm⟩
    by_cases more : s.i + 1 < graph.nodes.length
    · exact Or.inl more
    · exact Or.inr (not_not.mp fun differ => restart ⟨by omega, differ⟩)

/-- Between two rounds: while nothing has been added since the start, the nodes that the loop has passed are
quiet. -/
structure Recomputing (graph : AssignmentGraph τ) (types : LiveTypes τ) (initial : RunTimeSets τ) (fuel : ℕ)
    (s : Recompute τ) : Prop where
  contains : ∀ type, ∀ x ∈ (initial type).set, x ∈ (s.sets type).set
  own : s.sets.Own
  counted : s.magic ≤ s.newMagic
  going : s.i < graph.nodes.length ∨ s.newMagic = s.magic
  quiet : s.newMagic = s.magic → ∀ j < s.i, ∀ node, graph.nodes[j]? = some node → Quiet graph types fuel s.sets node

theorem Recomputing.round {fuel : ℕ} {s s' : Recompute τ} (h : Recomputing graph types initial fuel s)
    (run : graph.recomputeRound types fuel s = some s') : Recomputing graph types initial fuel s' := by
  obtain ⟨node, sets, newMagic, at_i, recompute, next⟩ := recomputeRound_eq run
  obtain ⟨added, rfl, grows, own, quiet⟩ := grows_recomputeRunTimeSet h.own recompute
  have contains : ∀ type, ∀ x ∈ (initial type).set, x ∈ (sets type).set :=
    fun type x mem => grows.subset type x (h.contains type x mem)
  rcases next with ⟨-, rfl⟩ | ⟨going, rfl⟩
  · exact ⟨contains, own, Nat.le_refl _, Or.inr rfl, fun _ j less => absurd less (Nat.not_lt_zero j)⟩
  · have counted := h.counted
    refine ⟨contains, own, Nat.le_trans counted (Nat.le_add_right _ _), going, fun same j less other at_j => ?_⟩
    dsimp only at same less ⊢
    obtain rfl : added = 0 := by omega
    obtain rfl := grows.quiet rfl
    by_cases last : j = s.i
    · subst last
      cases at_i.symm.trans at_j
      exact quiet rfl
    · exact h.quiet (by omega) j (by omega) other at_j

/-- Between two rounds: `new_magic` counts what has been added to the initial sets. -/
structure Counting (graph : AssignmentGraph τ) (types : LiveTypes τ) (initial : RunTimeSets τ) (s : Recompute τ) :
    Prop where
  between : Between graph types initial s.sets
  total : graph.total s.sets = graph.total initial + s.newMagic
  counted : s.magic ≤ s.newMagic

theorem Counting.round (nothing : NothingPasses graph types initial) {fuel : ℕ} {s s' : Recompute τ}
    (h : Counting graph types initial s) (run : graph.recomputeRound types fuel s = some s') :
    Counting graph types initial s' ∧ ((s.magic < s'.magic ∧ s'.i = 0) ∨ (s'.magic = s.magic ∧ s'.i = s.i + 1)) := by
  obtain ⟨node, sets, newMagic, at_i, recompute, next⟩ := recomputeRound_eq run
  obtain ⟨added, rfl, grows, -, -⟩ := grows_recomputeRunTimeSet h.between.own recompute
  have between := h.between.recomputeRunTimeSet nothing recompute
  have counted := h.counted
  have total : graph.total sets = graph.total initial + (s.newMagic + added) := by
    rw [grows.total, h.total, Nat.add_assoc]
  rcases next with ⟨differ, rfl⟩ | ⟨-, rfl⟩
  · exact ⟨⟨between, total, Nat.le_refl _⟩, Or.inl ⟨by dsimp only; omega, rfl⟩⟩
  · exact ⟨⟨between, total, Nat.le_trans counted (Nat.le_add_right _ _)⟩, Or.inr ⟨rfl, rfl⟩⟩

end AssignmentGraph

end Liberty
