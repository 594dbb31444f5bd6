import Mathlib.Data.List.Sort
import Liberty.Library.Returns
import Mathlib.Algebra.BigOperators.Group.Finset.Basic
import Mathlib.Algebra.Order.BigOperators.Group.Finset
import Mathlib.Data.Set.Finite.List
import Mathlib.Order.Bounds.Basic
import Liberty.Library.Acyclic
import Liberty.Library.Loops

/-!
# The assignment graph of the compiler

`ASSIGNMENT_HANDLER` registers the assignments from one type to another as the edges of a graph of
`GRAPH_NODE`s, one for each type.  A live type has a `RUN_TIME_SET`, the live types which an expression
of that type may hold.  `recompute_all_run_time_sets` pushes these sets along the edges until nothing
is added any more.

A type is told by the identity of its `TYPE` object, and a live type, its run-time set and its graph node
by their type: each type has at most one of each.  The order of the types is the one of the `id`s.
-/

namespace Liberty

section

/-! ## RUN_TIME_SET -/

/-- `RUN_TIME_SET`: the live types of its AVL set, in the order of their `id`s. -/
structure RunTimeSet (τ : Type) [LinearOrder τ] where
  set : List τ
  sorted : set.Pairwise (· < ·)
deriving DecidableEq

/-- What the compiler knows of the types: `live_type /= Void` and `can_be_assigned_to`. -/
structure LiveTypes (τ : Type) where
  hasLiveType : τ → Bool
  canBeAssignedTo : τ → τ → Bool

variable {τ : Type} [LinearOrder τ]

namespace RunTimeSet

/-- `set.fast_has`. -/
def has (s : RunTimeSet τ) (liveType : τ) : Bool :=
  decide (liveType ∈ s.set)

def isEmpty (s : RunTimeSet τ) : Bool :=
  s.set.isEmpty

def count (s : RunTimeSet τ) : ℕ :=
  s.set.length

theorem sorted_orderedInsert {l : List τ} {x : τ} (sorted : l.Pairwise (· < ·)) (new : x ∉ l) :
    (l.orderedInsert (· ≤ ·) x).Pairwise (· < ·) := by
  induction l with
  | nil => exact List.pairwise_singleton _ _
  | cons y l ih =>
    have head : ∀ z ∈ l, y < z := fun z mem => List.rel_of_pairwise_cons sorted mem
    have other : x ≠ y := fun same => new (same ▸ List.mem_cons_self)
    by_cases before : x ≤ y
    · rw [List.orderedInsert_cons_of_le _ _ before]
      refine List.pairwise_cons.mpr ⟨fun z mem => ?_, sorted⟩
      have less : x < y := lt_of_le_of_ne before other
      rcases List.mem_cons.mp mem with same | mem
      · exact same.symm ▸ less
      · exact less.trans (head z mem)
    · rw [List.orderedInsert_of_not_le _ _ before]
      have rest := ih sorted.of_cons fun mem => new (List.mem_cons_of_mem _ mem)
      refine List.pairwise_cons.mpr ⟨fun z mem => ?_, rest⟩
      rcases (List.mem_orderedInsert _).mp mem with same | mem
      · exact same.symm ▸ lt_of_not_ge before
      · exact head z mem

/-- `set.fast_add`, of a type that may be there already. -/
def forceAdd (s : RunTimeSet τ) (liveType : τ) : RunTimeSet τ :=
  if mem : liveType ∈ s.set then s
  else ⟨s.set.orderedInsert (· ≤ ·) liveType, sorted_orderedInsert s.sorted mem⟩

end RunTimeSet

/-- The run-time set of each type that is live. -/
abbrev RunTimeSets (τ : Type) [LinearOrder τ] := τ → RunTimeSet τ

/-- `add_set`: add the elements of the set of `other` to the set of `owner`, where they can be assigned to
it, and count them. -/
def RunTimeSets.addSet (types : LiveTypes τ) (sets : RunTimeSets τ) (owner other : τ) : RunTimeSets τ × ℕ :=
  (sets other).set.foldl (fun (sets, result) liveType =>
    if owner = liveType then (sets, result)
    else if (sets owner).has liveType then (sets, result)
    else if types.canBeAssignedTo liveType owner then
      (Function.update sets owner ((sets owner).forceAdd liveType), result + 1)
    else (sets, result)) (sets, 0)

/-! ## GRAPH_NODE -/

/-- The graph nodes in the order in which the dictionary enumerates them, and the destinations of each of
them. -/
structure AssignmentGraph (τ : Type) where
  nodes : List τ
  destinations : τ → List τ
  closed : ∀ source, ∀ destination ∈ destinations source, source ∈ nodes ∧ destination ∈ nodes
  apart : ∀ source, source ∉ destinations source

/-- A loop that pushes over some destinations and sums up what the pushes have added. -/
def pushEach {σ : Type} (push : σ → τ → Option (σ × ℕ)) (destinations : List τ) (sets : σ) (result : ℕ) :
    Option (σ × ℕ) :=
  destinations.foldlM (fun (sets, result) destination => do
    let (sets, added) ← push sets destination
    return (sets, result + added)) (sets, result)

namespace AssignmentGraph

variable (graph : AssignmentGraph τ) (types : LiveTypes τ)

/-- `run_time_set_add (rts)` of a node, where `rts` is the set of the type `rts`. -/
def runTimeSetAdd : ℕ → RunTimeSets τ → τ → τ → Option (RunTimeSets τ × ℕ)
  | 0, _, _, _ => none
  | fuel + 1, sets, node, rts =>
    if types.hasLiveType node = false then
      pushEach (fun sets destination => runTimeSetAdd fuel sets destination rts) (graph.destinations node) sets 0
    else
      let (sets, result) := if node ≠ rts then sets.addSet types node rts else (sets, 0)
      if 0 < result then
        pushEach (fun sets destination => do
          let (sets, added) ← runTimeSetAdd fuel sets destination node
          if rts ≠ node then
            let (sets, again) ← runTimeSetAdd fuel sets destination rts
            return (sets, added + again)
          else
            return (sets, added)) (graph.destinations node) sets result
      else some (sets, result)

/-- `recompute_run_time_set` of a node. -/
def recomputeRunTimeSet (fuel : ℕ) (sets : RunTimeSets τ) (node : τ) (magic : ℕ) : Option (RunTimeSets τ × ℕ) :=
  if types.hasLiveType node then
    if (sets node).isEmpty then some (sets, magic)
    else pushEach (fun sets destination => graph.runTimeSetAdd types fuel sets destination node)
      (graph.destinations node) sets magic
  else some (sets, magic)

/-! ## ASSIGNMENT_HANDLER -/

/-- The locals of `recompute_all_run_time_sets`, with the sets it works on. -/
structure Recompute (τ : Type) [LinearOrder τ] where
  sets : RunTimeSets τ
  magic : ℕ
  newMagic : ℕ
  i : ℕ

/-- One round of the loop: when the nodes are exhausted and something has been added, start again. -/
def recomputeRound (fuel : ℕ) (s : Recompute τ) : Option (Recompute τ) := do
  let node ← graph.nodes[s.i]?
  let (sets, newMagic) ← graph.recomputeRunTimeSet types fuel s.sets node s.newMagic
  if graph.nodes.length ≤ s.i + 1 ∧ newMagic ≠ s.magic then
    return ⟨sets, newMagic, newMagic, 0⟩
  else
    return ⟨sets, s.magic, newMagic, s.i + 1⟩

end AssignmentGraph

end

/-!
## The least run-time sets

The run-time sets are meant to be the least ones that contain the initial ones and that are closed: when a
path through types that are not live goes from a live type to a live type, each element of the set of the
first that can be assigned to the second is in the set of the second.

`recompute_all_run_time_sets` comes to them unless one of two things happens.

* A push goes round for ever when it comes to a cycle of types that are not live.
* When the set of a live type has got something from a set that is pushed to it, not only the set itself
  but also the one that has been pushed goes on, so that an element of this one comes past a type that it
  cannot be assigned to.
-/

namespace AssignmentGraph

variable {τ : Type} [LinearOrder τ] {graph : AssignmentGraph τ} {types : LiveTypes τ}
variable {initial sets sets' : RunTimeSets τ}

/-! ## The abstract sets -/

/-- A push at a node comes to a live type through types that are not live. -/
inductive Delivers (graph : AssignmentGraph τ) (types : LiveTypes τ) : τ → τ → Prop
  | here {node : τ} (live : types.hasLiveType node = true) : Delivers graph types node node
  | through {node next last : τ} (dead : types.hasLiveType node = false) (edge : next ∈ graph.destinations node)
      (rest : Delivers graph types next last) : Delivers graph types node last

/-- The element is in the least set of the type. -/
inductive Flows (graph : AssignmentGraph τ) (types : LiveTypes τ) (initial : RunTimeSets τ) : τ → τ → Prop
  | initial {x type : τ} (mem : x ∈ (initial type).set) : Flows graph types initial x type
  | push {x source next last : τ} (there : Flows graph types initial x source)
      (live : types.hasLiveType source = true) (edge : next ∈ graph.destinations source)
      (path : Delivers graph types next last) (fits : types.canBeAssignedTo x last = true) :
      Flows graph types initial x last

/-- A push that comes to the node, which is not of a live type, goes on to the next node. -/
def Forwards (graph : AssignmentGraph τ) (types : LiveTypes τ) (node next : τ) : Prop :=
  types.hasLiveType node = false ∧ next ∈ graph.destinations node

/-- A push at the node comes to a cycle of nodes that all forward it. -/
def ReachesDeadCycle (graph : AssignmentGraph τ) (types : LiveTypes τ) (node : τ) : Prop :=
  ∃ again, Relation.ReflTransGen (Forwards graph types) node again ∧
    Relation.TransGen (Forwards graph types) again again

/-- The set of the type `rts` can be pushed to the node: it goes through types that are not live, and
past a live type when this one can get something new from it. -/
inductive PushedTo (graph : AssignmentGraph τ) (types : LiveTypes τ) (initial : RunTimeSets τ) (rts : τ) : τ → Prop
  | first {node : τ} (edge : node ∈ graph.destinations rts) : PushedTo graph types initial rts node
  | through {node next : τ} (pushed : PushedTo graph types initial rts node)
      (dead : types.hasLiveType node = false) (edge : next ∈ graph.destinations node) :
      PushedTo graph types initial rts next
  | past {node next x : τ} (pushed : PushedTo graph types initial rts node)
      (live : types.hasLiveType node = true) (other : node ≠ rts) (flows : Flows graph types initial x rts)
      (fits : types.canBeAssignedTo x node = true) (new : x ∉ (initial node).set)
      (edge : next ∈ graph.destinations node) : PushedTo graph types initial rts next

/-- No element comes past a live type that it cannot be assigned to: where the set of a live type can be
pushed, its elements are meant to come if they can be assigned. -/
def NothingPasses (graph : AssignmentGraph τ) (types : LiveTypes τ) (initial : RunTimeSets τ) : Prop :=
  ∀ source last x, types.hasLiveType source = true → types.hasLiveType last = true →
    PushedTo graph types initial source last → Flows graph types initial x source →
    types.canBeAssignedTo x last = true → Flows graph types initial x last

/-! ### Pushes that end -/

omit [LinearOrder τ] in
/-- A node from which a push goes round for ever is not of a live type, and neither is one of its
destinations. -/
theorem ReachesDeadCycle.next {node : τ} (cycle : ReachesDeadCycle graph types node) :
    types.hasLiveType node = false ∧ ∃ m ∈ graph.destinations node, ReachesDeadCycle graph types m := by
  obtain ⟨again, path, round⟩ := cycle
  rcases Relation.ReflTransGen.cases_head path with same | ⟨m, step, rest⟩
  · obtain ⟨m, step, rest⟩ := Relation.TransGen.head'_iff.mp round
    exact ⟨same ▸ step.1, m, same ▸ step.2, again, rest, round⟩
  · exact ⟨step.1, m, step.2, again, rest, round⟩

end AssignmentGraph

end Liberty
