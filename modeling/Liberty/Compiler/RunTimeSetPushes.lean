import Liberty.Compiler.AssignmentGraph

/-!
# The pushes of run-time sets

What one push does to the sets, whether it stops or not: it adds elements and counts them, and when it has
added nothing, there was nothing to add at any live type that it comes to.
-/

namespace Liberty

variable {τ : Type} [LinearOrder τ] {graph : AssignmentGraph τ} {types : LiveTypes τ}
variable {initial sets sets' sets'' : RunTimeSets τ}

namespace RunTimeSet

theorem mem_forceAdd {s : RunTimeSet τ} {x y : τ} : x ∈ (s.forceAdd y).set ↔ x = y ∨ x ∈ s.set := by
  unfold forceAdd
  split
  · rename_i there
    exact ⟨Or.inr, fun either => either.elim (fun same => same ▸ there) id⟩
  · exact List.mem_orderedInsert _

theorem length_forceAdd {s : RunTimeSet τ} {y : τ} (new : y ∉ s.set) : (s.forceAdd y).set.length = s.set.length + 1 := by
  unfold forceAdd
  rw [dif_neg new, List.orderedInsert_length]

theorem nodup (s : RunTimeSet τ) : s.set.Nodup :=
  s.sorted.imp fun less => ne_of_lt less

end RunTimeSet

namespace RunTimeSets

/-- Every live type that is in a set is in its own set. -/
def Own (sets : RunTimeSets τ) : Prop :=
  ∀ type, ∀ x ∈ (sets type).set, x ∈ (sets x).set

/-! ## add_set -/

variable (types sets) in
/-- The loop of `add_set`, over any elements and from any sets. -/
theorem addSet_loop (owner : τ) (elements : List τ) (result : ℕ) : ∃ sets' added,
    elements.foldl (fun (sets, result) liveType =>
      if owner = liveType then (sets, result)
      else if (sets owner).has liveType then (sets, result)
      else if types.canBeAssignedTo liveType owner then
        (Function.update sets owner ((sets owner).forceAdd liveType), result + 1)
      else (sets, result)) (sets, result) = (sets', result + added) ∧
    (∀ type, type ≠ owner → sets' type = sets type) ∧
    (∀ x, x ∈ (sets' owner).set ↔
      x ∈ (sets owner).set ∨ (x ∈ elements ∧ x ≠ owner ∧ types.canBeAssignedTo x owner = true)) ∧
    (sets' owner).set.length = (sets owner).set.length + added ∧ (added = 0 → sets' = sets) ∧
    (0 < added → ∃ x ∈ elements, types.canBeAssignedTo x owner = true ∧ x ∉ (sets owner).set) := by
  induction elements generalizing sets result with
  | nil =>
    refine ⟨sets, 0, rfl, fun _ _ => rfl, fun x => ?_, rfl, fun _ => rfl, fun pos => absurd pos (Nat.lt_irrefl _)⟩
    exact ⟨Or.inl, fun either => either.elim id fun none => (nomatch none.1)⟩
  | cons y elements ih =>
    rw [List.foldl_cons]
    by_cases self : owner = y
    · dsimp only
      rw [if_pos self]
      obtain ⟨sets', added, run, frame, mem, length, quiet, new⟩ := ih sets result
      refine ⟨sets', added, run, frame, fun x => ?_, length, quiet, fun pos => ?_⟩
      · rw [mem, List.mem_cons]
        have skip : x ≠ owner → (x = y ↔ False) := fun ne => ⟨fun same => ne (same.trans self.symm), False.elim⟩
        by_cases here : x = owner
        · simp [here]
        · rw [skip here, false_or]
      · obtain ⟨x, there, fits, absent⟩ := new pos
        exact ⟨x, List.mem_cons_of_mem _ there, fits, absent⟩
    · by_cases there : y ∈ (sets owner).set
      · dsimp only
        rw [if_neg self, RunTimeSet.has, decide_eq_true there, if_pos rfl]
        obtain ⟨sets', added, run, frame, mem, length, quiet, new⟩ := ih sets result
        refine ⟨sets', added, run, frame, fun x => ?_, length, quiet, fun pos => ?_⟩
        · rw [mem, List.mem_cons]
          by_cases same : x = y
          · simp [same, there]
          · simp only [same, false_or]
        · obtain ⟨x, later, fits, absent⟩ := new pos
          exact ⟨x, List.mem_cons_of_mem _ later, fits, absent⟩
      · by_cases fits : types.canBeAssignedTo y owner = true
        · dsimp only
          rw [if_neg self, RunTimeSet.has, decide_eq_false there, if_neg Bool.false_ne_true, if_pos fits]
          obtain ⟨sets', added, run, frame, mem, length, -, -⟩ :=
            ih (Function.update sets owner ((sets owner).forceAdd y)) (result + 1)
          rw [Function.update_self] at mem length
          refine ⟨sets', added + 1, ?_, fun type other => ?_, fun x => ?_, ?_, fun none => (nomatch none), fun _ => ?_⟩
          · rw [run, Nat.add_assoc, Nat.add_comm 1]
          · rw [frame type other, Function.update_of_ne other]
          · rw [mem, RunTimeSet.mem_forceAdd, List.mem_cons]
            by_cases same : x = y
            · simp [same, fits, Ne.symm self]
            · simp only [same, false_or]
          · rw [length, RunTimeSet.length_forceAdd there]
            omega
          · exact ⟨y, List.mem_cons_self, fits, there⟩
        · dsimp only
          rw [if_neg self, RunTimeSet.has, decide_eq_false there, if_neg Bool.false_ne_true, if_neg fits]
          obtain ⟨sets', added, run, frame, mem, length, quiet, new⟩ := ih sets result
          refine ⟨sets', added, run, frame, fun x => ?_, length, quiet, fun pos => ?_⟩
          · rw [mem, List.mem_cons]
            by_cases same : x = y
            · simp [same, fits]
            · simp only [same, false_or]
          · obtain ⟨x, later, fits, absent⟩ := new pos
            exact ⟨x, List.mem_cons_of_mem _ later, fits, absent⟩

/-- What `add_set` does: the elements of the other set that can be assigned to the owner are in its set. -/
structure Added (types : LiveTypes τ) (sets : RunTimeSets τ) (owner other : τ) (sets' : RunTimeSets τ)
    (added : ℕ) : Prop where
  frame : ∀ type, type ≠ owner → sets' type = sets type
  mem : ∀ x, x ∈ (sets' owner).set ↔
    x ∈ (sets owner).set ∨ (x ∈ (sets other).set ∧ types.canBeAssignedTo x owner = true)
  length : (sets' owner).set.length = (sets owner).set.length + added
  quiet : added = 0 → sets' = sets
  new : 0 < added → ∃ x ∈ (sets other).set, types.canBeAssignedTo x owner = true ∧ x ∉ (sets owner).set

variable (types) in
theorem added_addSet (own : Own sets) (owner other : τ) :
    Added types sets owner other (sets.addSet types owner other).1 (sets.addSet types owner other).2 := by
  obtain ⟨sets', added, run, frame, mem, length, quiet, new⟩ :=
    addSet_loop types sets owner (sets other).set 0
  rw [Nat.zero_add] at run
  unfold addSet
  rw [run]
  refine ⟨frame, fun x => ?_, length, quiet, new⟩
  rw [mem]
  by_cases self : x = owner
  · constructor
    · intro either
      rcases either with there | ⟨-, other, -⟩
      · exact Or.inl there
      · exact absurd self other
    · intro either
      rcases either with there | ⟨there, -⟩
      · exact Or.inl there
      · exact Or.inl (self ▸ own other x there)
  · simp [self]

theorem Added.subset {owner other : τ} {added : ℕ} (h : Added types sets owner other sets' added) (type : τ) :
    ∀ x ∈ (sets type).set, x ∈ (sets' type).set := by
  intro x there
  by_cases self : type = owner
  · subst self
    exact (h.mem x).mpr (Or.inl there)
  · rw [h.frame type self]
    exact there

theorem Added.own {owner other : τ} {added : ℕ} (own : Own sets) (h : Added types sets owner other sets' added) :
    Own sets' := by
  intro type x there
  apply h.subset
  by_cases self : type = owner
  · subst self
    rcases (h.mem x).mp there with there | ⟨there, -⟩
    · exact own type x there
    · exact own other x there
  · rw [h.frame type self] at there
    exact own type x there

end RunTimeSets

namespace AssignmentGraph

/-! ## What a push adds -/

/-- How many elements the sets of the nodes have. -/
def total (graph : AssignmentGraph τ) (sets : RunTimeSets τ) : ℕ :=
  ∑ node ∈ graph.nodes.toFinset, (sets node).set.length

/-- The sets have got some elements, which have been counted. -/
structure Grows (graph : AssignmentGraph τ) (sets sets' : RunTimeSets τ) (added : ℕ) : Prop where
  subset : ∀ type, ∀ x ∈ (sets type).set, x ∈ (sets' type).set
  total : graph.total sets' = graph.total sets + added
  quiet : added = 0 → sets' = sets

theorem Grows.refl : Grows graph sets sets 0 :=
  ⟨fun _ _ mem => mem, rfl, fun _ => rfl⟩

theorem Grows.trans {added more : ℕ} (h : Grows graph sets sets' added) (h' : Grows graph sets' sets'' more) :
    Grows graph sets sets'' (added + more) := by
  refine ⟨fun type x mem => h'.subset type x (h.subset type x mem), ?_, fun none => ?_⟩
  · rw [h'.total, h.total, Nat.add_assoc]
  · rw [h'.quiet (by omega), h.quiet (by omega)]

theorem Grows.of_added {owner other : τ} {added : ℕ} (node : owner ∈ graph.nodes)
    (h : RunTimeSets.Added types sets owner other sets' added) : Grows graph sets sets' added := by
  refine ⟨h.subset, ?_, h.quiet⟩
  have mem := List.mem_toFinset.mpr node
  unfold AssignmentGraph.total
  rw [← Finset.add_sum_erase _ _ mem, ← Finset.add_sum_erase _ _ mem, h.length]
  have rest : ∑ node ∈ graph.nodes.toFinset.erase owner, (sets' node).set.length =
      ∑ node ∈ graph.nodes.toFinset.erase owner, (sets node).set.length :=
    Finset.sum_congr rfl fun node mem => by rw [h.frame node (Finset.ne_of_mem_erase mem)]
  omega

variable (graph) in
/-- Pushing to some destinations, where each push keeps an invariant and counts what it adds. -/
theorem grows_pushEach {push : RunTimeSets τ → τ → Option (RunTimeSets τ × ℕ)} (invariant : RunTimeSets τ → Prop)
    {destinations : List τ} (step : ∀ sets sets' added, ∀ destination ∈ destinations, invariant sets →
      push sets destination = some (sets', added) → Grows graph sets sets' added ∧ invariant sets')
    {result result' : ℕ} (inv : invariant sets)
    (run : pushEach push destinations sets result = some (sets', result')) :
    ∃ added, result' = result + added ∧ Grows graph sets sets' added ∧ invariant sets' ∧
      (added = 0 → ∀ destination ∈ destinations, push sets destination = some (sets, 0)) := by
  induction destinations generalizing sets result with
  | nil =>
    obtain ⟨rfl, rfl⟩ := Prod.mk.inj (Option.some.inj run)
    exact ⟨0, rfl, .refl, inv, fun _ _ none => (nomatch none)⟩
  | cons first rest ih =>
    unfold pushEach at run
    rw [List.foldlM_cons] at run
    obtain ⟨⟨mid, count⟩, here, run⟩ := Option.bind_eq_some_iff.mp run
    obtain ⟨⟨sets₁, added₁⟩, pushed, next⟩ := Option.bind_eq_some_iff.mp here
    obtain ⟨rfl, rfl⟩ := Prod.mk.inj (Option.some.inj next)
    obtain ⟨grows, inv₁⟩ := step sets sets₁ added₁ first List.mem_cons_self inv pushed
    obtain ⟨added₂, rfl, grows₂, inv₂, quiet⟩ :=
      ih (fun s s' a d mem => step s s' a d (List.mem_cons_of_mem _ mem)) inv₁ run
    refine ⟨added₁ + added₂, Nat.add_assoc _ _ _, grows.trans grows₂, inv₂, fun none => ?_⟩
    obtain rfl : added₁ = 0 := by omega
    obtain rfl := grows.quiet rfl
    intro destination mem
    rcases List.mem_cons.mp mem with rfl | mem
    · exact pushed
    · exact quiet (by omega) destination mem

/-- The push of a live type that has got something: its own set, and then the one that came. -/
def pushBoth (graph : AssignmentGraph τ) (types : LiveTypes τ) (fuel : ℕ) (node rts : τ) (sets : RunTimeSets τ)
    (destination : τ) : Option (RunTimeSets τ × ℕ) := do
  let (sets, added) ← graph.runTimeSetAdd types fuel sets destination node
  if rts ≠ node then
    let (sets, again) ← graph.runTimeSetAdd types fuel sets destination rts
    return (sets, added + again)
  else
    return (sets, added)

theorem runTimeSetAdd_dead {node : τ} (dead : types.hasLiveType node = false) (fuel : ℕ) (rts : τ) :
    graph.runTimeSetAdd types (fuel + 1) sets node rts =
      pushEach (fun sets destination => graph.runTimeSetAdd types fuel sets destination rts)
        (graph.destinations node) sets 0 := by
  rw [runTimeSetAdd, if_pos dead]

/-- A set that comes to the type it belongs to goes no further. -/
theorem runTimeSetAdd_self {node : τ} (live : types.hasLiveType node = true) (fuel : ℕ) :
    graph.runTimeSetAdd types (fuel + 1) sets node node = some (sets, 0) := by
  rw [runTimeSetAdd, if_neg (by rw [live]; exact Bool.noConfusion), if_neg (not_not.mpr rfl)]
  rfl

variable (graph sets) in
theorem runTimeSetAdd_live {node rts : τ} (live : types.hasLiveType node = true) (other : node ≠ rts) (fuel : ℕ) :
    graph.runTimeSetAdd types (fuel + 1) sets node rts =
      if 0 < (sets.addSet types node rts).2 then
        pushEach (graph.pushBoth types fuel node rts) (graph.destinations node) (sets.addSet types node rts).1
          (sets.addSet types node rts).2
      else some (sets.addSet types node rts) := by
  rw [runTimeSetAdd, if_neg (by rw [live]; exact Bool.noConfusion), if_pos other]
  rfl

/-- What one push does, also where it goes on. -/
theorem grows_runTimeSetAdd {fuel : ℕ} {node rts : τ} {added : ℕ} (own : sets.Own) (inside : node ∈ graph.nodes)
    (run : graph.runTimeSetAdd types fuel sets node rts = some (sets', added)) :
    Grows graph sets sets' added ∧ sets'.Own ∧ (added = 0 → ∀ last, Delivers graph types node last →
      ∀ x ∈ (sets rts).set, types.canBeAssignedTo x last = true → x ∈ (sets last).set) := by
  induction fuel generalizing sets sets' node rts added with
  | zero => exact nomatch run
  | succ fuel ih =>
    cases live : types.hasLiveType node with
    | false =>
      rw [runTimeSetAdd_dead live] at run
      obtain ⟨more, same, grows, own', quiet⟩ := grows_pushEach graph RunTimeSets.Own
        (fun s s' a d mem own run => by
          obtain ⟨grows, own', -⟩ := ih own (graph.closed _ _ mem).2 run
          exact ⟨grows, own'⟩) own run
      obtain rfl : added = more := by omega
      refine ⟨grows, own', fun none last path x there fits => ?_⟩
      cases path with
      | here live' => exact absurd (live.symm.trans live') Bool.false_ne_true
      | through _ edge rest =>
        exact (ih own (graph.closed _ _ edge).2 (quiet none _ edge)).2.2 rfl last rest x there fits
    | true =>
      by_cases other : node = rts
      · subst other
        rw [runTimeSetAdd_self live] at run
        obtain ⟨rfl, rfl⟩ := Prod.mk.inj (Option.some.inj run)
        refine ⟨.refl, own, fun _ last path x there fits => ?_⟩
        cases path with
        | here _ => exact there
        | through dead _ _ => exact absurd (dead.symm.trans live) Bool.false_ne_true
      · rw [runTimeSetAdd_live graph _ live other] at run
        have first := RunTimeSets.added_addSet types own node rts
        generalize sets.addSet types node rts = pair at run first
        obtain ⟨sets₁, result⟩ := pair
        have grows₁ : Grows graph sets sets₁ result := .of_added inside first
        have own₁ := first.own own
        by_cases pos : 0 < result
        · rw [if_pos pos] at run
          obtain ⟨more, rfl, grows, own', -⟩ := grows_pushEach graph RunTimeSets.Own
            (fun s s' a d mem own run => by
              obtain ⟨⟨s₁, a₁⟩, run₁, next⟩ := Option.bind_eq_some_iff.mp run
              obtain ⟨grows, own', -⟩ := ih own (graph.closed _ _ mem).2 run₁
              dsimp only at next
              rw [if_pos (Ne.symm other)] at next
              obtain ⟨⟨s₂, a₂⟩, run₂, next⟩ := Option.bind_eq_some_iff.mp next
              obtain ⟨grows', own'', -⟩ := ih own' (graph.closed _ _ mem).2 run₂
              obtain ⟨rfl, rfl⟩ := Prod.mk.inj (Option.some.inj next)
              exact ⟨grows.trans grows', own''⟩) own₁ run
          exact ⟨grows₁.trans grows, own', fun none => absurd none (by omega)⟩
        · rw [if_neg pos] at run
          obtain ⟨rfl, rfl⟩ := Prod.mk.inj (Option.some.inj run)
          refine ⟨grows₁, own₁, fun none last path x there fits => ?_⟩
          cases path with
          | here _ =>
            have mem := (first.mem x).mpr (Or.inr ⟨there, fits⟩)
            rwa [first.quiet none] at mem
          | through dead _ _ => exact absurd (dead.symm.trans live) Bool.false_ne_true

end AssignmentGraph

end Liberty
