import Liberty.Storage.FastArray
import Mathlib.Data.List.Perm.Basic

/-!
# LOOP_ITEM

One loop level with its jobs, in the order of their priorities.  A round of `run` puts the jobs that
are done aside, asks the others whether they are ready, and continues the ready ones that have the
priority of the first of them.

What the jobs answer in a round is arbitrary.  A job that is continued may add jobs to the loop, and
break or pause it.
-/

namespace Liberty

/-- `Minimum_integer` of PLATFORM -/
def leastPriority : Int := -2147483648

structure LoopItem (Job : Type) where
  jobList : List Job
  finishedJobs : List Job
  readyJobs : List Job
  pause : Bool
  break' : Bool

namespace LoopItem

open FastArray

variable {Job : Type}

/-! ## The source -/

def make : LoopItem Job where
  jobList := []
  finishedJobs := []
  readyJobs := []
  pause := true
  break' := false

def breakLoop (s : LoopItem Job) : LoopItem Job :=
  { s with break' := true }

def pauseLoop (s : LoopItem Job) : LoopItem Job :=
  { s with pause := true }

/-- What a job asks of its loop while it is continued. -/
inductive Call (Job : Type)
  | addJob (j : Job)
  | breakLoop
  | pauseLoop

/-- What the jobs answer in a round, and what each one does when it is continued. -/
structure Answers (Job : Type) where
  done : Job → Bool
  isReady : Job → Bool
  continue' : Job → List (Call Job)

section Source

variable (priority : Job → Int)

def addJob (s : LoopItem Job) (j : Job) : Option (LoopItem Job) := do
  let i ← untilLoop (fun i => do
      if i > upper s.jobList then return true
      return decide (priority (← item s.jobList i) > priority j))
    (fun i => some (i + 1)) s.jobList.length 0
  return { s with jobList := ← add s.jobList j i }

def execute (s : LoopItem Job) : Call Job → Option (LoopItem Job)
  | .addJob j => s.addJob priority j
  | .breakLoop => some s.breakLoop
  | .pauseLoop => some s.pauseLoop

def executeAll (s : LoopItem Job) : List (Call Job) → Option (LoopItem Job)
  | [] => some s
  | c :: cs => do executeAll (← s.execute priority c) cs

/-- The first loop of a round. -/
def prepareJobs (s : LoopItem Job) (done : Job → Bool) : Option (LoopItem Job) := do
  let (s, _) ← untilLoop (fun (s, i) => some (decide (i > upper s.jobList)))
    (fun (s, i) => do
      let job ← item s.jobList i
      if done job then
        let jobList ← remove s.jobList i
        return ({ s with jobList, finishedJobs := addLast s.finishedJobs job }, i)
      else
        return (s, i + 1))
    s.jobList.length (s, 0)
  return s

/-- The search of the first ready job: the index behind it, its priority, and the job.  The priority is
`leastPriority` until one is found. -/
def searchFirst (jobList : List Job) (isReady : Job → Bool) : Option (Int × Int × List Job) :=
  untilLoop
    (fun (i, selectedPriority, _) =>
      some (decide (i > upper jobList) || decide (selectedPriority ≠ leastPriority)))
    (fun (i, selectedPriority, readyJobs) => do
      let job ← item jobList i
      if isReady job then
        return (i + 1, priority job, addLast readyJobs job)
      else
        return (i + 1, selectedPriority, readyJobs))
    jobList.length (0, leastPriority, [])

/-- The search of the other ones, as long as they have the same priority. -/
def searchOthers (jobList : List Job) (isReady : Job → Bool) (selectedPriority : Int) (i : Int)
    (readyJobs : List Job) : Option (List Job) := do
  let (_, readyJobs) ← untilLoop
    (fun (i, _) => do
      if i > upper jobList then return true
      return decide (priority (← item jobList i) ≠ selectedPriority))
    (fun (i, readyJobs) => do
      let job ← item jobList i
      return (i + 1, if isReady job then addLast readyJobs job else readyJobs))
    jobList.length (i, readyJobs)
  return readyJobs

/-- The two loops that search the ready jobs. -/
def searchReadyJobs (s : LoopItem Job) (isReady : Job → Bool) : Option (LoopItem Job) := do
  let (i, selectedPriority, readyJobs) ← searchFirst priority s.jobList isReady
  return { s with readyJobs := ← searchOthers priority s.jobList isReady selectedPriority i readyJobs }

/-- The last loop of a round, with the list of the jobs that are continued. -/
def continueReadyJobs (s : LoopItem Job) (continue' : Job → List (Call Job)) :
    Option (LoopItem Job × List Job) := do
  let (s, continued, _) ← untilLoop (fun (_, _, i) => some (decide (i < 0)))
    (fun (s, continued, i) => do
      let job ← item s.readyJobs i
      return (← s.executeAll priority (continue' job), continued ++ [job], i - 1))
    s.readyJobs.length (s, [], upper s.readyJobs)
  return (s, continued)

/-- A round of `run`, and the jobs that it continues. -/
def round (s : LoopItem Job) (answers : Answers Job) : Option (LoopItem Job × List Job) := do
  let s ← s.prepareJobs answers.done
  if !s.jobList.isEmpty then
    let s ← s.searchReadyJobs priority answers.isReady
    s.continueReadyJobs priority answers.continue'
  else
    return (s, [])

/-- The state in which `run` begins its rounds. -/
def enter (s : LoopItem Job) : LoopItem Job :=
  { s with pause := false, break' := false }

/-- `run` begins one more round. -/
def goesOn (s : LoopItem Job) : Bool :=
  !(s.pause || s.break' || s.jobList.isEmpty)

def restart (s : LoopItem Job) : Option (LoopItem Job) := do
  let s ← untilLoop (fun s => some s.finishedJobs.isEmpty)
    (fun s => do
      let last ← s.finishedJobs.getLast?
      let s ← s.addJob priority last
      return { s with finishedJobs := s.finishedJobs.dropLast })
    s.finishedJobs.length s
  return { s with pause := true, break' := false }

end Source

/-! ## The order of the jobs -/

variable {priority : Job → Int} {s : LoopItem Job} {j : Job}

/-- The jobs stand in the order of their priorities. -/
def Sorted (priority : Job → Int) (jobs : List Job) : Prop :=
  jobs.Pairwise fun a b => priority a ≤ priority b

/-- A job goes behind those of its priority. -/
theorem returns_addJob (s : LoopItem Job) (j : Job) :
    Returns (s.addJob priority j) fun s' => ∃ before after, s.jobList = before ++ after ∧
      s' = { s with jobList := before ++ j :: after } ∧ (∀ a ∈ before, priority a ≤ priority j) ∧
      ∀ b ∈ after.head?, priority j < priority b := by
  refine Returns.bind (P := fun i => ∃ before after, s.jobList = before ++ after ∧
      i = (before.length : Int) ∧ (∀ a ∈ before, priority a ≤ priority j) ∧
      ∀ b ∈ after.head?, priority j < priority b)
    (returns_untilLoop (fun i => ∃ before after, s.jobList = before ++ after ∧
        i = (before.length : Int) ∧ ∀ a ∈ before, priority a ≤ priority j)
      (fun i => s.jobList.length - i.toNat) ⟨[], s.jobList, rfl, rfl, nofun⟩ (Nat.le_refl _) ?_) ?_
  · intro i ⟨before, after, split, here, low⟩
    have length := congrArg List.length split
    rw [List.length_append] at length
    unfold upper
    cases after with
    | nil =>
      rw [List.length_nil] at length
      rw [if_pos (by omega)]
      exact Returns.pure_iff.mpr ⟨before, [], split, here, low, nofun⟩
    | cons b after =>
      rw [List.length_cons] at length
      rw [if_neg (by omega), split, here, item_middle, Returns.some_bind, Returns.pure_iff]
      split
      · rename_i greater
        refine ⟨before, b :: after, rfl, rfl, low, fun c first => ?_⟩
        cases first
        simpa using greater
      · rename_i notGreater
        have le : priority b ≤ priority j := by simpa using notGreater
        refine Returns.some_iff.mpr ⟨⟨before ++ [b], after, by simp, by simp, fun a mem => ?_⟩, ?_⟩
        · rcases List.mem_append.mp mem with inside | last
          · exact low a inside
          · rw [List.mem_singleton.mp last]
            exact le
        · rw [List.length_append, List.length_cons]
          omega
  · intro i ⟨before, after, split, here, low, high⟩
    rw [split, here, add_middle, Returns.some_bind, Returns.pure_iff]
    exact ⟨before, after, rfl, rfl, low, high⟩

theorem Sorted.addJob {before after : List Job} (h : Sorted priority (before ++ after))
    (low : ∀ a ∈ before, priority a ≤ priority j) (high : ∀ b ∈ after.head?, priority j < priority b) :
    Sorted priority (before ++ j :: after) := by
  obtain ⟨first, second, across⟩ := List.pairwise_append.mp h
  refine List.pairwise_append.mpr ⟨first, List.pairwise_cons.mpr ⟨fun b mem => ?_, second⟩, fun a mem b mem' => ?_⟩
  · cases after with
    | nil => cases mem
    | cons c after =>
      have less := high c rfl
      rcases List.mem_cons.mp mem with same | behind
      · rw [same]
        exact Int.le_of_lt less
      · exact Int.le_trans (Int.le_of_lt less) ((List.pairwise_cons.mp second).1 b behind)
  · rcases List.mem_cons.mp mem' with same | behind
    · rw [same]
      exact low a mem
    · exact across a mem b behind

/-- `s'` has `jobs` besides the jobs of `s`. -/
structure Grows (priority : Job → Int) (s : LoopItem Job) (jobs : List Job) (s' : LoopItem Job) : Prop where
  finishedJobs_eq : s'.finishedJobs = s.finishedJobs
  readyJobs_eq : s'.readyJobs = s.readyJobs
  perm : s'.jobList.Perm (jobs ++ s.jobList)
  sorted : Sorted priority s.jobList → Sorted priority s'.jobList

theorem Grows.trans {s₁ s₂ : LoopItem Job} {jobs jobs' : List Job} (h : Grows priority s jobs s₁)
    (h' : Grows priority s₁ jobs' s₂) : Grows priority s (jobs ++ jobs') s₂ := by
  refine ⟨h'.finishedJobs_eq.trans h.finishedJobs_eq, h'.readyJobs_eq.trans h.readyJobs_eq, ?_,
    fun sorted => h'.sorted (h.sorted sorted)⟩
  calc s₂.jobList
    _ |>.Perm (jobs' ++ s₁.jobList) := h'.perm
    _ |>.Perm (jobs' ++ (jobs ++ s.jobList)) := h.perm.append_left jobs'
    _ |>.Perm (jobs ++ jobs' ++ s.jobList) := by
      rw [← List.append_assoc]
      exact List.perm_append_comm.append_right _

theorem grows_addJob (s : LoopItem Job) (j : Job) : Returns (s.addJob priority j) (Grows priority s [j]) := by
  refine (returns_addJob s j).mono fun s' result => ?_
  obtain ⟨before, after, split, eq, low, high⟩ := result
  rw [eq]
  refine ⟨rfl, rfl, ?_, fun sorted => ?_⟩
  · rw [split]
    exact List.perm_middle
  · rw [split] at sorted
    exact sorted.addJob low high

/-- The jobs that calls add. -/
def added : List (Call Job) → List Job :=
  List.filterMap fun
    | .addJob j => some j
    | .breakLoop | .pauseLoop => none

theorem grows_executeAll (s : LoopItem Job) (calls : List (Call Job)) :
    Returns (s.executeAll priority calls) (Grows priority s (added calls)) := by
  induction calls generalizing s with
  | nil => exact Returns.some_iff.mpr ⟨rfl, rfl, .refl _, id⟩
  | cons call calls ih =>
    cases call with
    | addJob j => exact (grows_addJob s j).bind fun s₁ grown => (ih s₁).mono fun s₂ more => grown.trans more
    | breakLoop => exact (ih s.breakLoop).mono fun s₂ more => ⟨more.1, more.2, more.3, more.4⟩
    | pauseLoop => exact (ih s.pauseLoop).mono fun s₂ more => ⟨more.1, more.2, more.3, more.4⟩

/-! ## A round -/

theorem returns_prepareJobs (s : LoopItem Job) (done : Job → Bool) :
    Returns (s.prepareJobs done) fun s' => s' = { s with
      jobList := s.jobList.filter (!done ·)
      finishedJobs := s.finishedJobs ++ s.jobList.filter done } := by
  refine Returns.bind (P := fun t => t.1 = { s with
      jobList := s.jobList.filter (!done ·)
      finishedJobs := s.finishedJobs ++ s.jobList.filter done })
    (returns_untilLoop (fun t => ∃ passed rest, s.jobList = passed ++ rest ∧
        t.2 = ((passed.filter (!done ·)).length : Int) ∧ t.1 = { s with
          jobList := passed.filter (!done ·) ++ rest
          finishedJobs := s.finishedJobs ++ passed.filter done })
      (fun t => t.1.jobList.length - t.2.toNat) ⟨[], s.jobList, rfl, rfl, by rw [List.filter_nil, List.filter_nil, List.append_nil]; rfl⟩
      (Nat.sub_le _ _) ?_)
    fun t eq => Returns.pure_iff.mpr eq
  intro (t, i) ⟨passed, rest, split, here, eq⟩
  dsimp only at here eq ⊢
  have length := congrArg (List.length ∘ LoopItem.jobList) eq
  simp only [Function.comp, List.length_append] at length
  unfold upper
  rw [Returns.some_iff]
  cases rest with
  | nil =>
    rw [List.length_nil] at length
    rw [if_pos (decide_eq_true (by omega)), eq, split, List.append_nil, List.append_nil]
  | cons job rest =>
    rw [List.length_cons] at length
    rw [if_neg (by rw [decide_eq_true_eq]; omega), eq, here, item_middle, Returns.some_bind]
    cases answer : done job with
    | true =>
      rw [if_pos rfl, remove_middle, Returns.some_bind, Returns.pure_iff]
      refine ⟨⟨passed ++ [job], rest, ?_, ?_, ?_⟩, ?_⟩
      · rw [split, List.append_cons]
      · simp [answer]
      · simp [answer, addLast]
      · dsimp only
        rw [List.length_append, List.length_append, List.length_cons]
        omega
    | false =>
      rw [if_neg (by decide), Returns.pure_iff]
      refine ⟨⟨passed ++ [job], rest, ?_, ?_, ?_⟩, ?_⟩
      · rw [split, List.append_cons]
      · simp [answer]
      · simp [answer]
      · dsimp only
        rw [List.length_append, List.length_cons]
        omega

/-- The ready jobs that have the priority of the first one. -/
def selected (priority : Job → Int) (isReady : Job → Bool) (jobs : List Job) : List Job :=
  match jobs.find? isReady with
  | none => []
  | some first => jobs.filter fun j => isReady j && priority j == priority first

theorem selected_split {isReady : Job → Bool} {front middle rest : List Job} {first : Job}
    (notReady : ∀ j ∈ front, isReady j = false) (ready : isReady first = true)
    (same : ∀ j ∈ middle, priority j = priority first) (others : ∀ j ∈ rest, priority j ≠ priority first) :
    selected priority isReady (front ++ first :: (middle ++ rest)) = first :: middle.filter isReady := by
  have found : (front ++ first :: (middle ++ rest)).find? isReady = some first := by
    rw [List.find?_append, List.find?_eq_none.mpr fun j mem => by rw [notReady j mem]; decide, Option.none_or,
      List.find?_cons_of_pos ready]
  have none₁ : front.filter (fun j => isReady j && priority j == priority first) = [] :=
    List.filter_eq_nil_iff.mpr fun j mem => by rw [notReady j mem, Bool.false_and]; decide
  have none₂ : rest.filter (fun j => isReady j && priority j == priority first) = [] :=
    List.filter_eq_nil_iff.mpr fun j mem => by simp [others j mem]
  have all : middle.filter (fun j => isReady j && priority j == priority first) = middle.filter isReady :=
    List.filter_congr fun j mem => by simp [same j mem]
  unfold selected
  rw [found]
  dsimp only
  rw [List.filter_append, none₁, List.filter_cons_of_pos (by simp [ready]), List.filter_append, all, none₂]
  simp

section Search

variable {jobs : List Job} {isReady : Job → Bool}

/-- Where a job of the least priority does not end the search. -/
theorem returns_searchFirst (proper : ∀ j ∈ jobs, priority j ≠ leastPriority) :
    Returns (searchFirst priority jobs isReady) fun t =>
      t = ((jobs.length : Int), leastPriority, []) ∧ jobs.find? isReady = none ∨
      ∃ front first rest, jobs = front ++ first :: rest ∧ (∀ j ∈ front, isReady j = false) ∧
        isReady first = true ∧ t = ((front.length : Int) + 1, priority first, [first]) := by
  refine returns_untilLoop (fun t => (∃ front rest, jobs = front ++ rest ∧ (∀ j ∈ front, isReady j = false) ∧
        t = ((front.length : Int), leastPriority, [])) ∨
      ∃ front first rest, jobs = front ++ first :: rest ∧ (∀ j ∈ front, isReady j = false) ∧
        isReady first = true ∧ t = ((front.length : Int) + 1, priority first, [first]))
    (fun t => jobs.length - t.1.toNat) (.inl ⟨[], jobs, rfl, nofun, rfl⟩) (Nat.sub_le _ _) ?_
  intro t state
  rw [Returns.some_iff]
  rcases state with ⟨front, rest, split, notReady, rfl⟩ | ⟨front, first, rest, split, notReady, ready, rfl⟩
  · have length := congrArg List.length split
    rw [List.length_append] at length
    unfold upper
    dsimp only
    cases rest with
    | nil =>
      rw [List.length_nil] at length
      rw [if_pos (by rw [decide_eq_true (by omega), Bool.true_or])]
      refine .inl ⟨by rw [length]; rfl, List.find?_eq_none.mpr fun j mem => ?_⟩
      rw [split, List.append_nil] at mem
      rw [notReady j mem]
      decide
    | cons job rest =>
      rw [List.length_cons] at length
      rw [if_neg (by rw [Bool.or_eq_true, decide_eq_true_eq, decide_eq_true_eq]; omega), split, item_middle,
        Returns.some_bind]
      have smaller : (front ++ job :: rest).length - ((front.length : Int) + 1).toNat <
          (front ++ job :: rest).length - ((front.length : Int)).toNat := by
        rw [List.length_append, List.length_cons]
        omega
      cases answer : isReady job with
      | true =>
        rw [if_pos rfl, Returns.pure_iff]
        exact ⟨.inr ⟨front, job, rest, rfl, notReady, answer, rfl⟩, smaller⟩
      | false =>
        rw [if_neg (by decide), Returns.pure_iff]
        refine ⟨.inl ⟨front ++ [job], rest, by rw [List.append_cons], fun j mem => ?_, ?_⟩, smaller⟩
        · rcases List.mem_append.mp mem with inside | last
          · exact notReady j inside
          · rw [List.mem_singleton.mp last]
            exact answer
        · rw [List.length_append]
          rfl
  · have different : priority first ≠ leastPriority := proper first (split ▸ by simp)
    rw [if_pos (by rw [decide_eq_true different, Bool.or_true])]
    exact .inr ⟨front, first, rest, split, notReady, ready, rfl⟩

/-- The search goes through the jobs of the priority. -/
theorem returns_searchOthers {before after ready : List Job} {selectedPriority i : Int} (split : jobs = before ++ after)
    (start : i = before.length) :
    Returns (searchOthers priority jobs isReady selectedPriority i ready) fun readyJobs =>
      ∃ middle rest, after = middle ++ rest ∧ (∀ j ∈ middle, priority j = selectedPriority) ∧
        (∀ j ∈ rest.head?, priority j ≠ selectedPriority) ∧ readyJobs = ready ++ middle.filter isReady := by
  refine Returns.bind (returns_untilLoop (Q := fun t => ∃ middle rest, after = middle ++ rest ∧
        (∀ j ∈ middle, priority j = selectedPriority) ∧ (∀ j ∈ rest.head?, priority j ≠ selectedPriority) ∧
        t.2 = ready ++ middle.filter isReady)
      (fun t => ∃ middle rest, after = middle ++ rest ∧ (∀ j ∈ middle, priority j = selectedPriority) ∧
        t = (((before ++ middle).length : Int), ready ++ middle.filter isReady))
      (fun t => jobs.length - t.1.toNat) ⟨[], after, rfl, nofun, by simp [start]⟩ (Nat.sub_le _ _) ?_)
    fun t state => Returns.pure_iff.mpr state
  intro t ⟨middle, rest, split', same, eq⟩
  rw [eq, split, split', ← List.append_assoc]
  unfold upper
  dsimp only
  cases rest with
  | nil =>
    rw [if_pos (by rw [List.append_nil]; omega)]
    exact Returns.pure_iff.mpr ⟨middle, [], rfl, same, nofun, rfl⟩
  | cons job rest =>
    have length : (before ++ middle ++ job :: rest).length = (before ++ middle).length + (rest.length + 1) :=
      List.length_append
    rw [if_neg (by omega), item_middle, Returns.some_bind, Returns.pure_iff]
    split
    · rename_i different
      refine ⟨middle, job :: rest, rfl, same, fun j first => ?_, rfl⟩
      cases first
      exact of_decide_eq_true different
    · rename_i alike
      have here : priority job = selectedPriority := by simpa using alike
      refine Returns.pure_iff.mpr ⟨⟨middle ++ [job], rest, by rw [List.append_cons], fun j mem => ?_, ?_⟩, ?_⟩
      · rcases List.mem_append.mp mem with inside | last
        · exact same j inside
        · rw [List.mem_singleton.mp last]
          exact here
      · have longer : (before ++ middle ++ [job]).length = (before ++ middle).length + 1 := List.length_append
        rw [List.filter_append, ← List.append_assoc before, longer]
        cases answer : isReady job with
        | true => simp [answer, addLast]
        | false => simp [answer]
      · rw [length]
        dsimp only
        omega

end Search

/-- The loops select the jobs, as long as no job has the priority that stands for none. -/
theorem returns_searchReadyJobs (isReady : Job → Bool) (sorted : Sorted priority s.jobList)
    (proper : ∀ j ∈ s.jobList, priority j ≠ leastPriority) :
    Returns (s.searchReadyJobs priority isReady) fun s' =>
      s' = { s with readyJobs := selected priority isReady s.jobList } := by
  refine (returns_searchFirst proper).bind fun t state => ?_
  rcases state with ⟨rfl, none⟩ | ⟨front, first, rest, split, notReady, ready, rfl⟩
  · have split : s.jobList = s.jobList ++ [] := (List.append_nil _).symm
    refine (returns_searchOthers split rfl).bind fun readyJobs found => Returns.pure_iff.mpr ?_
    obtain ⟨middle, rest, nothing, -, -, rfl⟩ := found
    rw [(List.append_eq_nil_iff.mp nothing.symm).1]
    unfold selected
    rw [none]
    rfl
  · have behind : s.jobList = front ++ [first] ++ rest := by rw [split, List.append_cons]
    refine (returns_searchOthers behind (by rw [List.length_append]; rfl)).bind fun readyJobs found =>
      Returns.pure_iff.mpr ?_
    obtain ⟨middle, rest', rfl, same, next, rfl⟩ := found
    rw [split, selected_split notReady ready same fun j mem => ?_]
    · rfl
    · -- the jobs behind the ones of the priority have greater ones
      rw [split] at sorted
      have greater := List.pairwise_cons.mp (List.pairwise_append.mp sorted).2.1
      cases rest' with
      | nil => cases mem
      | cons c rest' =>
        have le := greater.1 c (by simp)
        have different := next c rfl
        have least := (List.pairwise_append.mp greater.2).2.1
        rcases List.mem_cons.mp mem with here | further
        · rw [here]
          exact different
        · have le' := (List.pairwise_cons.mp least).1 j further
          omega

theorem returns_continueReadyJobs (s : LoopItem Job) (continue' : Job → List (Call Job)) :
    Returns (s.continueReadyJobs priority continue') fun t => t.2 = s.readyJobs.reverse ∧
      Grows priority s (added (t.2.flatMap continue')) t.1 := by
  refine Returns.bind (returns_untilLoop (Q := fun t => t.2.1 = s.readyJobs.reverse ∧
        Grows priority s (added (t.2.1.flatMap continue')) t.1)
      (fun t => ∃ rest continued, s.readyJobs = rest ++ continued ∧ t.2.1 = continued.reverse ∧
        t.2.2 = (rest.length : Int) - 1 ∧ Grows priority s (added (t.2.1.flatMap continue')) t.1)
      (fun t => (t.2.2 + 1).toNat)
      ⟨s.readyJobs, [], (List.append_nil _).symm, rfl, rfl, rfl, rfl, .refl _, id⟩
      (by unfold upper; dsimp only; omega) ?_)
    fun t state => Returns.pure_iff.mpr state
  intro (s', done, i) ⟨rest, continued, split, eq, here, grows⟩
  dsimp only at eq here grows ⊢
  rw [Returns.some_iff]
  rcases List.eq_nil_or_concat rest with rfl | ⟨rest, job, rfl⟩
  · rw [if_pos (decide_eq_true (by rw [here, List.length_nil]; omega)), split]
    exact ⟨eq, grows⟩
  · rw [List.concat_eq_append, List.length_append, List.length_singleton] at here
    rw [List.concat_eq_append, ← List.append_cons] at split
    have index : i = (rest.length : Int) := by omega
    rw [if_neg (by rw [decide_eq_true_eq]; omega), grows.readyJobs_eq, split, index, item_middle, Returns.some_bind]
    refine (grows_executeAll s' (continue' job)).bind fun s'' more => Returns.pure_iff.mpr
      ⟨⟨rest, job :: continued, rfl, by rw [eq, List.reverse_cons], rfl, ?_⟩, by dsimp only; omega⟩
    have both := grows.trans more
    unfold added at both ⊢
    have calls : (done ++ [job]).flatMap continue' = done.flatMap continue' ++ continue' job := by simp
    rwa [← List.filterMap_append, ← calls] at both

/-- What a round does: the jobs that it continues are among those that are not done. -/
structure RoundsTo (priority : Job → Int) (s : LoopItem Job) (answers : Answers Job) (s' : LoopItem Job)
    (continued : List Job) : Prop where
  continued_eq : continued = (selected priority answers.isReady (s.jobList.filter (!answers.done ·))).reverse
  finishedJobs_eq : s'.finishedJobs = s.finishedJobs ++ s.jobList.filter answers.done
  perm : s'.jobList.Perm (added (continued.flatMap answers.continue') ++ s.jobList.filter (!answers.done ·))
  sorted : Sorted priority s'.jobList

theorem returns_round (answers : Answers Job) (sorted : Sorted priority s.jobList)
    (proper : ∀ j ∈ s.jobList, priority j ≠ leastPriority) :
    Returns (s.round priority answers) fun t => RoundsTo priority s answers t.1 t.2 := by
  have kept : Sorted priority (s.jobList.filter (!answers.done ·)) := sorted.filter _
  refine (returns_prepareJobs s answers.done).bind fun s₁ prepared => ?_
  rw [prepared]
  dsimp only
  split
  · refine (returns_searchReadyJobs answers.isReady kept fun j mem => proper j (List.mem_filter.mp mem).1).bind
      fun s₂ searched => ?_
    rw [searched]
    refine (returns_continueReadyJobs _ answers.continue').mono fun t result => ?_
    obtain ⟨continued, grows⟩ := result
    exact ⟨continued, grows.finishedJobs_eq, grows.perm, grows.sorted kept⟩
  · rename_i empty
    have none : s.jobList.filter (!answers.done ·) = [] := by simpa using empty
    exact Returns.pure_iff.mpr ⟨by rw [none]; rfl, rfl, .refl _, kept⟩

theorem returns_restart (s : LoopItem Job) (sorted : Sorted priority s.jobList) :
    Returns (s.restart priority) fun s' => Sorted priority s'.jobList ∧ s'.finishedJobs = [] ∧
      s'.jobList.Perm (s.jobList ++ s.finishedJobs) := by
  refine Returns.bind (returns_untilLoop (Q := fun s' => Sorted priority s'.jobList ∧ s'.finishedJobs = [] ∧
        s'.jobList.Perm (s.jobList ++ s.finishedJobs))
      (fun s' => Sorted priority s'.jobList ∧ (s'.jobList ++ s'.finishedJobs).Perm (s.jobList ++ s.finishedJobs))
      (fun s' => s'.finishedJobs.length) ⟨sorted, .refl _⟩ (Nat.le_refl _) ?_)
    fun s' result => Returns.pure_iff.mpr result
  intro s' ⟨sorted', perm⟩
  rw [Returns.some_iff]
  rcases List.eq_nil_or_concat s'.finishedJobs with none | ⟨front, last, split⟩
  · rw [none] at perm ⊢
    rw [List.append_nil] at perm
    exact ⟨sorted', rfl, perm⟩
  · rw [List.concat_eq_append] at split
    rw [if_neg (by simp [split]), split, List.getLast?_concat, Returns.some_bind]
    refine (grows_addJob s' last).bind fun s'' grows => Returns.pure_iff.mpr ⟨⟨grows.sorted sorted', ?_⟩, ?_⟩
    · rw [grows.finishedJobs_eq, split, List.dropLast_concat]
      rw [split, ← List.append_assoc] at perm
      calc s''.jobList ++ front
        _ |>.Perm (last :: (s'.jobList ++ front)) := grows.perm.append_right front
        _ |>.Perm (s'.jobList ++ front ++ [last]) := (List.perm_append_singleton _ _).symm
        _ |>.Perm (s.jobList ++ s.finishedJobs) := perm
    · rw [grows.finishedJobs_eq, split, List.dropLast_concat, List.length_append]
      exact Nat.lt_succ_self _

/-! ## Runs -/

/-- The loops that a program comes to, with the jobs that were added. -/
inductive Reaches (priority : Job → Int) : LoopItem Job → List Job → Prop
  | make : Reaches priority make []
  | addJob {s s' : LoopItem Job} {jobs : List Job} {j : Job} (before : Reaches priority s jobs)
      (run : s.addJob priority j = some s') : Reaches priority s' (j :: jobs)
  | enter {s : LoopItem Job} {jobs : List Job} (before : Reaches priority s jobs) : Reaches priority s.enter jobs
  | round {s s' : LoopItem Job} {jobs continued : List Job} {answers : Answers Job}
      (before : Reaches priority s jobs) (goesOn : s.goesOn = true)
      (run : s.round priority answers = some (s', continued)) :
      Reaches priority s' (added (continued.flatMap answers.continue') ++ jobs)
  | breakLoop {s : LoopItem Job} {jobs : List Job} (before : Reaches priority s jobs) :
      Reaches priority s.breakLoop jobs
  | pauseLoop {s : LoopItem Job} {jobs : List Job} (before : Reaches priority s jobs) :
      Reaches priority s.pauseLoop jobs
  | restart {s s' : LoopItem Job} {jobs : List Job} (before : Reaches priority s jobs)
      (run : s.restart priority = some s') : Reaches priority s' jobs

theorem perm_filter_append (jobs finished : List Job) (done : Job → Bool) :
    (jobs.filter (!done ·) ++ (finished ++ jobs.filter done)).Perm (jobs ++ finished) := by
  have both := (List.filter_append_perm done jobs).append_right finished
  refine .trans ?_ both
  rw [← List.append_assoc]
  refine (List.perm_append_comm.trans ?_)
  rw [List.append_assoc]

theorem Reaches.sound {jobs : List Job} (proper : ∀ j : Job, priority j ≠ leastPriority)
    (reached : Reaches priority s jobs) :
    Sorted priority s.jobList ∧ (s.jobList ++ s.finishedJobs).Perm jobs := by
  induction reached with
  | make => exact ⟨.nil, .nil⟩
  | @addJob s s' jobs j _ run ih =>
    have grows := (grows_addJob s j).unique run
    refine ⟨grows.sorted ih.1, ?_⟩
    rw [grows.finishedJobs_eq]
    exact (grows.perm.append_right _).trans (ih.2.cons j)
  | enter _ ih => exact ih
  | @round s s' jobs continued answers _ _ run ih =>
    have result := (returns_round answers ih.1 fun j _ => proper j).unique run
    refine ⟨result.sorted, ?_⟩
    rw [result.finishedJobs_eq]
    refine (result.perm.append_right _).trans ?_
    rw [List.append_assoc]
    exact ((perm_filter_append _ _ answers.done).trans ih.2).append_left _
  | breakLoop _ ih => exact ih
  | pauseLoop _ ih => exact ih
  | @restart s s' jobs _ run ih =>
    obtain ⟨sorted, none, perm⟩ := (returns_restart s ih.1).unique run
    refine ⟨sorted, ?_⟩
    rw [none, List.append_nil]
    exact perm.trans ih.2

/-- **The scheduling of a loop.**  In every run the jobs stand in the order of their priorities, each
added one is in one of the two lists as often as it was added, and each round continues, once each,
the ready jobs that have the priority of the first of them. -/
theorem Reaches.schedules {jobs : List Job} (proper : ∀ j : Job, priority j ≠ leastPriority)
    (reached : Reaches priority s jobs) :
    Sorted priority s.jobList ∧ (s.jobList ++ s.finishedJobs).Perm jobs ∧
      (∀ j, ∃ s', s.addJob priority j = some s') ∧ (∃ s', s.restart priority = some s') ∧
      ∀ answers, Returns (s.round priority answers) fun t => RoundsTo priority s answers t.1 t.2 := by
  obtain ⟨sorted, perm⟩ := reached.sound proper
  exact ⟨sorted, perm, fun j => (grows_addJob s j).isSome, (returns_restart s sorted).isSome,
    fun answers => returns_round answers sorted fun j _ => proper j⟩

/-- Three jobs, told by their priorities, of which the two of the priority 5 are continued. -/
theorem Reaches.schedules_three : ∃ (s : LoopItem (Bool × Bool)) (s' : LoopItem (Bool × Bool)),
    s.round (fun j => if j.1 then 5 else 7) ⟨fun _ => false, fun _ => true, fun _ => []⟩ =
      some (s', [(true, false), (true, true)]) ∧
    Sorted (fun j => if j.1 then 5 else 7) s.jobList := by
  have reached : Reaches (fun j : Bool × Bool => if j.1 then 5 else 7)
      _ [(true, false), (false, false), (true, true)] :=
    .addJob (.addJob (.addJob .make rfl) rfl) rfl
  exact ⟨_, _, rfl, (reached.schedules fun j => by split <;> decide).1⟩

/-- A job of the least priority, which the invariant of JOB excludes: the search goes on behind it, so
that a round also continues a job of another priority. -/
theorem not_schedules : ¬∀ (s : LoopItem Int) (jobs : List Int), Reaches id s jobs →
    ∀ answers, Returns (s.round id answers) fun t => RoundsTo id s answers t.1 t.2 := by
  intro claim
  have reached : Reaches id _ [leastPriority, 5] := .addJob (.addJob .make rfl) rfl
  have result := (claim _ _ reached ⟨fun _ => false, fun _ => true, fun _ => []⟩).unique rfl
  exact absurd result.continued_eq (by decide)

end LoopItem

end Liberty
