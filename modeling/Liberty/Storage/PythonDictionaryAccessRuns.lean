import Liberty.Storage.PythonDictionaryAccesses
import Liberty.Storage.PythonDictionaryCommands

/-!
# Runs of PYTHON_DICTIONARY with their accesses

No access leaves the storage in a run whose operations have a storage to write in, move to a
bigger one keys that are all different, and ask for the reference of a key that is there.
-/

namespace Liberty

namespace PythonDictionary

namespace Accesses

variable {κ ν : Type} [HashedKey κ] [DecidableEq κ]

/-! ## Operations -/

inductive Query (κ : Type)
  | has (k : κ)
  | fastHas (k : κ)
  | at (k : κ)
  | fastAt (k : κ)
  | referenceAt (k : κ)
  | fastReferenceAt (k : κ)
  | key (index : Int)
  | item (index : Int)

def ask (rounds : ℕ) (d : PythonDictionary κ ν) : Query κ → Checked Unit
  | .has k => do let _ ← has rounds d k
  | .fastHas k => do let _ ← fastHas rounds d k
  | .at k => do let _ ← at' rounds d k
  | .fastAt k => do let _ ← fastAt rounds d k
  | .referenceAt k => do let _ ← referenceAt rounds d k
  | .fastReferenceAt k => do let _ ← fastReferenceAt rounds d k
  | .key index => do let _ ← key rounds d index
  | .item index => do let _ ← item rounds d index

inductive Operation (κ ν : Type)
  | command (command : Dictionary.Command κ ν)
  | query (query : Query κ)

def execute (rounds : ℕ) (d : PythonDictionary κ ν) :
    Operation κ ν → Checked (PythonDictionary κ ν)
  | .command (.add v k) => add rounds d v k
  | .command (.put v k) => put rounds d v k
  | .command (.remove k) => remove rounds d k
  | .command (.setItem v index) => setItem rounds d v index
  | .command .clearCount | .command .clearCountAndCapacity => clearCount rounds d
  | .query query => do
      ask rounds d query
      return d

def create (rounds : ℕ) : Creation → Checked (PythonDictionary κ ν)
  | .make => createWithCapacity rounds defaultSize
  | .withCapacity mediumSize => createWithCapacity rounds (poweredCapacity mediumSize)

/-- The precondition of an operation, where the question of the precondition ends. -/
def Operation.Allowed (d : PythonDictionary κ ν) : Operation κ ν → Prop
  | .command (.add _ k) => ∀ rounds, has rounds d k ≠ .ok true
  | .command (.setItem _ index) => 1 ≤ index ∧ index ≤ d.count
  | .query (.at k) => ∀ rounds, has rounds d k ≠ .ok false
  | .query (.fastAt k) => ∀ rounds, fastHas rounds d k ≠ .ok false
  | .query (.key index) | .query (.item index) => 1 ≤ index ∧ index ≤ d.count
  | _ => True

/-- An operation that has a storage to write in, that moves to a bigger storage keys that are
all different, and that asks for the reference of a key that is there. -/
def Operation.Contained (d : PythonDictionary κ ν) : Operation κ ν → Prop
  | .command (.add _ k) =>
    0 < d.capacity ∧
      (d.count > d.capacity * 3 / 4 → wrap32 (d.capacity * 2) > 0 → Apart d k)
  | .command (.put _ k) =>
    0 < d.capacity ∧ ((∃ rounds, has rounds d k = .ok false) → d.count / 3 ≥ d.capacity / 4 →
      wrap32 (d.capacity * 2) > 0 → Apart d k)
  | .query (.referenceAt k) => ∀ rounds, has rounds d k ≠ .ok false
  | .query (.fastReferenceAt k) => ∀ rounds, fastHas rounds d k ≠ .ok false
  | _ => True

/-- The dictionary after allowed operations, each of which met the condition `P`. -/
inductive Reaches (P : PythonDictionary κ ν → Operation κ ν → Prop) : PythonDictionary κ ν → Prop
  | creation {d : PythonDictionary κ ν} (c : Creation) (allowed : c.Allowed) (rounds : ℕ)
      (run : create rounds c = .ok d) : Reaches P d
  | step {d d' : PythonDictionary κ ν} (operation : Operation κ ν) (before : Reaches P d)
      (allowed : operation.Allowed d) (condition : P d operation) (rounds : ℕ)
      (run : execute rounds d operation = .ok d') : Reaches P d'

/-! ## Steps -/

section Steps

variable {d : PythonDictionary κ ν} {k : κ} {index : Int} {rounds : ℕ}

omit [DecidableEq κ] in
/-- A search that answers, in a storage of any capacity, gives a cell of the storage or a
negative number. -/
theorem Valid.inRange_search (h : Valid d) {found : Node κ ν → Bool} :
    InRange (search rounds d k found) fun r => r < d.capacity := by
  have nonneg := h.capacity_nonneg
  by_cases pos : 0 < d.capacity
  · refine (Accesses.inRange_search h.size_eq pos).mono fun r answer => ?_
    rcases answer with ⟨-, high, -⟩ | ⟨negative, -⟩
    · exact high
    · omega
  · unfold search
    rw [if_pos (by omega), InRange.pure_iff]
    omega

omit [DecidableEq κ] in
theorem has_eq_of_indexOf {r : Int} (run : indexOf rounds d k = .ok r) :
    has rounds d k = .ok (decide (0 ≤ r)) := by
  unfold has
  rw [run]
  rfl

theorem fastHas_eq_of_fastIndexOf {r : Int} (run : fastIndexOf rounds d k = .ok r) :
    fastHas rounds d k = .ok (decide (0 ≤ r)) := by
  unfold fastHas
  rw [run]
  rfl

omit [HashedKey κ] [DecidableEq κ] in
/-- The read of the cell that a search names, when the search finds the key. -/
theorem Valid.inRange_read_of_found {α : Type} (h : Valid d) {search : Checked Int}
    (answers : InRange search fun r => r < d.capacity) (found : ∀ r, search = .ok r → 0 ≤ r)
    (f : Node κ ν → α) : InRange (do return (← d.storage.read (← search)).map f) fun _ => True := by
  rw [InRange.bind_iff]
  cases run : search with
  | error halt =>
    rw [run] at answers
    cases halt with
    | outOfRange => exact answers
    | unfinished => trivial
  | ok r =>
    rw [run] at answers
    rw [InRange.ok_iff] at answers ⊢
    rw [InRange.bind_iff]
    exact inRange_read (found r run) (by rw [h.size_eq]; exact answers) trivial

theorem Valid.inRange_query (h : Valid d) {query : Query κ}
    (allowed : (Operation.query query : Operation κ ν).Allowed d)
    (contained : (Operation.query query : Operation κ ν).Contained d) :
    InRange (ask rounds d query) fun _ => True := by
  have index_nonneg (k : κ) (present : ∀ rounds, has rounds d k ≠ .ok false) (r : Int)
      (run : indexOf rounds d k = .ok r) : 0 ≤ r := by
    by_contra negative
    exact present rounds ((has_eq_of_indexOf run).trans (by rw [decide_eq_false negative]))
  have fastIndex_nonneg (k : κ) (present : ∀ rounds, fastHas rounds d k ≠ .ok false) (r : Int)
      (run : fastIndexOf rounds d k = .ok r) : 0 ≤ r := by
    by_contra negative
    exact present rounds ((fastHas_eq_of_fastIndexOf run).trans (by rw [decide_eq_false negative]))
  have placed {α : Type} (index : Int) (first : 1 ≤ index) (last : index ≤ d.count)
      (f : Node κ ν → α) :
      InRange (do return (← d.storage.read (← internalIndex rounds d index)).map f)
        fun _ => True := by
    rw [InRange.bind_iff]
    refine (h.inRange_internalIndex first last).mono fun r ⟨low, high, _⟩ => ?_
    rw [InRange.bind_iff]
    exact inRange_read low (by rw [h.size_eq]; exact high) trivial
  cases query with
  | has k => exact (h.inRange_search.answer _).answer _
  | fastHas k => exact (h.inRange_search.answer _).answer _
  | «at» k =>
    exact (h.inRange_read_of_found h.inRange_search (index_nonneg k allowed) _).answer _
  | fastAt k =>
    exact (h.inRange_read_of_found h.inRange_search (fastIndex_nonneg k allowed) _).answer _
  | referenceAt k =>
    exact (h.inRange_read_of_found h.inRange_search (index_nonneg k contained) _).answer _
  | fastReferenceAt k =>
    exact (h.inRange_read_of_found h.inRange_search (fastIndex_nonneg k contained) _).answer _
  | key index => exact (placed index allowed.1 allowed.2 Node.key).answer _
  | item index => exact (placed index allowed.1 allowed.2 Node.item).answer _

theorem Valid.inRange_execute (h : Valid d) {operation : Operation κ ν}
    (allowed : operation.Allowed d) (contained : operation.Contained d) :
    InRange (execute rounds d operation) Valid := by
  cases operation with
  | command command =>
    cases command with
    | add v k =>
      refine h.inRange_add contained.1 (fun r run => ?_) contained.2
      by_contra found
      exact allowed rounds ((has_eq_of_indexOf run).trans
        (by rw [decide_eq_true (Int.not_lt.mp found)]))
    | put v k =>
      refine h.inRange_put contained.1 fun ⟨r, run, negative⟩ => contained.2 ⟨rounds, ?_⟩
      rw [has_eq_of_indexOf run, decide_eq_false (Int.not_le.mpr negative)]
    | remove k => exact h.inRange_remove
    | setItem v index => exact h.inRange_setItem allowed.1 allowed.2
    | clearCount => exact h.inRange_clearCount
    | clearCountAndCapacity => exact h.inRange_clearCount
  | query query => exact (h.inRange_query allowed contained).bind fun _ _ => h

end Steps

/-! ## Runs -/

omit [DecidableEq κ] in
theorem inRange_create {rounds : ℕ} (c : Creation) :
    InRange (create rounds c : Checked (PythonDictionary κ ν)) Valid := by
  cases c with
  | make => exact inRange_createWithCapacity
  | withCapacity mediumSize => exact inRange_createWithCapacity

theorem Reaches.valid {d : PythonDictionary κ ν} (reached : Reaches Operation.Contained d) :
    Valid d := by
  induction reached with
  | creation c allowed rounds run => exact (inRange_create c).of_ok run
  | step operation _ allowed contained rounds run ih =>
    exact (ih.inRange_execute allowed contained).of_ok run

/-- **The accesses stay in the storage**, in every run whose operations are contained: no
creation and no contained operation reads or writes out of range, for however many rounds its
loops are followed. -/
theorem reaches_inRange (κ ν : Type) [HashedKey κ] [DecidableEq κ] :
    (∀ (c : Creation) (rounds : ℕ), c.Allowed →
      (create rounds c : Checked (PythonDictionary κ ν)) ≠ .error .outOfRange) ∧
    ∀ d : PythonDictionary κ ν, Reaches Operation.Contained d →
      d.storage.size = d.capacity ∧
      ∀ (operation : Operation κ ν) (rounds : ℕ), operation.Allowed d → operation.Contained d →
        execute rounds d operation ≠ .error .outOfRange := by
  refine ⟨fun c rounds _ => (inRange_create c).ne_outOfRange, fun d reached => ?_⟩
  have h := reached.valid
  exact ⟨h.size_eq, fun operation rounds allowed contained =>
    (h.inRange_execute allowed contained).ne_outOfRange⟩

/-- A put and two ways to ask for its value. -/
theorem reaches_inRange_put :
    ∃ d : PythonDictionary (BitVec 32) Int, Reaches Operation.Contained d ∧
      d.storage.size = d.capacity ∧
      execute 5 d (.query (.key 1)) ≠ .error .outOfRange ∧
      execute 5 d (.command (.put 3 25)) ≠ .error .outOfRange := by
  have created := Reaches.creation (P := Operation.Contained (κ := BitVec 32) (ν := Int))
    .make trivial 1 rfl
  have written := created.step (.command (.put 1 9)) trivial
    ⟨by decide, fun _ grows => absurd grows (by decide)⟩ 5 rfl
  have inRange := (reaches_inRange (BitVec 32) Int).2 _ written
  exact ⟨_, written, inRange.1, inRange.2 (.query (.key 1)) 5 ⟨by decide, by decide⟩ trivial,
    inRange.2 (.command (.put 3 25)) 5 trivial
      ⟨by decide, fun _ grows => absurd grows (by decide)⟩⟩

/-- `reference_at` of a key that is not there reads the cell -6. -/
theorem not_reaches_inRange :
    ¬∀ d : PythonDictionary (BitVec 32) Int, Reaches (fun _ _ => True) d →
      ∀ (operation : Operation (BitVec 32) Int) (rounds : ℕ), operation.Allowed d →
        execute rounds d operation ≠ .error .outOfRange := by
  intro claim
  have created := Reaches.creation
    (P := fun (_ : PythonDictionary (BitVec 32) Int) _ => True) .make trivial 1 rfl
  exact claim _ created (.query (.referenceAt 5)) 5 trivial rfl

end Accesses

end PythonDictionary

end Liberty
