import Liberty.Storage.PythonDictionaryAccessRuns

/-!
# The searches of PYTHON_DICTIONARY end

The walk of a key comes to every slot of the storage, so that a search ends where a slot is free.  `add` and
`put` keep one free unless they fill the last one without a bigger storage.
-/

namespace Liberty

namespace PythonDictionary

namespace Accesses

variable {κ ν : Type} [HashedKey κ]

/-! ## Free slots -/

/-- A capacity that is none or a power of two, of which one slot at least is free. -/
structure HasFreeSlot (d : PythonDictionary κ ν) : Prop where
  valid : Valid d
  power : d.capacity = 0 ∨ ∃ b ≤ 30, d.capacity = 2 ^ b
  count_lt : 0 < d.capacity → d.count < d.capacity

section Searches

variable {d : PythonDictionary κ ν} {found : Node κ ν → Bool} {k : κ}

omit [HashedKey κ] in
theorem setCells_full {α : Type} {cell : Int → Option α} {n : ℕ}
    (set : ∀ i : Int, 0 ≤ i → i < n → (cell i).isSome = true) : setCells cell n = n := by
  induction n with
  | zero => rfl
  | succ n ih =>
    rw [setCells_succ, ih fun i low high => set i low (by omega), if_pos (set n (by omega) (by omega))]

omit [HashedKey κ] in
theorem HasFreeSlot.exists_free (h : HasFreeSlot d) (pos : 0 < d.capacity) :
    ∃ i, 0 ≤ i ∧ i < d.capacity ∧ d.storage.cell i = none := by
  by_contra none
  have set : ∀ i : Int, 0 ≤ i → i < d.capacity.toNat → (d.storage.cell i).isSome = true := by
    intro i low high
    rw [Option.isSome_iff_ne_none]
    exact fun free => none ⟨i, low, by omega, free⟩
  have count := h.valid.count_eq
  have less := h.count_lt pos
  rw [setCells_full set] at count
  omega

/-- A round of `index_of` and `fast_index_of`. -/
def searchRound (d : PythonDictionary κ ν) (found : Node κ ν → Bool) (s : Int × (Int × Int) × Bool) :
    Checked (Int × (Int × Int) × Bool) := do
  match ← d.storage.read (s.2.1.1 % d.capacity) with
  | some node =>
    if found node then return (s.2.1.1 % d.capacity, s.2.1, true)
    else return (s.2.1.1 % d.capacity, advance s.2.1, false)
  | none => return (-(s.2.1.1 % d.capacity) - 1, s.2.1, true)

theorem search_eq (rounds : ℕ) (pos : 0 < d.capacity) : search rounds d k found = do
    return (← checkedLoop (fun s => return s.2.2) (searchRound d found) rounds
      (0, walk d.capacity k 0, false)).1 := by
  unfold search
  rw [if_neg (by omega)]
  rfl

omit [HashedKey κ] in
/-- A round in a storage of the capacity reads a slot and ends the search or goes on with the walk. -/
theorem Valid.searchRound_eq (h : Valid d) (pos : 0 < d.capacity) (found : Node κ ν → Bool)
    (s : Int × (Int × Int) × Bool) :
    ∃ r, searchRound d found s = .ok r ∧ (r.2.2 = true ∨
      r.2.2 = false ∧ r.2.1 = advance s.2.1 ∧ ∃ node, d.storage.cell (s.2.1.1 % d.capacity) = some node ∧
        found node = false) := by
  have size := h.size_eq
  have low := Int.emod_nonneg s.2.1.1 (show d.capacity ≠ 0 by omega)
  have high := Int.emod_lt_of_pos s.2.1.1 pos
  have inside : d.storage.read (s.2.1.1 % d.capacity) = .ok (d.storage.cell (s.2.1.1 % d.capacity)) :=
    if_pos ⟨low, by omega⟩
  unfold searchRound
  rw [inside]
  change ∃ r, (match d.storage.cell (s.2.1.1 % d.capacity) with
    | some node => _
    | none => _) = Except.ok r ∧ _
  cases cell : d.storage.cell (s.2.1.1 % d.capacity) with
  | none => exact ⟨_, rfl, .inl rfl⟩
  | some node =>
    dsimp only
    cases here : found node with
    | true => exact ⟨_, rfl, .inl rfl⟩
    | false => exact ⟨_, rfl, .inr ⟨rfl, rfl, node, rfl, here⟩⟩

/-- The search has ended, or its walk comes to its slot `n` in `m` rounds at most. -/
def Before (d : PythonDictionary κ ν) (k : κ) (n : ℕ) (s : Int × (Int × Int) × Bool) (m : ℕ) : Prop :=
  s.2.2 = true ∨ s.2.2 = false ∧ ∃ j ≤ n, s.2.1 = walk d.capacity k j ∧ m = n + 1 - j

/-- **A search ends**, at the latest when its walk comes to the free slot. -/
theorem HasFreeSlot.search_ends (h : HasFreeSlot d) :
    ∃ r enough, ∀ rounds ≥ enough, search rounds d k found = .ok r := by
  by_cases pos : 0 < d.capacity
  · obtain ⟨i, low, high, free⟩ := h.exists_free pos
    obtain ⟨n, place⟩ : ∃ n, (walk d.capacity k n).1 % d.capacity = i := by
      rcases h.power with zero | ⟨b, le, power⟩
      · omega
      · rw [power] at high ⊢
        obtain ⟨n, -, place⟩ := @exists_probe_eq κ ν _ k b (by omega) i low high
        exact ⟨n, place⟩
    have step : ∀ s m, Before d k n s m → (pure s.2.2 : Checked Bool) = .ok true ∨
        (pure s.2.2 : Checked Bool) = .ok false ∧
          ∃ s' m', m = m' + 1 ∧ searchRound d found s = .ok s' ∧ Before d k n s' m' := by
      rintro s m (stopped | ⟨goes, j, le, place', left⟩)
      · exact .inl (congrArg Except.ok stopped)
      · obtain ⟨r, run, next⟩ := h.valid.searchRound_eq pos found s
        refine .inr ⟨congrArg Except.ok goes, r, n - j, by omega, run, ?_⟩
        rcases next with stopped | ⟨goes', more, node, set, -⟩
        · exact .inl stopped
        · have before : j ≠ n := by
            rintro rfl
            rw [place', place, free] at set
            cases set
          exact .inr ⟨goes', j + 1, by omega, by rw [more, place', walk_succ], by omega⟩
    have init : Before d k n (0, walk d.capacity k 0, false) (n + 1) := .inr ⟨rfl, 0, Nat.zero_le n, rfl, rfl⟩
    obtain ⟨s, ends⟩ := checkedLoop_ends (Before d k n) step init
    refine ⟨s.1, n + 1, fun rounds le => ?_⟩
    rw [search_eq rounds pos, ends rounds le]
    rfl
  · refine ⟨-1, 0, fun rounds _ => ?_⟩
    have nonneg := h.valid.capacity_nonneg
    unfold search
    rw [if_pos (by omega)]
    rfl

/-- In a full storage the search for a key that is not there never ends. -/
theorem Valid.search_unfinished (h : Valid d) (pos : 0 < d.capacity)
    (others : ∀ i, 0 ≤ i → i < d.capacity → ∃ node, d.storage.cell i = some node ∧ found node = false)
    (rounds : ℕ) : search rounds d k found = .error .unfinished := by
  have step : ∀ s : Int × (Int × Int) × Bool, s.2.2 = false → (pure s.2.2 : Checked Bool) = .ok false ∧
      ∃ s', searchRound d found s = .ok s' ∧ s'.2.2 = false := by
    intro s goes
    have low := Int.emod_nonneg s.2.1.1 (show d.capacity ≠ 0 by omega)
    have high := Int.emod_lt_of_pos s.2.1.1 pos
    obtain ⟨node, set, other⟩ := others _ low high
    have inside : d.storage.read (s.2.1.1 % d.capacity) = .ok (some node) := by
      unfold NativeArray.read
      rw [if_pos ⟨low, by rw [h.size_eq]; exact high⟩, set]
    refine ⟨congrArg Except.ok goes, (s.2.1.1 % d.capacity, advance s.2.1, false), ?_, rfl⟩
    unfold searchRound
    rw [inside]
    change (if found node = true then _ else _) = _
    rw [other]
    rfl
  rw [search_eq rounds pos, checkedLoop_unfinished (fun s => s.2.2 = false) step rounds rfl]
  rfl

end Searches

/-! ## Commands that returned -/

section Commands

variable {d : PythonDictionary κ ν} {k : κ} {v : ν} {rounds : ℕ}

omit [HashedKey κ] in
theorem onReturn_read {α : Type} (s : NativeArray α) (i : Int) :
    OnReturn (s.read i) fun x => s.InBounds i ∧ x = s.cell i := by
  unfold NativeArray.read
  split
  · exact .pure ⟨‹_›, rfl⟩
  · exact fun _ run => nomatch run

omit [HashedKey κ] in
theorem onReturn_putStorage (d : PythonDictionary κ ν) (node : Option (Node κ ν)) (i : Int) :
    OnReturn (putStorage d node i) fun d' =>
      d.storage.InBounds i ∧ d' = { d with storage := d.storage.set node i } := by
  unfold putStorage NativeArray.write
  split
  · exact .pure ⟨‹_›, rfl⟩
  · exact fun _ run => nomatch run

/-- The capacity is the same, and no more cells are set. -/
def Keeps (d d' : PythonDictionary κ ν) : Prop :=
  d'.capacity = d.capacity ∧ d'.count ≤ d.count

omit [HashedKey κ] in
theorem keeps_putStorage (node : Option (Node κ ν)) (i : Int) : OnReturn (putStorage d node i) (Keeps d) := by
  refine (onReturn_putStorage d node i).mono fun d' ⟨_, same⟩ => ?_
  rw [same]
  exact ⟨rfl, Int.le_refl _⟩

omit [HashedKey κ] in
theorem Keeps.then {e f : PythonDictionary κ ν} (h : Keeps d e) (h' : Keeps e f) : Keeps d f :=
  ⟨h'.1.trans h.1, Int.le_trans h'.2 h.2⟩

theorem keeps_rescan : OnReturn (rescan rounds d) (Keeps d) := by
  refine OnReturn.bind (P := fun s => Keeps d s.1) ?_ fun s kept => .pure kept
  refine .loop (fun s : PythonDictionary κ ν × Int => Keeps d s.1) rounds ⟨rfl, Int.le_refl _⟩ ?_
  rintro ⟨e, i⟩ kept
  refine .pure ?_
  split
  · exact kept
  · refine (OnReturn.trivial _).bind fun cell _ => ?_
    cases cell with
    | none => exact .pure kept
    | some node =>
      refine (OnReturn.trivial _).bind fun r _ => ?_
      split
      · refine (keeps_putStorage _ _).bind fun f first => (keeps_putStorage _ _).bind fun g second => .pure ?_
        exact (kept.then first).then second
      · exact .pure kept

theorem keeps_remove : OnReturn (remove rounds d k) (Keeps d) := by
  refine (OnReturn.trivial _).bind fun r _ => ?_
  split
  · refine (keeps_putStorage _ _).bind fun e first => keeps_rescan.mono fun f rest => ?_
    have less := first.2
    have same := rest.2
    dsimp only at same
    exact ⟨rest.1.trans first.1, by omega⟩
  · exact .pure ⟨rfl, Int.le_refl _⟩

omit [HashedKey κ] in
theorem keeps_setItem {index : Int} : OnReturn (setItem rounds d v index) (Keeps d) := by
  unfold setItem
  refine (OnReturn.trivial _).bind fun i _ => (OnReturn.trivial _).bind fun node _ => ?_
  exact keeps_putStorage _ _

omit [HashedKey κ] in
theorem onReturn_clearCount : OnReturn (clearCount rounds d) fun d' => d'.capacity = d.capacity ∧ d'.count = 0 := by
  unfold clearCount
  exact (OnReturn.trivial _).bind fun s _ => .pure ⟨rfl, rfl⟩

omit [HashedKey κ] in
theorem HasFreeSlot.of_keeps {d' : PythonDictionary κ ν} (h : HasFreeSlot d) (valid : Valid d')
    (keeps : Keeps d d') : HasFreeSlot d' := by
  refine ⟨valid, by rw [keeps.1]; exact h.power, fun pos => ?_⟩
  have less := h.count_lt (by rw [← keeps.1]; exact pos)
  have le := keeps.2
  rw [keeps.1]
  omega

theorem Valid.onReturn_indexOf (h : Valid d) : OnReturn (indexOf rounds d k) fun r =>
    d.capacity = 0 ∨ Answer d (fun node => node.key ≈ k) r := by
  by_cases pos : 0 < d.capacity
  · have answers : InRange (indexOf rounds d k) _ := inRange_indexOf h.size_eq pos
    exact answers.onReturn.mono fun r => .inr
  · have nonneg := h.capacity_nonneg
    exact (OnReturn.trivial _).mono fun r _ => .inl (by omega)

omit [HashedKey κ] in
theorem HasFreeSlot.onReturn_clearCount (h : HasFreeSlot d) : OnReturn (clearCount rounds d) HasFreeSlot := by
  intro e run
  have valid := h.valid.inRange_clearCount.of_ok run
  obtain ⟨capacity, count⟩ := Accesses.onReturn_clearCount e run
  refine ⟨valid, ?_, fun pos => ?_⟩
  · rw [capacity]
    exact h.power
  · omega

/-- A node that is written went to a free slot, which the answer of the search named. -/
theorem Valid.onReturn_putNew (h : Valid d) {found : Node κ ν → Prop} {index : Int}
    (answer : d.capacity = 0 ∨ Answer d found index) : OnReturn (putNew d v k index) fun d' =>
      Valid d' ∧ d'.capacity = d.capacity ∧ d'.count = d.count + 1 := by
  refine (onReturn_putStorage _ _ _).bind fun d' ⟨inside, same⟩ => .pure ?_
  have size := h.size_eq
  have low := inside.1
  have high := inside.2
  rw [same]
  rcases answer with none | ⟨found, -⟩ | ⟨negative, high, free⟩
  · omega
  · omega
  · exact ⟨h.fill (by omega) high free, rfl, rfl⟩

/-- The cells before `i` in a bigger storage. -/
structure Copied (d e : PythonDictionary κ ν) (newCapacity i : Int) : Prop where
  size_eq : e.storage.size = newCapacity
  capacity_eq : e.capacity = newCapacity
  count_eq : e.count = d.count
  cells_eq : setCells e.storage.cell newCapacity.toNat = setCells d.storage.cell i.toNat

/-- A node that is moved went to a free slot. -/
theorem Copied.onReturn_move {e : PythonDictionary κ ν} {newCapacity i : Int} {node : Node κ ν}
    (h : Copied d e newCapacity i) (pos : 0 < newCapacity) (low : 0 ≤ i) (set : d.storage.cell i = some node) :
    OnReturn (do return (← putStorage e (some node) (-(← indexOf rounds e node.key) - 1), i + 1))
      fun s : PythonDictionary κ ν × Int => 0 ≤ s.2 ∧ Copied d s.1 newCapacity s.2 := by
  have size := h.size_eq
  have capacity := h.capacity_eq
  have next := setCells_succ d.storage.cell i.toNat
  rw [show ((i.toNat : ℕ) : Int) = i by omega, show i.toNat + 1 = (i + 1).toNat by omega, set,
    if_pos (show (some node).isSome = true from rfl)] at next
  have answers : InRange (indexOf rounds e node.key) _ := inRange_indexOf (by omega) (by omega)
  refine answers.onReturn.bind fun r answer => ?_
  refine (onReturn_putStorage _ _ _).bind fun f ⟨inside, same⟩ => .pure ?_
  have bound := inside.1
  rcases answer with ⟨found, -⟩ | ⟨negative, high, free⟩
  · omega
  · have more := setCells_fill e.storage.cell (e.storage.set (some node) (-r - 1)).cell
      (n := newCapacity.toNat) (i := -r - 1) (by omega) (by omega) (by rw [free]; rfl)
      (by rw [NativeArray.cell_set_self]; rfl) fun j other => by rw [NativeArray.cell_set_of_ne _ _ other]
    rw [same]
    exact ⟨by dsimp only; omega, size, capacity, h.count_eq, by rw [more, h.cells_eq, next]⟩

/-- The nodes that are moved go to free slots. -/
theorem Valid.onReturn_ensureCapacity (h : Valid d) {newCapacity : Int} (pos : 0 < d.capacity)
    (grows : d.capacity < newCapacity) : OnReturn (ensureCapacity rounds d newCapacity) fun d' =>
      Valid d' ∧ d'.capacity = newCapacity ∧ d'.count = d.count := by
  unfold ensureCapacity
  rw [if_neg (by omega), if_pos grows]
  refine OnReturn.bind (P := fun s : PythonDictionary κ ν × Int => Copied d s.1 newCapacity d.capacity)
    ?_ fun s copied => .pure ⟨⟨?_, ?_, ?_⟩, copied.capacity_eq, copied.count_eq⟩
  · refine .loop (fun s : PythonDictionary κ ν × Int => 0 ≤ s.2 ∧ Copied d s.1 newCapacity s.2) rounds
      ⟨Int.le_refl _, rfl, rfl, rfl, setCells_of_none fun j _ _ => rfl⟩ ?_
    rintro ⟨e, i⟩ ⟨low, copied⟩
    refine .pure ?_
    split
    · rename_i stop
      have all : i = d.capacity := of_decide_eq_true stop
      rw [← all]
      exact copied
    · refine (onReturn_read _ _).bind fun cell ⟨inside, read⟩ => ?_
      cases cell with
      | none =>
        have next := setCells_succ d.storage.cell i.toNat
        rw [show ((i.toNat : ℕ) : Int) = i by omega, show i.toNat + 1 = (i + 1).toNat by omega, ← read,
          if_neg (show ¬(none : Option (Node κ ν)).isSome = true from Bool.false_ne_true)] at next
        refine .pure ⟨by dsimp only; omega, copied.size_eq, copied.capacity_eq, copied.count_eq, ?_⟩
        exact copied.cells_eq.trans next.symm
      | some node =>
        exact copied.onReturn_move (by omega) low read.symm
  · exact copied.size_eq.trans copied.capacity_eq.symm
  · rw [copied.capacity_eq]
    omega
  · rw [copied.count_eq, copied.capacity_eq, copied.cells_eq]
    exact h.count_eq

/-- The dictionary has a bigger storage, or more than one free slot. -/
def Roomy (d : PythonDictionary κ ν) (grows : Prop) : Prop :=
  (grows ∧ wrap32 (d.capacity * 2) > 0) ∨ d.count + 1 ≠ d.capacity

omit [HashedKey κ] in
theorem HasFreeSlot.double (h : HasFreeSlot d) (can : wrap32 (d.capacity * 2) > 0) :
    0 < d.capacity ∧ ∃ b ≤ 30, d.capacity * 2 = 2 ^ b := by
  rcases h.power with zero | ⟨b, le, power⟩
  · rw [zero] at can
    exact absurd can (by decide)
  · rw [power] at can ⊢
    refine ⟨by positivity, b + 1, ?_, (pow_succ _ _).symm⟩
    by_contra large
    obtain rfl : b = 30 := by omega
    exact absurd can (by decide)

/-- A new node, where the search for its key was made in this storage. -/
theorem HasFreeSlot.onReturn_putNew (h : HasFreeSlot d) {found : Node κ ν → Prop} {index : Int}
    (answer : d.capacity = 0 ∨ Answer d found index) (room : d.count + 1 ≠ d.capacity) :
    OnReturn (putNew d v k index) HasFreeSlot := by
  refine (h.valid.onReturn_putNew answer).mono fun e ⟨valid, capacity, count⟩ => ⟨valid, ?_, fun pos => ?_⟩
  · rw [capacity]
    exact h.power
  · have less := h.count_lt (by omega)
    omega

/-- A new node in a storage that is twice as big. -/
theorem HasFreeSlot.onReturn_grow (h : HasFreeSlot d) (can : wrap32 (d.capacity * 2) > 0) :
    OnReturn (do
      let d ← ensureCapacity rounds d (d.capacity * 2)
      putNew d v k (← indexOf rounds d k)) HasFreeSlot := by
  obtain ⟨pos, b, le, power⟩ := h.double can
  have less := h.count_lt pos
  refine (h.valid.onReturn_ensureCapacity pos (by omega)).bind fun e ⟨valid, capacity, count⟩ => ?_
  have free : HasFreeSlot e := ⟨valid, .inr ⟨b, le, capacity.trans power⟩, fun _ => by omega⟩
  exact valid.onReturn_indexOf.bind fun r answer => free.onReturn_putNew answer (by omega)

theorem HasFreeSlot.onReturn_add (h : HasFreeSlot d) (room : Roomy d (d.count > d.capacity * 3 / 4)) :
    OnReturn (add rounds d v k) HasFreeSlot := by
  unfold add
  split
  · rename_i grows
    exact h.onReturn_grow grows.2
  · rename_i stays
    have more := room.resolve_left stays
    exact h.valid.onReturn_indexOf.bind fun r answer => h.onReturn_putNew answer more

theorem HasFreeSlot.onReturn_put (h : HasFreeSlot d)
    (room : (∀ rounds, has rounds d k ≠ .ok false) ∨ Roomy d (d.count / 3 ≥ d.capacity / 4)) :
    OnReturn (put rounds d v k) HasFreeSlot := by
  have size := h.valid.size_eq
  have first : OnReturn (indexOf rounds d k) fun r => indexOf rounds d k = .ok r ∧
      (d.capacity = 0 ∨ Answer d (fun node => node.key ≈ k) r) :=
    fun r run => ⟨run, h.valid.onReturn_indexOf r run⟩
  refine first.bind fun r ⟨run, answer⟩ => ?_
  split
  · rename_i negative
    have absent : has rounds d k = .ok false :=
      (has_eq_of_indexOf run).trans (by rw [decide_eq_false (Int.not_le.mpr negative)])
    have more := room.resolve_left fun present => present rounds absent
    split
    · rename_i grows
      exact h.onReturn_grow grows.2
    · rename_i stays
      exact h.onReturn_putNew answer (more.resolve_left stays)
  · rename_i found
    refine (onReturn_read _ _).bind fun cell ⟨inside, read⟩ => ?_
    refine (onReturn_putStorage _ _ _).mono fun e ⟨_, same⟩ => ?_
    have high := inside.2
    rcases answer with none | ⟨-, -, node, set, -⟩ | ⟨negative, -⟩
    · omega
    · rw [same, read, set]
      exact h.of_keeps (h.valid.replace set) ⟨rfl, Int.le_refl _⟩
    · exact absurd negative found

end Commands

/-! ## Runs -/

section Runs

variable [DecidableEq κ]

/-- The operation moves the nodes to a bigger storage, or does not fill the last free slot. -/
def Operation.LeavesFree (d : PythonDictionary κ ν) : Operation κ ν → Prop
  | .command (.add _ _) => Roomy d (d.count > d.capacity * 3 / 4)
  | .command (.put _ k) =>
    (∀ rounds, has rounds d k ≠ .ok false) ∨ Roomy d (d.count / 3 ≥ d.capacity / 4)
  | _ => True

theorem HasFreeSlot.onReturn_execute {d : PythonDictionary κ ν} (h : HasFreeSlot d) {operation : Operation κ ν}
    (allowed : operation.Allowed d) (leaves : operation.LeavesFree d) (rounds : ℕ) :
    OnReturn (execute rounds d operation) HasFreeSlot := by
  cases operation with
  | command command =>
    cases command with
    | add v k => exact h.onReturn_add leaves
    | put v k => exact h.onReturn_put leaves
    | remove k => exact fun e run => h.of_keeps (h.valid.inRange_remove.of_ok run) (keeps_remove e run)
    | setItem v index =>
      intro e run
      exact h.of_keeps ((h.valid.inRange_setItem allowed.1 allowed.2).of_ok run) (keeps_setItem e run)
    | clearCount => exact h.onReturn_clearCount
    | clearCountAndCapacity => exact h.onReturn_clearCount
  | query query => exact (OnReturn.trivial _).bind fun _ _ => .pure h

omit [DecidableEq κ] in
theorem onReturn_createWithCapacity {rounds : ℕ} {n : Int} (shape : n ≤ 0 ∨ ∃ b ≤ 30, n = 2 ^ b) :
    OnReturn (createWithCapacity rounds n : Checked (PythonDictionary κ ν)) HasFreeSlot := by
  intro d run
  have valid := inRange_createWithCapacity.of_ok run
  unfold createWithCapacity ensureCapacity at run
  rw [if_pos (show (blank : PythonDictionary κ ν).capacity = 0 from rfl)] at run
  split at run
  · rename_i pos
    cases run
    exact ⟨valid, .inr (shape.resolve_left (by omega)), fun _ => pos⟩
  · cases run
    exact ⟨valid, .inl rfl, fun pos => absurd pos (Int.lt_irrefl 0)⟩

omit [DecidableEq κ] in
theorem onReturn_create {rounds : ℕ} (c : Creation) (allowed : c.Allowed) :
    OnReturn (create rounds c : Checked (PythonDictionary κ ν)) HasFreeSlot := by
  cases c with
  | make => exact onReturn_createWithCapacity (.inr ⟨4, by decide, rfl⟩)
  | withCapacity mediumSize => exact onReturn_createWithCapacity (poweredCapacity_cases allowed.2)

theorem Reaches.hasFreeSlot {d : PythonDictionary κ ν} (reached : Reaches Operation.LeavesFree d) :
    HasFreeSlot d := by
  induction reached with
  | creation c allowed rounds run => exact onReturn_create c allowed _ run
  | step operation _ allowed leaves rounds run ih => exact ih.onReturn_execute allowed leaves rounds _ run

/-- **Searches end** in every state that is reached by operations that leave a slot free, for the keys that are
there and for the others. -/
theorem reaches_searchesEnd (κ ν : Type) [HashedKey κ] [DecidableEq κ] (d : PythonDictionary κ ν)
    (reached : Reaches Operation.LeavesFree d) (k : κ) :
    (∃ r enough, ∀ rounds ≥ enough, indexOf rounds d k = .ok r) ∧
      ∃ r enough, ∀ rounds ≥ enough, fastIndexOf rounds d k = .ok r :=
  ⟨reached.hasFreeSlot.search_ends, reached.hasFreeSlot.search_ends⟩

/-- Two entries in a storage of 16 slots leave some of them free. -/
theorem reaches_searchesEnd_put :
    ∃ d : PythonDictionary (BitVec 32) Int, Reaches Operation.LeavesFree d ∧
      (∃ r enough, ∀ rounds ≥ enough, indexOf rounds d 7 = .ok r) ∧
        ∃ r enough, ∀ rounds ≥ enough, fastIndexOf rounds d 7 = .ok r := by
  have created := Reaches.creation (P := Operation.LeavesFree (κ := BitVec 32) (ν := Int)) .make trivial 1 rfl
  have written := created.step (.command (.put 1 9)) trivial (.inr (.inr (by decide))) 5 rfl
  exact ⟨_, written, reaches_searchesEnd (BitVec 32) Int _ written 7⟩

/-- `add` puts its entry in the only slot, and then the search for another key never ends. -/
theorem not_reaches_searchesEnd :
    ¬∀ d : PythonDictionary (BitVec 32) Int, Reaches (fun _ _ => True) d →
      ∀ k, ∃ r enough, ∀ rounds ≥ enough, indexOf rounds d k = .ok r := by
  intro claim
  have created := Reaches.creation (P := fun (_ : PythonDictionary (BitVec 32) Int) _ => True)
    (.withCapacity 1) ⟨by decide, by decide⟩ 1 rfl
  have added := created.step (.command (.add 9 1)) (fun rounds found => ?_) trivial 5 rfl
  · obtain ⟨r, enough, ends⟩ := claim _ added 0
    have run := ends enough (Nat.le_refl _)
    unfold indexOf at run
    rw [Valid.search_unfinished ⟨rfl, by decide, rfl⟩ (by decide) (fun i low high => ?_)] at run
    · cases run
    · obtain rfl : i = 0 := by
        change i < 1 at high
        omega
      exact ⟨⟨1, 9, 1⟩, rfl, rfl⟩
  · cases rounds with
    | zero => cases found
    | succ rounds => cases rounds <;> cases found

end Runs

end Accesses

end PythonDictionary

end Liberty
