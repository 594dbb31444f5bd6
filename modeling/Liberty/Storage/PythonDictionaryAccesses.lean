import Liberty.Library.CheckedProgram
import Liberty.Storage.PythonDictionary
import Mathlib.Data.Nat.Count

/-!
# The storage accesses of PYTHON_DICTIONARY

The same routines, told with every access that they make to the storage, for as many rounds of
their loops as they may last.  What they do where they return is what the routines of
`PythonDictionary` do.
-/

namespace Liberty

namespace NativeArray

variable {α : Type}

/-- `item`, which tells an access out of range. -/
def read (s : NativeArray α) (index : Int) : Checked α :=
  if s.InBounds index then .ok (s.cell index) else .error .outOfRange

/-- `put`, which tells an access out of range. -/
def write (s : NativeArray α) (element : α) (index : Int) : Checked (NativeArray α) :=
  if s.InBounds index then .ok (s.set element index) else .error .outOfRange

end NativeArray

namespace PythonDictionary

variable {κ ν : Type} [HashedKey κ]

namespace Accesses

/-! ## The source -/

/-- The loop of `index_of` and `fast_index_of`, which compare a node in their own ways. -/
def search (rounds : ℕ) (d : PythonDictionary κ ν) (k : κ) (found : Node κ ν → Bool) :
    Checked Int :=
  if d.capacity = 0 then return -1
  else do
    let hash := hashCode k
    let (result, _) ← checkedLoop (fun s => return s.2.2)
      (fun (_, (index, stew), _) => do
        let result := index % d.capacity
        match ← d.storage.read result with
        | some node =>
          if found node then return (result, (index, stew), true)
          else return (result, advance (index, stew), false)
        | none => return (-result - 1, (index, stew), true))
      rounds (0, (hash % d.capacity, hash), false)
    return result

def indexOf (rounds : ℕ) (d : PythonDictionary κ ν) (k : κ) : Checked Int :=
  search rounds d k fun node => decide (hashCode k = node.hashCode ∧ safeEqual node.key k)

/-- `fast_index_of`, with the comparison `=` of the keys. -/
def fastIndexOf [DecidableEq κ] (rounds : ℕ) (d : PythonDictionary κ ν) (k : κ) : Checked Int :=
  search rounds d k fun node => decide (node.key = k)

def has (rounds : ℕ) (d : PythonDictionary κ ν) (k : κ) : Checked Bool := do
  return decide (0 ≤ (← indexOf rounds d k))

/-- `at`; the item of a node that is not set is no value. -/
def at' (rounds : ℕ) (d : PythonDictionary κ ν) (k : κ) : Checked (Option ν) := do
  return (← d.storage.read (← indexOf rounds d k)).map Node.item

/-- `reference_at`, which gives `Void` for a node that is not set. -/
def referenceAt (rounds : ℕ) (d : PythonDictionary κ ν) (k : κ) : Checked (Option ν) := do
  let index ← indexOf rounds d k
  return (← d.storage.read index).map Node.item

def fastHas [DecidableEq κ] (rounds : ℕ) (d : PythonDictionary κ ν) (k : κ) : Checked Bool := do
  return decide (0 ≤ (← fastIndexOf rounds d k))

def fastAt [DecidableEq κ] (rounds : ℕ) (d : PythonDictionary κ ν) (k : κ) :
    Checked (Option ν) := do
  return (← d.storage.read (← fastIndexOf rounds d k)).map Node.item

def fastReferenceAt [DecidableEq κ] (rounds : ℕ) (d : PythonDictionary κ ν) (k : κ) :
    Checked (Option ν) := do
  let index ← fastIndexOf rounds d k
  return (← d.storage.read index).map Node.item

def putStorage (d : PythonDictionary κ ν) (node : Option (Node κ ν)) (i : Int) :
    Checked (PythonDictionary κ ν) := do
  return { d with storage := ← d.storage.write node i }

def ensureCapacity (rounds : ℕ) (d : PythonDictionary κ ν) (newCapacity : Int) :
    Checked (PythonDictionary κ ν) :=
  if d.capacity = 0 then
    if newCapacity > 0 then return d.calloc newCapacity else return d
  else if d.capacity < newCapacity then do
    let (d', _) ← checkedLoop (fun s => return decide (s.2 = d.capacity))
      (fun (d', i) => do
        match ← d.storage.read i with
        | some node => return (← putStorage d' (some node) (-(← indexOf rounds d' node.key) - 1), i + 1)
        | none => return (d', i + 1))
      rounds (d.calloc newCapacity, 0)
    return d'
  else return d

def putNew (d : PythonDictionary κ ν) (v : ν) (k : κ) (index : Int) :
    Checked (PythonDictionary κ ν) := do
  let d ← putStorage d (some ⟨k, v, hashCode k⟩) (-index - 1)
  return { d with count := d.count + 1 }

def put (rounds : ℕ) (d : PythonDictionary κ ν) (v : ν) (k : κ) : Checked (PythonDictionary κ ν) := do
  let index ← indexOf rounds d k
  if index < 0 then
    if d.count / 3 ≥ d.capacity / 4 ∧ wrap32 (d.capacity * 2) > 0 then
      let d ← ensureCapacity rounds d (d.capacity * 2)
      putNew d v k (← indexOf rounds d k)
    else putNew d v k index
  else
    let node ← d.storage.read index
    putStorage d (node.map fun node => { node with item := v }) index

def add (rounds : ℕ) (d : PythonDictionary κ ν) (v : ν) (k : κ) : Checked (PythonDictionary κ ν) := do
  let d ← (if d.count > d.capacity * 3 / 4 ∧ wrap32 (d.capacity * 2) > 0 then
    ensureCapacity rounds d (d.capacity * 2) else return d)
  putNew d v k (← indexOf rounds d k)

def rescan (rounds : ℕ) (d : PythonDictionary κ ν) : Checked (PythonDictionary κ ν) := do
  let (d, _) ← checkedLoop (fun s => return decide (s.2 = s.1.capacity))
    (fun (d, i) => do
      match ← d.storage.read i with
      | some node =>
        let index ← indexOf rounds d node.key
        if index < 0 then
          let d ← putStorage d (some node) (-index - 1)
          let d ← putStorage d none i
          return (d, 0 + 1)
        else return (d, i + 1)
      | none => return (d, i + 1))
    rounds (d, 0)
  return d

def remove (rounds : ℕ) (d : PythonDictionary κ ν) (k : κ) : Checked (PythonDictionary κ ν) := do
  let index ← indexOf rounds d k
  if index ≥ 0 then
    let d ← putStorage d none index
    rescan rounds { d with count := d.count - 1 }
  else return d

/-- `clear_count`: `set_all_with` from the cell 0 to the last one. -/
def clearCount (rounds : ℕ) (d : PythonDictionary κ ν) : Checked (PythonDictionary κ ν) := do
  let (storage, _) ← checkedLoop (fun s => return decide (s.2 > d.capacity - 1))
    (fun (storage, i) => do return (← storage.write none i, i + 1)) rounds (d.storage, (0 : Int))
  return { d with storage := storage, count := 0 }

def nextInternalIndex (rounds : ℕ) (d : PythonDictionary κ ν) (index : Int) : Checked Int :=
  checkedLoop
    (fun result =>
      if result = d.capacity then return true
      else return (← d.storage.read result).isSome)
    (fun result => return result + 1) rounds (index + 1)

def internalIndex (rounds : ℕ) (d : PythonDictionary κ ν) (index : Int) : Checked Int := do
  let (_, result) ← checkedLoop (fun s => return decide (s.1 = index))
    (fun (i, result) => do return (i + 1, ← nextInternalIndex rounds d result))
    rounds ((0 : Int), (-1 : Int))
  return result

def setItem (rounds : ℕ) (d : PythonDictionary κ ν) (v : ν) (index : Int) :
    Checked (PythonDictionary κ ν) := do
  let i ← internalIndex rounds d index
  let node ← d.storage.read i
  putStorage d (node.map fun node => { node with item := v }) i

def item (rounds : ℕ) (d : PythonDictionary κ ν) (index : Int) : Checked (Option ν) := do
  return (← d.storage.read (← internalIndex rounds d index)).map Node.item

def key (rounds : ℕ) (d : PythonDictionary κ ν) (index : Int) : Checked (Option κ) := do
  return (← d.storage.read (← internalIndex rounds d index)).map Node.key

def createWithCapacity (rounds : ℕ) (newCapacity : Int) : Checked (PythonDictionary κ ν) := do
  let d ← ensureCapacity rounds (blank : PythonDictionary κ ν) newCapacity
  return { d with count := 0 }

/-! ## Cells that are set -/

/-- The number of cells that are set before the cell `n`. -/
def setCells {α : Type} (cell : Int → Option α) (n : ℕ) : ℕ :=
  Nat.count (fun j : ℕ => (cell j).isSome = true) n

section Counting

variable {α : Type} {cell cell' : Int → Option α} {n : ℕ} {i : Int}

theorem setCells_succ (cell : Int → Option α) (n : ℕ) : setCells cell (n + 1) =
    setCells cell n + if (cell n).isSome = true then 1 else 0 :=
  Nat.count_succ _ _

theorem setCells_congr (same : ∀ j : Int, 0 ≤ j → j < n → (cell' j).isSome = (cell j).isSome) :
    setCells cell' n = setCells cell n := by
  induction n with
  | zero => rfl
  | succ n ih =>
    rw [setCells_succ, setCells_succ, ih fun j low high => same j low (by omega),
      same n (by omega) (by omega)]

theorem setCells_fill (cell cell' : Int → Option α) (low : 0 ≤ i) (high : i < n)
    (free : (cell i).isSome = false) (set : (cell' i).isSome = true)
    (same : ∀ j, j ≠ i → (cell' j).isSome = (cell j).isSome) :
    setCells cell' n = setCells cell n + 1 := by
  induction n with
  | zero => omega
  | succ n ih =>
    rw [setCells_succ, setCells_succ]
    by_cases last : i = n
    · subst last
      rw [setCells_congr fun j _ less => same j (by omega), free, set, if_pos rfl,
        if_neg Bool.false_ne_true]
    · rw [ih (by omega), same n (by omega)]
      omega

theorem setCells_of_none (none : ∀ j : Int, 0 ≤ j → j < n → cell j = none) : setCells cell n = 0 := by
  induction n with
  | zero => rfl
  | succ n ih =>
    rw [setCells_succ, ih fun j low high => none j low (by omega), none n (by omega) (by omega)]
    rfl

/-- The cells between two places are not set. -/
theorem setCells_skip {m : ℕ} (le : m ≤ n) (none : ∀ j : Int, m ≤ j → j < n → cell j = none) :
    setCells cell n = setCells cell m := by
  induction n with
  | zero => rw [Nat.le_zero.mp le]
  | succ n ih =>
    by_cases last : m = n + 1
    · rw [last]
    · rw [setCells_succ, ih (by omega) fun j low high => none j low (by omega),
        none n (by omega) (by omega)]
      rfl

end Counting

/-! ## Where the accesses go -/

/-- The storage has `capacity` cells, and `count` of them are set. -/
structure Valid (d : PythonDictionary κ ν) : Prop where
  size_eq : d.storage.size = d.capacity
  capacity_nonneg : 0 ≤ d.capacity
  count_eq : d.count = setCells d.storage.cell d.capacity.toNat

/-- An answer of `index_of`: a node that was found, or a cell that is not set. -/
def Answer (d : PythonDictionary κ ν) (found : Node κ ν → Prop) (r : Int) : Prop :=
  (0 ≤ r ∧ r < d.capacity ∧ ∃ node, d.storage.cell r = some node ∧ found node) ∨
    (r < 0 ∧ -r - 1 < d.capacity ∧ d.storage.cell (-r - 1) = none)

/-- The keys of the storage are different from one another and from `k`. -/
structure Apart (d : PythonDictionary κ ν) (k : κ) : Prop where
  nodes : ∀ i j a b, 0 ≤ i → i < d.capacity → 0 ≤ j → j < d.capacity →
    d.storage.cell i = some a → d.storage.cell j = some b → a.key ≈ b.key → i = j
  new : ∀ i a, 0 ≤ i → i < d.capacity → d.storage.cell i = some a → ¬a.key ≈ k

section Ranges

variable {d : PythonDictionary κ ν} {k : κ} {v : ν} {i index r : Int} {rounds : ℕ}

theorem inRange_read {α : Type} {s : NativeArray α} {Q : α → Prop} (low : 0 ≤ i) (high : i < s.size)
    (next : Q (s.cell i)) : InRange (s.read i) Q := by
  unfold NativeArray.read
  rw [if_pos ⟨low, high⟩]
  exact next

theorem inRange_write {α : Type} {s : NativeArray α} {Q : NativeArray α → Prop} {element : α}
    (low : 0 ≤ i) (high : i < s.size) (next : Q (s.set element i)) : InRange (s.write element i) Q := by
  unfold NativeArray.write
  rw [if_pos ⟨low, high⟩]
  exact next

omit [HashedKey κ] in
theorem inRange_putStorage {Q : PythonDictionary κ ν → Prop} {node : Option (Node κ ν)}
    (low : 0 ≤ i) (high : i < d.storage.size)
    (next : Q { d with storage := d.storage.set node i }) : InRange (putStorage d node i) Q := by
  unfold putStorage
  rw [InRange.bind_iff]
  exact inRange_write low high next

theorem inRange_search (size : d.storage.size = d.capacity) (pos : 0 < d.capacity)
    {found : Node κ ν → Bool} :
    InRange (search rounds d k found) (Answer d fun node => found node = true) := by
  unfold search
  rw [if_neg (by omega)]
  rw [InRange.bind_iff]
  refine inRange_checkedLoop
    (fun s => s.2.2 = true → Answer d (fun node => found node = true) s.1) rounds
    (fun stopped => absurd stopped Bool.false_ne_true) ?_
  rintro ⟨result, ⟨index, stew⟩, stopped⟩ answered
  rw [InRange.pure_iff]
  dsimp only at answered ⊢
  split
  · rename_i stop
    exact answered stop
  · have low := Int.emod_nonneg index (show d.capacity ≠ 0 by omega)
    have high := Int.emod_lt_of_pos index pos
    rw [InRange.bind_iff]
    refine inRange_read low (by omega) ?_
    cases cell : d.storage.cell (index % d.capacity) with
    | none =>
      refine fun _ => .inr ⟨by dsimp only; omega, by dsimp only; omega, ?_⟩
      rwa [show -(-(index % d.capacity) - 1) - 1 = index % d.capacity by omega]
    | some node =>
      dsimp only
      split
      · rename_i here
        exact fun _ => .inl ⟨low, high, node, cell, here⟩
      · rw [InRange.pure_iff]
        exact fun stop => absurd stop Bool.false_ne_true

theorem inRange_indexOf (size : d.storage.size = d.capacity) (pos : 0 < d.capacity) :
    InRange (indexOf rounds d k) (Answer d fun node => node.key ≈ k) := by
  refine (inRange_search size pos).mono fun r answer => answer.imp_left ?_
  rintro ⟨low, high, node, set, found⟩
  exact ⟨low, high, node, set, (of_decide_eq_true found).2⟩

omit [HashedKey κ] in
theorem Valid.fill (h : Valid d) {node : Node κ ν} (low : 0 ≤ i) (high : i < d.capacity)
    (free : d.storage.cell i = none) :
    Valid { d with storage := d.storage.set (some node) i, count := d.count + 1 } := by
  refine ⟨h.size_eq, h.capacity_nonneg, ?_⟩
  have more := setCells_fill d.storage.cell (d.storage.set (some node) i).cell
    (n := d.capacity.toNat) low (by omega) (by rw [free]; rfl)
    (by rw [NativeArray.cell_set_self]; rfl)
    fun j other => by rw [NativeArray.cell_set_of_ne _ _ other]
  have count := h.count_eq
  dsimp only
  omega

omit [HashedKey κ] in
theorem Valid.free (h : Valid d) {node : Node κ ν} (low : 0 ≤ i) (high : i < d.capacity)
    (set : d.storage.cell i = some node) :
    Valid { d with storage := d.storage.set none i, count := d.count - 1 } := by
  refine ⟨h.size_eq, h.capacity_nonneg, ?_⟩
  have more := setCells_fill (d.storage.set none i).cell d.storage.cell
    (n := d.capacity.toNat) low (by omega) (by rw [NativeArray.cell_set_self]; rfl)
    (by rw [set]; rfl) fun j other => by rw [NativeArray.cell_set_of_ne _ _ other]
  have count := h.count_eq
  dsimp only
  omega

omit [HashedKey κ] in
theorem Valid.replace (h : Valid d) {node node' : Node κ ν} (set : d.storage.cell i = some node) :
    Valid { d with storage := d.storage.set (some node') i } := by
  refine ⟨h.size_eq, h.capacity_nonneg, ?_⟩
  refine h.count_eq.trans (congrArg Nat.cast (setCells_congr fun j _ _ => ?_).symm)
  by_cases here : j = i
  · rw [here, NativeArray.cell_set_self, set]
    rfl
  · rw [NativeArray.cell_set_of_ne _ _ here]

theorem Valid.inRange_putNew (h : Valid d) {found : Node κ ν → Prop} (answer : Answer d found index)
    (absent : ∀ j node, 0 ≤ j → j < d.capacity → d.storage.cell j = some node → ¬found node) :
    InRange (putNew d v k index) Valid := by
  have size := h.size_eq
  rcases answer with ⟨low, high, node, set, same⟩ | ⟨negative, high, free⟩
  · exact absurd same (absent index node low high set)
  · unfold putNew
    rw [InRange.bind_iff]
    refine inRange_putStorage (by omega) (by omega) ?_
    exact h.fill (by omega) high free

/-- What `ensure_capacity` has moved before it reads the cell `i`. -/
structure Moved (d d' : PythonDictionary κ ν) (newCapacity i : Int) : Prop where
  size_eq : d'.storage.size = newCapacity
  capacity_eq : d'.capacity = newCapacity
  count_eq : d'.count = d.count
  cells_eq : setCells d'.storage.cell newCapacity.toNat = setCells d.storage.cell i.toNat
  origin : ∀ j node, 0 ≤ j → j < newCapacity → d'.storage.cell j = some node →
    ∃ m, 0 ≤ m ∧ m < i ∧ d.storage.cell m = some node

theorem Valid.inRange_ensureCapacity (h : Valid d) (pos : 0 < d.capacity) (apart : Apart d k)
    {newCapacity : Int} (grows : d.capacity < newCapacity) :
    InRange (ensureCapacity rounds d newCapacity) fun d' => Valid d' ∧ 0 < d'.capacity ∧
      ∀ j node, 0 ≤ j → j < d'.capacity → d'.storage.cell j = some node → ¬node.key ≈ k := by
  have size := h.size_eq
  have count := h.count_eq
  unfold ensureCapacity
  rw [if_neg (by omega), if_pos grows, InRange.bind_iff]
  refine inRange_checkedLoop
    (fun s : PythonDictionary κ ν × Int => 0 ≤ s.2 ∧ s.2 ≤ d.capacity ∧ Moved d s.1 newCapacity s.2)
    rounds ⟨Int.le_refl _, by dsimp only; omega, rfl, rfl, rfl, ?_, fun j node _ _ set => nomatch set⟩ ?_
  · exact setCells_of_none fun j _ _ => rfl
  rintro ⟨d', i⟩ ⟨low, high, moved⟩
  rw [InRange.pure_iff]
  dsimp only at low high moved ⊢
  have sizeD := moved.size_eq
  have capacityD := moved.capacity_eq
  split
  · rename_i stop
    have all : i = d.capacity := of_decide_eq_true stop
    refine ⟨⟨by omega, by omega, ?_⟩, by omega, fun j node lowJ highJ set => ?_⟩
    · rw [moved.count_eq, capacityD, moved.cells_eq, all]
      exact count
    · obtain ⟨m, lowM, highM, old⟩ := moved.origin j node lowJ (by omega) set
      exact apart.new m node lowM (by omega) old
  · rename_i goes
    have inside : ¬i = d.capacity := fun all => goes (decide_eq_true all)
    rw [InRange.bind_iff]
    refine inRange_read low (by omega) ?_
    have next := setCells_succ d.storage.cell i.toNat
    rw [show ((i.toNat : ℕ) : Int) = i by omega, show i.toNat + 1 = (i + 1).toNat by omega] at next
    cases cell : d.storage.cell i with
    | none =>
      rw [cell, if_neg (show ¬(none : Option (Node κ ν)).isSome = true from Bool.false_ne_true)] at next
      refine ⟨by dsimp only; omega, by dsimp only; omega, sizeD, capacityD, moved.count_eq,
        by rw [moved.cells_eq]; exact next.symm, fun j node lowJ highJ set => ?_⟩
      obtain ⟨m, lowM, highM, old⟩ := moved.origin j node lowJ highJ set
      exact ⟨m, lowM, by dsimp only; omega, old⟩
    | some node =>
      rw [cell, if_pos (show (some node).isSome = true from rfl)] at next
      rw [InRange.bind_iff]
      refine (inRange_indexOf (by omega) (by omega)).mono fun r answer => ?_
      rw [InRange.bind_iff]
      rcases answer with ⟨lowR, highR, other, set, same⟩ | ⟨negative, highR, free⟩
      · obtain ⟨m, lowM, highM, old⟩ := moved.origin r other lowR (by omega) set
        have twin := apart.nodes m i other node lowM (by omega) low (by omega) old cell same
        omega
      · refine inRange_putStorage (by omega) (by omega) ?_
        have more := setCells_fill d'.storage.cell (d'.storage.set (some node) (-r - 1)).cell
          (n := newCapacity.toNat) (i := -r - 1) (by omega) (by omega) (by rw [free]; rfl)
          (by rw [NativeArray.cell_set_self]; rfl)
          fun j other => by rw [NativeArray.cell_set_of_ne _ _ other]
        refine ⟨by dsimp only; omega, by dsimp only; omega, sizeD, capacityD, moved.count_eq, ?_,
          fun j other lowJ highJ set => ?_⟩
        · dsimp only
          rw [more, moved.cells_eq, next]
        · by_cases here : j = -r - 1
          · rw [here] at set
            rw [NativeArray.cell_set_self] at set
            cases set
            exact ⟨i, low, by dsimp only; omega, cell⟩
          · dsimp only at set
            rw [NativeArray.cell_set_of_ne _ _ here] at set
            obtain ⟨m, lowM, highM, old⟩ := moved.origin j other lowJ highJ set
            exact ⟨m, lowM, by dsimp only; omega, old⟩

/-- `put` where `index_of` finds `k`, or where every node that is moved to a bigger storage has
a key of its own. -/
theorem Valid.inRange_put (h : Valid d) (pos : 0 < d.capacity)
    (apart : (∃ r, indexOf rounds d k = .ok r ∧ r < 0) → d.count / 3 ≥ d.capacity / 4 →
      wrap32 (d.capacity * 2) > 0 → Apart d k) : InRange (put rounds d v k) Valid := by
  have size := h.size_eq
  unfold put
  rw [InRange.bind_iff]
  have first : InRange (indexOf rounds d k) _ := inRange_indexOf size pos
  cases run : indexOf rounds d k with
  | error halt =>
    rw [run] at first
    cases halt with
    | outOfRange => exact first
    | unfinished => trivial
  | ok r =>
    rw [run] at first
    rw [InRange.ok_iff] at first ⊢
    rcases first with ⟨low, high, node, set, same⟩ | ⟨negative, high, free⟩
    · rw [if_neg (by omega), InRange.bind_iff]
      refine inRange_read low (by omega) ?_
      rw [set]
      exact inRange_putStorage low (by omega) (h.replace set)
    · rw [if_pos negative]
      split
      · rename_i grows
        rw [InRange.bind_iff]
        refine (h.inRange_ensureCapacity pos (apart ⟨r, run, negative⟩ grows.1 grows.2)
          (by omega)).mono ?_
        intro d' ⟨valid, pos', absent⟩
        rw [InRange.bind_iff]
        exact (inRange_indexOf valid.size_eq pos').mono fun r' answer =>
          valid.inRange_putNew answer absent
      · have answer : Answer d (fun _ => False) r := .inr ⟨negative, high, free⟩
        exact h.inRange_putNew answer fun _ _ _ _ _ => id

theorem Valid.inRange_add (h : Valid d) (pos : 0 < d.capacity)
    (absent : ∀ r, indexOf rounds d k = .ok r → r < 0)
    (apart : d.count > d.capacity * 3 / 4 → wrap32 (d.capacity * 2) > 0 → Apart d k) :
    InRange (add rounds d v k) Valid := by
  have size := h.size_eq
  unfold add
  rw [InRange.bind_iff]
  split
  · rename_i grows
    refine (h.inRange_ensureCapacity pos (apart grows.1 grows.2) (by omega)).mono ?_
    intro d' ⟨valid, pos', absent'⟩
    rw [InRange.bind_iff]
    exact (inRange_indexOf valid.size_eq pos').mono fun r answer =>
      valid.inRange_putNew answer absent'
  · rw [InRange.pure_iff, InRange.bind_iff]
    have first : InRange (indexOf rounds d k) _ := inRange_indexOf size pos
    cases run : indexOf rounds d k with
    | error halt =>
      rw [run] at first
      cases halt with
      | outOfRange => exact first
      | unfinished => trivial
    | ok r =>
      rw [run] at first
      have negative := absent r run
      rcases first with ⟨low, -, -⟩ | free
      · omega
      · have answer : Answer d (fun _ => False) r := .inr free
        exact h.inRange_putNew answer fun _ _ _ _ _ => id

/-- A round of the scan of `remove` moves a node to a cell that is not set. -/
theorem Valid.inRange_rescan (h : Valid d) (pos : 0 < d.capacity) :
    InRange (rescan rounds d) Valid := by
  unfold rescan
  rw [InRange.bind_iff]
  refine inRange_checkedLoop
    (fun s : PythonDictionary κ ν × Int => Valid s.1 ∧ 0 < s.1.capacity ∧ 0 ≤ s.2 ∧ s.2 ≤ s.1.capacity)
    rounds ⟨h, pos, Int.le_refl _, h.capacity_nonneg⟩ ?_
  rintro ⟨e, i⟩ ⟨valid, posE, low, high⟩
  rw [InRange.pure_iff]
  dsimp only at valid posE low high ⊢
  have size := valid.size_eq
  split
  · rw [InRange.pure_iff]
    exact valid
  · rename_i goes
    have inside : ¬i = e.capacity := fun all => goes (decide_eq_true all)
    rw [InRange.bind_iff]
    refine inRange_read low (by omega) ?_
    cases cell : e.storage.cell i with
    | none =>
      exact ⟨valid, posE, by dsimp only; omega, by dsimp only; omega⟩
    | some node =>
      rw [InRange.bind_iff]
      refine (inRange_indexOf size posE).mono fun r answer => ?_
      split
      · rename_i negative
        rcases answer with ⟨lowR, -⟩ | ⟨-, highR, free⟩
        · omega
        · have other : i ≠ -r - 1 := by
            rintro rfl
            rw [free] at cell
            cases cell
          rw [InRange.bind_iff]
          refine inRange_putStorage (by omega) (by omega) ?_
          rw [InRange.bind_iff]
          refine inRange_putStorage low (by dsimp only; rw [NativeArray.size_set]; omega) ?_
          have filled := @Valid.fill _ _ _ _ valid node (by omega) highR free
          have stays : (e.storage.set (some node) (-r - 1)).cell i = some node := by
            rw [NativeArray.cell_set_of_ne _ _ other]
            exact cell
          have freed := filled.free low (by dsimp only; omega) stays
          rw [Int.add_sub_cancel] at freed
          exact ⟨freed, posE, by dsimp only; omega, by dsimp only; omega⟩
      · rw [InRange.pure_iff]
        exact ⟨valid, posE, by dsimp only; omega, by dsimp only; omega⟩

theorem Valid.inRange_remove (h : Valid d) : InRange (remove rounds d k) Valid := by
  have size := h.size_eq
  unfold remove
  by_cases pos : 0 < d.capacity
  · rw [InRange.bind_iff]
    refine (inRange_indexOf size pos).mono fun r answer => ?_
    split
    · rename_i found
      rcases answer with ⟨low, high, node, set, -⟩ | ⟨negative, -⟩
      · rw [InRange.bind_iff]
        refine inRange_putStorage low (by omega) ?_
        exact (h.free low high set).inRange_rescan pos
      · omega
    · exact h
  · have nonneg := h.capacity_nonneg
    unfold indexOf search
    rw [if_pos (by omega), InRange.bind_iff, InRange.pure_iff, if_neg (by decide)]
    exact h

omit [HashedKey κ] in
theorem Valid.inRange_clearCount (h : Valid d) : InRange (clearCount rounds d) Valid := by
  have size := h.size_eq
  unfold clearCount
  rw [InRange.bind_iff]
  refine inRange_checkedLoop
    (fun s : NativeArray (Option (Node κ ν)) × Int => 0 ≤ s.2 ∧ s.1.size = d.capacity ∧
      ∀ j, 0 ≤ j → j < s.2 → s.1.cell j = none)
    rounds ⟨Int.le_refl _, size, fun j low high => by dsimp only at high; omega⟩ ?_
  rintro ⟨storage, i⟩ ⟨low, sizeS, cleared⟩
  rw [InRange.pure_iff]
  dsimp only at low sizeS cleared ⊢
  split
  · rename_i stop
    have all : i > d.capacity - 1 := of_decide_eq_true stop
    rw [InRange.pure_iff]
    refine ⟨sizeS, h.capacity_nonneg, ?_⟩
    dsimp only
    rw [setCells_of_none fun j lowJ highJ => cleared j lowJ (by omega)]
    rfl
  · rename_i goes
    have inside : ¬i > d.capacity - 1 := fun all => goes (decide_eq_true all)
    rw [InRange.bind_iff]
    refine inRange_write low (by omega) ?_
    rw [InRange.pure_iff]
    refine ⟨by dsimp only; omega, sizeS, fun j lowJ highJ => ?_⟩
    dsimp only at highJ ⊢
    by_cases here : j = i
    · rw [here, NativeArray.cell_set_self]
    · rw [NativeArray.cell_set_of_ne _ _ here]
      exact cleared j lowJ (by omega)

/-! ## The places of the nodes -/

omit [HashedKey κ] in
/-- The next cell that is set, or the end of the storage. -/
theorem Valid.inRange_nextInternalIndex (h : Valid d) (low : -1 ≤ i) (high : i < d.capacity) :
    InRange (nextInternalIndex rounds d i) fun r => i < r ∧ r ≤ d.capacity ∧
      (∀ j, i < j → j < r → d.storage.cell j = none) ∧
      (r ≠ d.capacity → (d.storage.cell r).isSome = true) := by
  have size := h.size_eq
  unfold nextInternalIndex
  refine inRange_checkedLoop
    (fun r => i < r ∧ r ≤ d.capacity ∧ ∀ j, i < j → j < r → d.storage.cell j = none)
    rounds ⟨by omega, by omega, fun j _ _ => by omega⟩ ?_
  intro r ⟨after, before, skipped⟩
  by_cases stop : r = d.capacity
  · rw [if_pos stop, InRange.pure_iff, if_pos rfl]
    exact ⟨after, before, skipped, fun inside => absurd stop inside⟩
  · rw [if_neg stop, InRange.bind_iff]
    refine inRange_read (by omega) (by omega) ?_
    rw [InRange.pure_iff]
    split
    · rename_i set
      exact ⟨after, before, skipped, fun _ => set⟩
    · rename_i unset
      rw [InRange.pure_iff]
      refine ⟨by omega, by omega, fun j lowJ highJ => ?_⟩
      by_cases here : j = r
      · rw [here]
        exact Option.not_isSome_iff_eq_none.mp unset
      · exact skipped j lowJ (by omega)

omit [HashedKey κ] in
theorem Valid.inRange_internalIndex (h : Valid d) (first : 1 ≤ index) (last : index ≤ d.count) :
    InRange (internalIndex rounds d index) fun r => 0 ≤ r ∧ r < d.capacity ∧
      ∃ node, d.storage.cell r = some node := by
  have count := h.count_eq
  unfold internalIndex
  rw [InRange.bind_iff]
  refine inRange_checkedLoop
    (fun s : Int × Int => 0 ≤ s.1 ∧ s.1 ≤ index ∧ -1 ≤ s.2 ∧ s.2 < d.capacity ∧
      (setCells d.storage.cell (s.2 + 1).toNat : Int) = s.1 ∧
      (0 < s.1 → (d.storage.cell s.2).isSome = true ∧ 0 ≤ s.2))
    rounds ⟨Int.le_refl _, by dsimp only; omega, Int.le_refl _, ?_, rfl,
      fun more => absurd more (by dsimp only; omega)⟩ ?_
  · have nonneg := h.capacity_nonneg
    dsimp only
    omega
  rintro ⟨i, r⟩ ⟨low, high, lowR, highR, cells, set⟩
  rw [InRange.pure_iff]
  dsimp only at low high lowR highR cells set ⊢
  split
  · rename_i stop
    have all : i = index := of_decide_eq_true stop
    rw [InRange.pure_iff]
    obtain ⟨isSome, nonneg⟩ := set (by omega)
    exact ⟨nonneg, highR, Option.isSome_iff_exists.mp isSome⟩
  · rename_i goes
    have less : ¬i = index := fun all => goes (decide_eq_true all)
    rw [InRange.bind_iff]
    refine (h.inRange_nextInternalIndex lowR highR).mono fun r' ⟨after, before, skipped, isSet⟩ => ?_
    have skip := setCells_skip (n := r'.toNat) (m := (r + 1).toNat) (by omega)
      fun j lowJ highJ => skipped j (by omega) (by omega)
    have inside : r' ≠ d.capacity := by
      intro last'
      rw [last'] at skip
      omega
    have next := setCells_succ d.storage.cell r'.toNat
    rw [show ((r'.toNat : ℕ) : Int) = r' by omega, if_pos (isSet inside),
      show r'.toNat + 1 = (r' + 1).toNat by omega] at next
    rw [InRange.pure_iff]
    exact ⟨by dsimp only; omega, by dsimp only; omega, by dsimp only; omega, by dsimp only; omega,
      by dsimp only; omega, fun _ => ⟨isSet inside, by dsimp only; omega⟩⟩

omit [HashedKey κ] in
theorem Valid.inRange_setItem (h : Valid d) (first : 1 ≤ index) (last : index ≤ d.count) :
    InRange (setItem rounds d v index) Valid := by
  have size := h.size_eq
  unfold setItem
  rw [InRange.bind_iff]
  refine (h.inRange_internalIndex first last).mono fun r ⟨low, high, node, set⟩ => ?_
  rw [InRange.bind_iff]
  refine inRange_read low (by omega) ?_
  rw [set]
  exact inRange_putStorage low (by omega) (h.replace set)

theorem inRange_createWithCapacity {n : Int} :
    InRange (createWithCapacity rounds n : Checked (PythonDictionary κ ν)) Valid := by
  unfold createWithCapacity ensureCapacity
  rw [InRange.bind_iff, if_pos (show (blank : PythonDictionary κ ν).capacity = 0 from rfl)]
  split
  · rename_i pos
    refine ⟨rfl, Int.le_of_lt pos, ?_⟩
    exact congrArg Nat.cast (setCells_of_none fun _ _ _ => rfl).symm
  · exact ⟨rfl, Int.le_refl _, rfl⟩

end Ranges

end Accesses

end PythonDictionary

end Liberty
