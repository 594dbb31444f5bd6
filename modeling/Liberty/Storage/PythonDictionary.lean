import Liberty.Library.OpenAddressing
import Liberty.Numeric.Integer32
import Liberty.Storage.Dictionary
import Liberty.Storage.NativeArray
import Mathlib.Data.Int.Interval

/-!
# PYTHON_DICTIONARY

Open addressing in a storage whose `capacity` is a power of two.  The walk of a key begins
at its hash code and is perturbed by the bits of it that are left in `stew`; once these are
used up it is a full cycle, so that it comes to every slot.
-/

namespace Liberty

open OpenAddressing

namespace PythonDictionary

/-- A PYTHON_DICTIONARY_NODE that is set. -/
structure Node (κ ν : Type) where
  key : κ
  item : ν
  hashCode : Int

end PythonDictionary

/-- The cells of `storage` that are not set hold `none`. -/
structure PythonDictionary (κ ν : Type) where
  storage : NativeArray (Option (PythonDictionary.Node κ ν))
  capacity : Int
  count : Int

namespace PythonDictionary

variable {κ ν : Type} [HashedKey κ]

/-! ## The source -/

/-- The next `index` and `stew` of a walk. -/
def advance (s : Int × Int) : Int × Int :=
  (wrap32 (wrap32 (wrap32 (wrap32 (s.1 * 4) + s.1) + 1) + s.2), s.2 / 32)

/-- `index_of`: the slot of `k`, or `-i - 1` for the free slot `i` where it goes. -/
def indexOf (d : PythonDictionary κ ν) (k : κ) : Option Int :=
  if d.capacity = 0 then some (-1)
  else do
    let hash := hashCode k
    let (result, _) ← untilLoop (fun s => some s.2.2)
      (fun (_, (index, stew), _) => do
        let result := index % d.capacity
        match ← d.storage.item result with
        | some node =>
          if hash = node.hashCode ∧ safeEqual node.key k then
            return (result, (index, stew), true)
          else return (result, advance (index, stew), false)
        | none => return (-result - 1, (index, stew), true))
      (d.capacity.toNat + 8) (0, (hash % d.capacity, hash), false)
    return result

def has (d : PythonDictionary κ ν) (k : κ) : Option Bool := do
  return decide (0 ≤ (← d.indexOf k))

/-- The item of a cell that is set. -/
def itemAt (d : PythonDictionary κ ν) (i : Int) : Option (Node κ ν) := do
  (← d.storage.item i)

/-- `at` -/
def at' (d : PythonDictionary κ ν) (k : κ) : Option ν := do
  return (← d.itemAt (← d.indexOf k)).item

def putStorage (d : PythonDictionary κ ν) (node : Option (Node κ ν)) (i : Int) :
    Option (PythonDictionary κ ν) := do
  return { d with storage := ← d.storage.put node i }

/-- The dictionary with a new storage. -/
def calloc (d : PythonDictionary κ ν) (newCapacity : Int) : PythonDictionary κ ν :=
  { d with storage := .calloc newCapacity, capacity := newCapacity }

/-- `ensure_capacity` -/
def ensureCapacity (d : PythonDictionary κ ν) (newCapacity : Int) :
    Option (PythonDictionary κ ν) :=
  if d.capacity = 0 then
    if newCapacity > 0 then some (d.calloc newCapacity) else some d
  else if d.capacity < newCapacity then do
    let (d', _) ← untilLoop (fun s => some (decide (s.2 = d.capacity)))
      (fun (d', i) => do
        match ← d.storage.item i with
        | some node => return (← d'.putStorage (some node) (-(← d'.indexOf node.key) - 1), i + 1)
        | none => return (d', i + 1))
      d.capacity.toNat (d.calloc newCapacity, 0)
    return d'
  else some d

/-- The new node of `add` and `put`. -/
def putNew (d : PythonDictionary κ ν) (v : ν) (k : κ) (index : Int) :
    Option (PythonDictionary κ ν) := do
  let d ← d.putStorage (some ⟨k, v, hashCode k⟩) (-index - 1)
  return { d with count := d.count + 1 }

def put (d : PythonDictionary κ ν) (v : ν) (k : κ) : Option (PythonDictionary κ ν) := do
  let index ← d.indexOf k
  if index < 0 then
    if d.count / 3 ≥ d.capacity / 4 ∧ wrap32 (d.capacity * 2) > 0 then
      let d ← d.ensureCapacity (d.capacity * 2)
      d.putNew v k (← d.indexOf k)
    else d.putNew v k index
  else
    let node ← d.itemAt index
    d.putStorage (some { node with item := v }) index

def add (d : PythonDictionary κ ν) (v : ν) (k : κ) : Option (PythonDictionary κ ν) := do
  let d ← (if d.count > d.capacity * 3 / 4 ∧ wrap32 (d.capacity * 2) > 0 then
    d.ensureCapacity (d.capacity * 2) else some d)
  d.putNew v k (← d.indexOf k)

/-- The loop of `remove`: every entry that is not found any more is moved to the free slot
that its search comes to, and the scan goes on from the slot 1. -/
def rescan (d : PythonDictionary κ ν) : Option (PythonDictionary κ ν) := do
  let (d, _) ← untilLoop (fun s => some (decide (s.2 = s.1.capacity)))
    (fun (d, i) => do
      match ← d.storage.item i with
      | some node =>
        let index ← d.indexOf node.key
        if index < 0 then
          let d ← d.putStorage (some node) (-index - 1)
          let d ← d.putStorage none i
          return (d, 0 + 1)
        else return (d, i + 1)
      | none => return (d, i + 1))
    ((d.capacity.toNat * (d.capacity.toNat + 7) + 1) * (d.capacity.toNat + 1)) (d, 0)
  return d

def remove (d : PythonDictionary κ ν) (k : κ) : Option (PythonDictionary κ ν) := do
  let index ← d.indexOf k
  if index ≥ 0 then
    let d ← d.putStorage none index
    rescan { d with count := d.count - 1 }
  else return d

/-- `clear_count`, `clear_count_and_capacity` -/
def clearCount (d : PythonDictionary κ ν) : Option (PythonDictionary κ ν) := do
  return { d with storage := ← d.storage.setAllWith none (d.capacity - 1), count := 0 }

/-- `next_internal_index` -/
def nextInternalIndex (d : PythonDictionary κ ν) (index : Int) : Option Int :=
  untilLoop
    (fun result =>
      if result = d.capacity then some true
      else do return (← d.storage.item result).isSome)
    (fun result => some (result + 1)) d.capacity.toNat (index + 1)

/-- `internal_index` -/
def internalIndex (d : PythonDictionary κ ν) (index : Int) : Option Int := do
  let (_, result) ← untilLoop (fun s => some (decide (s.1 = index)))
    (fun (i, result) => do return (i + 1, ← d.nextInternalIndex result))
    index.toNat (0, -1)
  return result

/-- `set_item` -/
def setItem (d : PythonDictionary κ ν) (v : ν) (index : Int) :
    Option (PythonDictionary κ ν) := do
  let i ← d.internalIndex index
  let node ← d.itemAt i
  d.putStorage (some { node with item := v }) i

/-- `key` -/
def key (d : PythonDictionary κ ν) (index : Int) : Option κ := do
  return (← d.itemAt (← d.internalIndex index)).key

/-- `powered_capacity` -/
def poweredCapacity (mediumSize : Int) : Int :=
  if mediumSize > 0 then
    let result := BitVec.ofInt 32 (mediumSize - 1)
    let result := result ||| result.sshiftRight 1
    let result := result ||| result.sshiftRight 2
    let result := result ||| result.sshiftRight 4
    let result := result ||| result.sshiftRight 8
    let result := result ||| result.sshiftRight 16
    (result + 1).toInt
  else 0

/-- An object before its creation procedure. -/
def blank : PythonDictionary κ ν where
  storage := .calloc 0
  capacity := 0
  count := 0

/-- `create_with_capacity` -/
def createWithCapacity (newCapacity : Int) : Option (PythonDictionary κ ν) := do
  let d ← (blank : PythonDictionary κ ν).ensureCapacity newCapacity
  return { d with count := 0 }

/-- `Default_size` -/
def defaultSize : Int := 16

def make : Option (PythonDictionary κ ν) :=
  createWithCapacity defaultSize

/-- `with_capacity` -/
def withCapacity (mediumSize : Int) : Option (PythonDictionary κ ν) :=
  createWithCapacity (poweredCapacity mediumSize)

/-! ## The walk of a key -/

/-- The `index` and the `stew` of the search for `k` after `n` rounds. -/
def walk (capacity : Int) (k : κ) (n : ℕ) : Int × Int :=
  advance^[n] (hashCode k % capacity, hashCode k)

/-- The slots in which `index_of` looks for a key. -/
def probing (κ ν : Type) [HashedKey κ] (capacity : Int) : Probing (Node κ ν) κ Int where
  key := Node.key
  probe k n := (walk capacity k n).1 % capacity
  probe_congr same := by
    funext n
    unfold walk
    rw [hashCode_congr same]

theorem walk_succ (capacity : Int) (k : κ) (n : ℕ) :
    walk capacity k (n + 1) = advance (walk capacity k n) :=
  Function.iterate_succ_apply' _ _ _

theorem walk_stew (capacity : Int) (k : κ) (n : ℕ) :
    (walk capacity k n).2 = hashCode k / 32 ^ n := by
  induction n with
  | zero => exact (Int.ediv_one _).symm
  | succ n ih =>
    rw [walk_succ]
    change (walk capacity k n).2 / 32 = _
    rw [ih, Int.ediv_ediv_of_nonneg (by positivity), pow_succ]

theorem advance_emod (s : Int × Int) {b : ℕ} (le : b ≤ 32) :
    (advance s).1 % 2 ^ b = (5 * s.1 + 1 + s.2) % 2 ^ b := by
  unfold advance
  rw [wrap32_emod _ le, Int.add_emod, wrap32_emod _ le, ← Int.add_emod, Int.add_assoc,
    Int.add_emod, wrap32_emod _ le, ← Int.add_emod, Int.add_assoc, Int.add_emod,
    wrap32_emod _ le, ← Int.add_emod]
  congr 1
  ring

/-- Seven rounds use up the bits of the hash code. -/
theorem walk_stew_eq_zero (capacity : Int) (k : κ) (n : ℕ) :
    (walk capacity k (7 + n)).2 = 0 := by
  have nonneg := HashedKey.hashCode_nonneg k
  have less := HashedKey.hashCode_lt k
  rw [walk_stew, pow_add]
  refine Int.ediv_eq_zero_of_lt nonneg (lt_of_lt_of_le less ?_)
  have one : (1 : Int) ≤ 32 ^ n := one_le_pow₀ (by norm_num)
  nlinarith

theorem walk_cycle (k : κ) {b : ℕ} (le : b ≤ 32) (n : ℕ) :
    (walk (2 ^ b) k (7 + n)).1 % 2 ^ b = FullCycle.cycle (walk (2 ^ b) k 7).1 n % 2 ^ b := by
  induction n with
  | zero => rfl
  | succ n ih =>
    rw [← Nat.add_assoc, walk_succ, advance_emod _ le, walk_stew_eq_zero, Int.add_zero,
      FullCycle.cycle_succ, Int.add_emod, Int.mul_emod, ih, ← Int.mul_emod, ← Int.add_emod]

/-- **The walk of a key comes to every slot.** -/
theorem exists_probe_eq (k : κ) {b : ℕ} (le : b ≤ 32) {i : Int} (low : 0 ≤ i)
    (high : i < 2 ^ b) : ∃ n < 7 + 2 ^ b, (probing κ ν (2 ^ b)).probe k n = i := by
  obtain ⟨n, less, at_i⟩ := FullCycle.exists_cycle_emod_eq b (walk (2 ^ b) k 7).1 low high
  exact ⟨7 + n, by omega, (walk_cycle k le n).trans at_i⟩

/-! ## The search -/

/-- A storage of `capacity` cells, none or a power of two, whose nodes have the hash codes
of their keys. -/
structure Shaped (d : PythonDictionary κ ν) : Prop where
  size_eq : d.storage.size = d.capacity
  capacity_nonneg : 0 ≤ d.capacity
  power : 0 < d.capacity → ∃ b ≤ 30, d.capacity = 2 ^ b
  outside : ∀ i, ¬(0 ≤ i ∧ i < d.capacity) → d.storage.cell i = none
  hash_eq : ∀ i node, d.storage.cell i = some node → node.hashCode = hashCode node.key

/-- What `index_of` answers. -/
inductive Located (d : PythonDictionary κ ν) (k : κ) : Int → Prop
  | found {n : ℕ} {node : Node κ ν} (stops : Stops (probing κ ν d.capacity) d.storage.cell k n)
      (set : d.storage.cell ((probing κ ν d.capacity).probe k n) = some node)
      (same : node.key ≈ k) : Located d k ((probing κ ν d.capacity).probe k n)
  | free {n : ℕ} (stops : Stops (probing κ ν d.capacity) d.storage.cell k n)
      (unset : d.storage.cell ((probing κ ν d.capacity).probe k n) = none) :
      Located d k (-(probing κ ν d.capacity).probe k n - 1)

variable {d : PythonDictionary κ ν} {k : κ}

theorem probe_nonneg (pos : 0 < d.capacity) (k : κ) (n : ℕ) :
    0 ≤ (probing κ ν d.capacity).probe k n :=
  Int.emod_nonneg _ (by omega)

theorem probe_lt (pos : 0 < d.capacity) (k : κ) (n : ℕ) :
    (probing κ ν d.capacity).probe k n < d.capacity :=
  Int.emod_lt_of_pos _ pos

theorem Shaped.exists_probe (h : Shaped d) (k : κ) {i : Int} (low : 0 ≤ i)
    (high : i < d.capacity) :
    ∃ n ≤ d.capacity.toNat + 6, (probing κ ν d.capacity).probe k n = i := by
  obtain ⟨b, le, eq⟩ := h.power (by omega)
  rw [eq] at high ⊢
  obtain ⟨n, less, at_i⟩ := @exists_probe_eq κ ν _ k b (by omega) i low high
  refine ⟨n, ?_, at_i⟩
  have : ((2 : Int) ^ b).toNat = 2 ^ b := by
    rw [← Nat.cast_ofNat, ← Nat.cast_pow, Int.toNat_natCast]
  omega

theorem Shaped.inside (h : Shaped d) {i : Int} {node : Node κ ν}
    (set : d.storage.cell i = some node) : 0 ≤ i ∧ i < d.capacity := by
  by_contra outside
  rw [h.outside i outside] at set
  cases set

/-- The loop of `index_of` from its `n`-th round on. -/
theorem returns_search (h : Shaped d) (pos : 0 < d.capacity) {N : ℕ}
    (stops : Stops (probing κ ν d.capacity) d.storage.cell k N) (fuel n : ℕ) (r : Int)
    (passes : Passes (probing κ ν d.capacity) d.storage.cell k n) (enough : N < n + fuel) :
    Returns (untilLoop (fun s : Int × (Int × Int) × Bool => some s.2.2)
      (fun (_, (index, stew), _) => do
        let result := index % d.capacity
        match ← d.storage.item result with
        | some node =>
          if hashCode k = node.hashCode ∧ safeEqual node.key k then
            return (result, (index, stew), true)
          else return (result, advance (index, stew), false)
        | none => return (-result - 1, (index, stew), true))
      fuel (r, walk d.capacity k n, false)) fun s => Located d k s.1 := by
  induction fuel generalizing n r with
  | zero => exact absurd enough (stops.not_lt passes)
  | succ fuel ih =>
    have low := probe_nonneg pos k n
    have high := probe_lt pos k n
    have size := h.size_eq
    have read : d.storage.item ((walk d.capacity k n).1 % d.capacity) =
        some (d.storage.cell ((probing κ ν d.capacity).probe k n)) :=
      NativeArray.item_of_inBounds ⟨low, by rw [size]; exact high⟩
    rw [untilLoop]
    simp only [Option.bind_eq_bind, Option.bind_some, Bool.false_eq_true, if_false]
    rw [read, Option.bind_some]
    cases cell : d.storage.cell ((probing κ ν d.capacity).probe k n) with
    | none =>
      have stop : Stops (probing κ ν d.capacity) d.storage.cell k n :=
        ⟨passes, fun e found => by rw [cell] at found; cases found⟩
      exact ⟨_, untilLoop_stopped rfl, .free stop cell⟩
    | some node =>
      by_cases same : node.key ≈ k
      · have test : hashCode k = node.hashCode ∧ safeEqual node.key k = true :=
          ⟨by rw [h.hash_eq _ _ cell, hashCode_congr same], same⟩
        dsimp only
        rw [if_pos test, Option.pure_def, Option.bind_some]
        have stop : Stops (probing κ ν d.capacity) d.storage.cell k n := by
          refine ⟨passes, fun e found => ?_⟩
          rw [cell] at found
          cases found
          exact same
        exact ⟨_, untilLoop_stopped rfl, .found stop cell same⟩
      · dsimp only
        rw [if_neg (fun test => same test.2), Option.pure_def, Option.bind_some]
        have rest := ih (n + 1) ((probing κ ν d.capacity).probe k n)
          (passes.succ cell same) (by omega)
        rw [walk_succ] at rest
        exact rest

/-- As long as a slot is free, `index_of` returns. -/
theorem returns_indexOf (h : Shaped d) (k : κ) {i : Int} (low : 0 ≤ i) (high : i < d.capacity)
    (free : d.storage.cell i = none) : Returns (d.indexOf k) (Located d k) := by
  obtain ⟨n, le, at_i⟩ := h.exists_probe k low high
  rw [← at_i] at free
  obtain ⟨N, before, stops⟩ := exists_stops_of_free free
  unfold indexOf
  rw [if_neg (by omega), Returns.bind_iff]
  refine (returns_search h (by omega) stops _ 0 0 .zero (by omega)).mono fun s located => ?_
  exact Returns.some_iff.mpr located

end PythonDictionary

end Liberty
