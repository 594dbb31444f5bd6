import Liberty.Storage.PythonDictionary
import Mathlib.Data.Nat.Size

/-!
# The finite map that a PYTHON_DICTIONARY holds

`Stores d m` tells that the nodes of the storage are the pairs of the map, `Represents d m`
that every one of them is also found.  Each command keeps the second, as long as `put` and
`add` leave a slot free and the scan of `remove` has nothing to find again in the slot 0.
-/

namespace Liberty

open OpenAddressing

namespace PythonDictionary

variable {κ ν : Type} [HashedKey κ]

/-! ## The nodes of the storage -/

/-- The pairs that stand in the storage. -/
def pairs (d : PythonDictionary κ ν) (k : κ) (v : ν) : Prop :=
  ∃ i node, d.storage.cell i = some node ∧ node.key = k ∧ node.item = v

structure Stores (d : PythonDictionary κ ν) (m : FiniteMap κ ν) : Prop where
  shaped : Shaped d
  distinct : Distinct (probing κ ν d.capacity) d.storage.cell
  tabulates : Tabulates d.pairs m

structure Represents (d : PythonDictionary κ ν) (m : FiniteMap κ ν) : Prop
    extends Stores d m where
  reachable : Reachable (probing κ ν d.capacity) d.storage.cell
  count_eq : d.count = m.keys.card
  room : 0 < d.capacity → d.count < d.capacity

/-- The slots that hold a node. -/
noncomputable def occupied (d : PythonDictionary κ ν) : Finset Int :=
  (Finset.Ico 0 d.capacity).filter fun i => (d.storage.cell i).isSome

variable {d : PythonDictionary κ ν} {m : FiniteMap κ ν} {k : κ} {v : ν}

theorem Shaped.mem_occupied (h : Shaped d) {i : Int} :
    i ∈ d.occupied ↔ ∃ node, d.storage.cell i = some node := by
  unfold occupied
  rw [Finset.mem_filter, Finset.mem_Ico, Option.isSome_iff_exists]
  constructor
  · intro member
    exact member.2
  · rintro ⟨node, set⟩
    exact ⟨h.inside set, node, set⟩

theorem Stores.mem (h : Stores d m) {i : Int} {node : Node κ ν}
    (set : d.storage.cell i = some node) : keyClass node.key ∈ m :=
  h.tabulates.mem ⟨i, node, set, rfl, rfl⟩

theorem Stores.mem_iff (h : Stores d m) :
    keyClass k ∈ m ↔ ∃ i node, d.storage.cell i = some node ∧ node.key ≈ k := by
  rw [h.tabulates.mem_iff]
  constructor
  · rintro ⟨l, v, ⟨i, node, set, rfl, -⟩, same⟩
    exact ⟨i, node, set, same⟩
  · rintro ⟨i, node, set, same⟩
    exact ⟨node.key, node.item, ⟨i, node, set, rfl, rfl⟩, same⟩

theorem Stores.lookup (h : Stores d m) {i : Int} {node : Node κ ν}
    (set : d.storage.cell i = some node) : m.lookup (keyClass node.key) = some node.item :=
  (h.tabulates _ _).mpr ⟨node.key, ⟨i, node, set, rfl, rfl⟩, rfl⟩

theorem Stores.card_occupied (h : Stores d m) : d.occupied.card = m.keys.card := by
  by_cases default : Nonempty κ
  · obtain ⟨l⟩ := default
    let key (i : Int) : κ := ((d.storage.cell i).map Node.key).getD l
    have key_eq : ∀ {i node}, d.storage.cell i = some node → key i = node.key := by
      intro i node set
      change ((d.storage.cell i).map Node.key).getD l = _
      rw [set]
      rfl
    refine h.tabulates.card_eq _ key (fun i member j member' same => ?_) fun k => ?_
    · obtain ⟨a, set⟩ := h.shaped.mem_occupied.mp member
      obtain ⟨b, set'⟩ := h.shaped.mem_occupied.mp member'
      rw [key_eq set, key_eq set'] at same
      exact h.distinct i j a b set set' same
    · constructor
      · rintro ⟨v, i, node, set, rfl, -⟩
        exact ⟨i, h.shaped.mem_occupied.mpr ⟨node, set⟩, key_eq set⟩
      · rintro ⟨i, member, rfl⟩
        obtain ⟨node, set⟩ := h.shaped.mem_occupied.mp member
        exact ⟨node.item, i, node, set, (key_eq set).symm, rfl⟩
  · have unset : d.occupied = ∅ := by
      refine Finset.eq_empty_of_forall_notMem fun i member => ?_
      obtain ⟨node, -⟩ := h.shaped.mem_occupied.mp member
      exact default ⟨node.key⟩
    have none : m.keys = ∅ := by
      refine Finset.eq_empty_of_forall_notMem fun q _ => ?_
      induction q using Quotient.inductionOn with
      | h k => exact default ⟨k⟩
    rw [unset, none]
    rfl

/-- A slot is free when the map has fewer keys than the storage has cells. -/
theorem Stores.exists_free (h : Stores d m) (room : (m.keys.card : Int) < d.capacity) :
    ∃ i, (0 ≤ i ∧ i < d.capacity) ∧ d.storage.cell i = none := by
  by_contra full
  rw [not_exists] at full
  have all : d.occupied = Finset.Ico 0 d.capacity := by
    refine Finset.filter_true_of_mem fun i member => ?_
    rw [Option.isSome_iff_ne_none]
    intro unset
    exact full i ⟨Finset.mem_Ico.mp member, unset⟩
  have card := h.card_occupied
  rw [all, Int.card_Ico] at card
  omega

theorem Stores.returns_indexOf (h : Stores d m) (room : (m.keys.card : Int) < d.capacity)
    (k : κ) : Returns (d.indexOf k) (Located d k) := by
  obtain ⟨i, ⟨low, high⟩, free⟩ := h.exists_free room
  exact PythonDictionary.returns_indexOf h.shaped k low high free

theorem Represents.returns_indexOf (h : Represents d m) (pos : 0 < d.capacity) (k : κ) :
    Returns (d.indexOf k) (Located d k) :=
  h.toStores.returns_indexOf (by rw [← h.count_eq]; exact h.room pos) k

theorem Represents.empty_of_capacity (h : Represents d m) (zero : ¬0 < d.capacity) (k : κ) :
    keyClass k ∉ m := by
  rw [h.toStores.mem_iff]
  rintro ⟨i, node, set, -⟩
  have := h.shaped.inside set
  omega

/-- An answer that is a free slot means that the key is absent. -/
theorem Represents.absent_of_free (h : Represents d m) {n : ℕ}
    (stops : Stops (probing κ ν d.capacity) d.storage.cell k n)
    (unset : d.storage.cell ((probing κ ν d.capacity).probe k n) = none) : keyClass k ∉ m := by
  rw [h.toStores.mem_iff]
  rintro ⟨i, node, set, same⟩
  rw [h.reachable.stops_at stops set same, set] at unset
  cases unset

/-! ## Single cells -/

/-- The dictionary after a write in one cell of its storage. -/
def withCell (d : PythonDictionary κ ν) (node : Option (Node κ ν)) (i : Int) :
    PythonDictionary κ ν :=
  { d with storage := d.storage.set node i }

omit [HashedKey κ] in
@[simp] theorem capacity_withCell (d : PythonDictionary κ ν) (node : Option (Node κ ν))
    (i : Int) : (d.withCell node i).capacity = d.capacity := rfl

omit [HashedKey κ] in
theorem cell_withCell (d : PythonDictionary κ ν) (node : Option (Node κ ν)) (i : Int) :
    (d.withCell node i).storage.cell = Function.update d.storage.cell i node := by
  funext j
  rw [Function.update_apply]
  rfl

theorem Shaped.putStorage (h : Shaped d) (node : Option (Node κ ν)) {i : Int} (low : 0 ≤ i)
    (high : i < d.capacity) : d.putStorage node i = some (d.withCell node i) := by
  have size := h.size_eq
  have written : Returns (d.storage.put node i) fun s => s = d.storage.set node i :=
    NativeArray.returns_put.mpr ⟨⟨low, by omega⟩, rfl⟩
  obtain ⟨s, run, eq⟩ := written
  unfold PythonDictionary.putStorage withCell
  rw [run, eq]
  rfl

theorem Shaped.withCell (h : Shaped d) {node : Option (Node κ ν)} {i : Int} (low : 0 ≤ i)
    (high : i < d.capacity) (hash : ∀ n, node = some n → n.hashCode = hashCode n.key) :
    Shaped (d.withCell node i) := by
  refine ⟨h.size_eq, h.capacity_nonneg, h.power, fun j outside => ?_, fun j n set => ?_⟩
  · rw [capacity_withCell] at outside
    rw [cell_withCell, Function.update_of_ne (by rintro rfl; exact outside ⟨low, high⟩)]
    exact h.outside j outside
  · rw [cell_withCell, Function.update_apply] at set
    split at set
    · exact hash n set
    · exact h.hash_eq j n set

theorem Stores.insert (h : Stores d m) {i : Int} (low : 0 ≤ i) (high : i < d.capacity)
    (unset : d.storage.cell i = none) (absent : keyClass k ∉ m) (v : ν) :
    Stores (d.withCell (some ⟨k, v, hashCode k⟩) i) (m.insert (keyClass k) v) := by
  have others : ∀ j a, d.storage.cell j = some a → ¬a.key ≈ k := by
    intro j a set same
    exact absent (h.mem_iff.mpr ⟨j, a, set, same⟩)
  refine ⟨h.shaped.withCell low high ?_, ?_, h.tabulates.insert (Setoid.refl k) ?_⟩
  · intro n eq
    cases eq
    rfl
  · rw [cell_withCell]
    exact h.distinct.insert others
  · intro a w
    unfold pairs
    rw [cell_withCell]
    constructor
    · rintro ⟨j, node, set, rfl, rfl⟩
      rw [Function.update_apply] at set
      split at set
      · cases set
        exact Or.inl ⟨rfl, rfl⟩
      · exact Or.inr ⟨⟨j, node, set, rfl, rfl⟩, others j node set⟩
    · rintro (⟨rfl, rfl⟩ | ⟨⟨j, node, set, rfl, rfl⟩, -⟩)
      · exact ⟨i, _, Function.update_self _ _ _, rfl, rfl⟩
      · refine ⟨j, node, ?_, rfl, rfl⟩
        rw [Function.update_of_ne (by rintro rfl; rw [unset] at set; cases set)]
        exact set

theorem Represents.replace (h : Represents d m) {i : Int} {node : Node κ ν}
    (set : d.storage.cell i = some node) (same : node.key ≈ k) (v : ν) :
    Represents (d.withCell (some { node with item := v }) i) (m.insert (keyClass k) v) := by
  have inside := h.shaped.inside set
  have present := h.toStores.mem_iff.mpr ⟨i, node, set, same⟩
  refine ⟨⟨h.shaped.withCell inside.1 inside.2 ?_, ?_, h.tabulates.insert same ?_⟩, ?_, ?_, h.room⟩
  · intro n eq
    cases eq
    exact h.shaped.hash_eq i node set
  · rw [cell_withCell]
    exact h.distinct.replace set (Setoid.refl _)
  · intro a w
    unfold pairs
    rw [cell_withCell]
    constructor
    · rintro ⟨j, n, set', rfl, rfl⟩
      rw [Function.update_apply] at set'
      split at set'
      · cases set'
        exact Or.inl ⟨rfl, rfl⟩
      · rename_i other
        refine Or.inr ⟨⟨j, n, set', rfl, rfl⟩, fun eq => other ?_⟩
        exact h.distinct j i n node set' set (Setoid.trans eq (Setoid.symm same))
    · rintro (⟨rfl, rfl⟩ | ⟨⟨j, n, set', rfl, rfl⟩, other⟩)
      · exact ⟨i, _, Function.update_self _ _ _, rfl, rfl⟩
      · refine ⟨j, n, ?_, rfl, rfl⟩
        rw [Function.update_of_ne (by rintro rfl; rw [set] at set'; cases set'; exact other same)]
        exact set'
  · rw [cell_withCell]
    exact h.reachable.replace set (Setoid.refl _)
  · rw [card_insert_of_mem v present]
    exact h.count_eq

theorem Stores.erase (h : Stores d m) {i : Int} {node : Node κ ν}
    (set : d.storage.cell i = some node) (same : node.key ≈ k) :
    Stores (d.withCell none i) (m.erase (keyClass k)) := by
  have inside := h.shaped.inside set
  refine ⟨h.shaped.withCell inside.1 inside.2 (fun n eq => by cases eq), ?_,
    h.tabulates.erase ?_⟩
  · rw [cell_withCell]
    exact h.distinct.erase
  · intro a w
    unfold pairs
    rw [cell_withCell]
    constructor
    · rintro ⟨j, n, set', rfl, rfl⟩
      rw [Function.update_apply] at set'
      split at set'
      · cases set'
      · rename_i other
        refine ⟨⟨j, n, set', rfl, rfl⟩, fun eq => other ?_⟩
        exact h.distinct j i n node set' set (Setoid.trans eq (Setoid.symm same))
    · rintro ⟨⟨j, n, set', rfl, rfl⟩, other⟩
      refine ⟨j, n, ?_, rfl, rfl⟩
      rw [Function.update_of_ne (by rintro rfl; rw [set] at set'; cases set'; exact other same)]
      exact set'

theorem Stores.withCount (h : Stores d m) (count : Int) :
    Stores { d with count := count } m :=
  ⟨⟨h.shaped.size_eq, h.shaped.capacity_nonneg, h.shaped.power, h.shaped.outside,
    h.shaped.hash_eq⟩, h.distinct, h.tabulates⟩

theorem represents_empty (size : d.storage.size = d.capacity) (nonneg : 0 ≤ d.capacity)
    (power : 0 < d.capacity → ∃ b ≤ 30, d.capacity = 2 ^ b)
    (unset : ∀ i, d.storage.cell i = none) (count : d.count = 0) :
    Represents d (∅ : FiniteMap κ ν) := by
  refine ⟨⟨⟨size, nonneg, power, fun i _ => unset i, fun i node set => ?_⟩,
    fun i j a b set => ?_, .empty ?_⟩, fun i node set => ?_, count, fun pos => ?_⟩
  · rw [unset i] at set
    cases set
  · rw [unset i] at set
    cases set
  · rintro k v ⟨i, node, set, -⟩
    rw [unset i] at set
    cases set
  · rw [unset i] at set
    cases set
  · rw [count]
    exact pos

/-! ## Growing -/

theorem stores_calloc (d : PythonDictionary κ ν) {b : ℕ} (le : b ≤ 30) :
    Stores (d.calloc (2 ^ b)) (∅ : FiniteMap κ ν) := by
  have empty : Represents { d.calloc (2 ^ b) with count := 0 } (∅ : FiniteMap κ ν) := by
    refine represents_empty rfl ?_ (fun _ => ⟨b, le, rfl⟩) (fun _ => rfl) rfl
    change (0 : Int) ≤ 2 ^ b
    positivity
  exact empty.toStores.withCount d.count

/-- The nodes that the loop of `ensure_capacity` has put back before it reads the slot `i`. -/
structure Regrown (d d' : PythonDictionary κ ν) (newCapacity i : Int) : Prop where
  capacity_eq : d'.capacity = newCapacity
  count_eq : d'.count = d.count
  low : 0 ≤ i
  high : i ≤ d.capacity
  reachable : Reachable (probing κ ν d'.capacity) d'.storage.cell
  nodes : ∀ node, (∃ j, d'.storage.cell j = some node) ↔
    ∃ j, (0 ≤ j ∧ j < i) ∧ d.storage.cell j = some node
  stores : ∃ m' : FiniteMap κ ν, Stores d' m' ∧ (m'.keys.card : Int) ≤ i

theorem Regrown.step {d' : PythonDictionary κ ν} {newCapacity i : Int}
    (h : Regrown d d' newCapacity i) (shaped : Shaped d)
    (distinct : Distinct (probing κ ν d.capacity) d.storage.cell)
    (bigger : d.capacity < newCapacity) (going : i < d.capacity) {node : Node κ ν}
    (set : d.storage.cell i = some node) :
    Returns (d'.indexOf node.key) fun r =>
      Returns (d'.putStorage (some node) (-r - 1)) fun d'' => Regrown d d'' newCapacity (i + 1) := by
  obtain ⟨m', stores, card⟩ := h.stores
  have capacity := h.capacity_eq
  have low := h.low
  have absent : keyClass node.key ∉ m' := by
    rw [stores.mem_iff]
    rintro ⟨j, n, set', same⟩
    obtain ⟨x, inside, set''⟩ := (h.nodes n).mp ⟨j, set'⟩
    have := distinct x i n node set'' set same
    omega
  refine (stores.returns_indexOf (by omega) node.key).mono fun r located => ?_
  cases located with
  | found _ set' same => exact absurd (stores.mem_iff.mpr ⟨_, _, set', same⟩) absent
  | @free n stops unset =>
    have pos : 0 < d'.capacity := by omega
    have low' := probe_nonneg pos node.key n
    have high' := probe_lt pos node.key n
    generalize slot : (probing κ ν d'.capacity).probe node.key n = j at *
    rw [show -(-j - 1) - 1 = j by omega, stores.shaped.putStorage _ low' high',
      Returns.some_iff]
    have written : (⟨node.key, node.item, hashCode node.key⟩ : Node κ ν) = node := by
      rw [← shaped.hash_eq i node set]
    have next := stores.insert low' high' unset absent node.item
    rw [written] at next
    refine ⟨capacity, h.count_eq, by omega, by omega, ?_, fun a => ?_, _, next, ?_⟩
    · rw [cell_withCell]
      exact h.reachable.insert ⟨n, stops.passes, slot⟩ unset
    · constructor
      · rintro ⟨x, at_x⟩
        rw [cell_withCell, Function.update_apply] at at_x
        split at at_x
        · cases at_x
          exact ⟨i, ⟨low, by omega⟩, set⟩
        · obtain ⟨y, inside, at_y⟩ := (h.nodes a).mp ⟨x, at_x⟩
          exact ⟨y, ⟨inside.1, by omega⟩, at_y⟩
      · rintro ⟨y, inside, at_y⟩
        rw [cell_withCell]
        by_cases last : y = i
        · rw [last, set] at at_y
          cases at_y
          exact ⟨j, Function.update_self _ _ _⟩
        · obtain ⟨x, at_x⟩ := (h.nodes a).mpr ⟨y, ⟨inside.1, by omega⟩, at_y⟩
          refine ⟨x, ?_⟩
          rw [Function.update_of_ne (by rintro rfl; rw [unset] at at_x; cases at_x)]
          exact at_x
    · rw [card_insert_of_notMem _ absent]
      omega

theorem Represents.returns_ensureCapacity (h : Represents d m) (pos : 0 < d.capacity)
    (grows : wrap32 (d.capacity * 2) > 0) :
    Returns (d.ensureCapacity (d.capacity * 2)) fun d' =>
      Represents d' m ∧ d'.capacity = d.capacity * 2 ∧ d'.count = d.count := by
  obtain ⟨b, le, capacity⟩ := h.shaped.power pos
  have small : b + 1 ≤ 30 := by
    by_contra big
    have : b = 30 := by omega
    rw [capacity, this] at grows
    revert grows
    decide
  have double : d.capacity * 2 = 2 ^ (b + 1) := by rw [capacity, pow_succ]
  have size := h.shaped.size_eq
  unfold ensureCapacity
  rw [if_neg (by omega), if_pos (by omega), Returns.bind_iff]
  refine returns_untilLoop
    (fun s : PythonDictionary κ ν × Int => Regrown d s.1 (d.capacity * 2) s.2)
    (fun s => (d.capacity - s.2).toNat) ?_ (by dsimp only; omega) ?_
  · have stores : Stores (d.calloc (d.capacity * 2)) (∅ : FiniteMap κ ν) := by
      rw [double]
      exact stores_calloc d small
    refine ⟨rfl, rfl, le_refl 0, by dsimp only; omega, fun i node set => ?_, fun node => ?_,
      ∅, stores, le_refl 0⟩
    · cases set
    · constructor
      · rintro ⟨j, set⟩
        cases set
      · rintro ⟨j, inside, -⟩
        omega
  · rintro ⟨d', i⟩ inv
    have low := inv.low
    have high := inv.high
    rw [Returns.some_iff]
    dsimp only at inv low high ⊢
    by_cases stop : i = d.capacity
    · rw [if_pos (by rw [decide_eq_true stop]), Returns.pure_iff]
      obtain ⟨m', stores, card⟩ := inv.stores
      have same : ∀ k v, d'.pairs k v ↔ d.pairs k v := by
        intro k v
        constructor
        · rintro ⟨i, node, set, eq⟩
          obtain ⟨j, -, set'⟩ := (inv.nodes node).mp ⟨i, set⟩
          exact ⟨j, node, set', eq⟩
        · rintro ⟨i, node, set, eq⟩
          have inside := h.shaped.inside set
          obtain ⟨j, set'⟩ := (inv.nodes node).mpr ⟨i, by omega, set⟩
          exact ⟨j, node, set', eq⟩
      have count := h.count_eq
      have room := h.room pos
      have capacityEq := inv.capacity_eq
      have countEq := inv.count_eq
      refine ⟨⟨⟨stores.shaped, stores.distinct, h.tabulates.congr same⟩, inv.reachable, ?_, ?_⟩,
        capacityEq, countEq⟩
      · rw [countEq, count]
      · omega
    · rw [if_neg (by rw [decide_eq_false stop]; exact Bool.false_ne_true), Returns.bind_iff,
        NativeArray.returns_item]
      refine ⟨⟨low, by omega⟩, ?_⟩
      cases cell : d.storage.cell i with
      | none =>
        rw [Returns.pure_iff]
        refine ⟨⟨inv.capacity_eq, inv.count_eq, by omega, by omega, inv.reachable,
          fun a => ?_, ?_⟩, by omega⟩
        · rw [inv.nodes a]
          constructor
          · rintro ⟨j, inside, set⟩
            exact ⟨j, ⟨inside.1, by omega⟩, set⟩
          · rintro ⟨j, inside, set⟩
            refine ⟨j, ⟨inside.1, ?_⟩, set⟩
            have : j ≠ i := by
              rintro rfl
              rw [cell] at set
              cases set
            omega
        · obtain ⟨m', stores, card⟩ := inv.stores
          exact ⟨m', stores, by omega⟩
      | some node =>
        simp only [Returns.bind_iff, Returns.pure_iff]
        have step := inv.step h.shaped h.distinct (by omega) (by omega) cell
        exact step.mono fun r put => put.mono fun d'' kept => ⟨kept, by omega⟩

/-! ## `put` and `add` -/

/-- A new node, where the storage keeps a free slot. -/
theorem Represents.returns_putNew (h : Represents d m) (absent : keyClass k ∉ m)
    (pos : 0 < d.capacity) (room : d.count + 1 < d.capacity) (v : ν) {r : Int}
    (located : Located d k r) :
    Returns (d.putNew v k r) fun d' => Represents d' (m.insert (keyClass k) v) := by
  cases located with
  | found _ set same => exact absurd (h.toStores.mem_iff.mpr ⟨_, _, set, same⟩) absent
  | @free n stops unset =>
    have low := probe_nonneg pos k n
    have high := probe_lt pos k n
    let node : Node κ ν := ⟨k, v, hashCode k⟩
    have leads : Leads (probing κ ν d.capacity) d.storage.cell
        ((probing κ ν d.capacity).key node) ((probing κ ν d.capacity).probe k n) :=
      ⟨n, stops.passes, rfl⟩
    generalize (probing κ ν d.capacity).probe k n = j at *
    unfold putNew
    rw [show -(-j - 1) - 1 = j by omega, h.shaped.putStorage _ low high, Returns.bind_iff,
      Returns.some_iff, Returns.pure_iff]
    have next := h.toStores.insert low high unset absent v
    refine ⟨next.withCount _, ?_, ?_, fun _ => room⟩
    · have kept : Reachable (probing κ ν d.capacity)
          (Function.update d.storage.cell j (some node)) :=
        h.reachable.insert leads unset
      rw [← cell_withCell] at kept
      exact kept
    · have count := h.count_eq
      rw [card_insert_of_notMem v absent]
      change d.count + 1 = ((m.keys.card + 1 : ℕ) : Int)
      omega

theorem Represents.returns_put (h : Represents d m) (v : ν) (k : κ)
    (room : keyClass k ∈ m ∨ (d.count / 3 ≥ d.capacity / 4 ∧ wrap32 (d.capacity * 2) > 0) ∨
      d.count + 1 < d.capacity) :
    Returns (d.put v k) fun d' => Represents d' (m.insert (keyClass k) v) := by
  have nonneg := h.shaped.capacity_nonneg
  have count := h.count_eq
  have pos : 0 < d.capacity := by
    by_contra zero
    rcases room with present | grows | small
    · exact h.empty_of_capacity zero k present
    · rw [show d.capacity * 2 = 0 by omega] at grows
      exact absurd grows.2 (by decide)
    · omega
  refine (h.returns_indexOf pos k).bind fun r located => ?_
  have located' := located
  cases located with
  | @found n node stops set same =>
    have low := probe_nonneg pos k n
    have high := probe_lt pos k n
    have size := h.shaped.size_eq
    rw [if_neg (by omega)]
    unfold itemAt
    rw [Returns.bind_iff, Returns.bind_iff, NativeArray.returns_item, set, Returns.some_iff]
    refine ⟨⟨low, by omega⟩, ?_⟩
    rw [h.shaped.putStorage _ low high, Returns.some_iff]
    exact h.replace set same v
  | @free n stops unset =>
    have low := probe_nonneg pos k n
    have absent := h.absent_of_free stops unset
    have few := h.room pos
    rw [if_pos (by omega)]
    split
    · rename_i grows
      refine (h.returns_ensureCapacity pos grows.2).bind fun g ⟨held, capacity, countG⟩ => ?_
      refine (held.returns_indexOf (by omega) k).bind fun r' locatedG => ?_
      exact held.returns_putNew absent (by omega) (by omega) v locatedG
    · rename_i stays
      have small : d.count + 1 < d.capacity := by
        rcases room with present | grows | small
        · exact absurd present absent
        · exact absurd grows stays
        · exact small
      exact h.returns_putNew absent pos small v located'

theorem Represents.returns_add (h : Represents d m) (v : ν) (absent : keyClass k ∉ m)
    (room : (d.count > d.capacity * 3 / 4 ∧ wrap32 (d.capacity * 2) > 0) ∨
      d.count + 1 < d.capacity) :
    Returns (d.add v k) fun d' => Represents d' (m.insert (keyClass k) v) := by
  have nonneg := h.shaped.capacity_nonneg
  have count := h.count_eq
  have pos : 0 < d.capacity := by
    by_contra zero
    rcases room with grows | small
    · rw [show d.capacity * 2 = 0 by omega] at grows
      exact absurd grows.2 (by decide)
    · omega
  have few := h.room pos
  have grown : Returns (if d.count > d.capacity * 3 / 4 ∧ wrap32 (d.capacity * 2) > 0 then
      d.ensureCapacity (d.capacity * 2) else some d) fun g =>
        Represents g m ∧ 0 < g.capacity ∧ g.count + 1 < g.capacity := by
    split
    · rename_i grows
      exact (h.returns_ensureCapacity pos grows.2).mono fun g ⟨held, capacity, countG⟩ =>
        ⟨held, by omega, by omega⟩
    · rename_i stays
      exact Returns.some_iff.mpr ⟨h, pos, room.resolve_left stays⟩
  refine grown.bind fun g ⟨held, posG, small⟩ => ?_
  exact (held.returns_indexOf posG k).bind fun r located =>
    held.returns_putNew absent posG small v located

/-! ## `remove` -/

/-- The slot of `k` is not on the walk of another key before the slot of that key. -/
def NoneCrosses (d : PythonDictionary κ ν) (k : κ) : Prop :=
  ∀ i node, d.storage.cell i = some node → ¬node.key ≈ k →
    ∀ n, (∀ m ≤ n, (probing κ ν d.capacity).probe node.key m ≠ i) →
      ∀ other, d.storage.cell ((probing κ ν d.capacity).probe node.key n) = some other →
        ¬other.key ≈ k

/-- The slot 0 is on the walks of the other keys, up to their own slots, as the first one
only. -/
def ZeroFirst (d : PythonDictionary κ ν) (k : κ) : Prop :=
  ∀ i node, d.storage.cell i = some node → ¬node.key ≈ k →
    ∀ n, (∀ m < n, (probing κ ν d.capacity).probe node.key m ≠ i) →
      (probing κ ν d.capacity).probe node.key n = 0 → n = 0

/-- The same of every node of the storage. -/
def ZeroFirsts (d : PythonDictionary κ ν) : Prop :=
  ∀ i node, d.storage.cell i = some node →
    ∀ n, (∀ m < n, (probing κ ν d.capacity).probe node.key m ≠ i) →
      (probing κ ν d.capacity).probe node.key n = 0 → n = 0

/-- The node of the slot 0 is found in the first round. -/
theorem ZeroFirsts.leads (h : ZeroFirsts d) (shaped : Shaped d) {node : Node κ ν}
    (set : d.storage.cell 0 = some node) :
    Leads (probing κ ν d.capacity) d.storage.cell node.key 0 := by
  have inside := shaped.inside set
  obtain ⟨n, -, at_zero⟩ := shaped.exists_probe node.key inside.1 inside.2
  have comes : ∃ n, (probing κ ν d.capacity).probe node.key n = 0 := ⟨n, at_zero⟩
  have first := h 0 node set (Nat.find comes) (fun m before => Nat.find_min comes before)
    (Nat.find_spec comes)
  have at_first := Nat.find_spec comes
  rw [first] at at_first
  exact ⟨0, .zero, at_first⟩

/-- A scan that finds every node leaves the storage alone. -/
theorem Stores.returns_rescan_of_reachable (h : Stores d m)
    (room : (m.keys.card : Int) < d.capacity)
    (reachable : Reachable (probing κ ν d.capacity) d.storage.cell) :
    Returns d.rescan fun d' => d' = d := by
  have size := h.shaped.size_eq
  unfold rescan
  rw [Returns.bind_iff]
  refine returns_untilLoop
    (fun s : PythonDictionary κ ν × Int => s.1 = d ∧ 0 ≤ s.2 ∧ s.2 ≤ d.capacity)
    (fun s => (d.capacity - s.2).toNat) ⟨rfl, le_refl 0, by dsimp only; omega⟩ ?_ ?_
  · dsimp only
    have := Nat.le_mul_of_pos_left (d.capacity.toNat + 1)
      (Nat.succ_pos (d.capacity.toNat * (d.capacity.toNat + 7)))
    rw [Nat.succ_eq_add_one] at this
    omega
  · rintro ⟨d', i⟩ ⟨same, low, high⟩
    dsimp only at same low high ⊢
    subst same
    rw [Returns.some_iff]
    by_cases stop : i = d'.capacity
    · rw [if_pos (by rw [decide_eq_true stop]), Returns.pure_iff]
    · rw [if_neg (by rw [decide_eq_false stop]; exact Bool.false_ne_true), Returns.bind_iff,
        NativeArray.returns_item]
      refine ⟨⟨low, by omega⟩, ?_⟩
      cases cell : d'.storage.cell i with
      | none =>
        rw [Returns.pure_iff]
        exact ⟨⟨rfl, by omega, by omega⟩, by omega⟩
      | some node =>
        refine (h.returns_indexOf room node.key).bind fun r located => ?_
        cases located with
        | @found n _ _ _ _ =>
          have nonneg := probe_nonneg (show 0 < d'.capacity by omega) node.key n
          rw [if_neg (by omega), Returns.pure_iff]
          exact ⟨⟨rfl, by omega, by omega⟩, by omega⟩
        | free stops unset =>
          rw [reachable.stops_at stops cell (Setoid.refl _), cell] at unset
          cases unset

/-- What the scan knows when it reads the slot `i`. -/
structure Rescanned (d d' : PythonDictionary κ ν) (m : FiniteMap κ ν) (i : Int) : Prop where
  capacity_eq : d'.capacity = d.capacity
  count_eq : d'.count = d.count
  stores : Stores d' m
  low : 0 ≤ i
  high : i ≤ d.capacity
  zeroFirsts : ZeroFirsts d'
  before : ∀ j node, j < i → d'.storage.cell j = some node →
    Leads (probing κ ν d'.capacity) d'.storage.cell node.key j

/-- A node moved to the free slot where its search stops. -/
theorem Rescanned.move {d' : PythonDictionary κ ν} {i : Int} (h : Rescanned d d' m i)
    {node : Node κ ν} (set : d'.storage.cell i = some node) {n : ℕ}
    (stops : Stops (probing κ ν d'.capacity) d'.storage.cell node.key n)
    (unset : d'.storage.cell ((probing κ ν d'.capacity).probe node.key n) = none) :
    Rescanned d ((d'.withCell (some node) ((probing κ ν d'.capacity).probe node.key n)).withCell
      none i) m 1 := by
  have inside := h.stores.shaped.inside set
  have capacity := h.capacity_eq
  have low := probe_nonneg (show 0 < d'.capacity by omega) node.key n
  have high := probe_lt (show 0 < d'.capacity by omega) node.key n
  generalize at_j : (probing κ ν d'.capacity).probe node.key n = j at *
  have moved : ((d'.withCell (some node) j).withCell none i).storage.cell =
      OpenAddressing.move d'.storage.cell node i j := by
    rw [cell_withCell, cell_withCell]
    rfl
  have shaped : Shaped ((d'.withCell (some node) j).withCell none i) := by
    refine (h.stores.shaped.withCell low high fun a eq => ?_).withCell inside.1 inside.2
      fun a eq => ?_
    · cases eq
      exact h.stores.shaped.hash_eq i node set
    · cases eq
  have zeroFirsts : ZeroFirsts ((d'.withCell (some node) j).withCell none i) := by
    intro x a set' N apart at_zero
    rw [moved, move_eq_some set unset] at set'
    rcases set' with ⟨rfl, rfl⟩ | ⟨-, -, old⟩
    · refine h.zeroFirsts i a set N (fun l before at_i => ?_) at_zero
      have free : d'.storage.cell ((probing κ ν d'.capacity).probe a.key n) = none := by
        rw [at_j]
        exact unset
      have far := stops.lt_of_free free set at_i
      exact apart n (by omega) at_j
    · exact h.zeroFirsts x a old N apart at_zero
  refine ⟨capacity, h.count_eq, ⟨shaped, ?_, ?_⟩, by omega, by omega, zeroFirsts, ?_⟩
  · rw [moved]
    exact h.stores.distinct.move set unset
  · refine h.stores.tabulates.congr fun a w => ?_
    unfold pairs
    rw [moved]
    constructor
    · rintro ⟨x, b, at_x, eq⟩
      rw [move_eq_some set unset] at at_x
      rcases at_x with ⟨-, rfl⟩ | ⟨-, -, old⟩
      · exact ⟨i, b, set, eq⟩
      · exact ⟨x, b, old, eq⟩
    · rintro ⟨x, b, at_x, eq⟩
      by_cases here : x = i
      · rw [here, set] at at_x
        cases at_x
        exact ⟨j, node, (move_eq_some set unset).mpr (Or.inl ⟨rfl, rfl⟩), eq⟩
      · refine ⟨x, b, (move_eq_some set unset).mpr (Or.inr ⟨here, ?_, at_x⟩), eq⟩
        rintro rfl
        rw [unset] at at_x
        cases at_x
  · intro x a less set'
    have inside' := shaped.inside set'
    have zero : x = 0 := by omega
    subst zero
    exact zeroFirsts.leads shaped set'

/-- A scan that may move nodes, where only a first round comes to the slot 0. -/
theorem Stores.returns_rescan_of_zeroFirsts (h : Stores d m)
    (room : (m.keys.card : Int) < d.capacity) (zeroFirsts : ZeroFirsts d) :
    Returns d.rescan fun d' => Stores d' m ∧ d'.capacity = d.capacity ∧ d'.count = d.count ∧
      Reachable (probing κ ν d'.capacity) d'.storage.cell := by
  have capacity : (d.capacity.toNat : Int) = d.capacity := by omega
  generalize c : d.capacity.toNat = C at capacity
  have slots : (Finset.Ico 0 d.capacity).card = C := by rw [Int.card_Ico, Int.sub_zero, c]
  unfold rescan
  rw [Returns.bind_iff, c]
  refine returns_untilLoop
    (fun s : PythonDictionary κ ν × Int => Rescanned d s.1 m s.2)
    (fun s => potential (probing κ ν d.capacity) (Finset.Ico 0 d.capacity) s.1.storage.cell *
      (C + 1) + (d.capacity - s.2).toNat) ?_ ?_ ?_
  · exact ⟨rfl, rfl, h, le_refl 0, by dsimp only; omega, zeroFirsts, fun j node less set => by
      have := h.shaped.inside set
      omega⟩
  · have bounded : potential (probing κ ν d.capacity) (Finset.Ico 0 d.capacity) d.storage.cell ≤
        C * (C + 6) := by
      rw [← slots]
      refine potential_le fun i member k => ?_
      rw [Finset.mem_Ico] at member
      rw [slots, ← c]
      exact h.shaped.exists_probe k member.1 member.2
    rw [Int.sub_zero, c]
    calc potential (probing κ ν d.capacity) (Finset.Ico 0 d.capacity) d.storage.cell * (C + 1) + C
        ≤ C * (C + 6) * (C + 1) + C :=
          Nat.add_le_add_right (Nat.mul_le_mul_right _ bounded) _
      _ ≤ (C * (C + 7) + 1) * (C + 1) := by nlinarith
  · rintro ⟨d', i⟩ inv
    have low := inv.low
    have high := inv.high
    have capacity' := inv.capacity_eq
    have size := inv.stores.shaped.size_eq
    dsimp only at inv low high ⊢ capacity' size
    rw [Returns.some_iff]
    by_cases stop : i = d'.capacity
    · rw [if_pos (by rw [decide_eq_true stop]), Returns.pure_iff]
      refine ⟨inv.stores, capacity', inv.count_eq, fun j node set => ?_⟩
      have inside := inv.stores.shaped.inside set
      exact inv.before j node (by omega) set
    · rw [if_neg (by rw [decide_eq_false stop]; exact Bool.false_ne_true), Returns.bind_iff,
        NativeArray.returns_item]
      refine ⟨⟨low, by omega⟩, ?_⟩
      cases cell : d'.storage.cell i with
      | none =>
        rw [Returns.pure_iff]
        refine ⟨⟨capacity', inv.count_eq, inv.stores, by omega, by omega, inv.zeroFirsts,
          fun j node less set => inv.before j node ?_ set⟩, by dsimp only; omega⟩
        have : j ≠ i := by
          rintro rfl
          rw [cell] at set
          cases set
        omega
      | some node =>
        refine (inv.stores.returns_indexOf (by omega) node.key).bind fun r located => ?_
        cases located with
        | @found n other stops set same =>
          have here := inv.stores.distinct _ i other node set cell same
          rw [if_neg (by omega), Returns.pure_iff]
          refine ⟨⟨capacity', inv.count_eq, inv.stores, by omega, by omega, inv.zeroFirsts,
            fun j a less set' => ?_⟩, by dsimp only; omega⟩
          by_cases last : j = i
          · rw [last, cell] at set'
            cases set'
            exact ⟨n, stops.passes, here.trans last.symm⟩
          · exact inv.before j a (by omega) set'
        | @free n stops unset =>
          have next := inv.move cell stops unset
          have inside := inv.stores.shaped.inside cell
          have pos : 0 < d'.capacity := by omega
          have low' := probe_nonneg pos node.key n
          have high' := probe_lt pos node.key n
          obtain ⟨N, -, at_i⟩ := inv.stores.shaped.exists_probe node.key inside.1 inside.2
          have less : potential (probing κ ν d'.capacity) (Finset.Ico 0 d'.capacity)
              (OpenAddressing.move d'.storage.cell node i
                ((probing κ ν d'.capacity).probe node.key n)) <
              potential (probing κ ν d'.capacity) (Finset.Ico 0 d'.capacity)
                d'.storage.cell := @potential_move_lt _ _ _ _ (probing κ ν d'.capacity) _ _ _ _ _ _
            (Finset.Ico 0 d'.capacity) (Finset.mem_Ico.mpr inside)
            (Finset.mem_Ico.mpr ⟨low', high'⟩) stops unset cell at_i
          generalize (probing κ ν d'.capacity).probe node.key n = j at *
          rw [if_pos (by omega), show -(-j - 1) - 1 = j by omega,
            inv.stores.shaped.putStorage _ low' high', Returns.bind_iff, Returns.some_iff]
          have shaped : Shaped (d'.withCell (some node) j) :=
            inv.stores.shaped.withCell low' high' fun a eq => by
              cases eq
              exact inv.stores.shaped.hash_eq i node cell
          rw [shaped.putStorage _ inside.1 inside.2, Returns.bind_iff, Returns.some_iff,
            Returns.pure_iff]
          refine ⟨next, ?_⟩
          rw [cell_withCell, cell_withCell, ← capacity']
          change potential (probing κ ν d'.capacity) _ (OpenAddressing.move _ node i j) *
            (C + 1) + _ < _
          have smaller := Nat.mul_le_mul_right (C + 1) less
          rw [Nat.succ_mul] at smaller
          omega

/-- Where the scan of `remove` can be relied on: it has nothing to move, or the slot 0, that
it does not look at again after a move, is nothing but a first round. -/
def ScanSafe (d : PythonDictionary κ ν) (k : κ) : Prop :=
  NoneCrosses d k ∨ ZeroFirst d k

theorem Represents.returns_remove (h : Represents d m) (safe : ScanSafe d k) :
    Returns (d.remove k) fun d' => Represents d' (m.erase (keyClass k)) := by
  have nonneg := h.shaped.capacity_nonneg
  unfold remove
  by_cases pos : 0 < d.capacity
  · refine (h.returns_indexOf pos k).bind fun r located => ?_
    cases located with
    | @free n stops unset =>
      have low := probe_nonneg pos k n
      rw [if_neg (by omega), Returns.pure_iff, erase_of_notMem (h.absent_of_free stops unset)]
      exact h
    | @found n node stops set same =>
      have low := probe_nonneg pos k n
      have high := probe_lt pos k n
      generalize (probing κ ν d.capacity).probe k n = j at *
      rw [if_pos (by omega), h.shaped.putStorage _ low high, Returns.bind_iff, Returns.some_iff]
      have stores := (h.toStores.erase set same).withCount (d.count - 1)
      have card := card_erase_of_mem (h.toStores.mem_iff.mpr ⟨j, node, set, same⟩)
      have count := h.count_eq
      have few := h.room pos
      have others : ∀ i a, (d.withCell none j).storage.cell i = some a →
          d.storage.cell i = some a ∧ ¬a.key ≈ k := by
        intro i a set'
        rw [cell_withCell, Function.update_apply] at set'
        split at set'
        · cases set'
        · rename_i other
          refine ⟨set', fun eq => other ?_⟩
          exact h.distinct i j a node set' set (Setoid.trans eq (Setoid.symm same))
      have scanned : Returns (rescan { d.withCell none j with count := d.count - 1 })
          fun d' => Stores d' (m.erase (keyClass k)) ∧ d'.capacity = d.capacity ∧
            d'.count = d.count - 1 ∧
            Reachable (probing κ ν d'.capacity) d'.storage.cell := by
        rcases safe with noneCrosses | zeroFirst
        · have reachable : Reachable (probing κ ν d.capacity)
              (d.withCell none j).storage.cell := by
            rw [cell_withCell]
            refine h.reachable.erase fun i a set' other N passes at_i M before at_j => ?_
            have apart : ¬a.key ≈ k := fun eq => other
              (h.distinct i j a node set' set (Setoid.trans eq (Setoid.symm same)))
            refine noneCrosses i a set' apart M (fun l le at_i' => ?_) node
              (by rw [show (probing κ ν d.capacity).probe a.key M = j from at_j]; exact set) same
            obtain ⟨b, found, differs⟩ := passes l (by omega)
            rw [show (probing κ ν d.capacity).probe ((probing κ ν d.capacity).key a) l = i
              from at_i', set'] at found
            cases found
            exact differs (Setoid.refl _)
          refine (stores.returns_rescan_of_reachable (by dsimp only [capacity_withCell]; omega)
            reachable).mono fun d' same' => ?_
          rw [same']
          exact ⟨stores, rfl, rfl, reachable⟩
        · have zeroFirsts : ZeroFirsts { d.withCell none j with count := d.count - 1 } := by
            intro i a set' N apart at_zero
            obtain ⟨old, differs⟩ := others i a set'
            exact zeroFirst i a old differs N apart at_zero
          exact stores.returns_rescan_of_zeroFirsts (by dsimp only [capacity_withCell]; omega)
            zeroFirsts
      refine scanned.mono fun d' ⟨kept, capacity, countEq, reachable⟩ => ?_
      exact ⟨kept, reachable, by omega, by omega⟩
  · have absent := h.empty_of_capacity pos k
    unfold indexOf
    rw [if_pos (by omega), Returns.bind_iff, Returns.some_iff, if_neg (by decide),
      Returns.pure_iff, erase_of_notMem absent]
    exact h

/-! ## The other commands -/

theorem Represents.returns_clearCount (h : Represents d m) :
    Returns d.clearCount fun d' => Represents d' ∅ := by
  have size := h.shaped.size_eq
  unfold clearCount
  rw [Returns.bind_iff]
  refine NativeArray.returns_setSliceWith (by omega) ?_
  rw [Returns.pure_iff]
  refine represents_empty size h.shaped.capacity_nonneg h.shaped.power (fun i => ?_) rfl
  dsimp only
  split
  · rfl
  · exact h.shaped.outside i (by omega)

/-- `next_internal_index` comes to the next node. -/
theorem Shaped.returns_nextInternalIndex (h : Shaped d) {r : Int} (low : -1 ≤ r)
    (high : r < d.capacity) :
    Returns (d.nextInternalIndex r) fun j => r < j ∧ j ≤ d.capacity ∧
      (∀ x, r < x → x < j → d.storage.cell x = none) ∧
      (j < d.capacity → ∃ node, d.storage.cell j = some node) := by
  have size := h.size_eq
  refine returns_untilLoop
    (fun j => r < j ∧ j ≤ d.capacity ∧ ∀ x, r < x → x < j → d.storage.cell x = none)
    (fun j => (d.capacity - j).toNat) ⟨by omega, by omega, fun x _ _ => by omega⟩ (by omega)
    fun j inv => ?_
  by_cases stop : j = d.capacity
  · rw [if_pos stop, Returns.some_iff, if_pos rfl]
    exact ⟨inv.1, inv.2.1, inv.2.2, fun less => by omega⟩
  · rw [if_neg stop, Returns.bind_iff, NativeArray.returns_item, Returns.pure_iff]
    refine ⟨by omega, ?_⟩
    cases cell : d.storage.cell j with
    | none =>
      rw [if_neg (by simp), Returns.some_iff]
      refine ⟨⟨by omega, by omega, fun x after before => ?_⟩, by omega⟩
      by_cases last : x = j
      · rw [last]
        exact cell
      · exact inv.2.2 x after (by omega)
    | some node =>
      exact ⟨inv.1, inv.2.1, inv.2.2, fun _ => ⟨node, rfl⟩⟩

/-- `internal_index` comes to the node that it counts to. -/
theorem Stores.returns_internalIndex (h : Stores d m) {index : Int} (first : 1 ≤ index)
    (last : index ≤ m.keys.card) :
    Returns (d.internalIndex index) fun j => ∃ node, d.storage.cell j = some node := by
  have card := h.card_occupied
  unfold internalIndex
  rw [Returns.bind_iff]
  refine returns_untilLoop
    (fun s : Int × Int => s.1 ≤ index ∧ -1 ≤ s.2 ∧ s.2 < d.capacity ∧
      ((d.occupied.filter (· ≤ s.2)).card : Int) = s.1 ∧
      (0 < s.1 → ∃ node, d.storage.cell s.2 = some node))
    (fun s => (index - s.1).toNat) ?_ (by dsimp only; omega) ?_
  · have none : d.occupied.filter (· ≤ -1) = ∅ := by
      refine Finset.filter_false_of_mem fun i member => ?_
      obtain ⟨node, set⟩ := h.shaped.mem_occupied.mp member
      have := h.shaped.inside set
      omega
    have nonneg := h.shaped.capacity_nonneg
    refine ⟨by omega, by omega, by omega, ?_, fun zero => absurd zero (by decide)⟩
    rw [none]
    rfl
  · rintro ⟨i, r⟩ ⟨le, low, high, counted, here⟩
    dsimp only at le low high counted here ⊢
    rw [Returns.some_iff]
    by_cases stop : i = index
    · rw [if_pos (by rw [decide_eq_true stop]), Returns.pure_iff]
      exact here (by omega)
    · rw [if_neg (by rw [decide_eq_false stop]; exact Bool.false_ne_true)]
      refine (h.shaped.returns_nextInternalIndex low high).bind fun j next => ?_
      obtain ⟨after, le', gap, node⟩ := next
      have more : j < d.capacity := by
        by_contra done
        have all : d.occupied.filter (· ≤ r) = d.occupied := by
          refine Finset.filter_true_of_mem fun x member => ?_
          obtain ⟨a, set⟩ := h.shaped.mem_occupied.mp member
          have inside := h.shaped.inside set
          by_contra beyond
          rw [gap x (by omega) (by omega)] at set
          cases set
        rw [all, card] at counted
        omega
      have counted' : d.occupied.filter (· ≤ j) = Insert.insert j (d.occupied.filter (· ≤ r)) := by
        ext x
        rw [Finset.mem_filter, Finset.mem_insert, Finset.mem_filter]
        constructor
        · rintro ⟨member, le⟩
          by_cases same : x = j
          · exact Or.inl same
          · refine Or.inr ⟨member, ?_⟩
            obtain ⟨a, set⟩ := h.shaped.mem_occupied.mp member
            by_contra beyond
            rw [gap x (by omega) (by omega)] at set
            cases set
        · rintro (rfl | ⟨member, le⟩)
          · exact ⟨h.shaped.mem_occupied.mpr (node more), le_refl x⟩
          · exact ⟨member, by omega⟩
      have fresh : j ∉ d.occupied.filter (· ≤ r) := by
        rw [Finset.mem_filter]
        rintro ⟨-, le⟩
        omega
      rw [Returns.pure_iff]
      refine ⟨⟨by omega, by omega, more, ?_, fun _ => node more⟩, by omega⟩
      rw [counted', Finset.card_insert_of_notMem fresh]
      omega

theorem Represents.exists_key (h : Represents d m) {index : Int} (first : 1 ≤ index)
    (last : index ≤ m.keys.card) :
    ∃ j node, d.internalIndex index = some j ∧ d.storage.cell j = some node ∧
      d.itemAt j = some node ∧ d.key index = some node.key := by
  obtain ⟨j, run, node, set⟩ := h.toStores.returns_internalIndex first last
  have inside := h.shaped.inside set
  have size := h.shaped.size_eq
  have read : d.itemAt j = some node := by
    unfold itemAt
    rw [NativeArray.item_of_inBounds (by omega), set]
    rfl
  refine ⟨j, node, run, set, read, ?_⟩
  unfold key
  rw [run, Option.bind_eq_bind, Option.bind_some, read]
  rfl

theorem Represents.returns_setItem (h : Represents d m) (v : ν) {index : Int}
    (first : 1 ≤ index) (last : index ≤ m.keys.card) :
    ∃ k, d.key index = some k ∧
      Returns (d.setItem v index) fun d' => Represents d' (m.insert (keyClass k) v) := by
  obtain ⟨j, node, run, set, read, named⟩ := h.exists_key first last
  have inside := h.shaped.inside set
  refine ⟨node.key, named, ?_⟩
  unfold setItem
  rw [run, Returns.bind_iff, Returns.some_iff, read, Returns.bind_iff, Returns.some_iff,
    h.shaped.putStorage _ inside.1 inside.2, Returns.some_iff]
  exact h.replace set (Setoid.refl _) v

/-! ## Creation -/

/-- The bits of `w` and those below them, as far as `reach` places. -/
def Smeared (w r : BitVec 32) (reach : ℕ) : Prop :=
  ∀ i, r.getLsbD i = true ↔ ∃ d < reach, w.getLsbD (i + d) = true

theorem Smeared.double {w r : BitVec 32} {reach : ℕ} (h : Smeared w r reach)
    (positive : w.msb = false) : Smeared w (r ||| r.sshiftRight reach) (reach + reach) := by
  have top : ∀ i, 31 ≤ i → w.getLsbD i = false := by
    intro i high
    by_cases last : i = 31
    · rw [last]
      exact positive
    · exact BitVec.getLsbD_of_ge w i (by omega)
  have positive' : r.msb = false := by
    rw [BitVec.msb_eq_getLsbD_last, Bool.eq_false_iff]
    intro set
    obtain ⟨d, -, bit⟩ := (h _).mp set
    rw [top _ (by omega)] at bit
    cases bit
  intro i
  rw [BitVec.sshiftRight_eq_of_msb_false positive', BitVec.getLsbD_or,
    BitVec.getLsbD_ushiftRight, Bool.or_eq_true, h i, h (reach + i)]
  constructor
  · rintro (⟨d, less, bit⟩ | ⟨d, less, bit⟩)
    · exact ⟨d, by omega, bit⟩
    · exact ⟨reach + d, by omega, by rw [show i + (reach + d) = reach + i + d by omega]; exact bit⟩
  · rintro ⟨d, less, bit⟩
    by_cases near : d < reach
    · exact Or.inl ⟨d, near, bit⟩
    · refine Or.inr ⟨d - reach, by omega, ?_⟩
      rw [show reach + i + (d - reach) = i + d by omega]
      exact bit

theorem Smeared.toNat_eq {w r : BitVec 32} (h : Smeared w r 32) :
    r.toNat = 2 ^ w.toNat.size - 1 := by
  refine Nat.eq_of_testBit_eq fun i => ?_
  rw [Nat.testBit_two_pow_sub_one, Bool.eq_iff_iff, decide_eq_true_iff, Nat.lt_size]
  refine Iff.trans (h i) ?_
  constructor
  · rintro ⟨d, -, bit⟩
    have := Nat.ge_two_pow_of_testBit (x := w.toNat) (i := i + d) bit
    exact le_trans (Nat.pow_le_pow_right (by decide) (by omega)) this
  · intro large
    obtain ⟨j, le, bit⟩ := Nat.exists_ge_and_testBit_of_ge_two_pow large
    have less : j < 32 := BitVec.lt_of_getLsbD (x := w) bit
    exact ⟨j - i, by omega, by rw [show i + (j - i) = j by omega]; exact bit⟩

/-- `powered_capacity` is a power of two, or nothing that `ensure_capacity` allocates. -/
theorem poweredCapacity_cases {n : Int} (high : n < 2 ^ 31) :
    poweredCapacity n ≤ 0 ∨ ∃ b ≤ 30, poweredCapacity n = 2 ^ b := by
  unfold poweredCapacity
  by_cases pos : n > 0
  · rw [if_pos pos]
    dsimp only
    have value : (BitVec.ofInt 32 (n - 1)).toNat = (n - 1).toNat := by
      rw [BitVec.toNat_ofInt]
      omega
    have positive : (BitVec.ofInt 32 (n - 1)).msb = false := by
      rw [BitVec.msb_eq_false_iff_two_mul_lt, value]
      omega
    generalize BitVec.ofInt 32 (n - 1) = w at value positive
    have start : Smeared w w 1 := by
      intro i
      constructor
      · intro bit
        exact ⟨0, by decide, bit⟩
      · rintro ⟨d, less, bit⟩
        rw [show d = 0 by omega] at bit
        exact bit
    have smeared := (((((start.double positive).double positive).double positive).double
      positive).double positive)
    have all := smeared.toNat_eq
    generalize (_ ||| _ : BitVec 32) = r at all ⊢
    have small : w.toNat.size ≤ 31 := Nat.size_le.mpr (by omega)
    have sum : (r + 1).toNat = 2 ^ w.toNat.size := by
      have bound : 2 ^ w.toNat.size ≤ 2 ^ 31 := Nat.pow_le_pow_right (by decide) small
      have one : 0 < 2 ^ w.toNat.size := Nat.two_pow_pos _
      rw [BitVec.toNat_add, all, show (1 : BitVec 32).toNat = 1 from rfl]
      omega
    by_cases top : w.toNat.size = 31
    · refine Or.inl ?_
      rw [top] at sum
      have : r + 1 = BitVec.ofNat 32 (2 ^ 31) := BitVec.eq_of_toNat_eq (by rw [sum]; rfl)
      rw [this]
      decide
    · refine Or.inr ⟨w.toNat.size, by omega, ?_⟩
      have bound : 2 ^ w.toNat.size ≤ 2 ^ 30 := Nat.pow_le_pow_right (by decide) (by omega)
      rw [BitVec.toInt_eq_toNat_of_lt (by omega), sum]
      exact Nat.cast_pow 2 _
  · rw [if_neg pos]
    exact Or.inl (le_refl 0)

theorem returns_createWithCapacity {newCapacity : Int}
    (shape : newCapacity ≤ 0 ∨ ∃ b ≤ 30, newCapacity = 2 ^ b) :
    Returns (createWithCapacity newCapacity) fun d => Represents d (∅ : FiniteMap κ ν) := by
  unfold createWithCapacity ensureCapacity
  rw [if_pos (show (blank : PythonDictionary κ ν).capacity = 0 from rfl)]
  split
  · rename_i pos
    rw [Returns.bind_iff, Returns.some_iff, Returns.pure_iff]
    refine represents_empty rfl (le_of_lt pos) (fun _ => ?_) (fun _ => rfl) rfl
    exact shape.resolve_left (by omega)
  · rw [Returns.bind_iff, Returns.some_iff, Returns.pure_iff]
    exact represents_empty rfl (le_refl 0) (fun pos => absurd pos (lt_irrefl (0 : Int)))
      (fun _ => rfl) rfl

/-! ## Runs -/

inductive Creation
  | make
  | withCapacity (mediumSize : Int)

def Creation.run : Creation → Option (PythonDictionary κ ν)
  | .make => PythonDictionary.make
  | .withCapacity mediumSize => PythonDictionary.withCapacity mediumSize

/-- The precondition of a creation, whose argument is an INTEGER_32. -/
def Creation.Allowed : Creation → Prop
  | .make => True
  | .withCapacity mediumSize => 0 ≤ mediumSize ∧ mediumSize < 2 ^ 31

def execute (d : PythonDictionary κ ν) : Dictionary.Command κ ν → Option (PythonDictionary κ ν)
  | .add v k => d.add v k
  | .put v k => d.put v k
  | .remove k => d.remove k
  | .setItem v index => d.setItem v index
  | .clearCount | .clearCountAndCapacity => d.clearCount

/-- A command that leaves a slot free and whose scan can be relied on. -/
def Sound (d : PythonDictionary κ ν) : Dictionary.Command κ ν → Prop
  | .add _ _ =>
    (d.count > d.capacity * 3 / 4 ∧ wrap32 (d.capacity * 2) > 0) ∨ d.count + 1 < d.capacity
  | .put _ k =>
    d.has k = some true ∨ (d.count / 3 ≥ d.capacity / 4 ∧ wrap32 (d.capacity * 2) > 0) ∨
      d.count + 1 < d.capacity
  | .remove k => ScanSafe d k
  | _ => True

/-- The dictionary and the map after the same commands, each of which met the condition `P`
on the dictionary that it was given. -/
inductive Reaches (P : PythonDictionary κ ν → Dictionary.Command κ ν → Prop) :
    PythonDictionary κ ν → FiniteMap κ ν → Prop
  | creation {d : PythonDictionary κ ν} (c : Creation) (allowed : c.Allowed)
      (run : c.run = some d) : Reaches P d ∅
  | step {d d' : PythonDictionary κ ν} {m : FiniteMap κ ν} (command : Dictionary.Command κ ν)
      (before : Reaches P d m) (allowed : command.Allowed m) (condition : P d command)
      (run : d.execute command = some d') : Reaches P d' (command.update m d.key)

theorem Creation.returns_run (c : Creation) (allowed : c.Allowed) :
    Returns c.run fun d => Represents d (∅ : FiniteMap κ ν) := by
  cases c with
  | make => exact returns_createWithCapacity (Or.inr ⟨4, by decide, rfl⟩)
  | withCapacity mediumSize =>
    exact returns_createWithCapacity (poweredCapacity_cases allowed.2)

theorem Represents.has_eq (h : Represents d m) (k : κ) :
    d.has k = some (decide (keyClass k ∈ m)) := by
  unfold has
  by_cases pos : 0 < d.capacity
  · obtain ⟨r, run, located⟩ := h.returns_indexOf pos k
    rw [run, Option.bind_eq_bind, Option.bind_some, Option.pure_def]
    cases located with
    | @found n node stops set same =>
      have low := probe_nonneg pos k n
      rw [decide_eq_true low, decide_eq_true (h.toStores.mem_iff.mpr ⟨_, node, set, same⟩)]
    | @free n stops unset =>
      have low := probe_nonneg pos k n
      rw [decide_eq_false (by omega), decide_eq_false (h.absent_of_free stops unset)]
  · have nonneg := h.shaped.capacity_nonneg
    unfold indexOf
    rw [if_pos (by omega), decide_eq_false (h.empty_of_capacity pos k)]
    rfl

theorem Represents.at_eq (h : Represents d m) {k : κ} (present : keyClass k ∈ m) :
    d.at' k = m.lookup (keyClass k) := by
  have pos : 0 < d.capacity := by
    by_contra zero
    exact h.empty_of_capacity zero k present
  have size := h.shaped.size_eq
  obtain ⟨r, run, located⟩ := h.returns_indexOf pos k
  unfold at' itemAt
  rw [run, Option.bind_eq_bind, Option.bind_some]
  cases located with
  | @found n node stops set same =>
    have low := probe_nonneg pos k n
    have high := probe_lt pos k n
    rw [NativeArray.item_of_inBounds (by omega), set, ← keyClass_eq.mpr same,
      h.toStores.lookup set]
    rfl
  | free stops unset => exact absurd present (h.absent_of_free stops unset)

theorem Represents.indexOf_eq (h : Represents d m) {i : Int} {node : Node κ ν}
    (set : d.storage.cell i = some node) : d.indexOf node.key = some i := by
  have inside := h.shaped.inside set
  obtain ⟨r, run, located⟩ := h.returns_indexOf (by omega) node.key
  rw [run]
  cases located with
  | found stops set' same => rw [h.distinct _ i _ node set' set same]
  | free stops unset =>
    exact absurd (h.toStores.mem set) (h.absent_of_free stops unset)

theorem Represents.execute (h : Represents d m) {command : Dictionary.Command κ ν}
    (allowed : command.Allowed m) (sound : Sound d command) :
    Returns (d.execute command) fun d' => Represents d' (command.update m d.key) := by
  cases command with
  | add v k => exact h.returns_add v allowed sound
  | put v k =>
    refine h.returns_put v k (sound.imp_left fun present => ?_)
    rw [h.has_eq k, Option.some_inj, decide_eq_true_iff] at present
    exact present
  | remove k => exact h.returns_remove sound
  | setItem v index =>
    obtain ⟨k, named, written⟩ := h.returns_setItem v allowed.1 allowed.2
    have update : (Dictionary.Command.setItem v index).update m d.key =
        m.insert (keyClass k) v := by
      change (d.key index).elim m (fun k => m.insert (keyClass k) v) = _
      rw [named]
      rfl
    rw [update]
    exact written
  | clearCount => exact h.returns_clearCount
  | clearCountAndCapacity => exact h.returns_clearCount

theorem Reaches.represents (reached : Reaches Sound d m) : Represents d m := by
  induction reached with
  | creation c allowed run => exact (c.returns_run allowed).unique run
  | step command _ allowed sound run ih => exact (ih.execute allowed sound).unique run

/-- **A PYTHON_DICTIONARY is its finite map.**  Along every run of sound commands `has`,
`at`, `count` and `key` answer as the map does, `index_of` finds every node of the storage,
and the next sound command returns. -/
theorem reaches_finiteMap (κ ν : Type) [HashedKey κ] :
    (∀ c : Creation, c.Allowed → ∃ d : PythonDictionary κ ν, c.run = some d) ∧
    ∀ (d : PythonDictionary κ ν) (m : FiniteMap κ ν), Reaches Sound d m →
      (∀ k, d.has k = some (decide (keyClass k ∈ m))) ∧
      (∀ k, keyClass k ∈ m → d.at' k = m.lookup (keyClass k)) ∧
      d.count = m.keys.card ∧
      (∀ i node, d.storage.cell i = some node → d.indexOf node.key = some i) ∧
      (∀ index, 1 ≤ index → index ≤ d.count → ∃ k, d.key index = some k ∧ keyClass k ∈ m) ∧
      ∀ command : Dictionary.Command κ ν, command.Allowed m → Sound d command →
        ∃ d', d.execute command = some d' := by
  refine ⟨fun c allowed => ?_, fun d m reached => ?_⟩
  · obtain ⟨d, run, -⟩ := c.returns_run (κ := κ) (ν := ν) allowed
    exact ⟨d, run⟩
  · have h := reached.represents
    refine ⟨h.has_eq, fun k present => h.at_eq present, h.count_eq,
      fun i node set => h.indexOf_eq set, fun index first last => ?_,
      fun command allowed sound => (h.execute allowed sound).isSome⟩
    have count := h.count_eq
    obtain ⟨j, node, -, set, -, named⟩ := h.exists_key first (by omega)
    exact ⟨node.key, named, h.toStores.mem set⟩

/-- Two keys that begin in the same slot; the first of them is taken out and the other one
is moved. -/
theorem reaches_finiteMap_moved :
    ∃ (d : PythonDictionary (BitVec 32) Int) (m : FiniteMap (BitVec 32) Int),
      Reaches Sound d m ∧ d.has 25 = some (decide (keyClass (25 : BitVec 32) ∈ m)) ∧
        d.count = m.keys.card := by
  have created := Reaches.creation (P := Sound (κ := BitVec 32) (ν := Int)) .make trivial rfl
  have first := created.step (.put 1 9) trivial (Or.inr (Or.inr (by decide))) rfl
  have second := first.step (.put 2 25) trivial (Or.inr (Or.inr (by decide))) rfl
  have found := ((reaches_finiteMap (BitVec 32) Int).2 _ _ second).2.2.2.1
  have third := second.step (.remove 9) trivial (Or.inr fun i node set other n apart zero => by
    have named : node.key = 25 := by
      rcases Finmap.mem_insert.mp (second.represents.mem set) with same | same
      · exact eq_of_beq (keyClass_eq.mp same)
      · rcases Finmap.mem_insert.mp same with same | none
        · exact absurd (keyClass_eq.mp same) other
        · exact absurd none Finmap.notMem_empty
    have at_i := found i node set
    rw [named] at at_i apart zero
    have slot : i = 7 := Option.some_inj.mp (at_i.symm.trans (by decide))
    subst slot
    rcases n with - | - | n
    · rfl
    · exact absurd zero (by decide)
    · exact absurd (by decide) (apart 1 (by omega))) rfl
  have refined := (reaches_finiteMap (BitVec 32) Int).2 _ _ third
  exact ⟨_, _, third, refined.1 25, refined.2.2.1⟩

/-- 9 and 25 begin in the slot 9, so that 25 stands in the slot 7; 385 comes to the slot 0
over 1 and 7.  Without 9 the scan moves 25 to the slot 9, and 385 is not found any more. -/
theorem not_reaches_finiteMap :
    ¬∀ (d : PythonDictionary (BitVec 32) Int) (m : FiniteMap (BitVec 32) Int),
      Reaches (fun _ _ => True) d m → ∀ k, d.has k = some (decide (keyClass k ∈ m)) := by
  intro claim
  have created := Reaches.creation
    (P := fun (_ : PythonDictionary (BitVec 32) Int) _ => True) .make trivial rfl
  have first := created.step (.put 1 9) trivial trivial rfl
  have second := first.step (.put 2 25) trivial trivial rfl
  have third := second.step (.put 3 1) trivial trivial rfl
  have fourth := third.step (.put 4 385) trivial trivial rfl
  have removed := fourth.step (.remove 9) trivial trivial rfl
  have lost := claim _ _ removed 385
  revert lost
  decide

end PythonDictionary

end Liberty
