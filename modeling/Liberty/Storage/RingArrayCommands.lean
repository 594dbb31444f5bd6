import Liberty.Storage.RingArray
import Mathlib.Data.Int.Notation
import Mathlib.Data.Nat.Notation

/-!
# The sequence that a RING_ARRAY holds

A sequence with a movable lower index says what the class is for.  Each command does to
the array what it does to the sequence, as long as `clear_count_and_capacity` is called
where `storageLower` is inside the first storage that the array gets afterwards.
-/

namespace Liberty

/-- The items of a collection, the first of them at `lower`. -/
structure Sequence (α : Type) where
  lower : Int
  items : List α

namespace Sequence

variable {α : Type}

def upper (s : Sequence α) : Int :=
  s.lower + s.items.length - 1

def ValidIndex (s : Sequence α) (i : Int) : Prop :=
  s.lower ≤ i ∧ i ≤ s.upper

instance (s : Sequence α) (i : Int) : Decidable (s.ValidIndex i) :=
  inferInstanceAs (Decidable (_ ∧ _))

/-- The position in the list of the item at the index `i`. -/
def position (s : Sequence α) (i : Int) : ℕ :=
  (i - s.lower).toNat

def item (s : Sequence α) (i : Int) : Option α :=
  s.items[s.position i]?

end Sequence

namespace RingArray

inductive Command (α : Type)
  | addFirst (element : α)
  | addLast (element : α)
  | add (element : α) (index : Int)
  | removeFirst
  | removeLast
  | remove (index : Int)
  | removeHead (n : ℕ)
  | removeTail (n : ℕ)
  | put (element : α) (index : Int)
  | clearCount
  | clearCountAndCapacity
  | reindex (newLower : Int)

inductive Creation (α : Type)
  | make (minIndex maxIndex : Int)
  | withCapacity (neededCapacity low : Int)
  | fromCollection (lower : Int) (model : List α)
  | manifestCreation (initialLower : Int) (items : List α)

end RingArray

namespace Sequence

variable {α : Type}

open RingArray

/-- The precondition of a command. -/
def Allowed (s : Sequence α) : Command α → Prop
  | .add _ index => s.lower ≤ index ∧ index ≤ s.upper + 1
  | .removeFirst | .removeLast => s.items ≠ []
  | .remove index | .put _ index => s.ValidIndex index
  | .removeHead n | .removeTail n => 0 < n ∧ n ≤ s.items.length
  | _ => True

def execute (s : Sequence α) : Command α → Sequence α
  | .addFirst element => { s with items := element :: s.items }
  | .addLast element => { s with items := s.items ++ [element] }
  | .add element index => { s with items := s.items.insertIdx (s.position index) element }
  | .removeFirst => { lower := s.lower + 1, items := s.items.tail }
  | .removeLast => { s with items := s.items.dropLast }
  | .remove index => { s with items := s.items.eraseIdx (s.position index) }
  | .removeHead n => { lower := s.lower + n, items := s.items.drop n }
  | .removeTail n => { s with items := s.items.take (s.items.length - n) }
  | .put element index => { s with items := s.items.set (s.position index) element }
  | .clearCount | .clearCountAndCapacity => { s with items := [] }
  | .reindex newLower => { s with lower := newLower }

end Sequence

namespace RingArray

variable {α : Type} [Inhabited α]

/-! ## Runs -/

def execute (r : RingArray α) : Command α → Option (RingArray α)
  | .addFirst element => r.addFirst element
  | .addLast element => r.addLast element
  | .add element index => r.add element index
  | .removeFirst => some r.removeFirst
  | .removeLast => some r.removeLast
  | .remove index => r.remove index
  | .removeHead n => some (r.removeHead n)
  | .removeTail n => some (r.removeTail n)
  | .put element index => r.put element index
  | .clearCount => some r.clearCount
  | .clearCountAndCapacity => some r.clearCountAndCapacity
  | .reindex newLower => some (r.reindex newLower)

def Creation.run : Creation α → Option (RingArray α)
  | .make minIndex maxIndex => some (RingArray.make minIndex maxIndex)
  | .withCapacity neededCapacity low => some (RingArray.withCapacity neededCapacity low)
  | .fromCollection lower model => RingArray.fromCollection lower model
  | .manifestCreation initialLower items => RingArray.manifestCreation initialLower items

def Creation.Allowed : Creation α → Prop
  | .make minIndex maxIndex => minIndex ≤ maxIndex + 1
  | .withCapacity neededCapacity _ => 0 ≤ neededCapacity
  | _ => True

def Creation.sequence : Creation α → Sequence α
  | .make minIndex maxIndex => ⟨minIndex, .replicate (maxIndex + 1 - minIndex).toNat default⟩
  | .withCapacity _ low => ⟨low, []⟩
  | .fromCollection lower model => ⟨lower, model⟩
  | .manifestCreation initialLower items => ⟨initialLower, items⟩

/-- The array and the sequence after the same commands, each of which met the condition
`P` on the array that it was given. -/
inductive Reaches (P : RingArray α → Command α → Prop) : RingArray α → Sequence α → Prop
  | creation {r : RingArray α} (c : Creation α) (allowed : c.Allowed) (run : c.run = some r) :
      Reaches P r c.sequence
  | step {r r' : RingArray α} {s : Sequence α} (command : Command α) (before : Reaches P r s)
      (allowed : s.Allowed command) (condition : P r command)
      (run : r.execute command = some r') : Reaches P r' (s.execute command)

/-- The index that `clear_count_and_capacity` leaves in place is in the next storage. -/
def ClearsInside (r : RingArray α) : Command α → Prop
  | .clearCountAndCapacity => r.storageLower < 16
  | _ => True

/-- The array `r` holds the sequence `s`. -/
structure Represents (r : RingArray α) (s : Sequence α) : Prop where
  valid : Valid r
  lower_eq : r.lower = s.lower
  count_eq : r.count = s.items.length
  view_eq : ∀ k : ℕ, k < s.items.length → s.items[k]? = some (r.view k)

section Represents

variable {r : RingArray α} {s : Sequence α}

omit [Inhabited α] in
/-- The views of an array told by those of another one, shifted by `shift`. -/
theorem view_of_slot {r' : RingArray α} (storage : r'.storage = r.storage) {k k' : Int}
    (slot : r'.slot k' = r.slot k) : r'.view k' = r.view k := by
  unfold view
  rw [storage, slot]

omit [Inhabited α] in
theorem Represents.upper_eq (h : Represents r s) : r.upper = s.upper := by
  have count := h.count_eq
  have lower := h.lower_eq
  unfold RingArray.count at count
  unfold Sequence.upper
  omega

omit [Inhabited α] in
theorem Represents.nil (valid : Valid r) (empty : r.count = 0) :
    Represents r ⟨r.lower, []⟩ :=
  ⟨valid, rfl, by rw [empty]; rfl, fun k high => by cases high⟩

omit [Inhabited α] in
theorem Represents.setView (h : Represents r s) {k : ℕ} (inside : k < s.items.length)
    (element : α) : Represents (r.setView element k) { s with items := s.items.set k element } := by
  have count := h.count_eq
  have le := h.valid.count_le
  refine ⟨setView_valid h.valid element k, h.lower_eq, ?_, fun j high => ?_⟩
  · rw [List.length_set]
    exact count
  · rw [List.length_set] at high
    rw [view_setView h.valid element (by omega) (by omega) (by omega) (by omega),
      List.getElem?_set]
    by_cases same : k = j
    · rw [if_pos same, if_pos inside, if_pos (by omega)]
    · rw [if_neg same, if_neg (by omega)]
      exact h.view_eq j high

/-- The array before the new first item is written. -/
theorem returns_addFirst (h : Represents r s) (element : α) :
    Returns (r.addFirst element) fun r' =>
      Represents r' { s with items := element :: s.items } := by
  have count := h.count_eq
  refine (returns_makeSpaceForOne h.valid).bind ?_
  intro g ⟨valid, room, lower, upper, views⟩
  have countG : g.count = s.items.length := by
    unfold RingArray.count at count ⊢
    omega
  have nonneg := valid.storageLower_nonneg
  have less := valid.storageLower_lt (by omega)
  have size := valid.size_eq
  dsimp only
  generalize originEq : (if g.storageLower - 1 < 0 then g.storageLower - 1 + g.capacity
    else g.storageLower - 1) = origin
  have low : 0 ≤ origin := by
    rw [← originEq]
    split <;> omega
  have high : origin < g.capacity := by
    rw [← originEq]
    split <;> omega
  rw [Returns.bind_iff, NativeArray.returns_put, Returns.pure_iff]
  refine ⟨by omega, ?_⟩
  let w : RingArray α := { g with upper := g.upper + 1, storageLower := origin }
  have countW : w.count = g.count + 1 := by
    change g.upper + 1 - g.lower + 1 = g.upper - g.lower + 1 + 1
    omega
  have validW : Valid w :=
    ⟨size, by omega, by change w.count ≤ g.capacity; omega, low, fun _ => high,
      fun zero => by have : g.capacity = 0 := zero; omega⟩
  have slotW : ∀ k, 0 ≤ k → k < g.capacity - 1 → w.slot (k + 1) = g.slot k := by
    intro k lowK highK
    change (if k + 1 + origin ≥ g.capacity then k + 1 + origin - g.capacity
      else k + 1 + origin) = _
    unfold slot
    rw [← originEq]
    split <;> split <;> split <;> omega
  have first : w.slot 0 = origin := by
    change (if 0 + origin ≥ g.capacity then 0 + origin - g.capacity else 0 + origin) = _
    rw [if_neg (by omega), Int.zero_add]
  have written : ({ w with storage := g.storage.set element origin } : RingArray α) =
      w.setView element 0 := by
    unfold RingArray.setView
    rw [first]
  rw [written]
  refine ⟨setView_valid validW element 0, ?_, ?_, fun k highK => ?_⟩
  · exact lower.trans h.lower_eq
  · rw [List.length_cons]
    change w.count = _
    omega
  · rw [List.length_cons] at highK
    have capacityW : w.capacity = g.capacity := rfl
    rw [view_setView validW element (by omega) (by omega) (by omega) (by omega)]
    cases k with
    | zero => rfl
    | succ k =>
      have moved : w.view (k + 1) = g.view k :=
        view_of_slot (by rfl) (slotW k (by omega) (by omega))
      rw [if_neg (by omega), List.getElem?_cons_succ, h.view_eq k (by omega),
        ← views k (by omega) (by omega)]
      exact congrArg some moved.symm

theorem returns_addLast (h : Represents r s) (element : α) :
    Returns (r.addLast element) fun r' =>
      Represents r' { s with items := s.items ++ [element] } := by
  have count := h.count_eq
  refine (returns_makeSpaceForOne h.valid).bind ?_
  intro g ⟨valid, room, lower, upper, views⟩
  have countG : g.count = g.upper - g.lower + 1 := rfl
  have countR : r.count = r.upper - r.lower + 1 := rfl
  let w : RingArray α := { g with upper := g.upper + 1 }
  have countW : w.count = g.upper + 1 - g.lower + 1 := rfl
  have validW : Valid w :=
    ⟨valid.size_eq, by omega, by change w.count ≤ g.capacity; omega,
      valid.storageLower_nonneg, valid.storageLower_lt, valid.storageLower_small⟩
  have last : w.upper - w.lower = s.items.length := by
    change g.upper + 1 - g.lower = _
    omega
  apply returns_put validW (show w.ValidIndex w.upper by unfold ValidIndex; omega)
  have capacityW : w.capacity = g.capacity := rfl
  refine ⟨setView_valid validW element _, ?_, ?_, fun k high => ?_⟩
  · exact lower.trans h.lower_eq
  · rw [List.length_append]
    change w.count = ((s.items.length + 1 : ℕ) : Int)
    omega
  · rw [List.length_append, List.length_singleton] at high
    rw [view_setView validW element (by omega) (by omega) (by omega) (by omega)]
    by_cases isLast : k = s.items.length
    · rw [if_pos (by omega), isLast, List.getElem?_append_right (Nat.le_refl _), Nat.sub_self]
      rfl
    · rw [if_neg (by omega), List.getElem?_append_left (by omega), h.view_eq k (by omega),
        ← views k (by omega) (by omega)]
      rfl

theorem returns_add (h : Represents r s) (element : α) {index : Int}
    (low : s.lower ≤ index) (high : index ≤ s.upper + 1) :
    Returns (r.add element index) fun r' =>
      Represents r' { s with items := s.items.insertIdx (s.position index) element } := by
  have upper := h.upper_eq
  have upperS : s.upper = s.lower + s.items.length - 1 := rfl
  have position : (s.position index : Int) = index - s.lower := by
    unfold Sequence.position
    omega
  unfold add
  split
  · have atEnd : s.position index = s.items.length := by omega
    rw [atEnd, List.insertIdx_length_self]
    exact returns_addLast h element
  · refine (returns_addLast h element).bind ?_
    intro g held
    have lowerG : g.lower = s.lower := held.lower_eq
    have upperG := held.upper_eq
    have countG := held.count_eq
    have le := held.valid.count_le
    unfold Sequence.upper at upperG
    dsimp only at upperG countG
    rw [List.length_append, List.length_singleton] at upperG countG
    refine (returns_move held.valid Int.one_ne_zero fun nonempty => by omega).bind ?_
    intro m ⟨shape, kept, moved⟩
    have lowerM := shape.lower_eq
    have upperM := shape.upper_eq
    apply returns_put shape.valid (show m.ValidIndex index by unfold ValidIndex; omega)
    have countM : m.count = m.upper - m.lower + 1 := rfl
    have capacityM := shape.capacity_eq
    have inserted := List.length_insertIdx_of_le_length
      (show s.position index ≤ s.items.length by omega) element
    refine ⟨setView_valid shape.valid element _, lowerM.trans lowerG, ?_, fun k highK => ?_⟩
    · rw [inserted]
      change m.count = _
      omega
    · rw [inserted] at highK
      rw [view_setView shape.valid element (by omega) (by omega) (by omega) (by omega),
        List.getElem?_insertIdx]
      split
      · rw [if_neg (by omega), kept k (by omega) (by omega) (by omega)]
        have same := held.view_eq k (by rw [List.length_append]; omega)
        rwa [List.getElem?_append_left (by omega)] at same
      · split
        · rw [if_pos (by omega), if_pos (by omega)]
        · have same := held.view_eq (k - 1) (by rw [List.length_append]; omega)
          rw [List.getElem?_append_left (by omega)] at same
          rw [if_neg (by omega), moved k (by omega) (by omega), same]
          apply congrArg (fun j => some (g.view j))
          omega

/-- The first item leaves, and the lower index may move. -/
theorem Represents.tail (h : Represents r s) (nonempty : s.items ≠ []) {lower upper : Int}
    (fewer : upper - lower + 1 = r.count - 1) :
    Represents
      { r with
        lower
        upper
        storageLower := if r.storageLower + 1 = r.capacity then 0 else r.storageLower + 1 }
      ⟨lower, s.items.tail⟩ := by
  have count := h.count_eq
  have positive : 0 < s.items.length := List.length_pos_iff.mpr nonempty
  have le := h.valid.count_le
  have nonneg := h.valid.storageLower_nonneg
  have less := h.valid.storageLower_lt (by omega)
  generalize originEq : (if r.storageLower + 1 = r.capacity then 0 else r.storageLower + 1) =
    origin
  have inside : 0 ≤ origin ∧ origin < r.capacity := by
    rw [← originEq]
    split <;> omega
  refine ⟨⟨h.valid.size_eq, ?_, ?_, inside.1, fun _ => inside.2, fun zero => ?_⟩, rfl, ?_,
    fun k high => ?_⟩
  · change 0 ≤ upper - lower + 1
    omega
  · change upper - lower + 1 ≤ r.capacity
    omega
  · have : r.capacity = 0 := zero
    omega
  · rw [List.length_tail]
    change upper - lower + 1 = _
    omega
  · rw [List.length_tail] at high
    rw [List.getElem?_tail, h.view_eq (k + 1) (by omega)]
    apply congrArg some
    apply view_of_slot (by rfl)
    change r.slot (k + 1) = if k + origin ≥ r.capacity then k + origin - r.capacity else k + origin
    unfold slot
    rw [← originEq]
    split <;> split <;> split <;> omega

omit [Inhabited α] in
theorem Represents.take (h : Represents r s) {n : ℕ} (le : n ≤ s.items.length) {upper : Int}
    (fewer : upper = s.lower + n - 1) :
    Represents { r with upper } { s with items := s.items.take n } := by
  have count := h.count_eq
  have lower := h.lower_eq
  have room := h.valid.count_le
  have newCount : upper - r.lower + 1 = n := by omega
  refine ⟨⟨h.valid.size_eq, ?_, ?_, h.valid.storageLower_nonneg, h.valid.storageLower_lt,
    h.valid.storageLower_small⟩, lower, ?_, fun k high => ?_⟩
  · change 0 ≤ upper - r.lower + 1
    omega
  · change upper - r.lower + 1 ≤ r.capacity
    omega
  · rw [List.length_take, Nat.min_eq_left le]
    exact newCount
  · rw [List.length_take, Nat.min_eq_left le] at high
    rw [List.getElem?_take, if_pos high]
    exact h.view_eq k (by omega)

theorem returns_remove (h : Represents r s) {index : Int} (valid : s.ValidIndex index) :
    Returns (r.remove index) fun r' =>
      Represents r' { s with items := s.items.eraseIdx (s.position index) } := by
  have count := h.count_eq
  have lower := h.lower_eq
  have upper := h.upper_eq
  have upperS : s.upper = s.lower + s.items.length - 1 := rfl
  unfold Sequence.ValidIndex at valid
  have position : (s.position index : Int) = index - s.lower := by
    unfold Sequence.position
    omega
  have nonempty : s.items ≠ [] := by
    intro empty
    rw [empty] at upperS
    simp only [List.length_nil] at upperS
    omega
  unfold remove
  split
  · split
    · refine (returns_squeezeBubble h.valid (show r.lower < index by omega)
        (show index + 1 ≤ r.upper by omega) (by omega)).bind ?_
      intro q ⟨validQ, capacityQ, lowerQ, upperQ, views⟩
      rw [Returns.pure_iff]
      have le := validQ.count_le
      have countQ : q.count = q.upper - q.lower + 1 := rfl
      have erased := List.length_eraseIdx_of_lt (show s.position index < s.items.length by omega)
      refine ⟨⟨validQ.size_eq, ?_, ?_, validQ.storageLower_nonneg, validQ.storageLower_lt,
        validQ.storageLower_small⟩, lowerQ.trans lower, ?_, fun k high => ?_⟩
      · change 0 ≤ q.upper - 1 - q.lower + 1
        omega
      · change q.upper - 1 - q.lower + 1 ≤ q.capacity
        omega
      · rw [erased]
        change q.upper - 1 - q.lower + 1 = _
        omega
      · rw [erased] at high
        rw [List.getElem?_eraseIdx]
        change _ = some (q.view k)
        rw [views k (by omega) (by omega)]
        split
        · rw [if_pos (by omega)]
          exact h.view_eq k (by omega)
        · rw [if_neg (by omega)]
          exact h.view_eq (k + 1) (by omega)
    · rename_i _ first
      have atFirst : s.position index = 0 := by omega
      rw [atFirst, List.eraseIdx_zero, Returns.some_iff, ← lower]
      exact h.tail nonempty (by unfold RingArray.count; omega)
  · have atLast : s.position index = s.items.length - 1 := by omega
    rw [atLast, List.eraseIdx_length_sub_one, List.dropLast_eq_take, Returns.some_iff]
    exact h.take (by omega) (by omega)

theorem Represents.removeFirst (h : Represents r s) (nonempty : s.items ≠ []) :
    Represents r.removeFirst ⟨s.lower + 1, s.items.tail⟩ := by
  rw [← h.lower_eq]
  exact h.tail nonempty (by unfold RingArray.count; omega)

theorem Represents.removeHead {n : ℕ} (h : Represents r s) (le : n ≤ s.items.length) :
    Represents (r.removeHead n) ⟨s.lower + n, s.items.drop n⟩ := by
  induction n generalizing r s with
  | zero =>
    have same : s.lower + ((0 : ℕ) : Int) = s.lower := by omega
    rw [same]
    exact h
  | succ n ih =>
    have nonempty : s.items ≠ [] := List.length_pos_iff.mp (by omega)
    have rest := ih (h.removeFirst nonempty) (by rw [List.length_tail]; omega)
    have lower : s.lower + 1 + n = s.lower + ((n + 1 : ℕ) : Int) := by omega
    rwa [List.drop_tail, lower] at rest

theorem returns_put_of_represents (h : Represents r s) (element : α) {index : Int}
    (valid : s.ValidIndex index) :
    Returns (r.put element index) fun r' =>
      Represents r' { s with items := s.items.set (s.position index) element } := by
  have lower := h.lower_eq
  have upper := h.upper_eq
  have upperS : s.upper = s.lower + s.items.length - 1 := rfl
  unfold Sequence.ValidIndex at valid
  have position : index - r.lower = s.position index := by
    unfold Sequence.position
    omega
  apply returns_put h.valid (show r.ValidIndex index by unfold ValidIndex; omega)
  rw [position]
  exact h.setView (by omega) element

omit [Inhabited α] in
theorem Represents.clearCount (h : Represents r s) :
    Represents r.clearCount ⟨s.lower, []⟩ := by
  have lower := h.lower_eq
  have kept : Represents r.clearCount { s with items := s.items.take 0 } :=
    h.take (Nat.zero_le _) (by omega)
  rwa [List.take_zero] at kept

theorem Represents.clearCountAndCapacity (h : Represents r s) (inside : r.storageLower < 16) :
    Represents r.clearCountAndCapacity ⟨s.lower, []⟩ := by
  rw [← h.lower_eq]
  have empty : r.lower - 1 - r.lower + 1 = 0 := by omega
  exact .nil ⟨rfl, Int.le_of_eq empty.symm, Int.le_of_eq empty, h.valid.storageLower_nonneg,
    fun room => absurd rfl room, fun _ => inside⟩ empty

omit [Inhabited α] in
theorem Represents.reindex (h : Represents r s) (newLower : Int) :
    Represents (r.reindex newLower) { s with lower := newLower } := by
  have count : (r.reindex newLower).count = r.count := by
    change r.upper + newLower - r.lower - newLower + 1 = r.upper - r.lower + 1
    omega
  exact ⟨⟨h.valid.size_eq, by rw [count]; exact h.valid.count_nonneg,
    by rw [count]; exact h.valid.count_le, h.valid.storageLower_nonneg, h.valid.storageLower_lt,
    h.valid.storageLower_small⟩, rfl, by rw [count]; exact h.count_eq, h.view_eq⟩

/-- One command does the same to the array and to the sequence. -/
theorem Represents.execute (h : Represents r s) {command : Command α}
    (allowed : s.Allowed command) (inside : ClearsInside r command) :
    Returns (r.execute command) fun r' => Represents r' (s.execute command) := by
  cases command with
  | addFirst element => exact returns_addFirst h element
  | addLast element => exact returns_addLast h element
  | add element index => exact returns_add h element allowed.1 allowed.2
  | removeFirst => exact Returns.some_iff.mpr (h.removeFirst allowed)
  | removeLast =>
    have positive := List.length_pos_iff.mpr allowed
    have upper := h.upper_eq
    unfold Sequence.upper at upper
    change Returns (some r.removeLast) fun r' => Represents r' { s with items := s.items.dropLast }
    rw [Returns.some_iff, List.dropLast_eq_take]
    exact h.take (by omega) (by omega)
  | remove index => exact returns_remove h allowed
  | removeHead n => exact Returns.some_iff.mpr (h.removeHead allowed.2)
  | removeTail n =>
    have upper := h.upper_eq
    have le := allowed.2
    unfold Sequence.upper at upper
    exact Returns.some_iff.mpr (h.take (by omega) (by omega))
  | put element index => exact returns_put_of_represents h element allowed
  | clearCount => exact Returns.some_iff.mpr h.clearCount
  | clearCountAndCapacity => exact Returns.some_iff.mpr (h.clearCountAndCapacity inside)
  | reindex newLower => exact Returns.some_iff.mpr (h.reindex newLower)

end Represents

/-! ## Creations -/

section Creations

variable {r : RingArray α}

theorem represents_make {minIndex maxIndex : Int} (valid : minIndex ≤ maxIndex + 1) :
    Represents (make minIndex maxIndex : RingArray α)
      ⟨minIndex, .replicate (maxIndex + 1 - minIndex).toNat default⟩ := by
  unfold make
  dsimp only
  split
  · refine ⟨⟨rfl, ?_, Int.le_refl _, Int.le_refl _, fun _ => ?_, fun zero => ?_⟩, rfl, ?_,
      fun k high => ?_⟩
    · change 0 ≤ maxIndex - minIndex + 1
      omega
    · change 0 < maxIndex - minIndex + 1
      omega
    · have : maxIndex - minIndex + 1 = 0 := zero
      omega
    · rw [List.length_replicate]
      change maxIndex - minIndex + 1 = _
      omega
    · rw [List.length_replicate] at high
      rw [List.getElem?_replicate, if_pos high]
      rfl
  · have empty : (maxIndex + 1 - minIndex).toNat = 0 := by omega
    have none : maxIndex - minIndex + 1 = 0 := by omega
    rw [empty]
    exact .nil ⟨rfl, Int.le_of_eq none.symm, Int.le_of_eq none, Int.le_refl _,
      fun room => absurd rfl room, fun _ => show (0 : Int) < 16 by omega⟩ none

theorem represents_withCapacity (neededCapacity low : Int) :
    Represents (withCapacity neededCapacity low : RingArray α) ⟨low, []⟩ := by
  have empty : low - 1 - low + 1 = 0 := by omega
  unfold withCapacity
  split
  · rename_i positive
    exact .nil ⟨rfl, Int.le_of_eq empty.symm,
      by change low - 1 - low + 1 ≤ neededCapacity; omega, Int.le_refl _, fun _ => positive,
      fun zero => by have : neededCapacity = 0 := zero; omega⟩ empty
  · exact .nil ⟨rfl, Int.le_of_eq empty.symm, Int.le_of_eq empty, Int.le_refl _,
      fun room => absurd rfl room, fun _ => show (0 : Int) < 16 by omega⟩ empty

theorem returns_addAll {s : Sequence α} (h : Represents r s) (model : List α) :
    Returns (r.addAll model) fun r' => Represents r' { s with items := s.items ++ model } := by
  induction model generalizing r s with
  | nil =>
    rw [List.append_nil]
    exact Returns.some_iff.mpr h
  | cons x xs ih =>
    refine (returns_addLast h x).bind ?_
    intro r' held
    have rest := ih held
    rwa [List.append_assoc] at rest

theorem returns_fromCollection (lower : Int) (model : List α) :
    Returns (fromCollection lower model) fun r => Represents r ⟨lower, model⟩ :=
  returns_addAll (represents_withCapacity _ lower) model

/-- The items put one after the other, over those that the array held there. -/
theorem returns_manifestPuts {s : Sequence α} (h : Represents r s) (start : r.storageLower = 0)
    (items : List α) {done : List α} (before : List α)
    (inside : s.items = done ++ before) (fits : items.length = before.length) :
    Returns (r.manifestPuts done.length items) fun r' =>
      Represents r' { s with items := done ++ items } := by
  induction items generalizing r s done before with
  | nil =>
    have none : before = [] := List.length_eq_zero_iff.mp fits.symm
    rw [none] at inside
    rw [← inside]
    exact Returns.some_iff.mpr h
  | cons x xs ih =>
    cases before with
    | nil => cases fits
    | cons y ys =>
      have count := h.count_eq
      have room := h.valid.count_le
      have length : s.items.length = done.length + (ys.length + 1) := by
        rw [inside, List.length_append, List.length_cons]
      have slot : r.slot done.length = done.length := by
        unfold RingArray.slot
        rw [start, if_neg (by omega), Int.add_zero]
      have size := h.valid.size_eq
      unfold manifestPuts
      rw [Returns.bind_iff, NativeArray.returns_put]
      refine ⟨by omega, ?_⟩
      have written := h.setView (k := done.length) (by omega) x
      unfold RingArray.setView at written
      rw [slot] at written
      have next : s.items.set done.length x = (done ++ [x]) ++ ys := by
        rw [inside]
        simp
      have rest := ih written start ys next (Nat.succ.inj fits)
      rw [List.length_append, List.append_assoc] at rest
      exact rest

theorem returns_manifestCreation (initialLower : Int) (items : List α) :
    Returns (manifestCreation initialLower items) fun r => Represents r ⟨initialLower, items⟩ := by
  have made := represents_make (α := α)
    (show initialLower ≤ initialLower + items.length - 1 + 1 by omega)
  have start :
      (make initialLower (initialLower + items.length - 1) : RingArray α).storageLower = 0 := by
    unfold make
    dsimp only
    split <;> rfl
  have length : (initialLower + items.length - 1 + 1 - initialLower).toNat = items.length := by
    omega
  rw [length] at made
  have puts := @returns_manifestPuts α _ _ _ made start items [] _ rfl
  exact puts List.length_replicate.symm

theorem Creation.returns_run (c : Creation α) (allowed : c.Allowed) :
    Returns c.run fun r => Represents r c.sequence := by
  cases c with
  | make minIndex maxIndex => exact Returns.some_iff.mpr (represents_make allowed)
  | withCapacity neededCapacity low =>
    exact Returns.some_iff.mpr (represents_withCapacity neededCapacity low)
  | fromCollection lower model => exact returns_fromCollection lower model
  | manifestCreation initialLower items => exact returns_manifestCreation initialLower items

end Creations

/-! ## Refinement -/

theorem Reaches.represents {r : RingArray α} {s : Sequence α} (reached : Reaches ClearsInside r s) :
    Represents r s := by
  induction reached with
  | creation c allowed run => exact (c.returns_run allowed).unique run
  | step command _ allowed inside run ih => exact (ih.execute allowed inside).unique run

end RingArray

end Liberty
