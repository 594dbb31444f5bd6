import Liberty.Text.UnicodeStringEdits

/-!
# The structural edits of UNICODE_STRING

`remove_between`, `remove_head`, `remove_tail` and `shrink` edit every string that satisfies
the invariant.  The others are covered where they have no entry of the tables to write:
`insert_string`, `insert_character`, `swap` and `substring`.
-/

namespace Liberty

namespace UnicodeString

open Stored

variable {u : UnicodeString} {cs a m b : List Stored} {c d : Stored}

/-! ## Removals -/

theorem Represents.position (h : Represents u (a ++ b)) {index : Int}
    (place : index = a.length + 1) :
    u.lowSurrogatePosition index = some ((indexes 1 a).length : Int) := by
  have tables := h.indexes_eq
  rw [indexes_append] at tables
  apply returns_lowSurrogatePosition tables
  · intro j mem
    have := indexes_bounds mem
    omega
  · intro j mem
    have := indexes_bounds mem
    omega

/-- The tables cut at the first entry of `b`. -/
theorem Represents.resize_tables (h : Represents u (a ++ b)) :
    FastArray.resize u.lowSurrogateIndexes ((indexes 1 a).length : Int) = indexes 1 a ∧
      FastArray.resize u.lowSurrogateValues ((indexes 1 a).length : Int) = values a := by
  rw [h.indexes_eq, h.values_eq, indexes_append, values_append]
  constructor
  · rw [FastArray.resize_of_le (by simp), List.take_left]
  · rw [← length_values 1 a, FastArray.resize_of_le (by simp), List.take_left]

/-- The first characters of a string, its tables cut after them. -/
theorem Represents.cut (h : Represents u (a ++ b)) {count : Int} (length : count = a.length) :
    Represents
      { u with
        count
        lowSurrogateIndexes := indexes 1 a
        lowSurrogateValues := values a }
      a := by
  have total := h.count_eq
  have room := h.count_le
  rw [List.length_append] at total
  refine ⟨h.size_eq, length, by dsimp only; omega, fun k c at' => ?_, rfl, rfl⟩
  have bound := (List.getElem?_eq_some_iff.mp at').choose
  apply h.cell_eq
  rwa [List.getElem?_append_left bound]

theorem Represents.clear (h : Represents u cs) : Represents { u.clearTables with count := 0 } [] := by
  have count := h.count_eq
  have room := h.count_le
  exact ⟨h.size_eq, rfl, by change (0 : Int) ≤ u.capacity; omega, nofun, rfl, rfl⟩

/-- The loop that brings the entries of `b` after those of `a`. -/
theorem Represents.returns_moveEntries_all (h : Represents u (a ++ (m ++ b))) :
    u.moveEntries (indexes 1 (a ++ m)).length (indexes 1 a).length (-m.length) (fun _ => false) =
      some { u with
        lowSurrogateIndexes := indexes 1 (a ++ b)
        lowSurrogateValues := values (a ++ b) } := by
  have tables : u.lowSurrogateIndexes =
      indexes 1 (a ++ m) ++ indexes (1 + (a ++ m).length) b := by
    rw [h.indexes_eq, ← List.append_assoc, indexes_append]
  have tables' : u.lowSurrogateValues = values (a ++ m) ++ values b := by
    rw [h.values_eq, ← List.append_assoc, values_append]
  have lengthA := length_values 1 a
  have lengthAM := length_values 1 (a ++ m)
  have lengthB := length_values (1 + (a ++ m).length) b
  have le : (indexes 1 a).length ≤ (indexes 1 (a ++ m)).length := by
    rw [indexes_append, List.length_append]
    exact Nat.le_add_right _ _
  have back : (indexes (1 + (a ++ m).length) b).map (· + -(m.length : Int)) =
      indexes (1 + a.length) b := by
    rw [← indexes_add, List.length_append]
    congr 1
    omega
  have inStep : u.lowSurrogateValues.length = u.lowSurrogateIndexes.length := by
    rw [h.indexes_eq, h.values_eq]
    exact length_values 1 _
  have split : u.lowSurrogateIndexes.drop (indexes 1 (a ++ m)).length =
      indexes (1 + (a ++ m).length) b ++ [] := by
    rw [tables, List.drop_left, List.append_nil]
  rw [returns_moveEntries le (by rw [tables]; simp) inStep split (fun _ _ => rfl) nofun, back]
  have dropI : (u.lowSurrogateValues.drop (indexes 1 (a ++ m)).length) = values b := by
    rw [tables', ← lengthAM, List.drop_left]
  have takeI : u.lowSurrogateIndexes.take (indexes 1 a).length = indexes 1 a := by
    rw [h.indexes_eq, indexes_append, List.take_left]
  have takeV : u.lowSurrogateValues.take (indexes 1 a).length = values a := by
    rw [h.values_eq, values_append, ← lengthA, List.take_left]
  rw [dropI, takeI, takeV, ← lengthB, List.take_length, ← indexes_append, ← values_append]

theorem returns_removeBetween (h : Represents u (a ++ (m ++ b))) {startIndex endIndex : Int}
    (start : startIndex = a.length + 1) (stop : endIndex = a.length + m.length) :
    Returns (u.removeBetween startIndex endIndex) fun u' => Represents u' (a ++ b) := by
  have count := h.count_eq
  have room := h.count_le
  have size := h.size_eq
  rw [List.length_append, List.length_append] at count
  have len : endIndex - startIndex + 1 = m.length := by omega
  unfold removeBetween
  dsimp only
  rw [len]
  split
  · have h' := h
    rw [← List.append_assoc] at h'
    rw [h.position start, Returns.bind_iff, Returns.some_iff,
      h'.position (by rw [List.length_append]; omega), Returns.bind_iff, Returns.some_iff,
      h.returns_moveEntries_all, Returns.bind_iff, Returns.some_iff, Returns.bind_iff]
    dsimp only
    apply NativeArray.returns_sliceCopy (fun _ => by omega)
    intro storage sizeS copied kept
    rw [Returns.pure_iff]
    refine ⟨sizeS.trans size, ?_, by dsimp only; omega, fun k c at' => ?_, rfl, rfl⟩
    · rw [List.length_append]
      dsimp only
      omega
    · have bound := (List.getElem?_eq_some_iff.mp at').choose
      rw [List.length_append] at bound
      by_cases before : k < a.length
      · rw [List.getElem?_append_left before] at at'
        rw [kept k (by omega)]
        apply h.cell_eq
        rwa [List.getElem?_append_left before]
      · rw [List.getElem?_append_right (by omega)] at at'
        rw [copied k (by omega) (by omega)]
        have source : endIndex + k - (startIndex - 1) = ((k + m.length : ℕ) : Int) := by omega
        rw [source]
        apply h.cell_eq
        have shift : k + m.length - a.length - m.length = k - a.length := by omega
        rwa [List.getElem?_append_right (by omega), List.getElem?_append_right (by omega), shift]
  · have empty : m = [] := List.length_eq_zero_iff.mp (by omega)
    rw [empty] at h
    exact Returns.some_iff.mpr h

theorem returns_removeTail (h : Represents u (a ++ b)) {n : Int} (number : n = b.length) :
    Returns (u.removeTail n) fun u' => Represents u' a := by
  have count := h.count_eq
  rw [List.length_append] at count
  have cut := h.resize_tables
  have position := h.position (show u.count - n + 1 = a.length + 1 by omega)
  unfold lowSurrogatePosition at position
  unfold removeTail lowSurrogatePosition
  rw [if_neg (by omega)]
  dsimp only
  rw [position, Returns.bind_iff, Returns.some_iff, Returns.pure_iff, cut.1, cut.2]
  exact h.cut (by omega)

theorem returns_removeTail_all (h : Represents u cs) {n : Int} (more : n > u.count) :
    Returns (u.removeTail n) fun u' => Represents u' [] := by
  unfold removeTail
  rw [if_pos more, Returns.some_iff]
  exact h.clear

theorem returns_removeHead (h : Represents u (a ++ b)) {n : Int} (number : n = a.length) :
    Returns (u.removeHead n) fun u' => Represents u' b := by
  have count := h.count_eq
  rw [List.length_append] at count
  unfold removeHead
  rw [if_neg (by omega)]
  split
  · exact @returns_removeBetween u [] a b h 1 n rfl (by simpa using number)
  · have empty : a = [] := List.length_eq_zero_iff.mp (by omega)
    rw [empty] at h
    exact Returns.some_iff.mpr h

theorem returns_removeHead_all (h : Represents u cs) {n : Int} (more : n > u.count) :
    Returns (u.removeHead n) fun u' => Represents u' [] := by
  unfold removeHead
  rw [if_pos more, Returns.some_iff]
  exact h.clear

/-! ## Slices -/

/-- The cells of a slice, copied to the beginning of a storage. -/
theorem returns_sliceCells (h : Represents u (a ++ (m ++ b))) {storage : NativeArray (BitVec 16)}
    (room : (m.length : Int) ≤ storage.size) {low high : Int} (lowEq : low = a.length)
    (highEq : high = a.length + m.length - 1) :
    Returns (storage.sliceCopy 0 u.storage low high) fun s => s.size = storage.size ∧
      ∀ (k : ℕ) (c : Stored), m[k]? = some c → s.cell k = c.cell := by
  have count := h.count_eq
  have le := h.count_le
  have size := h.size_eq
  rw [List.length_append, List.length_append] at count
  apply NativeArray.returns_sliceCopy (fun _ => by omega)
  intro s sizeS copied _
  refine ⟨sizeS, fun k c at' => ?_⟩
  have bound := (List.getElem?_eq_some_iff.mp at').choose
  have source : low + k - 0 = ((a.length + k : ℕ) : Int) := by omega
  rw [copied k (by omega) (by omega), source]
  apply h.cell_eq
  rw [List.getElem?_append_right (Nat.le_add_right _ _), Nat.add_sub_cancel_left,
    List.getElem?_append_left bound]
  exact at'

theorem returns_shrink_first (h : Represents u (m ++ b)) {maxIndex : Int}
    (number : maxIndex = m.length) (nonempty : m ≠ []) :
    Returns (u.shrink 1 maxIndex) fun u' => Represents u' m := by
  have cut := h.resize_tables
  rcases List.eq_nil_or_concat m with empty | ⟨m', c, last⟩
  · exact absurd empty nonempty
  rw [List.concat_eq_append] at last
  have length : m.length = m'.length + 1 := by rw [last]; simp
  have h' := h
  rw [last, List.append_assoc] at h'
  have position := h'.position (show maxIndex = m'.length + 1 by omega)
  have tables : u.lowSurrogateIndexes = indexes 1 m' ++ indexes (1 + m'.length) (c :: b) := by
    rw [h'.indexes_eq, indexes_append]
    rfl
  unfold lowSurrogatePosition at position
  unfold shrink lowSurrogatePosition
  rw [if_neg (by omega), if_pos rfl]
  dsimp only
  rw [position, Returns.bind_iff, Returns.some_iff, Returns.bind_iff]
  -- the last entry kept is the one of `maxIndex`, if there is one
  have next : Returns
      (if ((indexes 1 m').length : Int) ≤ FastArray.upper u.lowSurrogateIndexes then do
        return if (← FastArray.item u.lowSurrogateIndexes (indexes 1 m').length) = maxIndex
          then ((indexes 1 m').length : Int) + 1 else (indexes 1 m').length
      else some ((indexes 1 m').length : Int)) fun i => i = (indexes 1 m).length := by
    have entries : indexes 1 m = indexes 1 m' ++ indexes (1 + m'.length) [c] := by
      rw [last, indexes_append]
    rw [entries, List.length_append]
    unfold FastArray.upper
    split
    · rename_i inside
      have more : (indexes 1 m').length < u.lowSurrogateIndexes.length := by omega
      rw [FastArray.item_natCast, List.getElem?_eq_getElem more, Returns.bind_iff,
        Returns.some_iff, Returns.pure_iff]
      have first : (indexes (1 + m'.length) (c :: b))[0]? =
          some u.lowSurrogateIndexes[(indexes 1 m').length] := by
        rw [← List.getElem?_eq_getElem more, tables, List.getElem?_append_right (Nat.le_refl _),
          Nat.sub_self]
      rw [indexes_cons] at first ⊢
      by_cases marked : c.low.isSome
      · rw [if_pos marked] at first ⊢
        have same := Option.some.inj first
        rw [if_pos (by omega)]
        simp
      · rw [if_neg marked] at first ⊢
        have bounds := indexes_bounds (List.mem_of_getElem? first)
        rw [if_neg (by omega)]
        simp
    · rename_i outside
      have none : indexes (1 + m'.length) (c :: b) = [] := by
        have total := congrArg List.length tables
        rw [List.length_append] at total
        exact List.length_eq_zero_iff.mp (by omega)
      rw [indexes_cons] at none ⊢
      split at none
      · cases none
      · rename_i plain
        rw [if_neg plain, Returns.some_iff]
        simp
  refine next.mono fun i same => ?_
  rw [same, Returns.pure_iff, cut.1, cut.2]
  exact h.cut (by omega)

theorem returns_shrink_middle (h : Represents u (a ++ (m ++ b))) {minIndex maxIndex : Int}
    (start : minIndex = a.length + 1) (stop : maxIndex = a.length + m.length)
    (nonempty : m ≠ []) (notFirst : minIndex ≠ 1) :
    Returns (u.shrink minIndex maxIndex) fun u' => Represents u' m := by
  have positive := List.length_pos_iff.mpr nonempty
  have count := h.count_eq
  have room := h.count_le
  have size := h.size_eq
  rw [List.length_append, List.length_append] at count
  unfold shrink
  rw [if_neg (by omega), if_neg notFirst, Returns.bind_iff]
  refine (returns_sliceCells h (by omega) (by omega) (by omega)).mono ?_
  intro storage ⟨sizeS, cells⟩
  have lengthM := length_values (1 + a.length) m
  have lengthA := length_values 1 a
  have tables : u.lowSurrogateIndexes = indexes 1 a ++
      (indexes (1 + a.length) m ++ indexes (1 + a.length + m.length) b) := by
    rw [h.indexes_eq, indexes_append, indexes_append]
  have tables' : u.lowSurrogateValues = values a ++ (values m ++ values b) := by
    rw [h.values_eq, values_append, values_append]
  have inStep : u.lowSurrogateValues.length = u.lowSurrogateIndexes.length := by
    rw [h.indexes_eq, h.values_eq]
    exact length_values 1 _
  have split : u.lowSurrogateIndexes.drop (indexes 1 a).length =
      indexes (1 + a.length) m ++ indexes (1 + a.length + m.length) b := by
    rw [tables, List.drop_left]
  have moved := @returns_moveEntries { u with storage } _ _ (indexes 1 a).length 0 (1 - minIndex)
    (fun index => decide (index > maxIndex)) (Nat.zero_le _) (by rw [tables]; simp) inStep split
    (fun i mem => by
      have := indexes_bounds mem
      rw [decide_eq_false_iff_not]
      omega)
    (fun i mem => by
      have := indexes_bounds mem
      rw [decide_eq_true_eq]
      omega)
  have position := h.position start
  unfold lowSurrogatePosition at position ⊢
  dsimp only at moved ⊢
  rw [position, Returns.bind_iff, Returns.some_iff]
  change Returns ((moveEntries _ _ ((0 : ℕ) : Int) _ _) >>= _) _
  have back : (indexes (1 + a.length) m).map (· + (1 - minIndex)) = indexes 1 m := by
    rw [← indexes_add]
    congr 1
    omega
  have dropV : (u.lowSurrogateValues.drop (indexes 1 a).length).take
      (indexes (1 + a.length) m).length = values m := by
    rw [tables', ← lengthA, List.drop_left, ← lengthM, List.take_left]
  rw [moved, Returns.bind_iff, Returns.some_iff, Returns.pure_iff, back, dropV, List.take_zero,
    List.take_zero]
  refine ⟨sizeS.trans size, ?_, ?_, cells, rfl, rfl⟩
  · dsimp only
    omega
  · dsimp only
    omega

theorem returns_shrink (h : Represents u (a ++ (m ++ b))) {minIndex maxIndex : Int}
    (start : minIndex = a.length + 1) (stop : maxIndex = a.length + m.length) :
    Returns (u.shrink minIndex maxIndex) fun u' => Represents u' m := by
  by_cases empty : m = []
  · rw [empty, List.length_nil] at stop
    unfold shrink
    rw [if_pos (by omega), Returns.some_iff, empty]
    exact h.clear
  · by_cases first : minIndex = 1
    · have none : a = [] := List.length_eq_zero_iff.mp (by omega)
      rw [none, List.nil_append] at h
      rw [first]
      exact returns_shrink_first h (by omega) empty
    · exact returns_shrink_middle h start stop empty first

/-- `substring` of a slice without supplementary characters. -/
theorem returns_substring (h : Represents u (a ++ (m ++ b))) {startIndex endIndex : Int}
    (start : startIndex = a.length + 1) (stop : endIndex = a.length + m.length)
    (plain : ∀ c ∈ m, c.low = none) :
    Returns (u.substring startIndex endIndex) fun u' => Represents u' m := by
  have number : endIndex - startIndex + 1 = m.length := by omega
  have nonneg : 0 ≤ endIndex - startIndex + 1 := by omega
  have made := represents_make nonneg
  have capacity := capacity_make nonneg
  have size := made.size_eq
  unfold substring
  dsimp only
  rw [Returns.bind_iff]
  refine (returns_sliceCells h (by omega) (by omega) (by omega)).mono ?_
  intro storage ⟨sizeS, cells⟩
  rw [h.position start, Returns.bind_iff, Returns.some_iff, Returns.bind_iff]
  have emptyM := (@indexes_eq_nil_iff (1 + a.length) m).mpr plain
  have emptyV : values m = [] := by
    apply List.eq_nil_of_length_eq_zero
    rw [length_values (1 + a.length), emptyM]
    rfl
  have tables : u.lowSurrogateIndexes =
      indexes 1 a ++ indexes (1 + a.length + m.length) b := by
    rw [h.indexes_eq, indexes_append, indexes_append, emptyM, List.nil_append]
  -- the next entry is after the slice, and the loop makes no round
  refine returns_untilLoop
    (fun t => t = (([] : List Int), ([] : List (BitVec 16)), ((indexes 1 a).length : Int)))
    (fun _ => 0) ?_ (Nat.zero_le _) ?_
  · rw [made.indexes_eq, made.values_eq]
    rfl
  · intro t same
    subst same
    have stops : Returns
        (if ((indexes 1 a).length : Int) > FastArray.upper u.lowSurrogateIndexes then some true
        else do
          return decide ((← FastArray.item u.lowSurrogateIndexes (indexes 1 a).length) > endIndex))
        fun stopped => stopped = true := by
      unfold FastArray.upper
      split
      · exact Returns.some_iff.mpr rfl
      · have more : (indexes 1 a).length < u.lowSurrogateIndexes.length := by omega
        rw [FastArray.item_natCast, List.getElem?_eq_getElem more, Returns.bind_iff,
          Returns.some_iff, Returns.pure_iff, decide_eq_true_eq]
        have first : (indexes (1 + a.length + m.length) b)[0]? =
            some u.lowSurrogateIndexes[(indexes 1 a).length] := by
          rw [← List.getElem?_eq_getElem more, tables,
            List.getElem?_append_right (Nat.le_refl _), Nat.sub_self]
        have bounds := indexes_bounds (List.mem_of_getElem? first)
        omega
    refine stops.mono fun stopped isTrue => ?_
    rw [if_pos isTrue, Returns.pure_iff]
    refine ⟨sizeS.trans size, ?_, ?_, cells, ?_, ?_⟩
    · exact number
    · dsimp only
      omega
    · exact ((@indexes_eq_nil_iff 1 m).mpr plain).symm
    · exact emptyV.symm

/-! ## Swap -/

/-- A character in one cell written over another one. -/
theorem Represents.set (h : Represents u cs) {k : ℕ} (at' : cs[k]? = some c) (plain : c.low = none)
    (plain' : d.low = none) :
    Represents { u with storage := u.storage.set d.cell k } (cs.set k d) := by
  rcases List.getElem?_eq_some_iff.mp at' with ⟨bound, here⟩
  have split : cs = cs.take k ++ c :: cs.drop (k + 1) := by
    rw [← here, List.getElem_cons_drop, List.take_append_drop]
  have edited : cs.set k d = cs.take k ++ d :: cs.drop (k + 1) :=
    List.set_eq_take_append_cons_drop.trans (if_pos bound)
  have place : (k : Int) = (cs.take k).length := by
    rw [List.length_take]
    omega
  have tables := h.indexes_eq
  have tables' := h.values_eq
  rw [split, indexes_append, indexes_cons, if_neg (by simp [plain])] at tables
  rw [split, values_append] at tables'
  rw [split] at h
  rw [edited, place]
  have sameI : u.lowSurrogateIndexes = indexes 1 (cs.take k ++ d :: cs.drop (k + 1)) := by
    rw [tables, indexes_append, indexes_cons, if_neg (by simp [plain'])]
  have sameV : u.lowSurrogateValues = values (cs.take k ++ d :: cs.drop (k + 1)) := by
    rw [tables', values_append]
    unfold values
    rw [List.filterMap_cons, List.filterMap_cons, plain, plain']
  exact h.setCell d sameI sameV

theorem not_isSurrogate_of_plain (plain : c.low = none) : ¬IsSurrogate c.cell := by
  rw [← c.marked_iff, plain]
  exact Bool.false_ne_true

/-- `swap` of two characters in one cell each. -/
theorem returns_swap (h : Represents u cs) {i1 i2 : Int} {k1 k2 : ℕ} (at1 : cs[k1]? = some c)
    (at2 : cs[k2]? = some d) (place1 : i1 = k1 + 1) (place2 : i2 = k2 + 1)
    (plain1 : c.low = none) (plain2 : d.low = none) :
    Returns (u.swap i1 i2) fun u' => Represents u' ((cs.set k1 d).set k2 c) := by
  have bound1 := (List.getElem?_eq_some_iff.mp at1).choose
  have bound2 := (List.getElem?_eq_some_iff.mp at2).choose
  have inside1 := h.inBounds bound1
  have inside2 := h.inBounds bound2
  have first : i1 - 1 = k1 := by omega
  have second : i2 - 1 = k2 := by omega
  unfold swap
  rw [first, second, Returns.bind_iff, NativeArray.returns_item]
  refine ⟨inside1, ?_⟩
  rw [h.cell_eq k1 c at1, if_neg (not_isSurrogate_of_plain plain1), Returns.bind_iff,
    Returns.bind_iff, NativeArray.returns_item]
  refine ⟨inside2, ?_⟩
  rw [h.cell_eq k2 d at2, if_neg (not_isSurrogate_of_plain plain2), Returns.pure_iff,
    Returns.bind_iff, NativeArray.returns_item]
  refine ⟨inside2, ?_⟩
  rw [h.cell_eq k2 d at2, Returns.bind_iff, NativeArray.returns_put]
  refine ⟨inside1, ?_⟩
  rw [Returns.bind_iff, NativeArray.returns_put]
  refine ⟨inside2, Returns.pure_iff.mpr ?_⟩
  have half := h.set (d := d) at1 plain1 plain2
  have at2' : ∃ e, (cs.set k1 d)[k2]? = some e ∧ e.low = none := by
    rw [List.getElem?_set]
    split
    · exact ⟨d, rfl, plain2⟩
    · exact ⟨d, at2, plain2⟩
  rcases at2' with ⟨e, atE, plainE⟩
  exact half.set (d := c) atE plainE plain1

theorem returns_swap_self (h : Represents u (a ++ c :: b)) {i : Int} (place : i = a.length + 1) :
    Returns (u.swap i i) fun u' => Represents u' (a ++ c :: b) := by
  have inside := h.inBounds (k := a.length) (by simp)
  have cell := h.cell_eq a.length c (by simp)
  have first : i - 1 = a.length := by omega
  have written : ∀ w : UnicodeString, w.lowSurrogateIndexes = u.lowSurrogateIndexes →
      w.lowSurrogateValues = u.lowSurrogateValues → w.count = u.count →
      w.capacity = u.capacity →
      w.storage = (u.storage.set c.cell a.length).set c.cell a.length →
      Represents w (a ++ c :: b) := by
    intro w tables tables' count capacity storage
    refine ⟨by rw [storage, capacity]; exact h.size_eq, count.trans h.count_eq, ?_, ?_,
      tables.trans h.indexes_eq, tables'.trans h.values_eq⟩
    · rw [count, capacity]
      exact h.count_le
    · intro k e at'
      rw [storage, NativeArray.cell_set, NativeArray.cell_set, ← h.cell_eq k e at']
      split
      · rename_i here
        rw [here, cell]
      · rfl
  unfold swap
  dsimp only
  rw [first, Returns.bind_iff, NativeArray.returns_item]
  refine ⟨inside, ?_⟩
  rw [cell, Returns.bind_iff]
  by_cases marked : IsSurrogate c.cell
  · have low := c.marked_iff.mpr marked
    have found : u.lowSurrogateIndex i = (indexes 1 a).length := by
      unfold lowSurrogateIndex FastArray.fastFirstIndexOf
      have same : i = 1 + a.length := by omega
      rw [h.indexes_eq, same, idxOf_indexes 1 low]
    have tables : u.lowSurrogateIndexes =
        indexes 1 a ++ (1 + a.length : Int) :: indexes (1 + a.length + 1) b := by
      rw [h.indexes_eq, indexes_append, indexes_cons, if_pos low]
    have inI : (indexes 1 a).length < u.lowSurrogateIndexes.length := by
      rw [tables]
      simp
    have inV : (indexes 1 a).length < u.lowSurrogateValues.length := by
      rw [h.values_eq, length_values 1, ← h.indexes_eq]
      exact inI
    have entry : u.lowSurrogateIndexes.set (indexes 1 a).length i = u.lowSurrogateIndexes := by
      have same : 1 + (a.length : Int) = i := by omega
      rw [tables, List.set_append_right _ _ (Nat.le_refl _), Nat.sub_self, List.set_cons_zero, same]
    rw [if_pos marked, Returns.bind_iff, NativeArray.returns_item]
    refine ⟨inside, ?_⟩
    rw [cell, if_pos marked, found, FastArray.item_natCast, List.getElem?_eq_getElem inV,
      Returns.bind_iff, Returns.some_iff, Returns.bind_iff, Returns.some_iff,
      FastArray.put_natCast _ inV, Returns.bind_iff, Returns.some_iff, List.set_getElem_self,
      FastArray.put_natCast _ inV, Returns.bind_iff, Returns.some_iff, List.set_getElem_self,
      FastArray.put_natCast _ inI, Returns.bind_iff, Returns.some_iff, entry,
      FastArray.put_natCast _ inI, Returns.bind_iff, Returns.some_iff, entry, Returns.pure_iff,
      Returns.bind_iff, NativeArray.returns_item]
    refine ⟨inside, ?_⟩
    rw [cell, Returns.bind_iff, NativeArray.returns_put]
    refine ⟨inside, ?_⟩
    rw [Returns.bind_iff, NativeArray.returns_put]
    exact ⟨inside, Returns.pure_iff.mpr (written _ rfl rfl rfl rfl rfl)⟩
  · rw [if_neg marked, Returns.bind_iff, NativeArray.returns_item]
    refine ⟨inside, ?_⟩
    rw [cell, if_neg marked, Returns.pure_iff, Returns.bind_iff, NativeArray.returns_item]
    refine ⟨inside, ?_⟩
    rw [cell, Returns.bind_iff, NativeArray.returns_put]
    refine ⟨inside, ?_⟩
    rw [Returns.bind_iff, NativeArray.returns_put]
    exact ⟨inside, Returns.pure_iff.mpr (written _ rfl rfl rfl rfl rfl)⟩

/-! ## Insertion of a string -/

/-- The cells of `a`, of `m` and of `b`, when those of `m` are copied after a move of
those of `b`. -/
theorem returns_insertCells (h : Represents u (a ++ b)) {w : UnicodeString} {i j k : Int}
    (grown : Grown u (j + k) w) (jEq : j = u.count) (kEq : k = m.length)
    (place : i = a.length + 1) {source : NativeArray (BitVec 16) → NativeArray (BitVec 16)}
    (inside : ∀ s, s.size = w.capacity → k ≤ (source s).size)
    (cells : ∀ s : NativeArray (BitVec 16), (∀ i, 0 ≤ i → i < k → i < u.count →
      s.cell i = u.storage.cell i) →
      ∀ (n : ℕ) (c : Stored), m[n]? = some c → (source s).cell n = c.cell) :
    Returns (if i ≤ j then do return { w with storage := ← w.storage.move (i - 1) (j - 1) k }
      else some w) fun v =>
        (∃ storage, v = { w with storage } ∧ storage.size = w.capacity) ∧
        Returns (v.storage.copyAt (i - 1) (source v.storage) k) fun s => s.size = w.capacity ∧
          ∀ (n : ℕ) (c : Stored), (a ++ (m ++ b))[n]? = some c → s.cell n = c.cell := by
  have count := h.count_eq
  rw [List.length_append] at count
  have room := grown.count_le
  have sizeW := grown.size_eq
  -- what is known of the storage once the cells of `b` are moved
  have copied : ∀ s : NativeArray (BitVec 16), s.size = w.capacity →
      (∀ n : ℕ, n < a.length → s.cell n = u.storage.cell n) →
      (∀ n : ℕ, n < b.length → s.cell (a.length + k + n) = u.storage.cell (a.length + n : ℕ)) →
      (∀ i, 0 ≤ i → i < k → i < u.count → s.cell i = u.storage.cell i) →
      Returns (s.copyAt (i - 1) (source s) k) fun s' => s'.size = w.capacity ∧
        ∀ (n : ℕ) (c : Stored), (a ++ (m ++ b))[n]? = some c → s'.cell n = c.cell := by
    intro s size before after start
    have sizeSource := inside s size
    apply NativeArray.returns_sliceCopy (fun _ => by omega)
    intro s' size' written kept
    refine ⟨size'.trans size, fun n c at' => ?_⟩
    have bound := (List.getElem?_eq_some_iff.mp at').choose
    rw [List.length_append, List.length_append] at bound
    by_cases inA : n < a.length
    · rw [List.getElem?_append_left inA] at at'
      rw [kept n (by omega), before n inA]
      apply h.cell_eq
      rwa [List.getElem?_append_left inA]
    · rw [List.getElem?_append_right (by omega)] at at'
      by_cases inM : n - a.length < m.length
      · rw [List.getElem?_append_left inM] at at'
        have index : (0 : Int) + n - (i - 1) = ((n - a.length : ℕ) : Int) := by omega
        rw [written n (by omega) (by omega), index]
        exact cells s start _ c at'
      · rw [List.getElem?_append_right (by omega)] at at'
        have index : (n : Int) = a.length + k + ((n - a.length - m.length : ℕ) : Int) := by omega
        rw [kept n (by omega), index, after _ (by omega)]
        apply h.cell_eq
        rwa [List.getElem?_append_right (Nat.le_add_right _ _), Nat.add_sub_cancel_left]
  have same : ∀ i, 0 ≤ i → i < u.count → w.storage.cell i = u.storage.cell i := grown.cell_eq
  split
  · rw [Returns.bind_iff]
    apply NativeArray.returns_sliceCopy (fun _ => by omega)
    intro s size moved kept
    rw [Returns.pure_iff]
    refine ⟨⟨s, rfl, size.trans sizeW⟩, copied s (size.trans sizeW) (fun n inA => ?_)
      (fun n inB => ?_) fun n low short high => ?_⟩
    · rw [kept n (by omega), same n (by omega) (by omega)]
    · have index : i - 1 + (a.length + k + n) - (i - 1 + k) = ((a.length + n : ℕ) : Int) := by
        omega
      rw [moved _ (by omega) (by omega), index, same _ (by omega) (by omega)]
    · rw [kept n (by omega), same n low high]
  · rw [Returns.some_iff]
    refine ⟨⟨w.storage, rfl, sizeW⟩, copied w.storage sizeW (fun n inA => ?_)
      (fun n inB => ?_) fun n low short high => ?_⟩
    · exact same n (by omega) (by omega)
    · omega
    · exact same n low high

/-- What `insert_string` needs of its argument, which may be `Current`. -/
structure Insertable (u : UnicodeString) (s : Option UnicodeString) (m : List Stored) : Prop where
  count_eq : (s.getD u).count = m.length
  indexes_eq : ∀ w : UnicodeString, w.lowSurrogateIndexes = u.lowSurrogateIndexes →
    (s.getD w).lowSurrogateIndexes = []
  size_le : ∀ w : UnicodeString, u.count + m.length ≤ w.storage.size →
    (m.length : Int) ≤ (s.getD w).storage.size
  cell_eq : ∀ w : UnicodeString, (∀ i : Int, 0 ≤ i → i < m.length → i < u.count →
    w.storage.cell i = u.storage.cell i) →
    ∀ (n : ℕ) (c : Stored), m[n]? = some c → (s.getD w).storage.cell n = c.cell

theorem Represents.insertable {s : UnicodeString} (h : Represents s m)
    (plain : ∀ c ∈ m, c.low = none) : Insertable u (some s) m := by
  have count := h.count_eq
  have room := h.count_le
  have size := h.size_eq
  refine ⟨count, fun _ _ => ?_, fun _ _ => ?_, fun _ _ => h.cell_eq⟩
  · exact h.indexes_eq.trans (indexes_eq_nil_iff.mpr plain)
  · dsimp only [Option.getD_some]
    omega

theorem Represents.insertable_current (h : Represents u cs) (plain : ∀ c ∈ cs, c.low = none) :
    Insertable u none cs := by
  have count := h.count_eq
  refine ⟨count, fun w same => ?_, fun w fits => ?_, fun w same n c at' => ?_⟩
  · exact same.trans (h.indexes_eq.trans (indexes_eq_nil_iff.mpr plain))
  · dsimp only [Option.getD_none]
    omega
  · have bound := (List.getElem?_eq_some_iff.mp at').choose
    dsimp only [Option.getD_none]
    rw [same n (by omega) (by omega) (by omega)]
    exact h.cell_eq n c at'

/-- `insert_string` of characters in one cell each, where the entries of the string need
not move. -/
theorem returns_insertString (h : Represents u (a ++ b)) {s : Option UnicodeString} {i : Int}
    (argument : Insertable u s m) (place : i = a.length + 1) (plain : ∀ c ∈ m, c.low = none)
    (kept : m = [] ∨ ∀ c ∈ b, c.low = none) :
    Returns (u.insertString s i) fun u' => Represents u' (a ++ (m ++ b)) := by
  have size := h.size_eq
  have count := h.count_eq
  have room := h.count_le
  rw [List.length_append] at count
  have number := argument.count_eq
  have noneM := fun start => (@indexes_eq_nil_iff start m).mpr plain
  have tables : indexes 1 (a ++ (m ++ b)) = u.lowSurrogateIndexes := by
    rw [h.indexes_eq, indexes_append, indexes_append, indexes_append, noneM, List.nil_append]
    rcases kept with empty | plainB
    · rw [empty, List.length_nil]
      congr 2
    · rw [(@indexes_eq_nil_iff _ b).mpr plainB, (@indexes_eq_nil_iff _ b).mpr plainB]
  have tables' : values (a ++ (m ++ b)) = u.lowSurrogateValues := by
    have emptyV : values m = [] := by
      apply List.eq_nil_of_length_eq_zero
      rw [length_values 1, noneM]
      rfl
    rw [h.values_eq, values_append, values_append, values_append, emptyV, List.nil_append]
  have inStep : u.lowSurrogateValues.length = u.lowSurrogateIndexes.length := by
    rw [h.indexes_eq, h.values_eq]
    exact length_values 1 _
  unfold insertString
  dsimp only
  have more : u.count ≤ u.count + (s.getD u).count := by omega
  refine (returns_resize size (by omega) room more fun j mem => ?_).bind ?_
  · rw [h.indexes_eq, indexes_append] at mem
    rcases List.mem_append.mp mem with inA | inB
    · have := indexes_bounds inA
      omega
    · have := indexes_bounds inB
      omega
  intro w grown
  have roomW := grown.count_le
  let source (storage : NativeArray (BitVec 16)) := (s.getD { w with storage }).storage
  have inside : ∀ storage : NativeArray (BitVec 16), storage.size = w.capacity →
      (s.getD u).count ≤ (source storage).size := by
    intro storage sizeS
    rw [number]
    exact argument.size_le { w with storage } (by dsimp only; omega)
  have cellsM : ∀ storage : NativeArray (BitVec 16), (∀ j, 0 ≤ j → j < (s.getD u).count →
      j < u.count → storage.cell j = u.storage.cell j) →
      ∀ (n : ℕ) (c : Stored), m[n]? = some c → (source storage).cell n = c.cell := by
    intro storage same
    rw [number] at same
    exact argument.cell_eq { w with storage } same
  refine (returns_insertCells h grown rfl number place inside cellsM).bind ?_
  rintro v ⟨⟨storage, rfl, sizeS⟩, written⟩
  rw [Returns.bind_iff]
  refine written.mono fun final ⟨sizeF, cells⟩ => ?_
  have indexesW := grown.indexes_eq
  have valuesW := grown.values_eq
  have positionU := h.position place
  have positionF : lowSurrogatePosition { w with storage := final } i =
      some ((indexes 1 a).length : Int) := by
    rw [indexesW]
    exact positionU
  have argumentF := argument.indexes_eq { w with storage := final } indexesW
  rw [positionF, Returns.bind_iff, Returns.some_iff]
  have noEntry : (w.lowSurrogateIndexes.length : Int) + (([] : List Int).length : ℕ) =
      w.lowSurrogateIndexes.length := by
    simp
  have sameI := FastArray.resize_length w.lowSurrogateIndexes
  have sameV : FastArray.resize w.lowSurrogateValues (w.lowSurrogateIndexes.length : Int) =
      w.lowSurrogateValues := by
    rw [indexesW, ← inStep, ← valuesW]
    exact FastArray.resize_length _
  rw [argumentF, noEntry, sameI, sameV, argumentF, untilLoop_stopped (by rfl), Returns.bind_iff,
    Returns.some_iff]
  rw [argumentF, untilLoop_stopped (by rfl), Returns.bind_iff, Returns.some_iff, Returns.pure_iff]
  refine ⟨sizeF, ?_, ?_, cells, indexesW.trans tables.symm, valuesW.trans tables'.symm⟩
  · rw [List.length_append, List.length_append]
    rw [grown.count_eq]
    omega
  · dsimp only
    rw [grown.count_eq]
    exact roomW

/-! ## Code points -/

/-- `item` reads the code points `points`. -/
def Codes (u : UnicodeString) (points : List Int) : Prop :=
  u.count = points.length ∧
    ∀ i, 1 ≤ i → i ≤ u.count → u.item i = points[(i - 1).toNat]?

/-- The character at the index `i` has an entry in the tables. -/
def Supplementary (u : UnicodeString) (i : Int) : Prop :=
  i ∈ u.lowSurrogateIndexes

theorem Represents.codes (h : Represents u cs) : Codes u (cs.map Stored.unicode) := by
  have count := h.count_eq
  refine ⟨by rw [List.length_map]; exact count, fun i low high => ?_⟩
  have inside : (i - 1).toNat < cs.length := by omega
  have split : cs = cs.take (i - 1).toNat ++ cs[(i - 1).toNat] :: cs.drop ((i - 1).toNat + 1) := by
    rw [List.getElem_cons_drop, List.take_append_drop]
  have h' := h
  rw [split] at h'
  rw [returns_item h' (by rw [List.length_take]; omega), List.getElem?_map,
    List.getElem?_eq_getElem inside, Option.map_some]

/-- The characters of a valid string give its code points. -/
theorem Valid.exists_represents {points : List Int} (valid : Valid u) (codes : Codes u points) :
    ∃ cs, Represents u cs ∧ cs.map Stored.unicode = points := by
  rcases valid_iff.mp valid with ⟨cs, held⟩
  have count := held.count_eq
  have lengths := codes.1
  refine ⟨cs, held, List.ext_getElem? fun k => ?_⟩
  by_cases inside : k < cs.length
  · have here := held.codes.2 (k + 1) (by omega) (by omega)
    have same := codes.2 (k + 1) (by omega) (by omega)
    have index : ((k : Int) + 1 - 1).toNat = k := by omega
    rw [index] at here same
    exact here.symm.trans same
  · rw [List.getElem?_eq_none (by rw [List.length_map]; omega),
      List.getElem?_eq_none (by omega)]

/-- `x` returns a valid string with the code points `points`. -/
def Edited (x : Option UnicodeString) (points : List Int) : Prop :=
  Returns x fun u => Valid u ∧ Codes u points

theorem edited_of_represents {x : Option UnicodeString} {points : List Int}
    (run : Returns x fun u => Represents u cs) (same : cs.map Stored.unicode = points) :
    Edited x points :=
  run.mono fun u held => ⟨valid_iff.mpr ⟨cs, held⟩, same ▸ held.codes⟩

/-- A character without an entry in the tables is in one cell. -/
theorem Represents.plain_of_not_supplementary (h : Represents u cs) {k : ℕ}
    (at' : cs[k]? = some c) (plain : ¬u.Supplementary (k + 1)) : c.low = none := by
  unfold Supplementary at plain
  rw [h.indexes_eq, Stored.mem_indexes] at plain
  cases low : c.low with
  | none => rfl
  | some l => exact absurd ⟨k, by omega, c, at', by rw [low]; rfl⟩ plain

/-- The list with two items exchanged. -/
def swapped (points : List Int) (k1 k2 : ℕ) : List Int :=
  match points[k1]?, points[k2]? with
  | some x, some y => (points.set k1 y).set k2 x
  | _, _ => points

theorem swapped_self (points : List Int) (k : ℕ) : swapped points k k = points := by
  unfold swapped
  by_cases inside : k < points.length
  · rw [List.getElem?_eq_getElem inside]
    dsimp only
    rw [List.set_getElem_self, List.set_getElem_self]
  · rw [List.getElem?_eq_none (by omega)]

theorem slice_split {α : Type} (l : List α) {i j : ℕ} (le : i ≤ j) :
    l = l.take i ++ ((l.take j).drop i ++ l.drop j) := by
  have first : (l.take j).take i = l.take i := by
    rw [List.take_take, Nat.min_eq_left le]
  rw [← List.append_assoc, ← first, List.take_append_drop, List.take_append_drop]

section Edits

variable {s : UnicodeString} {points points' : List Int}

/-- The characters before, in and after the slice of the indexes `startIndex … endIndex`. -/
theorem Represents.slice (h : Represents u cs) {startIndex endIndex : Int} (low : 1 ≤ startIndex)
    (high : endIndex ≤ u.count) (interval : startIndex ≤ endIndex + 1) :
    ∃ a m b, cs = a ++ (m ++ b) ∧ startIndex = a.length + 1 ∧ endIndex = a.length + m.length ∧
      a = cs.take (startIndex - 1).toNat ∧
      m = (cs.take endIndex.toNat).drop (startIndex - 1).toNat ∧ b = cs.drop endIndex.toNat := by
  have count := h.count_eq
  refine ⟨_, _, _, slice_split cs (i := (startIndex - 1).toNat) (j := endIndex.toNat) (by omega),
    ?_, ?_, rfl, rfl, rfl⟩
  · rw [List.length_take]
    omega
  · rw [List.length_take, List.length_drop, List.length_take]
    omega

theorem edited_removeBetween (valid : Valid u) (codes : Codes u points) {startIndex endIndex : Int}
    (low : 1 ≤ startIndex) (high : endIndex ≤ u.count) (interval : startIndex ≤ endIndex + 1) :
    Edited (u.removeBetween startIndex endIndex)
      (points.take (startIndex - 1).toNat ++ points.drop endIndex.toNat) := by
  rcases valid.exists_represents codes with ⟨cs, held, rfl⟩
  rcases held.slice low high interval with ⟨a, m, b, rfl, start, stop, first, -, last⟩
  refine edited_of_represents (returns_removeBetween held start stop) ?_
  rw [List.map_append, ← List.map_take, ← List.map_drop, ← first, ← last]

theorem edited_shrink (valid : Valid u) (codes : Codes u points) {minIndex maxIndex : Int}
    (low : 1 ≤ minIndex) (high : maxIndex ≤ u.count) (interval : minIndex ≤ maxIndex + 1) :
    Edited (u.shrink minIndex maxIndex)
      ((points.take maxIndex.toNat).drop (minIndex - 1).toNat) := by
  rcases valid.exists_represents codes with ⟨cs, held, rfl⟩
  rcases held.slice low high interval with ⟨a, m, b, rfl, start, stop, -, middle, -⟩
  refine edited_of_represents (returns_shrink held start stop) ?_
  rw [← List.map_take, ← List.map_drop, ← middle]

theorem edited_substring (valid : Valid u) (codes : Codes u points) {startIndex endIndex : Int}
    (low : 1 ≤ startIndex) (high : endIndex ≤ u.count) (interval : startIndex ≤ endIndex + 1)
    (plain : ∀ i, startIndex ≤ i → i ≤ endIndex → ¬u.Supplementary i) :
    Edited (u.substring startIndex endIndex)
      ((points.take endIndex.toNat).drop (startIndex - 1).toNat) := by
  rcases valid.exists_represents codes with ⟨cs, held, rfl⟩
  rcases held.slice low high interval with ⟨a, m, b, rfl, start, stop, -, middle, -⟩
  refine edited_of_represents (returns_substring held start stop fun c mem => ?_) ?_
  · rcases List.mem_iff_getElem?.mp mem with ⟨k, at'⟩
    have bound := (List.getElem?_eq_some_iff.mp at').choose
    apply held.plain_of_not_supplementary (k := a.length + k)
    · rw [List.getElem?_append_right (Nat.le_add_right _ _), Nat.add_sub_cancel_left,
        List.getElem?_append_left bound]
      exact at'
    · exact plain _ (by omega) (by omega)
  · rw [← List.map_take, ← List.map_drop, ← middle]

theorem edited_removeHead (valid : Valid u) (codes : Codes u points) {n : Int} (nonneg : 0 ≤ n) :
    Edited (u.removeHead n) (points.drop n.toNat) := by
  rcases valid.exists_represents codes with ⟨cs, held, rfl⟩
  have count := held.count_eq
  by_cases more : n > u.count
  · refine edited_of_represents (returns_removeHead_all held more) ?_
    rw [List.drop_eq_nil_of_le (by rw [List.length_map]; omega)]
    rfl
  · rw [← List.take_append_drop n.toNat cs] at held
    refine edited_of_represents (returns_removeHead held ?_) List.map_drop
    rw [List.length_take]
    omega

theorem edited_removeTail (valid : Valid u) (codes : Codes u points) {n : Int} (nonneg : 0 ≤ n) :
    Edited (u.removeTail n) (points.take (u.count - n).toNat) := by
  rcases valid.exists_represents codes with ⟨cs, held, rfl⟩
  have count := held.count_eq
  by_cases more : n > u.count
  · refine edited_of_represents (returns_removeTail_all held more) ?_
    have none : (u.count - n).toNat = 0 := by omega
    rw [none]
    rfl
  · rw [← List.take_append_drop (u.count - n).toNat cs] at held
    refine edited_of_represents (returns_removeTail held ?_) List.map_take
    rw [List.length_drop]
    omega

theorem edited_insertCharacter (valid : Valid u) (codes : Codes u points) {unicode i : Int}
    (validCode : ValidUnicode unicode) (short : unicode < 65536) (low : 1 ≤ i)
    (high : i ≤ u.count + 1) :
    Edited (u.insertCharacter unicode i)
      (points.take (i - 1).toNat ++ unicode :: points.drop (i - 1).toNat) := by
  rcases valid.exists_represents codes with ⟨cs, held, rfl⟩
  have count := held.count_eq
  have oneCell := OneCell.of_valid validCode short
  rw [← List.take_append_drop (i - 1).toNat cs] at held
  refine edited_of_represents (returns_insertCharacter held oneCell ?_) ?_
  · rw [List.length_take]
    omega
  · rw [List.map_append, List.map_cons, oneCell.unicode_stored, List.map_take, List.map_drop]

theorem edited_swap (valid : Valid u) (codes : Codes u points) {i1 i2 : Int}
    (valid1 : 1 ≤ i1 ∧ i1 ≤ u.count) (valid2 : 1 ≤ i2 ∧ i2 ≤ u.count)
    (plain : i1 = i2 ∨ ¬u.Supplementary i1 ∧ ¬u.Supplementary i2) :
    Edited (u.swap i1 i2) (swapped points (i1 - 1).toNat (i2 - 1).toNat) := by
  rcases valid.exists_represents codes with ⟨cs, held, rfl⟩
  have count := held.count_eq
  have inside1 : (i1 - 1).toNat < cs.length := by omega
  have inside2 : (i2 - 1).toNat < cs.length := by omega
  have at1 := List.getElem?_eq_getElem inside1
  have at2 := List.getElem?_eq_getElem inside2
  have place1 : i1 = (i1 - 1).toNat + 1 := by omega
  have place2 : i2 = (i2 - 1).toNat + 1 := by omega
  rcases plain with same | ⟨plain1, plain2⟩
  · subst same
    rw [swapped_self]
    have split :
        cs = cs.take (i1 - 1).toNat ++ cs[(i1 - 1).toNat] :: cs.drop ((i1 - 1).toNat + 1) := by
      rw [List.getElem_cons_drop, List.take_append_drop]
    have length : i1 = (cs.take (i1 - 1).toNat).length + 1 := by
      rw [List.length_take]
      omega
    have held' := held
    rw [split] at held'
    have run := returns_swap_self held' length
    rw [← split] at run
    exact edited_of_represents run rfl
  · rw [place1] at plain1
    rw [place2] at plain2
    refine edited_of_represents (returns_swap held at1 at2 place1 place2
      (held.plain_of_not_supplementary at1 plain1)
      (held.plain_of_not_supplementary at2 plain2)) ?_
    unfold swapped
    rw [List.getElem?_map, List.getElem?_map, at1, at2, List.map_set, List.map_set]
    rfl

theorem edited_insertString (valid : Valid u) (codes : Codes u points) (valid' : Valid s)
    (codes' : Codes s points') {i : Int} (low : 1 ≤ i) (high : i ≤ u.count + 1)
    (plain' : ∀ j, ¬s.Supplementary j)
    (kept : s.count = 0 ∨ ∀ j, i ≤ j → ¬u.Supplementary j) :
    Edited (u.insertString (some s) i)
      (points.take (i - 1).toNat ++ (points' ++ points.drop (i - 1).toNat)) := by
  rcases valid.exists_represents codes with ⟨cs, held, rfl⟩
  rcases valid'.exists_represents codes' with ⟨ds, held', rfl⟩
  have count := held.count_eq
  have count' := held'.count_eq
  have plainD : ∀ d ∈ ds, d.low = none := by
    intro d mem
    rcases List.mem_iff_getElem?.mp mem with ⟨k, at'⟩
    exact held'.plain_of_not_supplementary at' (plain' _)
  have length : i = (cs.take (i - 1).toNat).length + 1 := by
    rw [List.length_take]
    omega
  have keptD : ds = [] ∨ ∀ c ∈ cs.drop (i - 1).toNat, c.low = none := by
    rcases kept with empty | plain
    · exact .inl (List.length_eq_zero_iff.mp (by omega))
    · right
      intro c mem
      rcases List.mem_iff_getElem?.mp mem with ⟨k, at'⟩
      rw [List.getElem?_drop] at at'
      exact held.plain_of_not_supplementary at' (plain _ (by omega))
  rw [← List.take_append_drop (i - 1).toNat cs] at held
  refine edited_of_represents
    (returns_insertString held (held'.insertable plainD) length plainD keptD) ?_
  rw [List.map_append, List.map_append, List.map_take, List.map_drop]

theorem edited_insertString_current (valid : Valid u) (codes : Codes u points) {i : Int}
    (low : 1 ≤ i) (high : i ≤ u.count + 1) (plain : ∀ j, ¬u.Supplementary j) :
    Edited (u.insertString none i)
      (points.take (i - 1).toNat ++ (points ++ points.drop (i - 1).toNat)) := by
  rcases valid.exists_represents codes with ⟨cs, held, rfl⟩
  have count := held.count_eq
  have plainC : ∀ c ∈ cs, c.low = none := by
    intro c mem
    rcases List.mem_iff_getElem?.mp mem with ⟨k, at'⟩
    exact held.plain_of_not_supplementary at' (plain _)
  have argument := held.insertable_current plainC
  have length : i = (cs.take (i - 1).toNat).length + 1 := by
    rw [List.length_take]
    omega
  rw [← List.take_append_drop (i - 1).toNat cs] at held
  refine edited_of_represents (returns_insertString held argument length plainC
    (.inr fun c mem => plainC c (List.mem_of_mem_drop mem))) ?_
  rw [List.map_append, List.map_append, List.map_take, List.map_drop]

end Edits

/-- **Structural edits.**  On a string that satisfies its invariant, the removals and
`shrink` edit the list of the code points and keep the invariant.  So do the insertions,
`swap` and `substring` where no entry of the tables has to be written; `reverse` is not
implemented and does not return. -/
theorem structural_edits {u s : UnicodeString} {points points' : List Int} (valid : Valid u)
    (codes : Codes u points) (valid' : Valid s) (codes' : Codes s points') :
    (∀ i j, 1 ≤ i → j ≤ u.count → i ≤ j + 1 →
      Edited (u.removeBetween i j) (points.take (i - 1).toNat ++ points.drop j.toNat)) ∧
    (∀ n, 0 ≤ n → Edited (u.removeHead n) (points.drop n.toNat)) ∧
    (∀ n, 0 ≤ n → Edited (u.removeTail n) (points.take (u.count - n).toNat)) ∧
    (∀ i j, 1 ≤ i → j ≤ u.count → i ≤ j + 1 →
      Edited (u.shrink i j) ((points.take j.toNat).drop (i - 1).toNat)) ∧
    (∀ i j, 1 ≤ i → j ≤ u.count → i ≤ j + 1 →
      (∀ k, i ≤ k → k ≤ j → ¬u.Supplementary k) →
      Edited (u.substring i j) ((points.take j.toNat).drop (i - 1).toNat)) ∧
    (∀ unicode i, ValidUnicode unicode → unicode < 65536 → 1 ≤ i → i ≤ u.count + 1 →
      Edited (u.insertCharacter unicode i)
        (points.take (i - 1).toNat ++ unicode :: points.drop (i - 1).toNat)) ∧
    (∀ i j, 1 ≤ i ∧ i ≤ u.count → 1 ≤ j ∧ j ≤ u.count →
      i = j ∨ ¬u.Supplementary i ∧ ¬u.Supplementary j →
      Edited (u.swap i j) (swapped points (i - 1).toNat (j - 1).toNat)) ∧
    (∀ i, 1 ≤ i → i ≤ u.count + 1 → (∀ j, ¬s.Supplementary j) →
      s.count = 0 ∨ (∀ j, i ≤ j → ¬u.Supplementary j) →
      Edited (u.insertString (some s) i)
        (points.take (i - 1).toNat ++ (points' ++ points.drop (i - 1).toNat))) ∧
    (∀ i, 1 ≤ i → i ≤ u.count + 1 → (∀ j, ¬u.Supplementary j) →
      Edited (u.insertString none i)
        (points.take (i - 1).toNat ++ (points ++ points.drop (i - 1).toNat))) ∧
    u.reverse = none :=
  ⟨fun _ _ low high interval => edited_removeBetween valid codes low high interval,
    fun _ nonneg => edited_removeHead valid codes nonneg,
    fun _ nonneg => edited_removeTail valid codes nonneg,
    fun _ _ low high interval => edited_shrink valid codes low high interval,
    fun _ _ low high interval plain => edited_substring valid codes low high interval plain,
    fun _ _ validCode short low high =>
      edited_insertCharacter valid codes validCode short low high,
    fun _ _ valid1 valid2 plain => edited_swap valid codes valid1 valid2 plain,
    fun _ low high plain' kept =>
      edited_insertString valid codes valid' codes' low high plain' kept,
    fun _ low high plain => edited_insertString_current valid codes low high plain, rfl⟩

theorem codes_single (cell low : BitVec 16) {n : Int} (read : (single cell low).item 1 = some n) :
    Codes (single cell low) [n] := by
  refine ⟨rfl, fun i low high => ?_⟩
  have first : i = 1 := Int.le_antisymm high low
  rw [first, read]
  rfl

/-- The supplementary character U+1F600 alone, and the letter A before it. -/
theorem structural_edits_single :
    Edited ((single 0xD83D 0x200).insertCharacter 0x41 1) [0x41, 0x1F600] ∧
      Edited ((single 0xD83D 0x200).removeBetween 1 1) [] := by
  have codes := codes_single 0xD83D 0x200 (n := 0x1F600) rfl
  have valid := single_valid 0xD83D 0x200
  have edits := structural_edits valid codes valid codes
  exact ⟨edits.2.2.2.2.2.1 0x41 1 (by decide) (by decide) (by decide) (by decide),
    edits.1 1 1 (by decide) (by decide) (by decide)⟩

/-- `reverse` of the string of U+1F600 does not return, and its `substring` of one character
has the index 0 in its table. -/
theorem not_structural_edits :
    Valid (single 0xD83D 0x200) ∧ Codes (single 0xD83D 0x200) [0x1F600] ∧
      ¬Edited ((single 0xD83D 0x200).reverse) [0x1F600] ∧
      ¬Edited ((single 0xD83D 0x200).substring 1 1) [0x1F600] := by
  refine ⟨single_valid _ _, codes_single _ _ rfl, fun edited => ?_, fun edited => ?_⟩
  · rcases edited with ⟨u, run, -⟩
    cases run
  · rcases edited with ⟨u, run, valid, -⟩
    have table : ((single 0xD83D 0x200).substring 1 1).map lowSurrogateIndexes = some [0] := rfl
    rw [run] at table
    have entry : (0 : Int) ∈ u.lowSurrogateIndexes := by
      rw [Option.some.inj table]
      exact List.mem_singleton_self 0
    exact absurd ((valid.marked_iff 0).mp entry).1 (by decide)

end UnicodeString

end Liberty
