import Liberty.Text.SurrogateTable

/-!
# The operations of UNICODE_STRING on the characters stored

Each operation, as the edit that it makes of the list of characters.  A supplementary
character that is in the string stays what it is; one that is written is not covered.
-/

namespace Liberty

namespace UnicodeString

open Stored

variable {u : UnicodeString} {cs a b : List Stored} {c : Stored}

/-! ## Growth -/

/-- A string that has grown, its new characters still to be written. -/
structure Grown (u : UnicodeString) (newCount : Int) (u' : UnicodeString) : Prop where
  size_eq : u'.storage.size = u'.capacity
  count_eq : u'.count = newCount
  count_le : newCount ≤ u'.capacity
  cell_eq : ∀ i, 0 ≤ i → i < u.count → u'.storage.cell i = u.storage.cell i
  indexes_eq : u'.lowSurrogateIndexes = u.lowSurrogateIndexes
  values_eq : u'.lowSurrogateValues = u.lowSurrogateValues
  new_eq : newCount = u.count + 1 → u'.storage.cell u.count = 0

theorem returns_resizeStorage (size : u.storage.size = u.capacity) (nonneg : 0 ≤ u.count)
    (le : u.count ≤ u.capacity) {newCount : Int} (more : u.count ≤ newCount) :
    Returns
      (if newCount ≤ u.count then some u
      else if u.capacity < newCount then
        if u.capacity = 0 then
          some { u with storage := .calloc newCount, capacity := newCount }
        else
          some { u with storage := u.storage.realloc u.capacity newCount, capacity := newCount }
      else do return { u with storage := ← u.storage.clear u.count (newCount - 1) })
      fun u' => Grown u newCount { u' with count := newCount } := by
  split
  · rw [Returns.some_iff]
    exact ⟨size, rfl, by dsimp only; omega, fun _ _ _ => rfl, rfl, rfl, by omega⟩
  · split
    · split
      · rw [Returns.some_iff]
        exact ⟨rfl, rfl, Int.le_refl _, fun i low high => by omega, rfl, rfl, fun _ => rfl⟩
      · rw [Returns.some_iff]
        refine ⟨rfl, rfl, Int.le_refl _, fun i low high => if_pos (by omega), rfl, rfl,
          fun one => if_neg (by omega)⟩
    · rw [Returns.bind_iff]
      refine NativeArray.returns_setSliceWith (fun _ => by omega) ?_
      rw [Returns.pure_iff]
      exact ⟨size, rfl, by dsimp only; omega, fun i low high => if_neg (by omega), rfl, rfl,
        fun one => if_pos (by omega)⟩

theorem returns_resize (size : u.storage.size = u.capacity) (nonneg : 0 ≤ u.count)
    (le : u.count ≤ u.capacity) {newCount : Int} (more : u.count ≤ newCount)
    (inside : ∀ i ∈ u.lowSurrogateIndexes, i ≤ newCount) :
    Returns (u.resize newCount) (Grown u newCount) := by
  refine (returns_resizeStorage size nonneg le more).bind ?_
  intro u' grown
  have indexes : u'.lowSurrogateIndexes = u.lowSurrogateIndexes := grown.indexes_eq
  rw [Returns.bind_iff]
  -- no index is beyond the new count, and the loop makes no round
  refine returns_untilLoop
    (fun s => s = (u'.lowSurrogateIndexes, u'.lowSurrogateValues,
      FastArray.upper u'.lowSurrogateIndexes)) (fun _ => 0) rfl (Nat.zero_le _) ?_
  intro s same
  subst same
  have stop : Returns
      (if FastArray.upper u'.lowSurrogateIndexes < 0 then some true
      else do
        return decide ((← FastArray.item u'.lowSurrogateIndexes
          (FastArray.upper u'.lowSurrogateIndexes)) ≤ newCount)) fun stopped => stopped = true := by
    unfold FastArray.upper
    split
    · exact Returns.some_iff.mpr rfl
    · have last : u'.lowSurrogateIndexes.length - 1 < u'.lowSurrogateIndexes.length := by omega
      rw [FastArray.item_of_lt (by omega) (by omega), Returns.bind_iff, Returns.some_iff,
        Returns.pure_iff, decide_eq_true_eq]
      apply inside
      rw [← indexes]
      exact List.getElem_mem _
  refine stop.mono ?_
  intro stopped isTrue
  rw [if_pos isTrue, Returns.pure_iff]
  exact grown

/-! ## One character -/

/-- The code points that one cell holds. -/
def OneCell (n : Int) : Prop :=
  0 ≤ n ∧ n < 65536 ∧ ¬(0xD800 ≤ n ∧ n ≤ 0xDFFF)

/-- The character of a code point that one cell holds. -/
def OneCell.stored {n : Int} (h : OneCell n) : Stored :=
  .plain n h.1 h.2.1 h.2.2

@[simp] theorem OneCell.unicode_stored {n : Int} (h : OneCell n) : h.stored.unicode = n :=
  Stored.unicode_plain h.1 h.2.1 h.2.2

theorem oneCell_zero : OneCell 0 :=
  ⟨by decide, by decide, by decide⟩

theorem OneCell.of_valid {n : Int} (valid : ValidUnicode n) (short : n < 65536) : OneCell n :=
  ⟨valid.1.1, short, valid.2.1⟩

/-- The high part of a supplementary code point in a cell is not what `item` reads as this code
point. -/
theorem item_ne_of_highSurrogate {n i : Int} (valid : ValidUnicode n) (supplementary : 0x10000 ≤ n)
    (cell : u.storage.cell (i - 1) = low16 (highSurrogate n)) : u.item i ≠ some n := by
  have most := valid.1.2
  have short : OneCell (highSurrogate n) := by
    unfold OneCell highSurrogate
    omega
  have plain : ¬IsSurrogate short.stored.cell := not_isSurrogate_low16 short.1 short.2.1 short.2.2
  intro same
  obtain ⟨x, read, same⟩ := Option.bind_eq_some_iff.mp same
  unfold NativeArray.item at read
  split at read
  · obtain rfl : x = short.stored.cell := (Option.some.inj read).symm.trans cell
    rw [if_neg (mt (signExtend_marked_iff _).mp plain)] at same
    have value : highSurrogate n = n := short.unicode_stored.symm.trans (Option.some.inj same)
    unfold highSurrogate at value
    omega
  · cases read

/-- The cell of another character is written, and the entry of the former one is already
out of the tables. -/
theorem Represents.setCell (h : Represents u (a ++ c :: b)) (d : Stored) {indexes' : List Int}
    {values' : List (BitVec 16)} (tables : indexes' = indexes 1 (a ++ d :: b))
    (tables' : values' = values (a ++ d :: b)) :
    Represents
      { u with
        storage := u.storage.set d.cell a.length
        lowSurrogateIndexes := indexes'
        lowSurrogateValues := values' }
      (a ++ d :: b) := by
  have count := h.count_eq
  refine ⟨h.size_eq, ?_, h.count_le, fun k e at' => ?_, tables, tables'⟩
  · rw [List.length_append, List.length_cons] at count ⊢
    exact count
  · rw [NativeArray.cell_set]
    by_cases here : k = a.length
    · rw [if_pos (by omega)]
      rw [here, List.getElem?_append_right (Nat.le_refl _), Nat.sub_self,
        List.getElem?_cons_zero] at at'
      cases at'
      rfl
    · rw [if_neg (by omega)]
      apply h.cell_eq
      rw [← at']
      by_cases before : k < a.length
      · rw [List.getElem?_append_left before, List.getElem?_append_left before]
      · have shift : k - a.length = (k - a.length - 1) + 1 := by omega
        rw [List.getElem?_append_right (by omega), List.getElem?_append_right (by omega), shift,
          List.getElem?_cons_succ, List.getElem?_cons_succ]

theorem Stored.indexes_set_plain (start : Int) {n : Int} (h : OneCell n) (a b : List Stored) :
    indexes start (a ++ h.stored :: b) =
      indexes start a ++ indexes (start + a.length + 1) b := by
  rw [indexes_append, indexes_cons]
  rfl

theorem Stored.values_set_plain {n : Int} (h : OneCell n) (a b : List Stored) :
    values (a ++ h.stored :: b) = values a ++ values b := by
  rw [values_append]
  rfl

/-- `put` of a code point that one cell holds, over any character. -/
theorem returns_put (h : Represents u (a ++ c :: b)) {n i : Int} (short : OneCell n)
    (position : i = a.length + 1) :
    Returns (u.put n i) fun u' => Represents u' (a ++ short.stored :: b) := by
  have inside := h.inBounds (k := a.length) (by simp)
  have cell := h.cell_eq a.length c (by simp)
  have place : i - 1 = a.length := by omega
  have high := short.2.1
  unfold put
  rw [if_neg (by omega), place, Returns.bind_iff, NativeArray.returns_item]
  refine ⟨inside, ?_⟩
  rw [Returns.bind_iff, cell]
  cases low : c.low with
  | none =>
    have plain : ¬IsSurrogate c.cell := by
      rw [← c.marked_iff, low]
      exact Bool.false_ne_true
    rw [if_neg plain, Returns.some_iff, Returns.bind_iff, NativeArray.returns_put]
    refine ⟨inside, Returns.pure_iff.mpr (h.setCell short.stored ?_ ?_)⟩
    · rw [h.indexes_eq, Stored.indexes_set_plain, indexes_append, indexes_cons, low]
      rfl
    · rw [h.values_eq, Stored.values_set_plain, values_append]
      unfold values
      rw [List.filterMap_cons, low]
  | some l =>
    have marked : c.low.isSome := by rw [low]; rfl
    have found : u.lowSurrogateIndex i = (indexes 1 a).length := by
      unfold lowSurrogateIndex FastArray.fastFirstIndexOf
      have same : i = 1 + a.length := by omega
      rw [h.indexes_eq, same, idxOf_indexes 1 marked]
    have tableI : u.lowSurrogateIndexes =
        indexes 1 a ++ (1 + a.length : Int) :: indexes (1 + a.length + 1) b := by
      rw [h.indexes_eq, indexes_append, indexes_cons, if_pos marked]
    have tableV : u.lowSurrogateValues = values a ++ l :: values b := by
      rw [h.values_eq, values_append]
      unfold values
      rw [List.filterMap_cons, low]
    have lengthV := length_values 1 a
    rw [if_pos (c.marked_iff.mp marked), found]
    dsimp only
    rw [FastArray.remove_natCast (by rw [tableI]; simp), Returns.bind_iff, Returns.some_iff,
      FastArray.remove_natCast (by rw [tableV, ← lengthV]; simp), Returns.bind_iff,
      Returns.some_iff, Returns.pure_iff, Returns.bind_iff, NativeArray.returns_put]
    refine ⟨inside, Returns.pure_iff.mpr (h.setCell short.stored ?_ ?_)⟩
    · rw [tableI, List.eraseIdx_append_of_length_le (Nat.le_refl _), Nat.sub_self,
        Stored.indexes_set_plain]
      rfl
    · rw [tableV, ← lengthV, List.eraseIdx_append_of_length_le (Nat.le_refl _), Nat.sub_self,
        Stored.values_set_plain]
      rfl

/-- `extend` with a code point that one cell holds. -/
theorem returns_extend (h : Represents u cs) {n : Int} (short : OneCell n) :
    Returns (u.extend n) fun u' => Represents u' (cs ++ [short.stored]) := by
  have size := h.size_eq
  have count := h.count_eq
  have le := h.count_le
  have high := short.2.1
  have reserved : u.reserve.storage.size = u.reserve.capacity ∧
      u.reserve.count < u.reserve.capacity ∧ u.reserve.count = u.count ∧
      (∀ i, 0 ≤ i → i < u.count → u.reserve.storage.cell i = u.storage.cell i) ∧
      u.reserve.lowSurrogateIndexes = u.lowSurrogateIndexes ∧
      u.reserve.lowSurrogateValues = u.lowSurrogateValues := by
    unfold reserve
    split
    · exact ⟨size, by omega, rfl, fun _ _ _ => rfl, rfl, rfl⟩
    · split
      · exact ⟨rfl, by dsimp only; omega, rfl, fun i _ _ => by omega, rfl, rfl⟩
      · exact ⟨rfl, by dsimp only; omega, rfl, fun i _ _ => if_pos (by omega), rfl, rfl⟩
  obtain ⟨size', room, count', cells, indexes', values'⟩ := reserved
  unfold extend
  rw [if_neg (by omega), Returns.bind_iff, NativeArray.returns_put, Returns.pure_iff]
  refine ⟨by omega, size', ?_, by dsimp only; omega, fun k d at' => ?_, ?_, ?_⟩
  · rw [List.length_append, List.length_singleton]
    dsimp only
    omega
  · change (u.reserve.storage.set (low16 n) u.reserve.count).cell k = d.cell
    rw [NativeArray.cell_set]
    by_cases here : k < cs.length
    · rw [if_neg (by omega), cells k (by omega) (by omega)]
      rw [List.getElem?_append_left here] at at'
      exact h.cell_eq k d at'
    · have bound := (List.getElem?_eq_some_iff.mp at').choose
      rw [List.length_append, List.length_singleton] at bound
      have last : k - cs.length = 0 := by omega
      rw [List.getElem?_append_right (by omega), last] at at'
      cases at'
      rw [if_pos (by omega)]
      rfl
  · rw [indexes', h.indexes_eq, Stored.indexes_set_plain, indexes_nil, List.append_nil]
  · rw [values', h.values_eq, Stored.values_set_plain, values_nil, List.append_nil]

/-! ## Insertion of a character -/

/-- The cells of `b` leave room for one character, whose entry is not in the tables. -/
theorem returns_openCell (size : u.storage.size = u.capacity) (count : u.count ≤ u.capacity)
    (length : u.count = a.length + b.length + 1)
    (cells : ∀ (k : ℕ) (d : Stored), (a ++ b)[k]? = some d → u.storage.cell k = d.cell)
    (new : u.storage.cell (a.length + b.length : Int) = 0)
    (tables : u.lowSurrogateIndexes = indexes 1 a ++ indexes (1 + a.length + 1) b)
    (tables' : u.lowSurrogateValues = values a ++ values b) :
    Returns (u.openCell (a.length + 1)) fun u' =>
      Represents u' (a ++ oneCell_zero.stored :: b) := by
  have total : u.count = ((a ++ oneCell_zero.stored :: b).length : ℕ) := by
    rw [List.length_append, List.length_cons]
    omega
  have tablesI := tables.trans (Stored.indexes_set_plain 1 oneCell_zero a b).symm
  have tablesV := tables'.trans (Stored.values_set_plain oneCell_zero a b).symm
  unfold openCell
  have place : (a.length : Int) + 1 - 1 = a.length := by omega
  rw [place]
  split
  · unfold NativeArray.move
    rw [Returns.bind_iff]
    apply NativeArray.returns_sliceCopy (fun _ => by omega)
    intro storage sizeS moved kept
    rw [Returns.bind_iff, NativeArray.returns_put, Returns.pure_iff]
    refine ⟨by omega, ⟨sizeS.trans size, total, count, fun k d at' => ?_, tablesI, tablesV⟩⟩
    rw [NativeArray.cell_set]
    by_cases here : k = a.length
    · rw [here, List.getElem?_append_right (Nat.le_refl _), Nat.sub_self] at at'
      cases at'
      rw [if_pos (by omega)]
      rfl
    · rw [if_neg (by omega)]
      by_cases before : k < a.length
      · rw [List.getElem?_append_left before] at at'
        rw [kept k (by omega)]
        apply cells
        rwa [List.getElem?_append_left before]
      · have bound := (List.getElem?_eq_some_iff.mp at').choose
        have shift : k - a.length = (k - 1 - a.length) + 1 := by omega
        rw [List.getElem?_append_right (by omega), shift, List.getElem?_cons_succ] at at'
        rw [moved k (by omega) (by omega)]
        have source : (a.length : Int) + k - (a.length + 1) = ((k - 1 : ℕ) : Int) := by omega
        rw [source]
        apply cells
        rwa [List.getElem?_append_right (by omega)]
  · have emptyA : a = [] := List.length_eq_zero_iff.mp (by omega)
    have emptyB : b = [] := List.length_eq_zero_iff.mp (by omega)
    subst emptyA emptyB
    rw [Returns.some_iff]
    refine ⟨size, total, count, fun k d at' => ?_, tablesI, tablesV⟩
    have only : k = 0 := by
      have := (List.getElem?_eq_some_iff.mp at').choose
      simpa using this
    subst only
    cases at'
    exact new

/-- The indexes from `b` on are those of the string with one more character. -/
theorem returns_insertion (h : Represents u (a ++ b)) {n : Int} (short : OneCell n) :
    Returns (do
      let u ← u.incrementIndexes (indexes 1 a).length
      let u ← u.resize (u.count + 1)
      let u ← u.openCell (a.length + 1)
      u.put n (a.length + 1)) fun u' => Represents u' (a ++ short.stored :: b) := by
  have size := h.size_eq
  have count := h.count_eq
  have le := h.count_le
  have tables := h.indexes_eq
  have tables' := h.values_eq
  rw [indexes_append] at tables
  rw [values_append] at tables'
  rw [List.length_append] at count
  have shifted : (indexes (1 + a.length) b).map (· + 1) = indexes (1 + a.length + 1) b :=
    (indexes_add _ 1 b).symm
  rw [returns_incrementIndexes tables, Returns.bind_iff, Returns.some_iff, shifted]
  have more : u.count ≤ u.count + 1 := by omega
  have nonneg : 0 ≤ u.count := by omega
  let v : UnicodeString :=
    { u with lowSurrogateIndexes := indexes 1 a ++ indexes (1 + a.length + 1) b }
  refine (returns_resize (u := v) size nonneg le more fun i mem => ?_).bind ?_
  · change i ≤ u.count + 1
    rcases List.mem_append.mp mem with inA | inB
    · have := indexes_bounds inA
      omega
    · have := indexes_bounds inB
      omega
  · intro w grown
    have countV : w.count = u.count + 1 := grown.count_eq
    have roomV : u.count + 1 ≤ w.capacity := grown.count_le
    have newV : w.storage.cell u.count = 0 := grown.new_eq rfl
    rw [count] at newV
    refine (returns_openCell (a := a) (b := b) grown.size_eq (by omega) (by omega)
      (fun k d at' => ?_) (by exact_mod_cast newV) grown.indexes_eq
      (grown.values_eq.trans tables')).bind ?_
    · have bound := (List.getElem?_eq_some_iff.mp at').choose
      rw [List.length_append] at bound
      rw [grown.cell_eq k (by omega) (by change (k : Int) < u.count; omega)]
      exact h.cell_eq k d at'
    · intro x opened
      exact returns_put opened short rfl

theorem returns_insertCharacter (h : Represents u (a ++ b)) {n i : Int} (short : OneCell n)
    (position : i = a.length + 1) :
    Returns (u.insertCharacter n i) fun u' => Represents u' (a ++ short.stored :: b) := by
  have tables := h.indexes_eq
  rw [indexes_append] at tables
  unfold insertCharacter
  rw [position, returns_lowSurrogatePosition tables, Returns.bind_iff, Returns.some_iff]
  · exact returns_insertion h short
  · intro j mem
    have := indexes_bounds mem
    omega
  · intro j mem
    have := indexes_bounds mem
    omega

theorem returns_addFirst (h : Represents u cs) {n : Int} (short : OneCell n) :
    Returns (u.addFirst n) fun u' => Represents u' (short.stored :: cs) :=
  @returns_insertion u [] cs h n short

/-! ## Append -/

/-- The cells of `b` written after those of `a`. -/
theorem cells_append {storage : NativeArray (BitVec 16)}
    (first : ∀ (k : ℕ) (d : Stored), a[k]? = some d → storage.cell k = d.cell)
    (second : ∀ (k : ℕ) (d : Stored), b[k]? = some d → storage.cell (a.length + k : Int) = d.cell)
    (k : ℕ) (d : Stored) (at' : (a ++ b)[k]? = some d) : storage.cell k = d.cell := by
  by_cases before : k < a.length
  · rw [List.getElem?_append_left before] at at'
    exact first k d at'
  · rw [List.getElem?_append_right (by omega)] at at'
    have same : (k : Int) = a.length + ((k - a.length : ℕ) : Int) := by omega
    rw [same]
    exact second _ d at'

/-- The storage of `append`, once the cells of the argument are copied. -/
theorem returns_appendCells {w : UnicodeString} (h : Represents u a)
    (sizeW : w.storage.size = w.capacity) (room : (a.length : Int) + b.length ≤ w.capacity)
    (cells : ∀ i, 0 ≤ i → i < u.count → w.storage.cell i = u.storage.cell i)
    {source : NativeArray (BitVec 16)} (inside : (b.length : Int) ≤ source.size)
    (cells' : ∀ (k : ℕ) (d : Stored), b[k]? = some d → source.cell k = d.cell)
    {start number : Int} (startEq : start = a.length) (numberEq : number = b.length) :
    Returns (w.storage.copyAt start source number) fun storage =>
      storage.size = w.capacity ∧
        ∀ (k : ℕ) (d : Stored), (a ++ b)[k]? = some d → storage.cell k = d.cell := by
  have count := h.count_eq
  subst startEq numberEq
  apply NativeArray.returns_sliceCopy (fun _ => by omega)
  intro storage size copied kept
  refine ⟨size.trans sizeW, cells_append (fun k d at' => ?_) fun k d at' => ?_⟩
  · have bound := (List.getElem?_eq_some_iff.mp at').choose
    rw [kept k (by omega), cells k (by omega) (by omega)]
    exact h.cell_eq k d at'
  · have bound := (List.getElem?_eq_some_iff.mp at').choose
    rw [copied _ (by omega) (by omega)]
    have same : (0 : Int) + (a.length + k) - a.length = k := by omega
    rw [same]
    exact cells' k d at'

/-- `w` is `u` in a storage with room for `needed` characters. -/
structure Roomy (u : UnicodeString) (needed : Int) (w : UnicodeString) : Prop where
  size_eq : w.storage.size = w.capacity
  needed_le : needed ≤ w.capacity
  count_eq : w.count = u.count
  cell_eq : ∀ i, 0 ≤ i → i < u.count → w.storage.cell i = u.storage.cell i
  indexes_eq : w.lowSurrogateIndexes = u.lowSurrogateIndexes
  values_eq : w.lowSurrogateValues = u.lowSurrogateValues

theorem Represents.reserveFor (h : Represents u a) {needed : Int} (more : u.count ≤ needed) :
    Roomy u needed (u.reserveFor needed) := by
  have le := h.count_le
  unfold UnicodeString.reserveFor
  split
  · split
    · exact ⟨rfl, Int.le_refl _, rfl, fun i _ _ => by omega, rfl, rfl⟩
    · exact ⟨rfl, Int.le_max_right _ _, rfl, fun i _ _ => if_pos (by omega), rfl, rfl⟩
  · exact ⟨h.size_eq, by omega, rfl, fun _ _ _ => rfl, rfl, rfl⟩

theorem returns_append {s : UnicodeString} (h : Represents u a) (h' : Represents s b) :
    Returns (u.append (some s)) fun u' => Represents u' (a ++ b) := by
  have count := h.count_eq
  have countS := h'.count_eq
  have inside := h'.count_le
  have sizeS := h'.size_eq
  have roomy := h.reserveFor (show u.count ≤ u.count + s.count by omega)
  have room := roomy.needed_le
  have countW := roomy.count_eq
  unfold append
  dsimp only [Option.getD_some]
  generalize u.reserveFor (u.count + s.count) = w at roomy room countW ⊢
  rw [Returns.bind_iff]
  refine (returns_appendCells h roomy.size_eq (by omega) roomy.cell_eq (by omega)
    h'.cell_eq (by omega) countS).mono ?_
  intro storage ⟨sizeT, cells⟩
  rw [Returns.bind_iff]
  have shifted : (indexes 1 b).map (· + (a.length : Int)) = indexes (1 + a.length) b :=
    (indexes_add 1 a.length b).symm
  -- the entries of the argument come one after the other
  refine returns_untilLoop
    (fun t : UnicodeString × Int => ∃ n : ℕ, t.2 = n ∧ n ≤ (indexes 1 b).length ∧
      t.1 = { w with
        storage
        lowSurrogateIndexes :=
          indexes 1 a ++ ((indexes 1 b).take n).map (· + (a.length : Int))
        lowSurrogateValues := values a ++ (values b).take n })
    (fun t => (indexes 1 b).length - t.2.toNat)
    ⟨0, rfl, Nat.zero_le _, ?_⟩ ?_ ?_
  · rw [List.take_zero, List.take_zero, List.map_nil, List.append_nil, List.append_nil,
      ← h.indexes_eq, ← h.values_eq, ← roomy.indexes_eq, ← roomy.values_eq]
  · rw [h'.indexes_eq]
    omega
  · intro (t, i) ⟨n, position, bound, content⟩
    subst position content
    have lengthV := length_values 1 b
    have upper : FastArray.upper s.lowSurrogateIndexes = (indexes 1 b).length - 1 := by
      rw [h'.indexes_eq]
      rfl
    rw [Returns.some_iff]
    split
    · rename_i stopped
      rw [decide_eq_true_eq] at stopped
      have all : n = (indexes 1 b).length := by omega
      rw [Returns.pure_iff, all, List.take_length, ← lengthV, List.take_length, shifted]
      refine ⟨sizeT, ?_, ?_, cells, ?_, ?_⟩
      · rw [List.length_append]
        dsimp only
        omega
      · dsimp only
        omega
      · exact (indexes_append 1 a b).symm
      · exact (values_append a b).symm
    · rename_i going
      rw [decide_eq_true_eq] at going
      have more : n < (indexes 1 b).length := by omega
      have moreV : n < (values b).length := by omega
      rw [h'.indexes_eq, h'.values_eq, FastArray.item_natCast, List.getElem?_eq_getElem more, Returns.bind_iff,
        Returns.some_iff, FastArray.item_natCast, List.getElem?_eq_getElem moreV,
        Returns.bind_iff, Returns.some_iff, Returns.pure_iff]
      refine ⟨⟨n + 1, rfl, more, ?_⟩, ?_⟩
      · rw [← List.take_append_getElem more, ← List.take_append_getElem moreV, List.map_append,
          ← List.append_assoc, ← List.append_assoc, countW, count]
        rfl
      · dsimp only
        omega

/-- `append` of a string to itself, when no table grows under the loop. -/
theorem returns_append_current (h : Represents u a) (plain : ∀ c ∈ a, c.low = none) :
    Returns (u.append none) fun u' => Represents u' (a ++ a) := by
  have count := h.count_eq
  have roomy := h.reserveFor (show u.count ≤ u.count + u.count by omega)
  have room := roomy.needed_le
  have countW := roomy.count_eq
  have empty := (@indexes_eq_nil_iff 1 a).mpr plain
  have emptyV : values a = [] := List.eq_nil_of_length_eq_zero (by rw [length_values 1, empty]; rfl)
  have indexesW := roomy.indexes_eq.trans (h.indexes_eq.trans empty)
  have valuesW := roomy.values_eq.trans (h.values_eq.trans emptyV)
  unfold append
  dsimp only [Option.getD_none]
  generalize u.reserveFor (u.count + u.count) = w at roomy room countW indexesW valuesW ⊢
  have sizeW := roomy.size_eq
  rw [Returns.bind_iff]
  refine (returns_appendCells (b := a) h sizeW (by omega) roomy.cell_eq (by omega)
    (fun k d at' => ?_) (by omega) count).mono ?_
  · have bound := (List.getElem?_eq_some_iff.mp at').choose
    rw [roomy.cell_eq k (by omega) (by omega)]
    exact h.cell_eq k d at'
  intro storage ⟨sizeT, cells⟩
  rw [Returns.bind_iff, indexesW]
  refine returns_untilLoop (fun t => t = ({ w with storage, lowSurrogateIndexes := [] }, 0))
    (fun _ => 0) rfl (Nat.zero_le _) ?_
  intro t same
  subst same
  have stops : (0 : Int) > FastArray.upper ([] : List Int) := by decide
  rw [Returns.some_iff, if_pos (decide_eq_true stops), Returns.pure_iff]
  refine ⟨sizeT, ?_, ?_, cells, ?_, ?_⟩
  · rw [List.length_append]
    dsimp only
    omega
  · dsimp only
    omega
  · rw [indexes_append, empty, (@indexes_eq_nil_iff (1 + a.length) a).mpr plain]
    rfl
  · rw [values_append, emptyV]
    exact valuesW

/-! ## Creation -/

theorem represents_make {needed : Int} (nonneg : 0 ≤ needed) :
    Represents (blank.make needed) [] := by
  unfold make
  split
  · exact ⟨rfl, rfl, nonneg, nofun, rfl, rfl⟩
  · exact ⟨rfl, rfl, Int.le_refl _, nofun, rfl, rfl⟩

theorem capacity_make {needed : Int} (nonneg : 0 ≤ needed) :
    (blank.make needed).capacity = needed := by
  unfold make
  split
  · rfl
  · rename_i none
    have zero : ¬needed > 0 := fun positive => none ⟨positive, positive⟩
    change 0 = needed
    omega

theorem cell_make (needed i : Int) : (blank.make needed).storage.cell i = 0 := by
  unfold make
  split <;> rfl

/-- A new string whose cells are still those of a new storage. -/
theorem represents_make_count {n : Int} (nonneg : 0 ≤ n) :
    Represents { blank.make n with count := n } (.replicate n.toNat oneCell_zero.stored) := by
  have made := represents_make nonneg
  have capacity := capacity_make nonneg
  have plain : ∀ c ∈ List.replicate n.toNat oneCell_zero.stored, c.low = none := by
    intro c mem
    rw [(List.mem_replicate.mp mem).2]
    rfl
  refine ⟨made.size_eq, ?_, ?_, fun k c at' => ?_, ?_, ?_⟩
  · rw [List.length_replicate]
    dsimp only
    omega
  · dsimp only
    omega
  · rw [(List.mem_replicate.mp (List.mem_of_getElem? at')).2]
    exact cell_make n k
  · rw [indexes_eq_nil_iff.mpr plain]
    exact made.indexes_eq
  · have empty := length_values 1 (List.replicate n.toNat oneCell_zero.stored)
    rw [indexes_eq_nil_iff.mpr plain] at empty
    rw [List.eq_nil_of_length_eq_zero empty]
    exact made.values_eq

theorem returns_fillWith (h : Represents u cs) {n : Int} (short : OneCell n) :
    Returns (u.fillWith n) fun u' => Represents u' (.replicate cs.length short.stored) := by
  have size := h.size_eq
  have count := h.count_eq
  have le := h.count_le
  have high := short.2.1
  have plain : ∀ c ∈ List.replicate cs.length short.stored, c.low = none := by
    intro c mem
    rw [(List.mem_replicate.mp mem).2]
    rfl
  unfold fillWith NativeArray.setAllWith
  rw [if_neg (by omega), Returns.bind_iff]
  refine NativeArray.returns_setSliceWith (fun _ => by omega) ?_
  rw [Returns.pure_iff]
  refine ⟨size, ?_, le, fun k c at' => ?_, ?_, ?_⟩
  · rw [List.length_replicate]
    exact count
  · have bound := (List.getElem?_eq_some_iff.mp at').choose
    rw [List.length_replicate] at bound
    rw [(List.mem_replicate.mp (List.mem_of_getElem? at')).2]
    exact if_pos (by omega)
  · rw [indexes_eq_nil_iff.mpr plain]
    exact FastArray.resize_of_le (Nat.zero_le _)
  · have empty := length_values 1 (List.replicate cs.length short.stored)
    rw [indexes_eq_nil_iff.mpr plain] at empty
    rw [List.eq_nil_of_length_eq_zero empty]
    exact FastArray.resize_of_le (Nat.zero_le _)

/-- There is nothing to fill in an empty string. -/
theorem returns_fillWith_nil (h : Represents u []) (n : Int) :
    Returns (u.fillWith n) fun u' => Represents u' [] := by
  have count : u.count = 0 := h.count_eq
  have indexes' := h.indexes_eq
  have values' := h.values_eq
  unfold fillWith NativeArray.setAllWith
  split
  · rw [Returns.bind_iff]
    refine NativeArray.returns_setSliceWith (fun _ => by omega) ?_
    rw [Returns.bind_iff, count, indexes', values']
    have room := h.count_le
    rw [count] at room
    exact ⟨_, rfl, Returns.pure_iff.mpr ⟨h.size_eq, rfl, room, nofun, rfl, rfl⟩⟩
  · rw [Returns.bind_iff]
    refine NativeArray.returns_setSliceWith (fun _ => by omega) ?_
    rw [Returns.pure_iff, indexes', values']
    exact ⟨h.size_eq, count, h.count_le, nofun, rfl, rfl⟩

theorem returns_copy (h : Represents u cs) :
    Returns (blank.copy u) fun u' => Represents u' cs := by
  have size := h.size_eq
  have count := h.count_eq
  have le := h.count_le
  have capacity : blank.capacity = 0 := rfl
  unfold copy
  dsimp only
  split
  · rw [if_pos (by omega), Returns.bind_iff, Returns.bind_iff]
    apply NativeArray.returns_sliceCopy (fun _ => by dsimp only [NativeArray.size_calloc]; omega)
    intro storage sizeS copied kept
    rw [Returns.pure_iff, Returns.pure_iff]
    refine ⟨sizeS, count, Int.le_refl _, fun k c at' => ?_, h.indexes_eq, h.values_eq⟩
    have bound := (List.getElem?_eq_some_iff.mp at').choose
    rw [copied k (by omega) (by dsimp only; omega)]
    have same : (0 : Int) + k - 0 = k := by omega
    rw [same]
    exact h.cell_eq k c at'
  · have empty : cs = [] := List.length_eq_zero_iff.mp (by omega)
    subst empty
    rw [Returns.bind_iff, Returns.some_iff, Returns.pure_iff]
    exact ⟨rfl, count, by dsimp only; omega, nofun, h.indexes_eq, h.values_eq⟩

end UnicodeString

end Liberty
