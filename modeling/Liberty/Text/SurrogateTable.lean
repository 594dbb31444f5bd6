import Liberty.Text.UnicodeString
import Mathlib.Data.List.Basic

/-!
# The characters of a UNICODE_STRING

A string that satisfies its invariant stores a list of characters: its cells and its two
tables are functions of that list.
-/

namespace Liberty

namespace UnicodeString

/-- A character as it is stored: a marked cell goes with a low surrogate. -/
structure Stored where
  cell : BitVec 16
  low : Option (BitVec 16)
  marked_iff : low.isSome ↔ IsSurrogate cell

namespace Stored

/-- The code point that is read back. -/
def unicode (c : Stored) : Int :=
  match c.low with
  | some low => ((c.cell.signExtend 32 &&& 0x000007FF#32) + 64).toInt * 1024 + low.toInt
  | none => (c.cell.signExtend 32 &&& 0x0000FFFF#32).toInt

/-- The indexes of the supplementary characters, when the first character has the index
`start`. -/
def indexes (start : Int) : List Stored → List Int
  | [] => []
  | c :: cs => if c.low.isSome then start :: indexes (start + 1) cs else indexes (start + 1) cs

/-- The low surrogates of the supplementary characters. -/
def values (cs : List Stored) : List (BitVec 16) :=
  cs.filterMap low

@[simp] theorem indexes_nil (start : Int) : indexes start [] = [] := rfl

@[simp] theorem values_nil : values [] = [] := rfl

theorem indexes_cons (start : Int) (c : Stored) (cs : List Stored) :
    indexes start (c :: cs) =
      if c.low.isSome then start :: indexes (start + 1) cs else indexes (start + 1) cs := rfl

theorem indexes_append (start : Int) (xs ys : List Stored) :
    indexes start (xs ++ ys) = indexes start xs ++ indexes (start + xs.length) ys := by
  induction xs generalizing start with
  | nil => simp
  | cons x xs ih =>
    have shift : start + 1 + xs.length = start + (x :: xs).length := by
      rw [List.length_cons]
      omega
    rw [List.cons_append, indexes_cons, indexes_cons, ih, shift]
    split <;> rfl

theorem values_append (xs ys : List Stored) : values (xs ++ ys) = values xs ++ values ys :=
  List.filterMap_append

theorem indexes_add (start shift : Int) (cs : List Stored) :
    indexes (start + shift) cs = (indexes start cs).map (· + shift) := by
  induction cs generalizing start with
  | nil => rfl
  | cons c cs ih =>
    have swapped : start + shift + 1 = start + 1 + shift := by omega
    unfold indexes
    rw [swapped, ih]
    split <;> rfl

@[simp] theorem length_values (start : Int) (cs : List Stored) :
    (values cs).length = (indexes start cs).length := by
  induction cs generalizing start with
  | nil => rfl
  | cons c cs ih =>
    unfold values indexes
    rw [List.filterMap_cons]
    cases c.low with
    | none => exact ih (start + 1)
    | some low => exact congrArg (· + 1) (ih (start + 1))

/-- Every index of the table is the one of a character. -/
theorem indexes_bounds {start i : Int} {cs : List Stored} (mem : i ∈ indexes start cs) :
    start ≤ i ∧ i < start + cs.length := by
  induction cs generalizing start with
  | nil => cases mem
  | cons c cs ih =>
    rw [List.length_cons]
    unfold indexes at mem
    split at mem
    · cases mem with
      | head => omega
      | tail _ mem =>
        have := ih mem
        omega
    · have := ih mem
      omega

theorem indexes_sorted (start : Int) (cs : List Stored) :
    (indexes start cs).Pairwise (· < ·) := by
  induction cs generalizing start with
  | nil => exact List.Pairwise.nil
  | cons c cs ih =>
    unfold indexes
    split
    · refine List.Pairwise.cons (fun i mem => ?_) (ih (start + 1))
      have := indexes_bounds mem
      omega
    · exact ih (start + 1)

/-- A string without supplementary characters has empty tables. -/
theorem indexes_eq_nil_iff {start : Int} {cs : List Stored} :
    indexes start cs = [] ↔ ∀ c ∈ cs, c.low = none := by
  induction cs generalizing start with
  | nil => simp
  | cons c cs ih =>
    unfold indexes
    cases low : c.low with
    | none => simpa [low] using ih
    | some l => simp [low]

end Stored

open Stored

/-- The string `u` stores the characters `cs`. -/
structure Represents (u : UnicodeString) (cs : List Stored) : Prop where
  size_eq : u.storage.size = u.capacity
  count_eq : u.count = cs.length
  count_le : u.count ≤ u.capacity
  cell_eq : ∀ (k : ℕ) (c : Stored), cs[k]? = some c → u.storage.cell k = c.cell
  indexes_eq : u.lowSurrogateIndexes = indexes 1 cs
  values_eq : u.lowSurrogateValues = values cs

/-! ## Reading -/

section Reading

variable {u : UnicodeString} {cs a b : List Stored} {c : Stored}

/-- A mask of 16 bits does not see the sign extension. -/
theorem signExtend_and (cell mask : BitVec 16) :
    cell.signExtend 32 &&& mask.setWidth 32 = (cell &&& mask).setWidth 32 := by
  apply BitVec.eq_of_getLsbD_eq
  intro i high
  rw [BitVec.getLsbD_and, BitVec.getLsbD_signExtend, BitVec.getLsbD_setWidth,
    BitVec.getLsbD_setWidth, BitVec.getLsbD_and]
  by_cases inside : i < 16
  · simp [high, inside]
  · simp [BitVec.getLsbD_of_ge mask i (by omega)]

theorem signExtend_marked_iff (cell : BitVec 16) :
    cell.signExtend 32 &&& 0x0000F800#32 = 0x0000D800#32 ↔ IsSurrogate cell := by
  change cell.signExtend 32 &&& (0xF800#16).setWidth 32 = (0xD800#16).setWidth 32 ↔ _
  rw [signExtend_and]
  constructor
  · intro same
    have narrow := congrArg (BitVec.setWidth 16) same
    rwa [BitVec.setWidth_setWidth_of_le _ (by decide), BitVec.setWidth_setWidth_of_le _ (by decide),
      BitVec.setWidth_eq, BitVec.setWidth_eq] at narrow
  · intro same
    rw [same]

theorem Represents.inBounds (h : Represents u cs) {k : ℕ} (inside : k < cs.length) :
    0 ≤ (k : Int) ∧ (k : Int) < u.storage.size := by
  have size := h.size_eq
  have count := h.count_eq
  have le := h.count_le
  omega

/-- The table position of the character after `a`. -/
theorem idxOf_indexes (start : Int) (marked : c.low.isSome) :
    (indexes start (a ++ c :: b)).idxOf (start + a.length) = (indexes start a).length := by
  rw [indexes_append, List.idxOf_append_of_notMem]
  · unfold indexes
    rw [if_pos marked, List.idxOf_cons_self]
    rfl
  · intro mem
    have := indexes_bounds mem
    omega

theorem returns_item (h : Represents u (a ++ c :: b)) {i : Int} (position : i = a.length + 1) :
    u.item i = some c.unicode := by
  have inside := h.inBounds (k := a.length) (by simp)
  have cell := h.cell_eq a.length c (by simp)
  have read : u.storage.item (i - 1) = some c.cell := by
    have same : i - 1 = a.length := by omega
    rw [same, NativeArray.item_of_inBounds inside, cell]
  unfold item Stored.unicode
  rw [read, Option.bind_eq_bind, Option.bind_some]
  cases low : c.low with
  | none =>
    have plain : ¬IsSurrogate c.cell := by
      rw [← c.marked_iff, low]
      simp
    rw [if_neg (mt (signExtend_marked_iff _).mp plain)]
    rfl
  | some l =>
    have marked : c.low.isSome := by rw [low]; rfl
    have found : u.lowSurrogateIndex i = (indexes 1 a).length := by
      unfold lowSurrogateIndex FastArray.fastFirstIndexOf
      have same : i = 1 + a.length := by omega
      rw [h.indexes_eq, same, idxOf_indexes 1 marked]
    have value : u.lowSurrogateValue i = some l := by
      unfold lowSurrogateValue
      rw [found, FastArray.item_natCast, h.values_eq, values_append, ← length_values 1 a,
        List.getElem?_append_right (Nat.le_refl _), Nat.sub_self]
      unfold values
      rw [List.filterMap_cons, low]
      rfl
    rw [if_pos ((signExtend_marked_iff _).mpr (c.marked_iff.mp marked)), value]
    rfl

end Reading

/-! ## Characters of one cell -/

theorem IsSurrogate.toNat_div {cell : BitVec 16} (marked : IsSurrogate cell) :
    cell.toNat / 2048 = 27 := by
  have shifted : ((cell &&& 0xF800#16) >>> 11).toNat = 27 := by
    have same : cell &&& 0xF800#16 = 0xD800#16 := marked
    rw [same]
    rfl
  have five : (0xF800#16 >>> 11).toNat = 2 ^ 5 - 1 := rfl
  rw [BitVec.ushiftRight_and_distrib, BitVec.toNat_and, five, Nat.and_two_pow_sub_one_eq_mod,
    BitVec.toNat_ushiftRight, Nat.shiftRight_eq_div_pow] at shifted
  omega

theorem toNat_low16 {n : Int} (low : 0 ≤ n) (high : n < 65536) : ((low16 n).toNat : Int) = n := by
  unfold low16
  rw [BitVec.toNat_ofInt]
  omega

theorem not_isSurrogate_low16 {n : Int} (low : 0 ≤ n) (high : n < 65536)
    (plain : ¬(0xD800 ≤ n ∧ n ≤ 0xDFFF)) : ¬IsSurrogate (low16 n) := by
  intro marked
  have div := marked.toNat_div
  have value := toNat_low16 low high
  omega

/-- A character whose code point is its cell. -/
def Stored.plain (n : Int) (low : 0 ≤ n) (high : n < 65536)
    (notSurrogate : ¬(0xD800 ≤ n ∧ n ≤ 0xDFFF)) : Stored where
  cell := low16 n
  low := none
  marked_iff := ⟨nofun, fun marked => (not_isSurrogate_low16 low high notSurrogate marked).elim⟩

theorem Stored.unicode_plain {n : Int} (low : 0 ≤ n) (high : n < 65536)
    (notSurrogate : ¬(0xD800 ≤ n ∧ n ≤ 0xDFFF)) :
    (Stored.plain n low high notSurrogate).unicode = n := by
  change ((low16 n).signExtend 32 &&& (0xFFFF#16).setWidth 32).toInt = n
  have ones : (0xFFFF#16).toNat = 2 ^ 16 - 1 := rfl
  have value := toNat_low16 low high
  rw [signExtend_and, BitVec.toInt_eq_toNat_of_lt, BitVec.toNat_setWidth, BitVec.toNat_and, ones,
    Nat.and_two_pow_sub_one_eq_mod]
  · omega
  · rw [BitVec.toNat_setWidth]
    omega

/-! ## The invariant -/

/-- The invariant of the class: the indexes are increasing, in step with the low surrogates,
and are those of the marked cells. -/
structure Valid (u : UnicodeString) : Prop where
  size_eq : u.storage.size = u.capacity
  count_nonneg : 0 ≤ u.count
  count_le : u.count ≤ u.capacity
  sorted : u.lowSurrogateIndexes.Pairwise (· < ·)
  inStep : u.lowSurrogateValues.length = u.lowSurrogateIndexes.length
  marked_iff : ∀ i, i ∈ u.lowSurrogateIndexes ↔
    1 ≤ i ∧ i ≤ u.count ∧ IsSurrogate (u.storage.cell (i - 1))

theorem Stored.mem_indexes {start i : Int} {cs : List Stored} :
    i ∈ indexes start cs ↔ ∃ k : ℕ, i = start + k ∧ ∃ c, cs[k]? = some c ∧ c.low.isSome := by
  induction cs generalizing start with
  | nil => simp
  | cons c cs ih =>
    have later : i ∈ indexes (start + 1) cs ↔
        ∃ k : ℕ, i = start + (k + 1 : ℕ) ∧ ∃ d, (c :: cs)[k + 1]? = some d ∧ d.low.isSome := by
      rw [ih]
      apply exists_congr
      intro k
      refine and_congr_left fun _ => ?_
      omega
    rw [indexes_cons]
    constructor
    · intro mem
      split at mem
      · rename_i marked
        cases mem with
        | head => exact ⟨0, by omega, c, rfl, marked⟩
        | tail _ mem =>
          rcases later.mp mem with ⟨k, found⟩
          exact ⟨k + 1, found⟩
      · rcases later.mp mem with ⟨k, found⟩
        exact ⟨k + 1, found⟩
    · intro ⟨k, position, d, at', marked⟩
      cases k with
      | zero =>
        cases at'
        rw [if_pos marked, position]
        exact List.mem_cons.mpr (.inl (by omega))
      | succ k =>
        have mem := later.mpr ⟨k, position, d, at', marked⟩
        split
        · exact List.mem_cons_of_mem _ mem
        · exact mem

/-- The characters that the cells and the two tables of a part of a string store. -/
theorem exists_stored (cell : Int → BitVec 16) (n : ℕ) {start : Int} {is : List Int}
    {vs : List (BitVec 16)} (sorted : is.Pairwise (· < ·)) (inStep : vs.length = is.length)
    (marked_iff : ∀ i, i ∈ is ↔ start ≤ i ∧ i < start + n ∧ IsSurrogate (cell i)) :
    ∃ cs : List Stored, cs.length = n ∧ is = indexes start cs ∧ vs = values cs ∧
      ∀ (k : ℕ) (c : Stored), cs[k]? = some c → cell (start + k) = c.cell := by
  induction n generalizing start is vs with
  | zero =>
    have empty : is = [] := by
      apply List.eq_nil_iff_forall_not_mem.mpr
      intro i mem
      have := (marked_iff i).mp mem
      omega
    subst empty
    exact ⟨[], rfl, rfl, List.eq_nil_of_length_eq_zero inStep, nofun⟩
  | succ n ih =>
    by_cases marked : IsSurrogate (cell start)
    · -- the least index is the first one
      have mem := (marked_iff start).mpr ⟨Int.le_refl _, by omega, marked⟩
      cases is with
      | nil => cases mem
      | cons i is =>
        have least := List.pairwise_cons.mp sorted
        have head : i = start := by
          have low := ((marked_iff i).mp (List.mem_cons_self ..)).1
          cases mem with
          | head => rfl
          | tail _ mem =>
            have := least.1 start mem
            omega
        subst head
        cases vs with
        | nil => cases inStep
        | cons v vs =>
          have rest : ∀ j, j ∈ is ↔ i + 1 ≤ j ∧ j < i + 1 + n ∧ IsSurrogate (cell j) := by
            intro j
            constructor
            · intro memJ
              have all := (marked_iff j).mp (List.mem_cons_of_mem _ memJ)
              have := least.1 j memJ
              exact ⟨by omega, by omega, all.2.2⟩
            · intro ⟨low, high, markedJ⟩
              have all := (marked_iff j).mpr ⟨by omega, by omega, markedJ⟩
              cases all with
              | head => omega
              | tail _ memJ => exact memJ
          rcases ih least.2 (Nat.succ.inj inStep) rest with ⟨cs, length, rfl, rfl, cells⟩
          refine ⟨⟨cell i, some v, by simp [marked]⟩ :: cs, congrArg (· + 1) length, rfl,
            rfl, fun k c at' => ?_⟩
          cases k with
          | zero =>
            cases at'
            exact congrArg cell (by omega)
          | succ k =>
            have next : i + ((k + 1 : ℕ) : Int) = i + 1 + k := by omega
            rw [next]
            exact cells k c at'
    · have rest : ∀ j, j ∈ is ↔ start + 1 ≤ j ∧ j < start + 1 + n ∧ IsSurrogate (cell j) := by
        intro j
        rw [marked_iff]
        constructor
        · intro ⟨low, high, markedJ⟩
          have other : j ≠ start := by
            intro same
            rw [same] at markedJ
            exact marked markedJ
          exact ⟨by omega, by omega, markedJ⟩
        · intro ⟨low, high, markedJ⟩
          exact ⟨by omega, by omega, markedJ⟩
      rcases ih sorted inStep rest with ⟨cs, length, rfl, rfl, cells⟩
      refine ⟨⟨cell start, none, by simp [marked]⟩ :: cs, congrArg (· + 1) length, rfl, rfl,
        fun k c at' => ?_⟩
      cases k with
      | zero =>
        cases at'
        exact congrArg cell (by omega)
      | succ k =>
        have next : start + ((k + 1 : ℕ) : Int) = start + 1 + k := by omega
        rw [next]
        exact cells k c at'

/-- The strings that satisfy the invariant are those that store characters. -/
theorem valid_iff {u : UnicodeString} : Valid u ↔ ∃ cs, Represents u cs := by
  constructor
  · intro h
    have nonneg := h.count_nonneg
    have marks : ∀ i, i ∈ u.lowSurrogateIndexes ↔
        1 ≤ i ∧ i < 1 + u.count.toNat ∧ IsSurrogate (u.storage.cell (i - 1)) := by
      intro i
      rw [h.marked_iff]
      refine and_congr_right fun _ => and_congr_left fun _ => ?_
      omega
    rcases exists_stored (fun i => u.storage.cell (i - 1)) u.count.toNat h.sorted h.inStep
      marks with ⟨cs, length, is, vs, cells⟩
    refine ⟨cs, h.size_eq, by omega, h.count_le, fun k c at' => ?_, is, vs⟩
    have same : 1 + (k : Int) - 1 = k := by omega
    rw [← cells k c at', same]
  · intro ⟨cs, h⟩
    have count := h.count_eq
    refine ⟨h.size_eq, by omega, h.count_le, ?_, ?_, fun i => ?_⟩
    · rw [h.indexes_eq]
      exact indexes_sorted 1 cs
    · rw [h.indexes_eq, h.values_eq]
      exact length_values 1 cs
    · rw [h.indexes_eq, mem_indexes]
      constructor
      · intro ⟨k, position, c, at', marked⟩
        have bound := (List.getElem?_eq_some_iff.mp at').choose
        have place : i - 1 = k := by omega
        rw [place, h.cell_eq k c at', ← c.marked_iff]
        exact ⟨by omega, by omega, marked⟩
      · intro ⟨low, high, marked⟩
        have inside : (i - 1).toNat < cs.length := by omega
        have place : i - 1 = (i - 1).toNat := by omega
        refine ⟨(i - 1).toNat, by omega, _, List.getElem?_eq_getElem inside, ?_⟩
        rw [Stored.marked_iff, ← h.cell_eq _ _ (List.getElem?_eq_getElem inside), ← place]
        exact marked

/-- A string of one character, in one cell and one entry of the tables. -/
def single (cell low : BitVec 16) : UnicodeString where
  storage := ⟨1, fun _ => cell⟩
  count := 1
  capacity := 1
  lowSurrogateIndexes := if IsSurrogate cell then [1] else []
  lowSurrogateValues := if IsSurrogate cell then [low] else []

theorem single_valid (cell low : BitVec 16) : Valid (single cell low) := by
  apply valid_iff.mpr
  by_cases marked : IsSurrogate cell
  · refine ⟨[⟨cell, some low, by simp [marked]⟩], rfl, rfl, Int.le_refl 1, fun k c at' => ?_,
      if_pos marked, if_pos marked⟩
    cases k with
    | zero =>
      cases at'
      rfl
    | succ k => cases at'
  · refine ⟨[⟨cell, none, by simp [marked]⟩], rfl, rfl, Int.le_refl 1, fun k c at' => ?_,
      if_neg marked, if_neg marked⟩
    cases k with
    | zero =>
      cases at'
      rfl
    | succ k => cases at'

end UnicodeString

/-!
## The loops over the surrogate tables

What each loop of UNICODE_STRING does to the two tables.
-/

namespace UnicodeString

variable {u : UnicodeString}

/-- The position is the first one whose index is not less. -/
theorem returns_lowSurrogatePosition {before after : List Int} {index : Int}
    (tables : u.lowSurrogateIndexes = before ++ after) (less : ∀ i ∈ before, i < index)
    (notLess : ∀ i ∈ after, index ≤ i) :
    u.lowSurrogatePosition index = some (before.length : Int) := by
  have run : Returns (u.lowSurrogatePosition index) fun result => result = before.length := by
    unfold lowSurrogatePosition FastArray.upper
    rw [tables, List.length_append]
    refine returns_untilLoop (fun result : Int => ∃ n : ℕ, result = n ∧ n ≤ before.length)
      (fun result : Int => before.length - result.toNat) ⟨0, rfl, Nat.zero_le _⟩ (by omega) ?_
    intro result ⟨n, same, le⟩
    subst same
    split
    · rw [Returns.some_iff, if_pos rfl]
      omega
    · rename_i inside
      rw [FastArray.item_natCast, Returns.bind_iff]
      by_cases here : n < before.length
      · rw [List.getElem?_append_left here, List.getElem?_eq_getElem here, Returns.some_iff,
          Returns.pure_iff, if_neg]
        · exact Returns.some_iff.mpr ⟨⟨n + 1, rfl, here⟩, by omega⟩
        · rw [decide_eq_true_eq]
          have := less _ (List.getElem_mem here)
          omega
      · have atEnd : n = before.length := by omega
        have more : n - before.length < after.length := by omega
        rw [List.getElem?_append_right (by omega), List.getElem?_eq_getElem more,
          Returns.some_iff, Returns.pure_iff, if_pos]
        · rw [atEnd]
        · rw [decide_eq_true_eq]
          exact notLess _ (List.getElem_mem more)
  rcases run with ⟨result, run, rfl⟩
  exact run

/-- The indexes after the position `before.length` are incremented. -/
theorem returns_incrementIndexes {before after : List Int}
    (tables : u.lowSurrogateIndexes = before ++ after) :
    u.incrementIndexes before.length =
      some { u with lowSurrogateIndexes := before ++ after.map (· + 1) } := by
  have run : Returns (u.incrementIndexes before.length) fun u' =>
      u' = { u with lowSurrogateIndexes := before ++ after.map (· + 1) } := by
    unfold incrementIndexes FastArray.upper
    rw [tables, List.length_append, Returns.bind_iff]
    refine returns_untilLoop
      (fun s : List Int × Int => ∃ todo done, after = todo ++ done ∧ s.1 = before ++ (todo ++ done.map (· + 1)) ∧
        s.2 = before.length + todo.length - 1)
      (fun s : List Int × Int => (s.2 + 1 - before.length).toNat)
      ⟨after, [], by simp, by simp, by dsimp only; omega⟩ (by dsimp only; omega) ?_
    intro (indexes, j) ⟨todo, done, split, content, position⟩
    dsimp only at content position ⊢
    rw [Returns.some_iff]
    rcases List.eq_nil_or_concat todo with empty | ⟨todo', x, last⟩
    · rw [empty] at position content split
      rw [List.length_nil] at position
      rw [if_pos (by rw [decide_eq_true_eq]; omega), Returns.pure_iff, content, split]
      rfl
    · rw [last, List.concat_eq_append] at position content split
      rw [List.length_append, List.length_singleton] at position
      have same : j = ((before ++ todo').length : ℕ) := by
        rw [List.length_append]
        omega
      have arranged : indexes = (before ++ todo') ++ x :: done.map (· + 1) := by
        rw [content]
        simp
      have inside : (before ++ todo').length < indexes.length := by
        rw [arranged]
        simp
      have written : indexes.set (before ++ todo').length (x + 1) =
          before ++ (todo' ++ (x :: done).map (· + 1)) := by
        rw [arranged, List.set_append_right _ _ (Nat.le_refl _), Nat.sub_self]
        simp
      rw [if_neg (by rw [decide_eq_true_eq]; omega), same, FastArray.item_natCast,
        Returns.bind_iff, arranged, List.getElem?_append_right (Nat.le_refl _), Nat.sub_self,
        List.getElem?_cons_zero, Returns.some_iff, ← arranged,
        FastArray.put_natCast _ inside, Returns.bind_iff, Returns.some_iff, Returns.pure_iff,
        written]
      refine ⟨⟨todo', x :: done, by rw [split]; simp, rfl, ?_⟩, ?_⟩
      · dsimp only
        omega
      · dsimp only
        omega
  rcases run with ⟨result, run, rfl⟩
  exact run

/-- An array of which `n` items have been brought from `source` to `target`. -/
structure Compacted {α : Type} (original : List α) (f : α → α) (source target n : ℕ)
    (a : List α) : Prop where
  length_eq : a.length = original.length
  take_eq : a.take (target + n) = original.take target ++ ((original.drop source).take n).map f
  drop_eq : a.drop (source + n) = original.drop (source + n)

namespace Compacted

variable {α : Type} {original a : List α} {f : α → α} {source target n : ℕ}

theorem start : Compacted original f source target 0 original :=
  ⟨rfl, by simp, rfl⟩

theorem item (h : Compacted original f source target n a) (inside : source + n < original.length) :
    FastArray.item a ((source : Int) + n) = some original[source + n] := by
  have read : a[source + n]? = original[source + n]? := by
    have same := congrArg (fun l => l[0]?) h.drop_eq
    simpa only [List.getElem?_drop, Nat.add_zero] using same
  have cast : (source : Int) + n = ((source + n : ℕ) : Int) := by omega
  rw [cast, FastArray.item_natCast, read, List.getElem?_eq_getElem inside]

theorem put (h : Compacted original f source target n a) (le : target ≤ source)
    (inside : source + n < original.length) :
    ∃ a', FastArray.put a (f original[source + n]) ((target : Int) + n) = some a' ∧
      Compacted original f source target (n + 1) a' := by
  have cast : (target : Int) + n = ((target + n : ℕ) : Int) := by omega
  have fits : target + n < a.length := by
    rw [h.length_eq]
    omega
  have next : (original.drop source).take (n + 1) =
      (original.drop source).take n ++ [original[source + n]] := by
    have within : n < (original.drop source).length := by
      rw [List.length_drop]
      omega
    rw [← List.take_append_getElem within, List.getElem_drop]
  rw [cast, FastArray.put_natCast _ fits]
  refine ⟨_, rfl, ?_, ?_, ?_⟩
  · rw [List.length_set]
    exact h.length_eq
  · have within : target + n < (a.set (target + n) (f original[source + n])).length := by
      rw [List.length_set]
      exact fits
    rw [← Nat.add_assoc, ← List.take_append_getElem within, List.getElem_set_self, List.take_set,
      List.set_eq_of_length_le (by rw [List.length_take]; omega), h.take_eq, next,
      List.map_append, List.append_assoc]
    rfl
  · rw [← Nat.add_assoc, List.drop_set_of_lt (by omega), ← List.drop_drop, h.drop_eq,
      List.drop_drop]

/-- The array cut after the items that were brought. -/
theorem resize [Inhabited α] (h : Compacted original f source target n a) (le : target ≤ source)
    (inside : source + n ≤ original.length) :
    FastArray.resize a ((target : Int) + n) =
      original.take target ++ ((original.drop source).take n).map f := by
  have cast : (target : Int) + n = ((target + n : ℕ) : Int) := by omega
  rw [cast, FastArray.resize_of_le (by rw [h.length_eq]; omega), h.take_eq]

end Compacted

/-- The entries `moved` go to the position `target`, and the tables end after them. -/
theorem returns_moveEntries {moved rest : List Int} {source target : ℕ} {shift : Int}
    {stops : Int → Bool} (le : target ≤ source) (inside : source ≤ u.lowSurrogateIndexes.length)
    (inStep : u.lowSurrogateValues.length = u.lowSurrogateIndexes.length)
    (split : u.lowSurrogateIndexes.drop source = moved ++ rest)
    (pass : ∀ i ∈ moved, stops i = false) (stop : ∀ i ∈ rest, stops i = true) :
    u.moveEntries source target shift stops = some { u with
      lowSurrogateIndexes := u.lowSurrogateIndexes.take target ++ moved.map (· + shift)
      lowSurrogateValues := u.lowSurrogateValues.take target ++
        (u.lowSurrogateValues.drop source).take moved.length } := by
  have total : u.lowSurrogateIndexes.length - source = moved.length + rest.length := by
    rw [← List.length_drop, split, List.length_append]
  have run : Returns (u.moveEntries source target shift stops) fun u' => u' = { u with
      lowSurrogateIndexes := u.lowSurrogateIndexes.take target ++ moved.map (· + shift)
      lowSurrogateValues := u.lowSurrogateValues.take target ++
        (u.lowSurrogateValues.drop source).take moved.length } := by
    unfold moveEntries
    rw [Returns.bind_iff]
    refine returns_untilLoop
      (fun s : List Int × List (BitVec 16) × Int × Int => ∃ n : ℕ, n ≤ moved.length ∧
        s.2.2 = ((source : Int) + n, (target : Int) + n) ∧
        Compacted u.lowSurrogateIndexes (· + shift) source target n s.1 ∧
        Compacted u.lowSurrogateValues id source target n s.2.1)
      (fun s => source + moved.length - s.2.2.1.toNat)
      ⟨0, Nat.zero_le _, by simp, .start, .start⟩ (by dsimp only; omega) ?_
    intro (indexes, values, k, i) ⟨n, bound, positions, indexesAt, valuesAt⟩
    obtain ⟨rfl, rfl⟩ := Prod.mk.inj positions
    dsimp only at indexesAt valuesAt ⊢
    have length := indexesAt.length_eq
    unfold FastArray.upper
    by_cases ended : source + n < u.lowSurrogateIndexes.length
    · have read : u.lowSurrogateIndexes[source + n]? = (moved ++ rest)[n]? := by
        rw [← split, List.getElem?_drop]
      rw [List.getElem?_eq_getElem ended] at read
      rw [if_neg (by omega), indexesAt.item ended, Returns.bind_iff, Returns.some_iff,
        Returns.pure_iff]
      by_cases here : n < moved.length
      · rw [List.getElem?_append_left here] at read
        rw [pass _ (List.mem_of_getElem? read.symm), if_neg (by simp), Returns.bind_iff,
          Returns.some_iff]
        obtain ⟨indexes', write, indexesAt'⟩ := indexesAt.put le ended
        have inValues : source + n < u.lowSurrogateValues.length := by omega
        obtain ⟨values', write', valuesAt'⟩ := valuesAt.put le inValues
        rw [write, Returns.bind_iff, Returns.some_iff, valuesAt.item inValues,
          Returns.bind_iff, Returns.some_iff]
        change Returns (do
          let values ← FastArray.put values (id u.lowSurrogateValues[source + n]) (target + n)
          pure (indexes', values, (source : Int) + n + 1, (target : Int) + n + 1)) _
        rw [write', Returns.bind_iff, Returns.some_iff, Returns.pure_iff]
        refine ⟨⟨n + 1, here, ?_, indexesAt', valuesAt'⟩, ?_⟩
        · ext <;> dsimp only <;> omega
        · dsimp only
          omega
      · rw [List.getElem?_append_right (by omega)] at read
        rw [stop _ (List.mem_of_getElem? read.symm), if_pos rfl, Returns.pure_iff]
        have all : n = moved.length := by omega
        rw [indexesAt.resize le (by omega), valuesAt.resize le (by omega), split, all,
          List.take_left, List.map_id]
    · have all : n = moved.length := by omega
      rw [if_pos (by omega), Returns.some_iff, if_pos rfl, Returns.pure_iff,
        indexesAt.resize le (by omega), valuesAt.resize le (by omega), split, all,
        List.take_left, List.map_id]
  rcases run with ⟨result, run, rfl⟩
  exact run

end UnicodeString

end Liberty
