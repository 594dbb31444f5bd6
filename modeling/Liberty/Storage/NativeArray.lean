import Liberty.Library.Returns
import Liberty.Library.Scan
import Liberty.Library.Segment

/-!
# NATIVE_ARRAY

A block of storage cells indexed from 0.  Reading or writing outside the block does
not return.
-/

namespace Liberty

/-- A block of `size` cells; what `cell` says outside `[0, size)` is never read. -/
structure NativeArray (α : Type) where
  size : Int
  cell : Int → α

namespace NativeArray

variable {α : Type}

/-- `index` is the address of a cell of the block. -/
def InBounds (s : NativeArray α) (index : Int) : Prop :=
  0 ≤ index ∧ index < s.size

instance (s : NativeArray α) (index : Int) : Decidable (s.InBounds index) :=
  inferInstanceAs (Decidable (_ ∧ _))

/-- A new block whose cells hold the default value. -/
def calloc [Inhabited α] (nbElements : Int) : NativeArray α where
  size := nbElements
  cell _ := default

def item (s : NativeArray α) (index : Int) : Option α :=
  if s.InBounds index then some (s.cell index) else none

/-- The block after a write in one cell. -/
def set (s : NativeArray α) (element : α) (index : Int) : NativeArray α where
  size := s.size
  cell i := if i = index then element else s.cell i

def put (s : NativeArray α) (element : α) (index : Int) : Option (NativeArray α) :=
  if s.InBounds index then some (s.set element index) else none

/-- `slice_copy`: copy the cells `srcMin … srcMax` of `src` to the cells of `s` that
start at `at'`. -/
def sliceCopy (s : NativeArray α) (at' : Int) (src : NativeArray α)
    (srcMin srcMax : Int) : Option (NativeArray α) :=
  if srcMin ≤ srcMax →
      s.InBounds at' ∧ s.InBounds (at' + srcMax - srcMin) ∧
        src.InBounds srcMin ∧ src.InBounds srcMax then
    some
      { size := s.size
        cell := fun i =>
          if at' ≤ i ∧ i ≤ at' + srcMax - srcMin then src.cell (srcMin + i - at')
          else s.cell i }
  else none

/-- `realloc`: a bigger block, with the items of the old range. -/
def realloc [Inhabited α] (s : NativeArray α) (oldNbElts newNbElts : Int) :
    NativeArray α where
  size := newNbElts
  cell i := if 0 ≤ i ∧ i < oldNbElts then s.cell i else default

/-- `copy_at`: from the last cell on, so that a block may be copied on itself. -/
def copyAt (s : NativeArray α) (at' : Int) (src : NativeArray α) (srcCapacity : Int) :
    Option (NativeArray α) :=
  s.sliceCopy at' src 0 (srcCapacity - 1)

/-- `move`: the range `lower … upper` goes `offset` cells further, in the order that does
not write over what is still to be moved. -/
def move (s : NativeArray α) (lower upper offset : Int) : Option (NativeArray α) :=
  s.sliceCopy (lower + offset) s lower upper

/-- `set_slice_with` -/
def setSliceWith (s : NativeArray α) (v : α) (lower upper : Int) : Option (NativeArray α) :=
  if lower ≤ upper → s.InBounds lower ∧ s.InBounds upper then
    some { s with cell := fun i => if lower ≤ i ∧ i ≤ upper then v else s.cell i }
  else none

/-- `set_all_with` -/
def setAllWith (s : NativeArray α) (v : α) (upper : Int) : Option (NativeArray α) :=
  s.setSliceWith v 0 upper

def clear [Inhabited α] (s : NativeArray α) (lower upper : Int) : Option (NativeArray α) :=
  s.setSliceWith default lower upper

@[simp] theorem size_set (s : NativeArray α) (element : α) (index : Int) :
    (s.set element index).size = s.size := rfl

@[simp] theorem size_calloc [Inhabited α] (n : Int) :
    (calloc n : NativeArray α).size = n := rfl

@[simp] theorem cell_calloc [Inhabited α] (n i : Int) :
    (calloc n : NativeArray α).cell i = default := rfl

@[simp] theorem cell_set_self (s : NativeArray α) (element : α) (index : Int) :
    (s.set element index).cell index = element := by
  simp [set]

theorem cell_set_of_ne (s : NativeArray α) (element : α) {index i : Int}
    (h : i ≠ index) : (s.set element index).cell i = s.cell i := by
  simp [set, h]

theorem cell_set (s : NativeArray α) (element : α) (index i : Int) :
    (s.set element index).cell i = if i = index then element else s.cell i := rfl

theorem item_of_inBounds {s : NativeArray α} {index : Int}
    (h : 0 ≤ index ∧ index < s.size) : s.item index = some (s.cell index) :=
  if_pos h

@[simp] theorem returns_item {s : NativeArray α} {index : Int} {Q : α → Prop} :
    Returns (s.item index) Q ↔ (0 ≤ index ∧ index < s.size) ∧ Q (s.cell index) := by
  change _ ↔ s.InBounds index ∧ _
  by_cases h : s.InBounds index <;> simp [item, h]

@[simp] theorem returns_put {s : NativeArray α} {element : α} {index : Int}
    {Q : NativeArray α → Prop} :
    Returns (s.put element index) Q ↔
      (0 ≤ index ∧ index < s.size) ∧ Q (s.set element index) := by
  change _ ↔ s.InBounds index ∧ _
  by_cases h : s.InBounds index <;> simp [put, h]

/-- A slice copy that stays inside both blocks. -/
theorem returns_sliceCopy {s src : NativeArray α} {at' srcMin srcMax : Int}
    {Q : NativeArray α → Prop}
    (inside : srcMin ≤ srcMax → 0 ≤ at' ∧ at' + srcMax - srcMin < s.size ∧
      0 ≤ srcMin ∧ srcMax < src.size)
    (next : ∀ s' : NativeArray α, s'.size = s.size →
      (∀ i, at' ≤ i → i ≤ at' + srcMax - srcMin →
        s'.cell i = src.cell (srcMin + i - at')) →
      (∀ i, ¬(at' ≤ i ∧ i ≤ at' + srcMax - srcMin) → s'.cell i = s.cell i) → Q s') :
    Returns (s.sliceCopy at' src srcMin srcMax) Q := by
  have fits : srcMin ≤ srcMax →
      s.InBounds at' ∧ s.InBounds (at' + srcMax - srcMin) ∧
        src.InBounds srcMin ∧ src.InBounds srcMax := by
    intro nonempty
    simp only [InBounds]
    omega
  rw [sliceCopy, if_pos fits]
  refine Returns.some_iff.mpr (next _ rfl (fun i low high => ?_) (fun i outside => ?_))
  · simp [low, high]
  · simp [outside]

theorem returns_setSliceWith {s : NativeArray α} {v : α} {lower upper : Int}
    {Q : NativeArray α → Prop} (inside : lower ≤ upper → 0 ≤ lower ∧ upper < s.size)
    (next : Q { s with cell := fun i => if lower ≤ i ∧ i ≤ upper then v else s.cell i }) :
    Returns (s.setSliceWith v lower upper) Q := by
  have fits : lower ≤ upper → s.InBounds lower ∧ s.InBounds upper := by
    intro nonempty
    simp only [InBounds]
    omega
  unfold setSliceWith
  rw [if_pos fits]
  exact Returns.some_iff.mpr next

end NativeArray

/-!
## Queries of NATIVE_ARRAY

The searches and comparisons of NATIVE_ARRAY that use the basic `=`.
-/

namespace NativeArray

/-! ## The source -/

section Source

variable {α : Type} [DecidableEq α]

def fastIndexOf (s : NativeArray α) (element : α) (startIndex upper : Int) : Option Int :=
  scanUp (fun i => do return decide (element = (← s.item i))) startIndex upper

def fastReverseIndexOf (s : NativeArray α) (element : α) (upper : Int) : Option Int :=
  scanDown (fun i => do return decide (element = (← s.item i))) upper 0

def sliceFastOccurrences (s : NativeArray α) (element : α) (lower upper : Int) : Option Int :=
  countUp (fun i => do return decide (element = (← s.item i))) lower upper

def sliceFastMemcmp (s : NativeArray α) (at' : Int) (other : NativeArray α)
    (otherLower otherUpper : Int) : Option Bool := do
  let i ← scanDown (fun i => do return decide ((← s.item (at' + i)) ≠ (← other.item (otherLower + i))))
    (otherUpper - otherLower) 0
  return decide (i < 0)

end Source

/-! ## What they answer -/

section Answers

variable {α : Type} {s other : NativeArray α} {start at' lower upper : Int} {xs ys : List α}

/-- The cells from `start` on hold the items of `xs`, and are in the block. -/
structure Holds (s : NativeArray α) (start : Int) (xs : List α) : Prop where
  low : 0 ≤ start
  high : start + xs.length ≤ s.size
  segment : Segment s.cell start xs

theorem Holds.item_eq (h : Holds s start xs) {k : ℕ} {x : α} (found : xs[k]? = some x) :
    s.item (start + k) = some x := by
  have bound := (List.getElem?_eq_some_iff.mp found).1
  have low := h.low
  have high := h.high
  rw [item_of_inBounds (by omega), h.segment k x found]

theorem Holds.drop (h : Holds s start xs) {n : ℕ} (le : n ≤ xs.length) :
    Holds s (start + n) (xs.drop n) := by
  have low := h.low
  have high := h.high
  exact ⟨by omega, by rw [List.length_drop]; omega, h.segment.drop le⟩

theorem Holds.take (h : Holds s start xs) (n : ℕ) : Holds s start (xs.take n) := by
  have high := h.high
  exact ⟨h.low, by rw [List.length_take]; omega, h.segment.take n⟩

theorem Holds.append (h : Holds s start xs) (h' : Holds s (start + xs.length) ys) :
    Holds s start (xs ++ ys) := by
  have high := h'.high
  refine ⟨h.low, ?_, segment_append.mpr ⟨h.segment, h'.segment⟩⟩
  rw [List.length_append]
  omega

theorem holds_cells (n : ℕ) (le : (n : Int) ≤ s.size) :
    Holds s 0 ((List.range n).map fun k : ℕ => s.cell k) := by
  refine ⟨Int.le_refl 0, by rw [List.length_map, List.length_range]; omega, fun k x found => ?_⟩
  have bound := (List.getElem?_eq_some_iff.mp found).1
  rw [List.length_map, List.length_range] at bound
  rw [List.getElem?_map, List.getElem?_range bound] at found
  rw [Int.zero_add]
  exact Option.some.inj found

variable [DecidableEq α]

theorem Holds.tests (h : Holds s start xs) (element : α) :
    Tests (fun i => do return decide (element = (← s.item i))) start (fun x => decide (element = x)) xs := by
  intro k x found
  dsimp only
  rw [h.item_eq found]
  rfl

theorem Holds.fastIndexOf_eq (h : Holds s start xs) (element : α) (length : upper + 1 = start + xs.length) :
    s.fastIndexOf element start upper = some (start + xs.idxOf element) := by
  unfold fastIndexOf
  rw [scanUp_eq (h.tests element) length, findIdx_eq_idxOf]

theorem Holds.fastReverseIndexOf_eq (h : Holds s 0 xs) (element : α) (length : upper + 1 = xs.length) :
    s.fastReverseIndexOf element upper = some (upper - xs.reverse.idxOf element) := by
  unfold fastReverseIndexOf
  rw [scanDown_eq (h.tests element) (by omega), findIdx_eq_idxOf]

theorem Holds.sliceFastOccurrences_eq (h : Holds s start xs) (element : α)
    (length : upper + 1 = start + xs.length) :
    s.sliceFastOccurrences element start upper = some (xs.count element) := by
  unfold sliceFastOccurrences
  rw [countUp_eq (h.tests element) length, List.count_eq_countP]
  congr 3
  funext x
  rw [Bool.eq_iff_iff, decide_eq_true_eq, beq_iff_eq]
  exact eq_comm

/-- Two slices of one length are compared from the end. -/
theorem Holds.sliceFastMemcmp_eq (h : Holds s at' xs) (h' : Holds other lower ys)
    (same : xs.length = ys.length) (length : upper + 1 = lower + ys.length) :
    s.sliceFastMemcmp at' other lower upper = some (decide (xs = ys)) := by
  have tests : Tests (fun i => do return decide ((← s.item (at' + i)) ≠ (← other.item (lower + i)))) 0
      (fun p : α × α => decide (p.1 ≠ p.2)) (xs.zip ys) := by
    intro k p found
    obtain ⟨left, right⟩ := List.getElem?_zip_eq_some.mp found
    dsimp only
    rw [Int.zero_add, h.item_eq left, h'.item_eq right]
    rfl
  have zipped : ((xs.zip ys).length : Int) = ys.length := by
    rw [List.length_zip, same, Nat.min_self]
  unfold sliceFastMemcmp
  rw [scanDown_eq tests (by omega), Returns.some_bind]
  congr 1
  rw [Bool.eq_iff_iff, decide_eq_true_eq, decide_eq_true_eq]
  have bound : (xs.zip ys).reverse.findIdx (fun p => decide (p.1 ≠ p.2)) ≤ (xs.zip ys).length := by
    rw [← List.length_reverse]
    exact List.findIdx_le_length
  constructor
  · intro off
    have none : (xs.zip ys).reverse.findIdx (fun p => decide (p.1 ≠ p.2)) =
        (xs.zip ys).reverse.length := by
      rw [List.length_reverse]
      omega
    rw [List.findIdx_eq_length] at none
    refine List.ext_getElem same fun k left right => ?_
    have pair := none (xs[k], ys[k])
      (List.mem_reverse.mpr (List.mem_iff_getElem?.mpr
        ⟨k, List.getElem?_zip_eq_some.mpr ⟨List.getElem?_eq_getElem left, List.getElem?_eq_getElem right⟩⟩))
    rwa [decide_eq_false_iff_not, not_not] at pair
  · intro equal
    subst equal
    have none : (xs.zip xs).reverse.findIdx (fun p => decide (p.1 ≠ p.2)) =
        (xs.zip xs).reverse.length := by
      rw [List.findIdx_eq_length]
      intro p mem
      obtain ⟨k, found⟩ := List.mem_iff_getElem?.mp (List.mem_reverse.mp mem)
      obtain ⟨left, right⟩ := List.getElem?_zip_eq_some.mp found
      rw [left] at right
      rw [decide_eq_false_iff_not, not_not]
      exact Option.some.inj right
    rw [none, List.length_reverse]
    omega

end Answers

end NativeArray

end Liberty
