import Liberty.Library.Segment
import Liberty.Storage.NativeArray
import Mathlib.Data.Int.Notation
import Mathlib.Data.Nat.Notation

/-!
# STRING

The characters of a STRING stand in its storage from `storageLower` on: what is removed at the
beginning of the string is left there until it is needed.
-/

namespace Liberty

/-- CHARACTER -/
abbrev Character : Type := UInt8

namespace Character

def code (c : Character) : Int :=
  c.toNat

def isDecimalDigit (c : Character) : Bool :=
  decide (48 ≤ c.code) && decide (c.code ≤ 57)

def decimalValue (c : Character) : Int :=
  c.code - 48

theorem code_nonneg (c : Character) : 0 ≤ c.code :=
  Int.natCast_nonneg _

theorem code_lt (c : Character) : c.code < 256 := by
  have := c.toNat_lt
  unfold code
  omega

end Character

/-- The attributes of a STRING; `isNull` tells whether the storage is null. -/
structure NativelyStoredString where
  storage : NativeArray Character
  isNull : Bool
  storageLower : Int
  count : Int
  capacity : Int

namespace NativelyStoredString

def item (s : NativelyStoredString) (i : Int) : Option Character :=
  s.storage.item (i - 1 + s.storageLower)

/-- The character at distance `k` from the first one. -/
def charAt (s : NativelyStoredString) (k : ℕ) : Character :=
  s.storage.cell (s.storageLower + k)

/-- The characters of the string. -/
def chars (s : NativelyStoredString) : List Character :=
  (List.range s.count.toNat).map s.charAt

/-- The codes of the characters. -/
def codes (s : NativelyStoredString) : List Int :=
  s.chars.map Character.code

/-- The characters are in the storage. -/
structure Valid (s : NativelyStoredString) : Prop where
  size_eq : s.storage.size = s.capacity
  null : s.isNull = true → s.capacity = 0
  lower_nonneg : 0 ≤ s.storageLower
  count_nonneg : 0 ≤ s.count
  fits : s.storageLower + s.count ≤ s.capacity

theorem length_chars (s : NativelyStoredString) : s.chars.length = s.count.toNat := by
  unfold chars
  rw [List.length_map, List.length_range]

theorem getElem?_chars {s : NativelyStoredString} {k : ℕ} (less : k < s.count.toNat) :
    s.chars[k]? = some (s.charAt k) := by
  unfold chars
  rw [List.getElem?_map, List.getElem?_range less]
  rfl

/-! ## Capacity -/

/-- A new object. -/
def blank : NativelyStoredString where
  storage := .calloc 0
  isNull := true
  storageLower := 0
  count := 0
  capacity := 0

def ensureCapacity (d : NativelyStoredString) (neededCapacity : Int) : NativelyStoredString :=
  if d.isNull then
    { d with
      storage := if neededCapacity > 0 then .calloc neededCapacity else d.storage
      isNull := decide (neededCapacity ≤ 0)
      capacity := neededCapacity }
  else if d.capacity < neededCapacity then
    let newCapacity := max neededCapacity (max (d.capacity * 2) 32)
    { d with storage := d.storage.realloc d.capacity newCapacity, capacity := newCapacity }
  else d

/-- The string stands for the list of its characters. -/
structure Represents (d : NativelyStoredString) (xs : List Character) : Prop where
  valid : d.Valid
  count_eq : d.count = xs.length
  segment : Segment d.storage.cell d.storageLower xs

/-- What `ensure_capacity` keeps, and what it brings. -/
structure Grown (d d' : NativelyStoredString) (neededCapacity : Int) : Prop where
  lower_eq : d'.storageLower = d.storageLower
  count_eq : d'.count = d.count
  size_eq : d'.storage.size = d'.capacity
  null : d'.isNull = true → d'.capacity = 0
  needed_le : neededCapacity ≤ d'.capacity
  capacity_le : d.capacity ≤ d'.capacity
  cell_eq : ∀ i, 0 ≤ i → i < d.capacity → d'.storage.cell i = d.storage.cell i
  new_eq : d.capacity < neededCapacity → ∀ i, d.capacity ≤ i → d'.storage.cell i = default

section Capacity

variable {d d' : NativelyStoredString} {xs : List Character} {neededCapacity : Int}

theorem represents_chars (valid : d.Valid) : Represents d d.chars := by
  have nonneg := valid.count_nonneg
  have length := length_chars d
  refine ⟨valid, by omega, fun k x found => ?_⟩
  have bound := (List.getElem?_eq_some_iff.mp found).1
  rw [getElem?_chars (by omega)] at found
  exact Option.some.inj found

theorem represents_blank : Represents blank [] :=
  ⟨⟨rfl, fun _ => rfl, Int.le_refl _, Int.le_refl _, Int.le_refl _⟩, rfl, segment_nil⟩

theorem Represents.item_eq (h : Represents d xs) {k : ℕ} {x : Character} (found : xs[k]? = some x) :
    d.item (k + 1) = some x := by
  have bound := (List.getElem?_eq_some_iff.mp found).1
  have count := h.count_eq
  have size := h.valid.size_eq
  have low := h.valid.lower_nonneg
  have fits := h.valid.fits
  unfold item
  rw [show (k : Int) + 1 - 1 + d.storageLower = d.storageLower + k by omega,
    NativeArray.item_of_inBounds (by omega), h.segment k x found]

theorem grown_ensureCapacity (size : d.storage.size = d.capacity) (nonneg : 0 ≤ d.capacity)
    (null : d.isNull = true → d.capacity = 0) (neededCapacity : Int) (needed : 0 ≤ neededCapacity) :
    Grown d (d.ensureCapacity neededCapacity) neededCapacity := by
  unfold ensureCapacity
  split
  · rename_i isNull
    have zero := null isNull
    by_cases positive : neededCapacity > 0
    · rw [if_pos positive]
      refine ⟨rfl, rfl, rfl, fun found => ?_, Int.le_refl _, by dsimp only; omega, fun i _ _ => by omega,
        fun _ _ _ => rfl⟩
      rw [decide_eq_true_eq] at found
      omega
    · rw [if_neg positive]
      exact ⟨rfl, rfl, by dsimp only; omega, fun _ => by dsimp only; omega, Int.le_refl _,
        by dsimp only; omega, fun i _ _ => by omega, fun _ => by omega⟩
  · rename_i notNull
    have notNull' : ∀ P : Prop, d.isNull = true → P := fun _ found => absurd found notNull
    split
    · refine ⟨rfl, rfl, rfl, notNull' _, by dsimp only; omega, by dsimp only; omega,
        fun i from_zero less => if_pos ⟨from_zero, less⟩, fun _ i from_capacity => if_neg (by omega)⟩
    · exact ⟨rfl, rfl, size, notNull' _, by omega, Int.le_refl _, fun _ _ _ => rfl, fun _ => by omega⟩

theorem Represents.capacity_nonneg (h : Represents d xs) : 0 ≤ d.capacity := by
  have low := h.valid.lower_nonneg
  have count := h.valid.count_nonneg
  have fits := h.valid.fits
  omega

theorem Represents.grown (h : Represents d xs) (neededCapacity : Int) (needed : 0 ≤ neededCapacity) :
    Grown d (d.ensureCapacity neededCapacity) neededCapacity :=
  grown_ensureCapacity h.valid.size_eq h.capacity_nonneg h.valid.null neededCapacity needed

theorem Represents.of_grown (h : Represents d xs) (grown : Grown d d' neededCapacity) :
    Represents d' xs := by
  have low := h.valid.lower_nonneg
  have count := h.count_eq
  have fits := h.valid.fits
  have grow := grown.capacity_le
  refine ⟨⟨grown.size_eq, grown.null, ?_, ?_, ?_⟩, ?_, ?_⟩
  · rw [grown.lower_eq]
    exact low
  · rw [grown.count_eq]
    exact h.valid.count_nonneg
  · rw [grown.lower_eq, grown.count_eq]
    omega
  · rw [grown.count_eq]
    exact count
  · rw [grown.lower_eq]
    exact h.segment.congr fun i _ _ => grown.cell_eq i (by omega) (by omega)

end Capacity

end NativelyStoredString

end Liberty
