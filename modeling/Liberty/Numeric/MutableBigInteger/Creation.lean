import Liberty.Numeric.MutableBigInteger

/-!
# Creation, copies and comparison

What an object holds after `from_integer`, `from_integer_64`, `from_native_array` and
`copy`, and what `abs_compare` answers.
-/

namespace Liberty

namespace MutableBigInteger

/-- An object before its creation procedure. -/
def blank : MutableBigInteger where
  storage := .calloc 0
  capacity := 0
  integerLength := 0
  offset := 0
  negative := false

/-! ## Creation -/

def fromInteger (m : MutableBigInteger) (value : Word) : Option MutableBigInteger := do
  let m := if m.capacity = 0 then { m with storage := .calloc 4, capacity := 4 } else m
  let m := { m with offset := 0 }
  if 0 < value.toInt then
    let m ← { m with negative := false }.put value 0
    return { m with integerLength := 1 }
  else if value.toInt < 0 then
    let m ← { m with negative := true }.put (-value) 0
    return { m with integerLength := 1 }
  else
    return m.setWithZero

def low32 (v : BitVec 64) : Word := v.truncate 32

def high32 (v : BitVec 64) : Word := (v >>> 32).truncate 32

/-- The two branches of `from_integer_64` that write words. -/
def fromWords64 (m : MutableBigInteger) (v : BitVec 64) (negative : Bool) :
    Option MutableBigInteger := do
  let m ← { m with negative }.put (low32 v) 0
  let m := { m with offset := 0 }
  let v32 := high32 v
  if v32 = 0 then
    return { m with integerLength := 1 }
  else
    let m ← m.put v32 1
    return { m with integerLength := 2 }

def fromInteger64 (m : MutableBigInteger) (value : BitVec 64) :
    Option MutableBigInteger :=
  let m := if m.capacity < 2 then { m with storage := .calloc 4, capacity := 4 } else m
  if 0 < value.toInt then m.fromWords64 value false
  else if value.toInt < 0 then m.fromWords64 (-value) true
  else some m.setWithZero

/-- A new storage when `cap` words do not fit. -/
def enlarge (m : MutableBigInteger) (cap : Int) : Option MutableBigInteger :=
  if cap > m.capacity then do
    let capacity ← capacityFromLowerBound m.capacity cap
    return { m with capacity, storage := .calloc capacity }
  else
    some m

def fromNativeArray (m : MutableBigInteger) (na : NativeArray Word) (cap : Int)
    (neg : Bool) : Option MutableBigInteger := do
  let m := { m with negative := neg, offset := 0, integerLength := cap }
  let m ← m.enlarge cap
  return { m with storage := ← m.storage.sliceCopy 0 na 0 (cap - 1) }

/-! ## Copies -/

/-- `copy` until the storage is large enough. -/
def copyFields (m other : MutableBigInteger) : Option MutableBigInteger :=
  let m :=
    { m with negative := other.negative, offset := 0, integerLength := other.integerLength }
  if m.capacity < other.integerLength then do
    let capacity ← capacityFromUpperBound other.capacity m.integerLength
    return { m with capacity, storage := .calloc capacity }
  else if m.capacity = 0 then
    some { m with capacity := 4, storage := .calloc 4 }
  else
    some m

/-- The slice copy that ends `copy`. -/
def copyWords (m other : MutableBigInteger) : Option MutableBigInteger :=
  if m.integerLength ≠ 0 then do
    let storage ← m.storage.sliceCopy m.offset other.storage other.offset
      (other.offset + m.integerLength - 1)
    return { m with storage }
  else
    some m

/-- `copy` of another object. -/
def copy (m other : MutableBigInteger) : Option MutableBigInteger := do
  let m ← m.copyFields other
  m.copyWords other

/-- `copy` of the object itself: the words are read at the offset just set. -/
def copySelf (m : MutableBigInteger) : Option MutableBigInteger := do
  let m ← m.copyFields m
  m.copyWords m

/-- An object that a command may initialise. -/
def Fits (m : MutableBigInteger) : Prop :=
  m = blank ∨ Valid m

theorem Valid.fits {m : MutableBigInteger} (h : Valid m) : Fits m := .inr h

theorem fits_blank : Fits blank := .inl rfl

theorem Fits.capacity_lt_four {m : MutableBigInteger} (h : Fits m)
    (small : m.capacity < 4) : m = blank := by
  rcases h with blank | valid
  · exact blank
  · have := valid.isCapacity.four_le
    omega

/-- What a copy takes from the object it copies. -/
structure CopyOf (r other : MutableBigInteger) : Prop extends Holds r other.value where
  offset_eq : r.offset = 0
  length_eq' : r.integerLength = other.integerLength
  negative_eq : r.negative = other.negative
  cell_eq : ∀ t : ℕ, (t : Int) < other.integerLength →
    r.storage.cell t = other.storage.cell (other.offset + t)

theorem CopyOf.magnitude_eq' {r other : MutableBigInteger} (h : CopyOf r other) :
    r.magnitude = other.magnitude := by
  rw [← abs_value, h.value_eq, abs_value]

/-- An object with the words, the sign and the length of another one, from offset 0. -/
theorem CopyOf.of_words {r other : MutableBigInteger} (ho : Valid other)
    (isCapacity : IsCapacity r.capacity) (size_eq : r.storage.size = r.capacity)
    (length_le : other.integerLength ≤ r.capacity) (offset_eq : r.offset = 0)
    (length_eq : r.integerLength = other.integerLength)
    (negative_eq : r.negative = other.negative)
    (cell_eq : ∀ t : ℕ, (t : Int) < other.integerLength →
      r.storage.cell t = other.storage.cell (other.offset + t)) : CopyOf r other := by
  obtain ⟨n, length⟩ := ho.length_eq
  have same : r.magnitude = other.magnitude := by
    rw [magnitude_eq (length_eq.trans length), magnitude_eq length, offset_eq]
    refine wordValue_congr fun t ht => ?_
    rw [zero_add]
    exact cell_eq t (by omega)
  refine
    { top_ne_zero := fun nonzero => ?_
      not_negative := fun zero => negative_eq.trans (ho.not_negative (length_eq ▸ zero))
      isCapacity := isCapacity
      size_eq := size_eq
      length_nonneg := length_eq ▸ ho.length_nonneg
      length_le := length_eq ▸ length_le
      offset_range := fun _ => by omega
      value_eq := by rw [value, value, negative_eq, same]
      offset_eq := offset_eq
      length_eq' := length_eq
      negative_eq := negative_eq
      cell_eq := cell_eq }
  have top := ho.top_ne_zero (length_eq ▸ nonzero)
  have cell := cell_eq (n - 1) (by omega)
  rw [show other.offset + other.integerLength - 1 = other.offset + ((n - 1 : ℕ) : Int) by
    omega] at top
  rwa [show r.offset + r.integerLength - 1 = ((n - 1 : ℕ) : Int) by omega, cell]

/-- An object that is ready to receive the words of `other`. -/
structure Receives (r other : MutableBigInteger) : Prop where
  isCapacity : IsCapacity r.capacity
  size_eq : r.storage.size = r.capacity
  length_le : other.integerLength ≤ r.capacity
  offset_eq : r.offset = 0
  length_eq : r.integerLength = other.integerLength
  negative_eq : r.negative = other.negative

theorem returns_copyFields {m other : MutableBigInteger} (hm : Fits m)
    (ho : Valid other) :
    Returns (m.copyFields other) fun r => Receives r other ∧
      (other.integerLength ≤ m.capacity → m ≠ blank →
        r.capacity = m.capacity ∧ r.storage = m.storage) := by
  simp only [copyFields]
  split
  · refine (returns_capacityFromUpperBound ho.isCapacity ho.length_le).bind ?_
    rintro capacity ⟨isCapacity, enough, -⟩
    exact Returns.pure_iff.mpr
      ⟨⟨isCapacity, rfl, enough, rfl, rfl, rfl⟩, fun short => by omega⟩
  · split
    · have short : other.integerLength ≤ 4 := by omega
      refine Returns.some_iff.mpr ⟨⟨⟨0, rfl⟩, rfl, short, rfl, rfl, rfl⟩, fun _ used => ?_⟩
      exact absurd (hm.capacity_lt_four (by omega)) used
    · rename_i enough positive
      rcases hm with rfl | hm
      · exact absurd rfl positive
      · exact Returns.some_iff.mpr
          ⟨⟨hm.isCapacity, hm.size_eq, Int.not_lt.mp enough, rfl, rfl, rfl⟩,
            fun _ _ => ⟨rfl, rfl⟩⟩

theorem returns_copyWords {m other : MutableBigInteger} (hm : Receives m other)
    (ho : Valid other) :
    Returns (m.copyWords other) fun r => CopyOf r other ∧ r.capacity = m.capacity := by
  obtain ⟨isCapacity, size, enough, offset, length, negative⟩ := hm
  have range := ho.offset_range
  have size' := ho.size_eq
  rw [copyWords]
  split
  · rw [Returns.bind_iff]
    refine NativeArray.returns_sliceCopy (by omega) fun s hsize inside _ =>
      Returns.pure_iff.mpr ⟨.of_words ho isCapacity (hsize.trans size) enough offset length
        negative fun t ht => ?_, rfl⟩
    rw [← zero_add (t : Int), ← offset, inside _ (by omega) (by omega)]
    congr 1
    omega
  · exact Returns.some_iff.mpr
      ⟨.of_words ho isCapacity size enough offset length negative fun t ht => by omega, rfl⟩

theorem returns_copy {m other : MutableBigInteger} (hm : Fits m) (ho : Valid other) :
    Returns (m.copy other) fun r => CopyOf r other ∧
      (other.integerLength ≤ m.capacity → m ≠ blank → r.capacity = m.capacity) := by
  refine (returns_copyFields hm ho).bind ?_
  rintro m' ⟨receives, kept⟩
  refine (returns_copyWords receives ho).mono ?_
  rintro r ⟨copied, capacity⟩
  exact ⟨copied, fun enough used => capacity.trans (kept enough used).1⟩

/-- A copy of the object itself only clears the offset. -/
theorem returns_copySelf {m : MutableBigInteger} (hm : Valid m) :
    Returns m.copySelf fun r => ∃ s : NativeArray Word, s.size = m.storage.size ∧
      (∀ i, s.cell i = m.storage.cell i) ∧ r = { m with storage := s, offset := 0 } := by
  have le := hm.length_le
  have least := hm.isCapacity.four_le
  have size := hm.size_eq
  rw [copySelf, copyFields]
  dsimp only
  rw [if_neg (by omega), if_neg (by omega), Returns.some_bind, copyWords]
  split
  · rw [Returns.bind_iff]
    refine NativeArray.returns_sliceCopy (by dsimp only; omega) fun s hsize inside outside =>
      Returns.pure_iff.mpr ⟨s, hsize, fun i => ?_, rfl⟩
    by_cases copied : 0 ≤ i ∧ i ≤ 0 + (0 + m.integerLength - 1) - 0
    · rw [inside i copied.1 copied.2]
      congr 1
      omega
    · exact outside i copied
  · exact Returns.some_iff.mpr ⟨m.storage, rfl, fun _ => rfl, rfl⟩

/-! ## Integers -/

theorem unsigned_of_toInt_pos {v : Word} (pos : 0 < v.toInt) : unsigned v = v.toInt := by
  rw [BitVec.toInt_eq_toNat_cond] at pos ⊢
  unfold unsigned
  split at pos <;> simp_all; omega

theorem unsigned_neg_of_toInt_neg {v : Word} (neg : v.toInt < 0) :
    unsigned (-v) = -v.toInt := by
  rw [BitVec.toInt_eq_toNat_cond] at neg ⊢
  simp only [unsigned, BitVec.toNat_neg]
  split at neg <;> rename_i h <;> simp only [h, if_true, if_false] <;> omega

theorem toNat_of_toInt_pos {v : BitVec 64} (pos : 0 < v.toInt) : (v.toNat : ℤ) = v.toInt := by
  rw [BitVec.toInt_eq_toNat_cond] at pos ⊢
  split at pos <;> simp_all; omega

theorem toNat_neg_of_toInt_neg {v : BitVec 64} (neg : v.toInt < 0) :
    ((-v).toNat : ℤ) = -v.toInt := by
  rw [BitVec.toInt_eq_toNat_cond] at neg ⊢
  simp only [BitVec.toNat_neg]
  split at neg <;> rename_i h <;> simp only [h, if_true, if_false] <;> omega

theorem low32_add_high32 (v : BitVec 64) :
    unsigned (low32 v) + wordBase * unsigned (high32 v) = v.toNat :=
  splitProduct_spec v

/-- A storage whose top significant word is not zero. -/
theorem Valid.of_top {r : MutableBigInteger} (n : ℕ) (isCapacity : IsCapacity r.capacity)
    (size_eq : r.storage.size = r.capacity) (length : r.integerLength = n + 1)
    (low : 0 ≤ r.offset) (high : r.offset + (n + 1) ≤ r.capacity)
    (top : r.storage.cell (r.offset + n) ≠ 0) : Valid r where
  top_ne_zero _ := by
    rwa [show r.offset + r.integerLength - 1 = r.offset + n by omega]
  not_negative zero := by omega
  isCapacity := isCapacity
  size_eq := size_eq
  length_nonneg := by omega
  length_le := by omega
  offset_range _ := by omega

/-- The value under a sign. -/
def signed (negative : Bool) (magnitude : ℤ) : ℤ :=
  if negative then -magnitude else magnitude

@[simp] theorem signed_true (a : ℤ) : signed true a = -a := rfl

@[simp] theorem signed_false (a : ℤ) : signed false a = a := rfl

theorem value_eq_signed (m : MutableBigInteger) : m.value = signed m.negative m.magnitude :=
  rfl

theorem Valid.holds {r : MutableBigInteger} (h : Valid r) {n : ℕ} {v : ℤ}
    (length : r.integerLength = n)
    (eq : signed r.negative (wordValue r.storage r.offset n) = v) : Holds r v :=
  { h with value_eq := by rw [value_eq_signed, magnitude_eq length, eq] }

/-- A window of the storage whose top word is not zero. -/
theorem Holds.of_window {r : MutableBigInteger} {v : ℤ} (n : ℕ)
    (isCapacity : IsCapacity r.capacity) (size_eq : r.storage.size = r.capacity)
    (length : r.integerLength = n + 1) (low : 0 ≤ r.offset)
    (high : r.offset + (n + 1) ≤ r.capacity) (top : r.storage.cell (r.offset + n) ≠ 0)
    (eq : signed r.negative (wordValue r.storage r.offset (n + 1)) = v) : Holds r v :=
  (Valid.of_top n isCapacity size_eq length low high top).holds (n := n + 1) length eq

/-- One word at the beginning of the storage. -/
theorem holds_of_one {r : MutableBigInteger} {v : ℤ} (w : Word)
    (isCapacity : IsCapacity r.capacity) (size_eq : r.storage.size = r.capacity)
    (length : r.integerLength = 1) (offset : r.offset = 0) (cell : r.storage.cell 0 = w)
    (nonzero : w ≠ 0) (eq : signed r.negative (unsigned w) = v) : Holds r v := by
  have least := isCapacity.four_le
  refine (Valid.of_top 0 isCapacity size_eq length (by omega) (by omega) ?_).holds length ?_
  · rw [offset, Nat.cast_zero, add_zero, cell]
    exact nonzero
  · rw [offset, wordValue_succ, wordValue_zero, pow_zero, zero_add, mul_one, Nat.cast_zero,
      add_zero, cell, eq]

theorem returns_fromInteger {m : MutableBigInteger} (hm : Fits m) (value : Word) :
    Returns (m.fromInteger value) fun r =>
      Holds r value.toInt ∧ r.offset = 0 ∧ (m ≠ blank → r.capacity = m.capacity) := by
  obtain ⟨storage, capacity, isCapacity, size, fresh, used⟩ :
      ∃ storage capacity, IsCapacity capacity ∧ storage.size = capacity ∧
        (if m.capacity = 0 then
            { m with storage := NativeArray.calloc 4, capacity := 4 } else m) =
          { m with storage, capacity } ∧ (m ≠ blank → capacity = m.capacity) := by
    rcases hm with rfl | hm
    · exact ⟨_, _, ⟨0, rfl⟩, rfl, if_pos rfl, fun used => absurd rfl used⟩
    · have := hm.isCapacity.four_le
      exact ⟨_, _, hm.isCapacity, hm.size_eq, if_neg (by omega), fun _ => rfl⟩
  have least := isCapacity.four_le
  simp only [fromInteger, fresh, put]
  split
  · rename_i pos
    simp only [Returns.bind_iff, NativeArray.returns_put, Returns.pure_iff]
    refine ⟨by omega, holds_of_one value isCapacity size rfl rfl
      (NativeArray.cell_set_self _ _ _) ?_ (unsigned_of_toInt_pos pos), trivial, used⟩
    rintro rfl
    exact absurd pos (by decide)
  · split
    · rename_i _ neg
      have word := unsigned_neg_of_toInt_neg neg
      simp only [Returns.bind_iff, NativeArray.returns_put, Returns.pure_iff]
      refine ⟨by omega, holds_of_one (-value) isCapacity size rfl rfl
        (NativeArray.cell_set_self _ _ _) ?_ (by rw [signed_true, word, neg_neg]), trivial,
        used⟩
      intro zero
      rw [zero, unsigned_zero] at word
      omega
    · have zero : value.toInt = 0 := by omega
      rw [Returns.pure_iff, zero]
      refine ⟨⟨⟨⟨fun h => absurd rfl h, fun _ => rfl⟩, isCapacity, size, le_rfl, ?_,
        fun h => absurd rfl h⟩, rfl⟩, rfl, used⟩
      simp only [setWithZero]
      omega

/-- Two words at the beginning of the storage. -/
theorem holds_of_two {r : MutableBigInteger} {v : ℤ} (w w' : Word)
    (isCapacity : IsCapacity r.capacity) (size_eq : r.storage.size = r.capacity)
    (length : r.integerLength = 2) (offset : r.offset = 0) (cell : r.storage.cell 0 = w)
    (cell' : r.storage.cell 1 = w') (nonzero : w' ≠ 0)
    (eq : signed r.negative (unsigned w + wordBase * unsigned w') = v) : Holds r v := by
  have least := isCapacity.four_le
  refine (Valid.of_top 1 isCapacity size_eq length (by omega) (by omega) ?_).holds length ?_
  · rw [offset, Nat.cast_one, zero_add, cell']
    exact nonzero
  · rw [offset, wordValue_succ, wordValue_succ, wordValue_zero, pow_zero, zero_add, mul_one,
      pow_one, Nat.cast_zero, add_zero, Nat.cast_one, zero_add, cell, cell', mul_comm, eq]

theorem returns_fromWords64 {m : MutableBigInteger} (isCapacity : IsCapacity m.capacity)
    (size_eq : m.storage.size = m.capacity) {v : BitVec 64} (nonzero : v ≠ 0)
    (negative : Bool) :
    Returns (m.fromWords64 v negative) fun r =>
      Holds r (signed negative v.toNat) ∧ r.offset = 0 ∧ r.capacity = m.capacity := by
  have least := isCapacity.four_le
  have parts := low32_add_high32 v
  simp only [fromWords64, put, Returns.bind_iff, NativeArray.returns_put, Returns.pure_iff]
  refine ⟨by omega, ?_⟩
  split
  · rename_i zero
    rw [zero, unsigned_zero, mul_zero, add_zero] at parts
    refine Returns.pure_iff.mpr ⟨holds_of_one (low32 v) isCapacity size_eq rfl rfl
      (NativeArray.cell_set_self _ _ _) ?_ (by rw [parts]), rfl, rfl⟩
    intro low
    rw [low, unsigned_zero] at parts
    have zero : v.toNat = 0 := by omega
    exact nonzero (BitVec.eq_of_toNat_eq zero)
  · rename_i high
    simp only [Returns.bind_iff, NativeArray.returns_put, Returns.pure_iff,
      NativeArray.size_set]
    refine ⟨by omega, holds_of_two (low32 v) (high32 v) isCapacity size_eq rfl rfl ?_
      (NativeArray.cell_set_self _ _ _) high (by rw [parts]), trivial, trivial⟩
    rw [NativeArray.cell_set_of_ne _ _ (by omega), NativeArray.cell_set_self]

theorem returns_fromInteger64 {m : MutableBigInteger} (hm : Fits m) (value : BitVec 64) :
    Returns (m.fromInteger64 value) fun r =>
      Holds r value.toInt ∧ (value ≠ 0 → r.offset = 0) ∧
        (m ≠ blank → r.capacity = m.capacity) := by
  obtain ⟨storage, capacity, isCapacity, size, fresh, used⟩ :
      ∃ storage capacity, IsCapacity capacity ∧ storage.size = capacity ∧
        (if m.capacity < 2 then
            { m with storage := NativeArray.calloc 4, capacity := 4 } else m) =
          { m with storage, capacity } ∧ (m ≠ blank → capacity = m.capacity) := by
    rcases hm with rfl | hm
    · exact ⟨_, _, ⟨0, rfl⟩, rfl, if_pos (by decide), fun used => absurd rfl used⟩
    · have := hm.isCapacity.four_le
      exact ⟨_, _, hm.isCapacity, hm.size_eq, if_neg (by omega), fun _ => rfl⟩
  have least := isCapacity.four_le
  simp only [fromInteger64, fresh]
  split
  · rename_i pos
    refine (returns_fromWords64 isCapacity size ?_ false).mono ?_
    · rintro rfl
      exact absurd pos (by decide)
    · rintro r ⟨holds, offset, same⟩
      rw [signed_false, toNat_of_toInt_pos pos] at holds
      exact ⟨holds, fun _ => offset, fun nonblank => same.trans (used nonblank)⟩
  · split
    · rename_i _ neg
      have magnitude := toNat_neg_of_toInt_neg neg
      refine (returns_fromWords64 isCapacity size ?_ true).mono ?_
      · intro zero
        rw [zero] at magnitude
        have : ((0 : BitVec 64).toNat : ℤ) = 0 := rfl
        omega
      · rintro r ⟨holds, offset, same⟩
        rw [signed_true, magnitude, neg_neg] at holds
        exact ⟨holds, fun _ => offset, fun nonblank => same.trans (used nonblank)⟩
    · have zero : value.toInt = 0 := by omega
      rw [Returns.some_iff, zero]
      refine ⟨⟨⟨⟨fun h => absurd rfl h, fun _ => rfl⟩, isCapacity, size, le_rfl, ?_,
        fun h => absurd rfl h⟩, rfl⟩, fun nonzero => ?_, used⟩
      · simp only [setWithZero]
        omega
      · exact absurd (BitVec.eq_of_toInt_eq zero) nonzero

theorem returns_enlarge {m : MutableBigInteger} (isCapacity : IsCapacity m.capacity)
    (size_eq : m.storage.size = m.capacity) (cap : Int) :
    Returns (m.enlarge cap) fun r =>
      IsCapacity r.capacity ∧ r.storage.size = r.capacity ∧ cap ≤ r.capacity ∧
        r.integerLength = m.integerLength ∧ r.offset = m.offset ∧
        r.negative = m.negative ∧
        capacityFromLowerBound m.capacity cap = some r.capacity := by
  obtain ⟨capacity, run, isCapacity', -, enough, least⟩ :=
    returns_capacityFromLowerBound isCapacity
  rw [enlarge]
  split
  · rw [run]
    exact Returns.pure_iff.mpr ⟨isCapacity', rfl, enough, rfl, rfl, rfl, rfl⟩
  · rename_i fits
    refine Returns.some_iff.mpr ⟨isCapacity, size_eq, by omega, rfl, rfl, rfl, ?_⟩
    rw [capacityFromLowerBound]
    cases cap.toNat <;> simp [untilLoop, Int.not_lt.mp fits]

theorem returns_fromNativeArray {m : MutableBigInteger} (hm : Valid m)
    {na : NativeArray Word} {n : ℕ} (inside : (n : Int) + 1 ≤ na.size)
    (top : na.cell n ≠ 0) (neg : Bool) :
    Returns (m.fromNativeArray na (n + 1) neg) fun r =>
      Holds r (signed neg (wordValue na 0 (n + 1))) ∧ r.offset = 0 ∧
        r.integerLength = n + 1 ∧
        capacityFromLowerBound m.capacity (n + 1) = some r.capacity := by
  rw [fromNativeArray, Returns.bind_iff]
  refine (returns_enlarge
    (m := { m with negative := neg, offset := 0, integerLength := n + 1 })
    hm.isCapacity hm.size_eq (n + 1)).mono ?_
  rintro r ⟨isCapacity, size, enough, length, offset, negative, run⟩
  simp only at length offset negative run
  rw [Returns.bind_iff]
  refine NativeArray.returns_sliceCopy (by omega) fun s hsize cells _ =>
    Returns.pure_iff.mpr ⟨?_, offset, length, run⟩
  have cell : ∀ t : ℕ, t < n + 1 → s.cell (0 + t) = na.cell (0 + t) := fun t ht => by
    rw [cells _ (by omega) (by omega)]
    congr 1
    omega
  refine (Valid.of_top (r := { r with storage := s }) n isCapacity (hsize.trans size) length
    (by simp only; omega) (by simp only; omega) ?_).holds (n := n + 1) length ?_
  · simp only [offset]
    rw [cell n (by omega), zero_add]
    exact top
  · simp only [offset, negative]
    rw [wordValue_congr cell]

/-! ## Comparison -/

def absCompare (m other : MutableBigInteger) : Option Int :=
  if m.integerLength < other.integerLength then some (-1)
  else if m.integerLength > other.integerLength then some 1
  else do
    let (_, _, result) ← untilLoop (fun s : Int × Int × Int => some (decide (s.1 ≤ m.offset)))
      (fun (a, b, result) => do
        let a := a - 1
        let b := b - 1
        let va ← m.storage.item a
        let vb ← other.storage.item b
        if unsignedLessThan va vb then return (-1, b, -1)
        else if unsignedLessThan vb va then return (-1, b, 1)
        else return (a, b, result))
      m.integerLength.toNat (m.offset + m.integerLength, other.offset + m.integerLength, 0)
    return result

theorem wordValue_lt_of_top {s s' : NativeArray Word} {o o' : Int} {m n : ℕ} (lt : m < n)
    (less : unsigned (s.cell (o + m)) < unsigned (s'.cell (o' + m)))
    (same : ∀ t : ℕ, m < t → t < n → s.cell (o + t) = s'.cell (o' + t)) :
    wordValue s o n < wordValue s' o' n :=
  Positional.value_lt_of_top wordBase_pos (digits_words s o _) (digits_words s' o' _) lt
    less fun t above below => congrArg unsigned (same t above below)

theorem returns_absCompare {m other : MutableBigInteger} (hm : Valid m)
    (ho : Valid other) :
    Returns (m.absCompare other) fun r => r = (m.magnitude - other.magnitude).sign := by
  obtain ⟨n, length⟩ := hm.length_eq
  obtain ⟨n', length'⟩ := ho.length_eq
  have lt := magnitude_lt length
  have lt' := magnitude_lt length'
  rw [absCompare]
  split
  · obtain ⟨k, succ⟩ := ho.length_eq_succ (by omega)
    have le := ho.le_magnitude succ
    have mono : wordBase ^ n ≤ wordBase ^ k :=
      pow_le_pow_right₀ wordBase_pos (by omega)
    exact Returns.some_iff.mpr (Int.sign_eq_neg_one_of_neg (by omega)).symm
  split
  · obtain ⟨k, succ⟩ := hm.length_eq_succ (by omega)
    have le := hm.le_magnitude succ
    have mono : wordBase ^ n' ≤ wordBase ^ k :=
      pow_le_pow_right₀ wordBase_pos (by omega)
    exact Returns.some_iff.mpr (Int.sign_eq_one_of_pos (by omega)).symm
  · have same : n' = n := by omega
    subst same
    have range := hm.offset_range
    have range' := ho.offset_range
    have size := hm.size_eq
    have size' := ho.size_eq
    rw [magnitude_eq length, magnitude_eq length', Returns.bind_iff]
    refine returns_untilLoop
      (fun (a, b, r) =>
        (r = 0 ∧ ∃ t : ℕ, t ≤ n' ∧ a = m.offset + t ∧ b = other.offset + t ∧
          ∀ u : ℕ, t ≤ u → u < n' →
            m.storage.cell (m.offset + u) = other.storage.cell (other.offset + u)) ∨
        (n' ≠ 0 ∧ a = -1 ∧ r = (wordValue m.storage m.offset n' -
          wordValue other.storage other.offset n').sign))
      (fun (a, _, _) => (a - m.offset).toNat)
      (.inl ⟨rfl, n', le_rfl, by omega, by omega, fun u _ _ => by omega⟩)
      (by simp only; omega) ?_
    rintro ⟨a, b, r⟩ inv
    simp only [Returns.some_iff] at inv ⊢
    split
    · rename_i stopped
      rw [decide_eq_true_eq] at stopped
      rcases inv with ⟨rfl, t, le, rfl, rfl, above⟩ | ⟨_, _, rfl⟩
      · have equal := wordValue_congr fun u hu => above u (by omega) hu
        rw [Returns.pure_iff, equal, sub_self, Int.sign_zero]
      · exact Returns.pure_iff.mpr rfl
    · rename_i going
      rw [decide_eq_true_eq] at going
      rcases inv with ⟨rfl, t, le, rfl, rfl, above⟩ | ⟨nonzero, rfl, _⟩
      swap
      · omega
      obtain ⟨t, rfl⟩ : ∃ u, t = u + 1 := ⟨t - 1, by omega⟩
      have index : m.offset + ((t + 1 : ℕ) : Int) - 1 = m.offset + t := by push_cast; omega
      have index' : other.offset + ((t + 1 : ℕ) : Int) - 1 = other.offset + t := by
        push_cast; omega
      simp only [index, index', Returns.bind_iff, NativeArray.returns_item]
      refine ⟨by omega, by omega, ?_⟩
      split
      · rename_i less
        rw [unsignedLessThan_iff] at less
        have lower := wordValue_lt_of_top (n := n') (by omega) less
          fun u hu hu' => above u (by omega) hu'
        exact Returns.pure_iff.mpr
          ⟨.inr ⟨by omega, rfl, (Int.sign_eq_neg_one_of_neg (by omega)).symm⟩, by omega⟩
      · rename_i notLess
        split
        · rename_i less
          rw [unsignedLessThan_iff] at less
          have lower := wordValue_lt_of_top (n := n') (by omega) less
            fun u hu hu' => (above u (by omega) hu').symm
          exact Returns.pure_iff.mpr
            ⟨.inr ⟨by omega, rfl, (Int.sign_eq_one_of_pos (by omega)).symm⟩, by omega⟩
        · rename_i notGreater
          rw [unsignedLessThan_iff] at notLess notGreater
          have equal : m.storage.cell (m.offset + t) = other.storage.cell (other.offset + t) :=
            unsigned_inj.mp (by omega)
          refine Returns.pure_iff.mpr ⟨.inl ⟨rfl, t, by omega, rfl, rfl, fun u hu hu' => ?_⟩,
            by omega⟩
          rcases Nat.eq_or_lt_of_le hu with rfl | below
          · exact equal
          · exact above u below hu'

end MutableBigInteger

end Liberty
