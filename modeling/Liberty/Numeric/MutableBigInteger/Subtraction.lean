import Liberty.Numeric.MutableBigInteger.Addition

/-!
# Subtraction of magnitudes

`subtract_magnitude` compares the lengths, then the words from the top, and subtracts
the smaller magnitude from the larger one at the beginning of the storage.  Each of its
branches is exact under a condition on the words, which the lemmas below make precise.
-/

namespace Liberty

namespace MutableBigInteger

/-! ## The source -/

/-- `from k := k - 1 until item(k) /= 0 loop k := k - 1 end`. -/
def lastNonZero (s : NativeArray Word) (k : Int) : Option Int :=
  untilLoop (fun k => do return (← s.item k) != 0) (fun k => some (k - 1)) k.toNat (k - 1)

def subtractMagnitudeRaw (m other : MutableBigInteger) : Option MutableBigInteger := do
  let up := other.integerLength - 1
  let c ← carryLoops subtractStep mbiDec (fun c => decide (c.k > up)) (fun c => !c.carry)
    (fun c => c.storage.item c.i) (fun c => other.storage.item c.j)
    ⟨m.storage, m.offset, other.offset, 0, false⟩
  if c.k = m.integerLength then
    let k ← lastNonZero c.storage c.k
    return { m with storage := c.storage, integerLength := k + 1, offset := 0 }
  else
    return { m with storage := c.storage, offset := 0 }

def subtractMagnitudeRawReverse (m other : MutableBigInteger) :
    Option MutableBigInteger := do
  let up := m.integerLength - 1
  let c ← carryLoops subtractStep mbiDec (fun c => decide (c.k > up)) (fun c => !c.carry)
    (fun c => other.storage.item c.j) (fun c => c.storage.item c.i)
    ⟨m.storage, m.offset, other.offset, 0, false⟩
  let up := other.integerLength
  if c.k < up then
    let c ← c.upLoop (fun c => decide (c.k = up))
      fun c => do return (← other.storage.item c.j, c.carry)
    return { m with storage := c.storage, integerLength := up }
  else
    let k ← lastNonZero c.storage c.k
    return { m with storage := c.storage, integerLength := k + 1, offset := 0 }

def subtractMagnitudeRawTruncated (m other : MutableBigInteger) :
    Option MutableBigInteger := do
  let up := m.integerLength - 1
  let c ← Cursor.upLoop (fun c => decide (c.k > up))
    (fun c => do
      return subtractStep c.carry (← c.storage.item c.i) (← other.storage.item c.j))
    ⟨m.storage, m.offset, other.offset, 0, false⟩
  return { m with storage := c.storage, offset := 0 }

def subtractMagnitudeRawReverseTruncated (m other : MutableBigInteger) :
    Option MutableBigInteger := do
  let up := m.integerLength - 1
  let c ← Cursor.upLoop (fun c => decide (c.k > up))
    (fun c => do
      return subtractStep c.carry (← other.storage.item c.j) (← c.storage.item c.i))
    ⟨m.storage, m.offset, other.offset, 0, false⟩
  return { m with storage := c.storage, offset := 0 }

/-- The loop that compares numbers of one length from the top: the length up to the
first words that differ, and these words. -/
def compareTop (m other : MutableBigInteger) : Option (Int × Word × Word) := do
  let i := m.offset + m.integerLength - 1
  let j := other.offset + m.integerLength - 1
  let v1 ← m.storage.item i
  let v2 ← other.storage.item j
  let (integerLength, _, _, v1, v2) ← untilLoop
    (fun (_, i, _, v1, v2) => some (decide (v1 ≠ v2 ∨ i = m.offset)))
    (fun (integerLength, i, j, _, _) => do
      let i := i - 1
      let j := j - 1
      return (integerLength - 1, i, j, ← m.storage.item i, ← other.storage.item j))
    m.integerLength.toNat (m.integerLength, i, j, v1, v2)
  return (integerLength, v1, v2)

/-- One leading zero word is removed. -/
def removeLeadingZero (m : MutableBigInteger) : Option MutableBigInteger := do
  if (← m.storage.item (m.integerLength - 1)) = 0 then
    return { m with integerLength := m.integerLength - 1 }
  else
    return m

def subtractMagnitudeSameLength (m other : MutableBigInteger) :
    Option MutableBigInteger := do
  let (integerLength, v1, v2) ← m.compareTop other
  let m := { m with integerLength }
  if v1 ≠ v2 then
    if unsignedGreaterThan v1 v2 then
      let m ← m.subtractMagnitudeRawTruncated other
      m.removeLeadingZero
    else
      let m ← { m with negative := !m.negative }.subtractMagnitudeRawReverseTruncated other
      m.removeLeadingZero
  else
    return m.setWithZero

/-- `subtract_magnitude`, with `again` for its call on a copy of `other`. -/
def subtractMagnitudeWith
    (again : MutableBigInteger → MutableBigInteger → Option MutableBigInteger)
    (m other : MutableBigInteger) : Option MutableBigInteger :=
  if m.integerLength = other.integerLength then
    m.subtractMagnitudeSameLength other
  else if m.integerLength > other.integerLength then
    m.subtractMagnitudeRaw other
  else if m.capacity ≥ other.integerLength then
    { m with negative := !m.negative }.subtractMagnitudeRawReverse other
  else do
    let new ← blank.copy other
    let new ← again new m
    return { m with
      negative := !m.negative, integerLength := new.integerLength, storage := new.storage,
      offset := new.offset }

/-- The copy is longer than the object, so that the call on it is the last one. -/
def subtractMagnitude (m other : MutableBigInteger) : Option MutableBigInteger :=
  subtractMagnitudeWith (subtractMagnitudeWith fun _ _ => none) m other

/-! ## Results -/

/-- A normalised window of the storage that stands for `v`. -/
structure Exact (r : MutableBigInteger) (v : ℤ) : Prop extends Normalised r where
  length_nonneg : 0 ≤ r.integerLength
  inside : r.integerLength ≠ 0 →
    0 ≤ r.offset ∧ r.offset + r.integerLength ≤ r.storage.size
  value_eq : r.value = v

theorem Holds.exact {r : MutableBigInteger} {v : ℤ} (h : Holds r v) : Exact r v :=
  { h with
    inside := fun nonzero => by
      have := h.offset_range nonzero
      have := h.size_eq
      omega }

/-- An exact result in a storage whose capacity is recorded is valid. -/
theorem Exact.holds {r : MutableBigInteger} {v : ℤ} (h : Exact r v)
    (isCapacity : IsCapacity r.capacity) (size_eq : r.storage.size = r.capacity) :
    Holds r v :=
  { h with
    isCapacity
    size_eq
    length_le := by
      have := isCapacity.four_le
      by_cases nonzero : r.integerLength = 0
      · omega
      · have := h.inside nonzero
        omega
    offset_range := fun nonzero => by
      have := h.inside nonzero
      omega }

theorem signed_inj {negative : Bool} {a b : ℤ} :
    signed negative a = signed negative b ↔ a = b := by
  cases negative <;> simp

/-- A window inside the storage is exact if and only if its words are worth the
magnitude and its top word is needed. -/
theorem exact_iff {r : MutableBigInteger} {n : ℕ} {v : ℤ} (length : r.integerLength = n + 1)
    (low : 0 ≤ r.offset) (high : r.offset + (n + 1) ≤ r.storage.size) :
    Exact r (signed r.negative v) ↔
      wordValue r.storage r.offset (n + 1) = v ∧ wordBase ^ n ≤ v := by
  have value : r.value = signed r.negative (wordValue r.storage r.offset (n + 1)) := by
    rw [value_eq_signed, magnitude_eq (n := n + 1) length]
  constructor
  · intro exact
    have eq := exact.value_eq
    rw [value, signed_inj] at eq
    have le := exact.toNormalised.le_magnitude length
    rw [magnitude_eq (n := n + 1) length, eq] at le
    exact ⟨eq, le⟩
  · rintro ⟨eq, le⟩
    have top := top_ne_zero_of_le (eq ▸ le)
    exact
      { top_ne_zero := fun _ => by
          rwa [show r.offset + r.integerLength - 1 = r.offset + n by omega]
        not_negative := fun zero => by omega
        length_nonneg := by omega
        inside := fun _ => by omega
        value_eq := by rw [value, eq] }

theorem subtractStep_spec' (d : Bool) (x y : Word) :
    unsigned (subtractStep d x y).1 + wordBase * (-1 * bit (subtractStep d x y).2) =
      unsigned x + -1 * unsigned y + -1 * bit d := by
  have := subtractStep_spec d x y
  linarith

theorem mbiDec_spec' (x : Word) :
    unsigned (mbiDec x).1 + wordBase * (-1 * bit (mbiDec x).2) = unsigned x + -1 := by
  have := mbiDec_spec x
  linarith

/-- The top word of a value that is not zero. -/
theorem returns_lastNonZero {s : NativeArray Word} {n : ℕ} (size : (n : Int) ≤ s.size)
    (pos : 0 < wordValue s 0 n) :
    Returns (lastNonZero s n) fun k => ∃ t : ℕ, k = t ∧ t < n ∧ s.cell t ≠ 0 ∧
      wordValue s 0 (t + 1) = wordValue s 0 n := by
  refine returns_untilLoop
    (fun k : Int => ∃ t : ℕ, k = t - 1 ∧ t ≤ n ∧ wordValue s 0 t = wordValue s 0 n)
    (fun k => (k + 1).toNat) ⟨n, rfl, le_rfl, rfl⟩ (by omega) ?_
  rintro k ⟨t, rfl, le, eq⟩
  obtain ⟨t, rfl⟩ : ∃ u, t = u + 1 := by
    cases t with
    | zero => rw [← eq] at pos; exact absurd pos (by simp)
    | succ u => exact ⟨u, rfl⟩
  have index : ((t + 1 : ℕ) : Int) - 1 = t := by push_cast; omega
  rw [index, Returns.bind_iff, NativeArray.returns_item]
  refine ⟨by omega, Returns.pure_iff.mpr ?_⟩
  split
  · rename_i nonzero
    exact ⟨t, rfl, by omega, by simpa using nonzero, eq⟩
  · rename_i zero
    have zero : s.cell t = 0 := by simpa using zero
    rw [wordValue_succ, zero_add, zero, unsigned_zero, zero_mul, add_zero] at eq
    exact Returns.some_iff.mpr ⟨⟨t, rfl, by omega, eq⟩, by omega⟩

/-! ## A longer object -/

section Raw

variable {m other : MutableBigInteger}

theorem magnitude_lt_of_length_lt (hm : Valid m) (shorter : m.integerLength < other.integerLength)
    (ho : Valid other) : m.magnitude < other.magnitude := by
  obtain ⟨n, length⟩ := hm.length_eq
  obtain ⟨n', length'⟩ := ho.length_eq_succ (by omega)
  have lt := magnitude_lt length
  have le := ho.le_magnitude length'
  have mono : wordBase ^ n ≤ wordBase ^ n' := pow_le_pow_right₀ wordBase_pos (by omega)
  omega

/-- There is a borrow as long as the words of `a` are worth less than `b`. -/
theorem Combines.borrow_iff {a b : MutableBigInteger} {n' t : ℕ} {c₀ c : Cursor Bool}
    (h : Combines a b (-1) n' c₀ t c) (length' : b.integerLength = n') (low : n' ≤ t)
    (start : c₀.carry = false) :
    c.carry = true ↔ wordValue a.storage a.offset t < b.magnitude := by
  have eq := h.value_eq' length' low start
  have nonneg := wordValue_nonneg c.storage c₀.k t
  have lt := wordValue_lt c.storage c₀.k t
  cases carry : c.carry
  · simp only [carry, bit_false] at eq
    simp only [Bool.false_eq_true, false_iff]
    linarith
  · simp only [carry, bit_true] at eq
    simp only [true_iff]
    linarith

theorem Combines.le_of_no_borrow {a b : MutableBigInteger} {n' t : ℕ} {c₀ c : Cursor Bool}
    (h : Combines a b (-1) n' c₀ t c) (length' : b.integerLength = n') (low : n' ≤ t)
    (start : c₀.carry = false) (carry : c.carry = false) :
    b.magnitude ≤ wordValue a.storage a.offset t := by
  have borrow := (h.borrow_iff length' low start).not
  rw [carry] at borrow
  exact not_lt.mp (borrow.mp Bool.false_ne_true)

theorem Combines.no_borrow {a b : MutableBigInteger} {n n' : ℕ} {c₀ c : Cursor Bool}
    (h : Combines a b (-1) n' c₀ n c) (length : a.integerLength = n)
    (length' : b.integerLength = n') (le : n' ≤ n) (start : c₀.carry = false)
    (smaller : b.magnitude ≤ a.magnitude) : c.carry = false := by
  have borrow := h.borrow_iff length' le start
  rw [← magnitude_eq length] at borrow
  rw [← Bool.not_eq_true, borrow]
  omega

theorem Combines.eq_of_no_borrow {a b : MutableBigInteger} {n n' : ℕ} {c₀ c : Cursor Bool}
    (h : Combines a b (-1) n' c₀ n c) (length : a.integerLength = n)
    (length' : b.integerLength = n') (le : n' ≤ n) (start : c₀.carry = false)
    (carry : c.carry = false) :
    wordValue c.storage c₀.k n = a.magnitude - b.magnitude := by
  have eq := h.value_eq' length' le start
  rw [← magnitude_eq length, carry, bit_false] at eq
  linarith

/-- A result in the storage of the object. -/
structure InPlace (m r : MutableBigInteger) : Prop where
  capacity_eq : r.capacity = m.capacity
  size_eq : r.storage.size = m.storage.size

/-- The difference is whole, and its leading zero words are removed. -/
theorem returns_stripped {s : NativeArray Word} (size : s.size = m.storage.size) {n : ℕ}
    (fits : (n : Int) ≤ s.size) {v : ℤ} (eq : wordValue s 0 n = v) (pos : 0 < v) :
    Returns (do
        let k ← lastNonZero s n
        return { m with storage := s, integerLength := k + 1, offset := 0 })
      fun r => InPlace m r ∧ Exact r (signed m.negative v) ∧ r.offset = 0 := by
  refine (returns_lastNonZero fits (eq ▸ pos)).bind ?_
  rintro _ ⟨u, rfl, lt, top, same⟩
  refine Returns.pure_iff.mpr ⟨⟨rfl, size⟩, ?_, rfl⟩
  have le := pow_le_wordValue (s := s) (o := 0) (n := u) (by rwa [zero_add])
  exact (exact_iff rfl le_rfl (by simp only; omega)).mpr ⟨same.trans eq, by omega⟩

/-- The borrow stops, and a word that follows is not the one it should be. -/
def LosesHighWords (m other : MutableBigInteger) : Prop :=
  ∃ u : ℕ, other.integerLength ≤ u ∧ u < m.integerLength ∧
    other.magnitude ≤ wordValue m.storage m.offset u ∧
    m.storage.cell u ≠ m.storage.cell (m.offset + u)

theorem Valid.high_words (hm : Valid m) {n t : ℕ} (length : m.integerLength = (n + 1 : ℕ))
    (lt : t < n + 1) :
    wordBase ^ n + wordValue m.storage m.offset t ≤ m.magnitude := by
  obtain ⟨v, rfl⟩ := Nat.exists_eq_add_of_le (Nat.lt_succ_iff.mp lt)
  have top := hm.top_ne_zero (by omega)
  rw [show m.offset + m.integerLength - 1 = m.offset + t + v by push_cast at length; omega]
    at top
  have high := mul_le_mul_of_nonneg_left (pow_le_wordValue top) (wordBase_pow_pos t).le
  rw [magnitude_eq length, show t + v + 1 = t + (v + 1) by omega, wordValue_add, pow_add]
  linarith

theorem returns_subtractMagnitudeRaw (hm : Valid m) (ho : Valid other)
    (longer : other.integerLength < m.integerLength) :
    Returns (m.subtractMagnitudeRaw other) fun r => InPlace m r ∧
      (Exact r (signed m.negative (m.magnitude - other.magnitude)) ↔
        ¬LosesHighWords m other) ∧
      (r.value = signed m.negative (m.magnitude - other.magnitude) →
        Exact r (signed m.negative (m.magnitude - other.magnitude))) := by
  have larger := magnitude_lt_of_length_lt ho longer hm
  obtain ⟨n', length'⟩ := ho.length_eq
  obtain ⟨n, length⟩ := hm.length_eq_succ (by omega)
  have range := hm.offset_range
  have range' := ho.offset_range
  have size := hm.size_eq
  have size' := ho.size_eq
  refine (returns_carryLoops (a := m) (b := other) (σ := -1) (n := n + 1) (p := n')
    (by omega) le_rfl (by simp only; omega) subtractStep_spec' mbiDec_spec'
    (fun t c lt combines => ?_) (fun t c lt combines => ?_) (fun t c le combines => ?_)
    (fun t c le combines => ?_)).bind ?_
  · have hi := combines.i_eq
    have hsize := combines.size_eq
    simp only at hi hsize
    rw [NativeArray.returns_item, combines.frame _ (by simp only; omega), hi]
    exact ⟨by omega, rfl⟩
  · have hj := combines.j_eq
    simp only at hj
    rw [NativeArray.returns_item, hj]
    exact ⟨by omega, rfl⟩
  · have hk := combines.k_eq
    simp only at hk
    rw [decide_eq_true_eq]
    omega
  · rw [Bool.not_eq_true']
    refine ⟨.inl, fun ended => ended.elim id ?_⟩
    rintro rfl
    exact combines.no_borrow length length' (by omega) rfl larger.le
  · rintro c ⟨t, low, high, combines, ended, borrows⟩
    have hk := combines.k_eq
    have hsize := combines.size_eq
    simp only at hk hsize
    have carry : c.carry = false := by
      refine ended.elim id ?_
      rintro rfl
      exact combines.no_borrow length length' (by omega) rfl larger.le
    have below : ∀ u : ℕ, n' ≤ u → u < t →
        wordValue m.storage m.offset u < other.magnitude := by
      intro u low' lt
      obtain ⟨c', combines', carry'⟩ := borrows u low' lt
      exact (combines'.borrow_iff length' low' rfl).mp carry'
    split
    · rename_i whole
      obtain rfl : t = n + 1 := by omega
      have eq : wordValue c.storage 0 (n + 1) = m.magnitude - other.magnitude :=
        combines.eq_of_no_borrow length length' low rfl carry
      rw [whole, length]
      refine (returns_stripped hsize (by omega) eq (by omega)).mono ?_
      rintro r ⟨inPlace, exact, -⟩
      refine ⟨inPlace, iff_of_true exact ?_, fun _ => exact⟩
      rintro ⟨u, low', lt', le, -⟩
      have := below u (by omega) (by omega)
      omega
    · have lt : t < n + 1 := by omega
      have eq : wordValue c.storage 0 (n + 1) + wordBase ^ t *
            wordValue m.storage (m.offset + t) (n + 1 - t) =
          m.magnitude + -1 * other.magnitude +
            wordBase ^ t * wordValue c.storage (0 + t) (n + 1 - t) :=
        combines.value_of_no_carry length length' low high rfl carry fun _ _ => rfl
      have kept : ∀ u : ℕ, t ≤ u → c.storage.cell u = m.storage.cell u :=
        fun u le => combines.frame u (by simp only; omega)
      have reached := combines.le_of_no_borrow length' low rfl carry
      have least : wordBase ^ n ≤ m.magnitude - other.magnitude := by
        have high' := hm.high_words length lt
        omega
      have window := exact_iff (r := { m with storage := c.storage, offset := 0 }) (n := n)
        (v := m.magnitude - other.magnitude) (by simp only; omega) le_rfl (by simp only; omega)
      refine Returns.pure_iff.mpr ⟨⟨rfl, hsize⟩, window.trans ?_, fun value => ?_⟩
      swap
      · rw [value_eq_signed, signed_inj, magnitude_eq (n := n + 1) (by simp only; omega)] at value
        exact window.mpr ⟨value, least⟩
      have tail : wordValue c.storage 0 (n + 1) = m.magnitude - other.magnitude ↔
          wordValue c.storage (0 + t) (n + 1 - t) =
            wordValue m.storage (m.offset + t) (n + 1 - t) := by
        refine ⟨fun same => mul_left_cancel₀ (wordBase_pow_pos t).ne' (by linarith),
          fun same => ?_⟩
        rw [same] at eq
        linarith
      rw [and_iff_left least, tail, wordValue_inj]
      constructor
      · rintro same ⟨u, low', lt', le, differ⟩
        have after : t ≤ u := by
          by_contra before
          have := below u (by omega) (by omega)
          omega
        obtain ⟨v, rfl⟩ := Nat.exists_eq_add_of_le after
        have cell := same v (by omega)
        rw [zero_add, add_assoc, ← Nat.cast_add, kept _ after] at cell
        exact differ cell
      · intro keeps v hv
        by_contra differ
        refine keeps ⟨t + v, by omega, by omega, ?_, fun same => differ ?_⟩
        · exact reached.trans (wordValue_mono _ _ (Nat.le_add_right t v))
        · rw [zero_add, add_assoc, ← Nat.cast_add, kept _ (Nat.le_add_right t v), same]

/-- The borrow stops before the top of `other`, and `offset` keeps its value. -/
def KeepsOffset (m other : MutableBigInteger) : Prop :=
  m.offset ≠ 0 ∧ ∃ u : ℕ, m.integerLength ≤ u ∧ u < other.integerLength ∧
    m.magnitude ≤ wordValue other.storage other.offset u

/-- The words of the difference, written from 0 on, stand at `offset` as well. -/
def RepeatsAtOffset (m other : MutableBigInteger) : Prop :=
  m.offset + other.integerLength ≤ m.capacity ∧
    ∀ u : ℕ, u < other.integerLength →
      (other.magnitude - m.magnitude) / wordBase ^ u % wordBase =
        if m.offset + u < other.integerLength then
          (other.magnitude - m.magnitude) / wordBase ^ (m.offset.toNat + u) % wordBase
        else unsigned (m.storage.cell (m.offset + u))

theorem repeatsAtOffset_iff {s : NativeArray Word} {n : ℕ} (length : other.integerLength = n)
    (low : 0 ≤ m.offset) (eq : wordValue s 0 n = other.magnitude - m.magnitude)
    (kept : ∀ u : ℕ, n ≤ u → s.cell u = m.storage.cell u) :
    RepeatsAtOffset m other ↔ m.offset + n ≤ m.capacity ∧
      wordValue s m.offset n = other.magnitude - m.magnitude := by
  obtain ⟨o, origin⟩ := Int.eq_ofNat_of_zero_le low
  rw [RepeatsAtOffset, length, ← eq, wordValue_inj, origin]
  refine and_congr_right fun _ => ⟨fun repeats u hu => ?_, fun same u hu => ?_⟩
  · have word := repeats u (by omega)
    rw [wordValue_digit s 0 hu] at word
    refine unsigned_inj.mp (Eq.trans ?_ word.symm)
    split
    · rename_i inside
      rw [Int.toNat_natCast, wordValue_digit s 0 (by omega), zero_add, Nat.cast_add]
    · rw [← Nat.cast_add, kept _ (by omega)]
  · rw [wordValue_digit s 0 (by omega), ← same u (by omega)]
    split
    · rename_i inside
      rw [Int.toNat_natCast, wordValue_digit s 0 (by omega), zero_add, Nat.cast_add]
    · rw [← Nat.cast_add, kept _ (by omega)]

theorem returns_subtractMagnitudeRawReverse (hm : Valid m) (ho : Valid other)
    (nonzero : m.integerLength ≠ 0) (shorter : m.integerLength < other.integerLength)
    (room : other.integerLength ≤ m.capacity) :
    Returns (m.subtractMagnitudeRawReverse other) fun r => InPlace m r ∧
      (Exact r (signed m.negative (other.magnitude - m.magnitude)) ↔
        (KeepsOffset m other → RepeatsAtOffset m other)) ∧
      (r.offset = 0 ∨ KeepsOffset m other) := by
  have larger := magnitude_lt_of_length_lt hm shorter ho
  obtain ⟨n', length'⟩ := hm.length_eq
  obtain ⟨n, length⟩ := ho.length_eq_succ (by omega)
  have length : other.integerLength = (n + 1 : ℕ) := by omega
  have range := hm.offset_range
  have range' := ho.offset_range
  have size := hm.size_eq
  have size' := ho.size_eq
  refine (returns_carryLoops (a := other) (b := m) (σ := -1) (n := n + 1) (p := n')
    (by omega) le_rfl (by simp only; omega) subtractStep_spec' mbiDec_spec'
    (fun t c lt combines => ?_) (fun t c lt combines => ?_) (fun t c le combines => ?_)
    (fun t c le combines => ?_)).bind ?_
  · have hj := combines.j_eq
    simp only at hj
    rw [NativeArray.returns_item, hj]
    exact ⟨by omega, rfl⟩
  · have hi := combines.i_eq
    have hsize := combines.size_eq
    simp only at hi hsize
    rw [NativeArray.returns_item, combines.frame _ (by simp only; omega), hi]
    exact ⟨by omega, rfl⟩
  · have hk := combines.k_eq
    simp only at hk
    rw [decide_eq_true_eq]
    omega
  · rw [Bool.not_eq_true']
    refine ⟨.inl, fun ended => ended.elim id ?_⟩
    rintro rfl
    exact combines.no_borrow length length' (by omega) rfl larger.le
  · rintro c ⟨t, low, high, combines, ended, borrows⟩
    have hj := combines.j_eq
    have hk := combines.k_eq
    have hsize := combines.size_eq
    simp only at hj hk hsize
    have carry : c.carry = false := by
      refine ended.elim id ?_
      rintro rfl
      exact combines.no_borrow length length' (by omega) rfl larger.le
    dsimp only
    split
    · have lt : t < n + 1 := by omega
      have enough := combines.le_of_no_borrow length' low rfl carry
      have reached : KeepsOffset m other ↔ m.offset ≠ 0 :=
        and_iff_left ⟨t, by omega, by omega, enough⟩
      refine (Cursor.returns_copyLoop other.storage (other.offset + t) (n + 1 - t) (by omega)
        (by omega) (fun u c' lt' risen => ?_) fun u c' le risen => ?_).bind ?_
      · have hj' := risen.j_eq
        rw [NativeArray.returns_item, hj', hj]
        exact ⟨by omega, rfl⟩
      · have hk' := risen.k_eq
        rw [decide_eq_true_eq]
        omega
      · rintro c' ⟨hsize', frame, copied⟩
        have eq : wordValue c'.storage 0 (n + 1) = other.magnitude + -1 * m.magnitude :=
          combines.value_of_same length length' low high rfl carry
            (fun u hu => frame _ (by simp only; omega)) fun u hu hu' => by
              obtain ⟨v, rfl⟩ := Nat.exists_eq_add_of_le hu
              have := copied v (by omega)
              rw [hk] at this
              push_cast
              rw [← add_assoc, ← add_assoc, this]
        have eq : wordValue c'.storage 0 (n + 1) = other.magnitude - m.magnitude := by
          rw [eq]
          ring
        have kept : ∀ u : ℕ, n + 1 ≤ u → c'.storage.cell u = m.storage.cell u :=
          fun u le => (frame _ (by omega)).trans (combines.frame _ (by simp only; omega))
        have high' := ho.high_words length lt
        have least : wordBase ^ n ≤ other.magnitude - m.magnitude := by omega
        refine Returns.pure_iff.mpr ⟨⟨rfl, hsize'.trans hsize⟩, ?_,
          or_iff_not_imp_left.mpr reached.mpr⟩
        rw [reached, repeatsAtOffset_iff length (by omega) eq kept]
        by_cases inside : m.offset + (n + 1) ≤ m.capacity
        · refine (exact_iff (n := n) (by simp only; omega) (by simp only; omega)
            (by simp only; omega)).trans ?_
          rw [and_iff_left least]
          constructor
          · exact fun same _ => ⟨by push_cast; omega, same⟩
          · intro same
            by_cases origin : m.offset = 0
            · rw [origin, eq]
            · exact (same origin).2
        · refine iff_of_false (fun exact => ?_) fun same => ?_
          · have := exact.inside (by simp only; omega)
            simp only at this
            omega
          · have := (same (by omega)).1
            omega
    · obtain rfl : t = n + 1 := by omega
      have eq : wordValue c.storage 0 (n + 1) = other.magnitude - m.magnitude :=
        combines.eq_of_no_borrow length length' low rfl carry
      rw [show c.k = (n + 1 : ℕ) by omega]
      refine (returns_stripped hsize (by omega) eq (by omega)).mono ?_
      rintro r ⟨inPlace, exact, offset⟩
      refine ⟨inPlace, iff_of_true exact ?_, .inl offset⟩
      rintro ⟨-, u, low', lt', le⟩
      obtain ⟨c', combines', carry'⟩ := borrows u (by omega) (by omega)
      have := (combines'.borrow_iff length' (by omega) rfl).mp carry'
      omega

end Raw

/-! ## Numbers of one length -/

section SameLength

variable {m other : MutableBigInteger}

theorem signed_not (negative : Bool) (a : ℤ) : signed (!negative) a = signed negative (-a) := by
  cases negative <;> simp

/-- The words of two numbers are the same above `t`. -/
def SameAbove (m other : MutableBigInteger) (t : ℕ) : Prop :=
  ∀ u : ℕ, t < u → u < m.integerLength →
    m.storage.cell (m.offset + u) = other.storage.cell (other.offset + u)

theorem returns_compareTop (hm : Valid m) (ho : Valid other) {n : ℕ}
    (length : m.integerLength = n + 1) (length' : other.integerLength = n + 1) :
    Returns (m.compareTop other) fun (integerLength, v1, v2) => ∃ t : ℕ, t ≤ n ∧
      integerLength = t + 1 ∧ v1 = m.storage.cell (m.offset + t) ∧
      v2 = other.storage.cell (other.offset + t) ∧ SameAbove m other t ∧
      (v1 ≠ v2 ∨ t = 0) := by
  have range := hm.offset_range
  have range' := ho.offset_range
  have size := hm.size_eq
  have size' := ho.size_eq
  rw [compareTop, length]
  simp only [Returns.bind_iff, NativeArray.returns_item]
  refine ⟨by omega, by omega, ?_⟩
  refine returns_untilLoop
    (fun (integerLength, i, j, v1, v2) => ∃ t : ℕ, t ≤ n ∧ integerLength = t + 1 ∧
      i = m.offset + t ∧ j = other.offset + t ∧ v1 = m.storage.cell (m.offset + t) ∧
      v2 = other.storage.cell (other.offset + t) ∧ SameAbove m other t)
    (fun s => s.1.toNat)
    ⟨n, le_rfl, rfl, by omega, by omega, by congr 1; omega, by congr 1; omega,
      fun u low high => by omega⟩ (by simp only; omega) ?_
  rintro ⟨_, _, _, _, _⟩ ⟨t, le, rfl, rfl, rfl, rfl, rfl, same⟩
  rw [Returns.some_iff]
  split
  · rename_i stopped
    rw [decide_eq_true_eq] at stopped
    dsimp only at stopped
    exact Returns.pure_iff.mpr
      ⟨t, le, rfl, rfl, rfl, same, stopped.imp id fun origin => by omega⟩
  · rename_i going
    rw [decide_eq_true_eq, not_or, not_not] at going
    dsimp only at going
    obtain ⟨t, rfl⟩ : ∃ u, t = u + 1 := ⟨t - 1, by omega⟩
    have index : m.offset + ((t + 1 : ℕ) : Int) - 1 = m.offset + t := by push_cast; omega
    have index' : other.offset + ((t + 1 : ℕ) : Int) - 1 = other.offset + t := by
      push_cast; omega
    simp only [index, index', Returns.bind_iff, NativeArray.returns_item, Returns.pure_iff]
    refine ⟨by omega, by omega, ⟨t, by omega, by push_cast; omega, rfl, rfl, rfl, rfl,
      fun u low high => ?_⟩, by push_cast; omega⟩
    rcases Nat.eq_or_lt_of_le (Nat.succ_le_of_lt low) with rfl | above
    · exact going.1
    · exact same u above high

/-- The common rounds on the first `t + 1` words of both numbers, without a borrow at
the end. -/
theorem Combines.eq_of_truncated {a b : MutableBigInteger} {t : ℕ} {c₀ c : Cursor Bool}
    (h : Combines a b (-1) (t + 1) c₀ (t + 1) c) (start : c₀.carry = false)
    (le : wordValue b.storage b.offset (t + 1) ≤ wordValue a.storage a.offset (t + 1)) :
    wordValue c.storage c₀.k (t + 1) = wordValue a.storage a.offset (t + 1) -
      wordValue b.storage b.offset (t + 1) := by
  have whole : Combines { a with integerLength := (t + 1 : ℕ) }
      { b with integerLength := (t + 1 : ℕ) } (-1) (t + 1) c₀ (t + 1) c := h
  have carry := whole.no_borrow rfl rfl le_rfl start le
  exact whole.eq_of_no_borrow rfl rfl le_rfl start carry

/-- The result of a truncated subtraction. -/
structure Truncated (m r : MutableBigInteger) (t : ℕ) (v : ℤ) : Prop extends InPlace m r where
  negative_eq : r.negative = m.negative
  length_eq : r.integerLength = t + 1
  offset_eq : r.offset = 0
  value_eq : wordValue r.storage 0 (t + 1) = v

section Truncated

variable {t : ℕ} (length : m.integerLength = t + 1) (low : 0 ≤ m.offset)
  (high : m.offset + (t + 1) ≤ m.storage.size) (low' : 0 ≤ other.offset)
  (high' : other.offset + (t + 1) ≤ other.storage.size)

include length low high low' high'

theorem returns_subtractMagnitudeRawTruncated
    (le : wordValue other.storage other.offset (t + 1) ≤
      wordValue m.storage m.offset (t + 1)) :
    Returns (m.subtractMagnitudeRawTruncated other) fun r => Truncated m r t
      (wordValue m.storage m.offset (t + 1) -
        wordValue other.storage other.offset (t + 1)) := by
  refine (returns_commonRounds (a := m) (b := other) (σ := -1) (p := t + 1) le_rfl
    (by simp only; omega) subtractStep_spec' (fun u c lt combines => ?_)
    (fun u c lt combines => ?_) (fun u c le combines => ?_)).bind ?_
  · have hi := combines.i_eq
    have hsize := combines.size_eq
    simp only at hi hsize
    rw [NativeArray.returns_item, combines.frame _ (by simp only; omega), hi]
    exact ⟨by omega, rfl⟩
  · have hj := combines.j_eq
    simp only at hj
    rw [NativeArray.returns_item, hj]
    exact ⟨by omega, rfl⟩
  · have hk := combines.k_eq
    simp only at hk
    rw [decide_eq_true_eq]
    omega
  · intro c combines
    exact Returns.pure_iff.mpr
      ⟨⟨rfl, combines.size_eq⟩, rfl, length, rfl, combines.eq_of_truncated rfl le⟩

theorem returns_subtractMagnitudeRawReverseTruncated
    (le : wordValue m.storage m.offset (t + 1) ≤
      wordValue other.storage other.offset (t + 1)) :
    Returns (m.subtractMagnitudeRawReverseTruncated other) fun r => Truncated m r t
      (wordValue other.storage other.offset (t + 1) -
        wordValue m.storage m.offset (t + 1)) := by
  refine (returns_commonRounds (a := other) (b := m) (σ := -1) (p := t + 1) le_rfl
    (by simp only; omega) subtractStep_spec' (fun u c lt combines => ?_)
    (fun u c lt combines => ?_) (fun u c le combines => ?_)).bind ?_
  · have hj := combines.j_eq
    simp only at hj
    rw [NativeArray.returns_item, hj]
    exact ⟨by omega, rfl⟩
  · have hi := combines.i_eq
    have hsize := combines.size_eq
    simp only at hi hsize
    rw [NativeArray.returns_item, combines.frame _ (by simp only; omega), hi]
    exact ⟨by omega, rfl⟩
  · have hk := combines.k_eq
    simp only at hk
    rw [decide_eq_true_eq]
    omega
  · intro c combines
    exact Returns.pure_iff.mpr
      ⟨⟨rfl, combines.size_eq⟩, rfl, length, rfl, combines.eq_of_truncated rfl le⟩

end Truncated

theorem Truncated.returns_removeLeadingZero {r : MutableBigInteger} {t : ℕ} {v : ℤ}
    (h : Truncated m r t v) (high : (t : Int) + 1 ≤ m.storage.size) (pos : 0 < v) :
    Returns r.removeLeadingZero fun r' => InPlace m r' ∧
      (Exact r' (signed m.negative v) ↔ wordBase ^ t ≤ wordBase * v) := by
  have length := h.length_eq
  have offset := h.offset_eq
  have size := h.size_eq
  have eq := h.value_eq
  have base : 1 ≤ wordBase := by decide
  have grows : v ≤ wordBase * v := by nlinarith
  rw [removeLeadingZero, Returns.bind_iff, NativeArray.returns_item,
    show r.integerLength - 1 = (t : Int) by omega, ← h.negative_eq]
  refine ⟨by omega, ?_⟩
  split
  · rename_i zero
    refine Returns.pure_iff.mpr ⟨⟨h.capacity_eq, size⟩, ?_⟩
    rw [wordValue_succ, zero_add, zero, unsigned_zero, zero_mul, add_zero] at eq
    obtain ⟨t, rfl⟩ : ∃ u, t = u + 1 := by
      cases t with
      | zero => rw [← eq] at pos; exact absurd pos (by simp)
      | succ u => exact ⟨u, rfl⟩
    refine (exact_iff (r := { r with integerLength := ((t + 1 : ℕ) : Int) }) (n := t) rfl
      (by simp only; omega) (by simp only; omega)).trans ?_
    simp only [offset, eq, true_and]
    rw [pow_succ']
    exact (mul_le_mul_iff_right₀ wordBase_pos).symm
  · rename_i nonzero
    have le := pow_le_wordValue (s := r.storage) (o := 0) (n := t) (by rwa [zero_add])
    refine Returns.pure_iff.mpr ⟨h.toInPlace, iff_of_true ?_ (by omega)⟩
    exact (exact_iff length (by omega) (by omega)).mpr ⟨by rw [offset, eq], by omega⟩

/-- The highest words that differ are followed in the difference by two zero words. -/
def CancelsTwoWords (m other : MutableBigInteger) : Prop :=
  ∃ t : ℕ, t < m.integerLength ∧
    m.storage.cell (m.offset + t) ≠ other.storage.cell (other.offset + t) ∧
    SameAbove m other t ∧ wordBase * |m.magnitude - other.magnitude| < wordBase ^ t

/-- The words above the highest ones that differ do not count in the difference. -/
theorem SameAbove.difference {n t : ℕ} (h : SameAbove m other t)
    (length : m.integerLength = (n : ℕ)) (length' : other.integerLength = (n : ℕ))
    (lt : t < n) :
    m.magnitude - other.magnitude = wordValue m.storage m.offset (t + 1) -
      wordValue other.storage other.offset (t + 1) := by
  obtain ⟨u, rfl⟩ := Nat.exists_eq_add_of_le (Nat.succ_le_of_lt lt)
  have above : wordValue m.storage (m.offset + (t + 1 : ℕ)) u =
      wordValue other.storage (other.offset + (t + 1 : ℕ)) u :=
    wordValue_congr fun v hv => by
      have := h (t + 1 + v) (by omega) (by omega)
      push_cast at this ⊢
      rw [add_assoc m.offset, this, add_assoc other.offset]
  rw [magnitude_eq length, magnitude_eq length', wordValue_add, wordValue_add, above]
  ring

/-- The highest words that differ are the same for whoever looks. -/
theorem cancelsTwoWords_iff {n t : ℕ} (h : SameAbove m other t)
    (length : m.integerLength = (n : ℕ)) (lt : t < n)
    (differ : m.storage.cell (m.offset + t) ≠ other.storage.cell (other.offset + t)) :
    CancelsTwoWords m other ↔
      wordBase * |m.magnitude - other.magnitude| < wordBase ^ t := by
  refine ⟨?_, fun small => ⟨t, by omega, differ, h, small⟩⟩
  rintro ⟨u, lt', differ', h', small⟩
  rcases Nat.lt_trichotomy u t with below | rfl | above
  · exact absurd (h' t below (by omega)) differ
  · exact small
  · exact absurd (h u above lt') differ'

theorem returns_subtractMagnitudeSameLength (hm : Valid m) (ho : Valid other)
    (same : m.integerLength = other.integerLength) (nonzero : m.integerLength ≠ 0) :
    Returns (m.subtractMagnitudeSameLength other) fun r => InPlace m r ∧
      (Exact r (signed m.negative (m.magnitude - other.magnitude)) ↔
        ¬CancelsTwoWords m other) := by
  obtain ⟨n, length⟩ := hm.length_eq_succ nonzero
  have length' : other.integerLength = n + 1 := by omega
  have range := hm.offset_range
  have range' := ho.offset_range
  have size := hm.size_eq
  have size' := ho.size_eq
  refine (returns_compareTop hm ho length length').bind ?_
  rintro ⟨_, _, _⟩ ⟨t, le, rfl, rfl, rfl, above, stopped⟩
  have difference := above.difference (n := n + 1) length length' (by omega)
  dsimp only
  split
  · rename_i differ
    have cancels := cancelsTwoWords_iff above (n := n + 1) length (by omega) differ
    split
    · rename_i greater
      rw [unsignedGreaterThan_iff] at greater
      have less := wordValue_lt_of_top (n := t + 1) (by omega) greater
        fun u hu hu' => by omega
      refine (returns_subtractMagnitudeRawTruncated
        (m := { m with integerLength := (t : Int) + 1 }) rfl (by simp only; omega)
        (by simp only; omega) (by omega) (by omega) less.le).bind fun r truncated => ?_
      dsimp only at truncated
      refine (truncated.returns_removeLeadingZero (by simp only; omega) (by omega)).mono
        fun r' ⟨inPlace, exact⟩ => ⟨⟨inPlace.capacity_eq, inPlace.size_eq⟩, ?_⟩
      rw [cancels, difference, exact, not_lt, abs_of_pos (by omega)]
    · rename_i notGreater
      rw [unsignedGreaterThan_iff] at notGreater
      have smaller : unsigned (m.storage.cell (m.offset + t)) <
          unsigned (other.storage.cell (other.offset + t)) :=
        lt_of_le_of_ne (not_lt.mp notGreater) fun eq => differ (unsigned_inj.mp eq)
      have less := wordValue_lt_of_top (n := t + 1) (by omega) smaller
        fun u hu hu' => by omega
      refine (returns_subtractMagnitudeRawReverseTruncated
        (m := { m with integerLength := (t : Int) + 1, negative := !m.negative }) rfl
        (by simp only; omega) (by simp only; omega) (by omega) (by omega)
        less.le).bind fun r truncated => ?_
      dsimp only at truncated
      refine (truncated.returns_removeLeadingZero (by simp only; omega) (by omega)).mono
        fun r' ⟨inPlace, exact⟩ => ⟨⟨inPlace.capacity_eq, inPlace.size_eq⟩, ?_⟩
      rw [signed_not, neg_sub] at exact
      rw [cancels, difference, exact, not_lt, abs_of_neg (by omega), neg_sub]
  · rename_i equal
    rw [not_not] at equal
    obtain rfl : t = 0 := stopped.resolve_left fun differ => differ equal
    have zero : m.magnitude - other.magnitude = 0 := by
      rw [difference, wordValue_congr fun u hu => ?_, sub_self]
      obtain rfl : u = 0 := by omega
      exact equal
    refine Returns.pure_iff.mpr ⟨⟨rfl, rfl⟩, iff_of_true ?_ ?_⟩
    · have exact := hm.setWithZero_holds.exact
      rw [zero]
      cases m.negative <;> exact exact
    · rintro ⟨u, hu, differ, -, -⟩
      rcases Nat.eq_zero_or_pos u with rfl | pos
      · exact differ equal
      · exact differ (above u pos hu)

end SameLength

/-! ## All lengths -/

section Magnitudes

variable {m other : MutableBigInteger}

/-- The branch that `subtract_magnitude` takes is exact. -/
structure SubtractMagnitudeExact (m other : MutableBigInteger) : Prop where
  same_length : m.integerLength = other.integerLength → ¬CancelsTwoWords m other
  longer : other.integerLength < m.integerLength → ¬LosesHighWords m other
  shorter : m.integerLength < other.integerLength → other.integerLength ≤ m.capacity →
    KeepsOffset m other → RepeatsAtOffset m other

/-- The branch of `subtract_magnitude` that takes the storage of a copy of `other`
leaves `capacity` as it was. -/
def ForgetsCapacity (m other : MutableBigInteger) : Prop :=
  m.capacity < other.integerLength

theorem returns_subtractMagnitudeWith_copy
    (again : MutableBigInteger → MutableBigInteger → Option MutableBigInteger)
    {new : MutableBigInteger} (hn : Valid new) (hm : Valid m)
    (longer : m.integerLength < new.integerLength) (offset : new.offset = 0) :
    Returns (subtractMagnitudeWith again new m) fun r =>
      Exact r (signed new.negative (new.magnitude - m.magnitude)) := by
  rw [subtractMagnitudeWith, if_neg (by omega), if_pos longer]
  refine (returns_subtractMagnitudeRaw hn hm longer).mono fun r ⟨_, exact, _⟩ => exact.mpr ?_
  rintro ⟨u, -, -, -, differ⟩
  rw [offset, zero_add] at differ
  exact differ rfl

theorem returns_subtractMagnitude (hm : Valid m) (ho : Valid other)
    (nonzero : m.integerLength ≠ 0) :
    Returns (m.subtractMagnitude other) fun r =>
      (¬ForgetsCapacity m other → InPlace m r) ∧
        (Exact r (signed m.negative (m.magnitude - other.magnitude)) ↔
          SubtractMagnitudeExact m other) := by
  rw [subtractMagnitude, subtractMagnitudeWith]
  split
  · rename_i same
    refine (returns_subtractMagnitudeSameLength hm ho same nonzero).mono
      fun r ⟨inPlace, exact⟩ => ⟨fun _ => inPlace, exact.trans ?_⟩
    exact ⟨fun h => ⟨fun _ => h, fun _ => by omega, fun _ => by omega⟩,
      fun h => h.same_length same⟩
  split
  · rename_i longer
    refine (returns_subtractMagnitudeRaw hm ho longer).mono
      fun r ⟨inPlace, exact, _⟩ => ⟨fun _ => inPlace, exact.trans ?_⟩
    exact ⟨fun h => ⟨fun _ => by omega, fun _ => h, fun _ => by omega⟩,
      fun h => h.longer longer⟩
  split
  · rename_i room
    have flipped : Valid { m with negative := !m.negative } :=
      { hm with not_negative := fun zero => absurd zero nonzero }
    refine (returns_subtractMagnitudeRawReverse flipped ho nonzero (by simp only; omega)
      room).mono fun r ⟨inPlace, exact, _⟩ =>
        ⟨fun _ => ⟨inPlace.capacity_eq, inPlace.size_eq⟩, ?_⟩
    rw [signed_not, neg_sub] at exact
    refine exact.trans ⟨fun h => ⟨fun _ => by omega, fun _ => by omega, fun _ _ => h⟩,
      fun h => h.shorter (by omega) room⟩
  · rename_i forgets
    have shorter : m.integerLength < other.integerLength := by omega
    refine (returns_copy fits_blank ho).bind fun new ⟨copy, _⟩ =>
      (returns_subtractMagnitudeWith_copy _ copy.toValid hm (by have := copy.length_eq'; omega)
        copy.offset_eq).bind fun r exact => Returns.pure_iff.mpr
          ⟨fun remembers => absurd (by unfold ForgetsCapacity; omega) remembers,
            iff_of_true ?_ ?_⟩
    · have larger := magnitude_lt_of_length_lt hm shorter ho
      have magnitude : r.magnitude = other.magnitude - m.magnitude := by
        rw [← abs_value, exact.value_eq, copy.magnitude_eq']
        cases new.negative <;> simp only [signed_true, signed_false, abs_neg] <;>
          exact abs_of_pos (by omega)
      refine
        { top_ne_zero := exact.top_ne_zero
          not_negative := fun zero => ?_
          length_nonneg := exact.length_nonneg
          inside := exact.inside
          value_eq := ?_ }
      · have : r.magnitude = 0 := magnitude_of_zero zero
        omega
      · rw [← neg_sub other.magnitude, ← signed_not, ← magnitude]
        rfl
    · exact ⟨fun _ => by omega, fun _ => by omega, fun _ => by omega⟩

end Magnitudes

end MutableBigInteger

end Liberty
