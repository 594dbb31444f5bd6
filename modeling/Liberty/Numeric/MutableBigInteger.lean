import Liberty.Numeric.WordLoop

/-!
# MUTABLE_BIG_INTEGER

A sign and a magnitude, whose words stand in a part of a storage that may be longer.
No two objects share a storage, so an object is a value here: a command takes the
objects it reads and returns those it writes.  Where the source compares two objects
for identity, the command has a version or an argument for each answer.
-/

namespace Liberty

structure MutableBigInteger where
  storage : NativeArray Word
  capacity : Int
  integerLength : Int
  offset : Int
  negative : Bool

namespace MutableBigInteger

/-! ## Value and class invariant -/

/-- The words from `offset` on, least significant first. -/
def magnitude (m : MutableBigInteger) : ℤ :=
  wordValue m.storage m.offset m.integerLength.toNat

/-- The integer that an object stands for. -/
def value (m : MutableBigInteger) : ℤ :=
  if m.negative then -m.magnitude else m.magnitude

/-- `capacity.is_a_power_of_2`, from the smallest storage on. -/
def IsCapacity (capacity : Int) : Prop :=
  ∃ e : ℕ, capacity = 4 * 2 ^ e

/-- No leading zero word and no negative zero. -/
structure Normalised (m : MutableBigInteger) : Prop where
  top_ne_zero : m.integerLength ≠ 0 →
    m.storage.cell (m.offset + m.integerLength - 1) ≠ 0
  not_negative : m.integerLength = 0 → m.negative = false

/-- The class invariant, with `capacity` the size of the storage. -/
structure Valid (m : MutableBigInteger) : Prop extends Normalised m where
  isCapacity : IsCapacity m.capacity
  size_eq : m.storage.size = m.capacity
  length_nonneg : 0 ≤ m.integerLength
  length_le : m.integerLength ≤ m.capacity
  offset_range : m.integerLength ≠ 0 →
    0 ≤ m.offset ∧ m.offset ≤ m.capacity - m.integerLength

/-- A valid object with the value `v`. -/
structure Holds (m : MutableBigInteger) (v : ℤ) : Prop extends Valid m where
  value_eq : m.value = v

theorem IsCapacity.four_le {capacity : Int} (h : IsCapacity capacity) : 4 ≤ capacity := by
  obtain ⟨e, rfl⟩ := h
  have : (1 : Int) ≤ 2 ^ e := one_le_pow₀ (by omega)
  omega

theorem IsCapacity.double {capacity : Int} (h : IsCapacity capacity) :
    IsCapacity (capacity * 2) := by
  obtain ⟨e, rfl⟩ := h
  exact ⟨e + 1, by rw [pow_succ, mul_assoc]⟩

/-- There is no capacity strictly between one and its double. -/
theorem IsCapacity.eq_of_lt_double {a b : Int} (ha : IsCapacity a) (hb : IsCapacity b)
    (le : a ≤ b) (lt : b < 2 * a) : b = a := by
  obtain ⟨e, rfl⟩ := ha
  obtain ⟨f, rfl⟩ := hb
  have two : (1 : Int) < 2 := by norm_num
  have lower : e ≤ f := (pow_le_pow_iff_right₀ two).mp (by omega)
  have upper : f < e + 1 :=
    (pow_lt_pow_iff_right₀ two).mp (by rw [pow_succ (2 : Int) e]; omega)
  rw [show f = e by omega]

section Magnitude

variable {m m' : MutableBigInteger} {n : ℕ}

theorem magnitude_eq (length : m.integerLength = n) :
    m.magnitude = wordValue m.storage m.offset n := by
  rw [magnitude, length, Int.toNat_natCast]

theorem magnitude_nonneg (m : MutableBigInteger) : 0 ≤ m.magnitude :=
  wordValue_nonneg _ _ _

theorem magnitude_lt (length : m.integerLength = n) : m.magnitude < wordBase ^ n := by
  rw [magnitude_eq length]
  exact wordValue_lt _ _ _

theorem Normalised.le_magnitude (h : Normalised m) (length : m.integerLength = n + 1) :
    wordBase ^ n ≤ m.magnitude := by
  have length' : m.integerLength = (n + 1 : ℕ) := by omega
  rw [magnitude_eq length']
  refine pow_le_wordValue ?_
  have top := h.top_ne_zero (by omega)
  rwa [show m.offset + m.integerLength - 1 = m.offset + n by omega] at top

theorem magnitude_of_zero (zero : m.integerLength = 0) : m.magnitude = 0 := by
  rw [magnitude, zero]
  rfl

theorem value_of_zero (zero : m.integerLength = 0) : m.value = 0 := by
  rw [value, magnitude_of_zero zero]
  split <;> rfl

/-- The length of a valid object, as a natural number. -/
theorem Valid.length_eq (h : Valid m) : ∃ n : ℕ, m.integerLength = n :=
  ⟨m.integerLength.toNat, (Int.toNat_of_nonneg h.length_nonneg).symm⟩

theorem Valid.length_eq_succ (h : Valid m) (nonzero : m.integerLength ≠ 0) :
    ∃ n : ℕ, m.integerLength = n + 1 := by
  have := h.length_nonneg
  exact ⟨(m.integerLength - 1).toNat, by omega⟩

theorem Valid.magnitude_pos (h : Valid m) (nonzero : m.integerLength ≠ 0) :
    0 < m.magnitude := by
  obtain ⟨n, length⟩ := h.length_eq_succ nonzero
  exact (wordBase_pow_pos n).trans_le (h.le_magnitude length)

theorem Valid.value_eq_zero (h : Valid m) : m.value = 0 ↔ m.integerLength = 0 := by
  refine ⟨fun zero => ?_, value_of_zero⟩
  by_contra nonzero
  have pos := h.magnitude_pos nonzero
  rw [value] at zero
  split at zero <;> omega

theorem Valid.value_neg_iff (h : Valid m) : m.value < 0 ↔ m.negative = true := by
  have nonneg := m.magnitude_nonneg
  constructor
  · intro neg
    by_contra positive
    rw [value, if_neg positive] at neg
    omega
  · intro negative
    have pos := h.magnitude_pos fun zero => by
      rw [h.not_negative zero] at negative
      cases negative
    rw [value, if_pos negative]
    omega

theorem abs_value (m : MutableBigInteger) : |m.value| = m.magnitude := by
  have nonneg := m.magnitude_nonneg
  rw [value]
  split
  · rw [abs_neg, abs_of_nonneg nonneg]
  · rw [abs_of_nonneg nonneg]

end Magnitude

/-! ## Tools for capacity -/

def capacityFromLowerBound (actualCapacity neededCapacity : Int) : Option Int :=
  untilLoop (fun result => some (decide (neededCapacity ≤ result)))
    (fun result => some (result * 2)) neededCapacity.toNat actualCapacity

def capacityFromUpperBound (actualCapacity neededCapacity : Int) : Option Int := do
  let (result, _) ← untilLoop
    (fun s : Int × Int => some (decide (s.2 < neededCapacity ∨ s.2 = 2)))
    (fun s => some (s.2, s.2 / 2)) actualCapacity.toNat (actualCapacity, actualCapacity / 2)
  return result

theorem returns_capacityFromLowerBound {actual needed : Int} (h : IsCapacity actual) :
    Returns (capacityFromLowerBound actual needed) fun result =>
      IsCapacity result ∧ actual ≤ result ∧ needed ≤ result ∧
        (result = actual ∨ result < 2 * needed) := by
  have positive := h.four_le
  refine returns_untilLoop
    (fun result => IsCapacity result ∧ actual ≤ result ∧
      (result = actual ∨ result < 2 * needed))
    (fun result => (needed - result).toNat) ⟨h, le_rfl, .inl rfl⟩ (by omega) ?_
  rintro result ⟨isCapacity, le, least⟩
  rw [Returns.some_iff]
  split
  · rename_i enough
    exact ⟨isCapacity, le, of_decide_eq_true enough, least⟩
  · rename_i short
    have short : ¬needed ≤ result := fun enough => short (decide_eq_true enough)
    rw [Returns.some_iff]
    exact ⟨⟨isCapacity.double, by omega, .inr (by omega)⟩, by omega⟩

theorem returns_capacityFromUpperBound {actual needed : Int} (h : IsCapacity actual)
    (enough : needed ≤ actual) :
    Returns (capacityFromUpperBound actual needed) fun result =>
      IsCapacity result ∧ needed ≤ result ∧ result ≤ actual := by
  rw [capacityFromUpperBound, Returns.bind_iff]
  refine returns_untilLoop
    (fun s => IsCapacity s.1 ∧ s.2 = s.1 / 2 ∧ needed ≤ s.1 ∧ s.1 ≤ actual)
    (fun s => s.1.toNat) ⟨h, rfl, enough, le_rfl⟩ le_rfl ?_
  rintro ⟨result, v⟩ ⟨⟨e, exponent⟩, half, fits, le⟩
  rw [Returns.some_iff]
  split
  · exact Returns.pure_iff.mpr ⟨⟨e, exponent⟩, fits, le⟩
  · rename_i continue_
    simp only [decide_eq_true_eq, not_or] at continue_
    rw [Returns.some_iff]
    cases e with
    | zero => omega
    | succ e =>
      have smaller : v = 4 * 2 ^ e := by
        omega
      have : (1 : Int) ≤ 2 ^ e := one_le_pow₀ (by omega)
      exact ⟨⟨⟨e, smaller⟩, rfl, by omega, by omega⟩, by omega⟩

/-! ## Setters -/

def setWithZero (m : MutableBigInteger) : MutableBigInteger :=
  { m with integerLength := 0, negative := false }

def setNegative (m : MutableBigInteger) (n : Bool) : MutableBigInteger :=
  { m with negative := n }

def setIntegerLength (m : MutableBigInteger) (il : Int) : MutableBigInteger :=
  { m with integerLength := il }

def setOffset (m : MutableBigInteger) (o : Int) : MutableBigInteger :=
  { m with offset := o }

def setIlo (m : MutableBigInteger) (il o : Int) : MutableBigInteger :=
  { m with integerLength := il, offset := o }

def put (m : MutableBigInteger) (value : Word) (index : Int) : Option MutableBigInteger := do
  return { m with storage := ← m.storage.put value index }

def negate (m : MutableBigInteger) : MutableBigInteger :=
  if m.integerLength ≠ 0 then { m with negative := !m.negative } else m

def abs (m : MutableBigInteger) : MutableBigInteger :=
  { m with negative := false }

theorem Valid.setWithZero_holds {m : MutableBigInteger} (h : Valid m) :
    Holds m.setWithZero 0 where
  top_ne_zero nonzero := absurd rfl nonzero
  not_negative _ := rfl
  isCapacity := h.isCapacity
  size_eq := h.size_eq
  length_nonneg := le_rfl
  length_le := by have := h.isCapacity.four_le; simp only [setWithZero]; omega
  offset_range nonzero := absurd rfl nonzero
  value_eq := rfl

/-- The sign of an object that is not zero is free. -/
theorem Valid.setNegative_holds {m : MutableBigInteger} (h : Valid m) (n : Bool)
    (nonzero : n = true → m.integerLength ≠ 0) :
    Holds (m.setNegative n) (if n then -m.magnitude else m.magnitude) where
  top_ne_zero := h.top_ne_zero
  not_negative zero := by
    cases n with
    | false => rfl
    | true => exact absurd zero (nonzero rfl)
  isCapacity := h.isCapacity
  size_eq := h.size_eq
  length_nonneg := h.length_nonneg
  length_le := h.length_le
  offset_range := h.offset_range
  value_eq := rfl

end MutableBigInteger

end Liberty
