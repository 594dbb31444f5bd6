import Liberty.Numeric.MutableBigInteger.Creation

/-!
# Addition of magnitudes

`add_magnitude` adds in place when the object is longer than the other one and has a
word to spare, and otherwise moves the sum to the beginning of a storage.  It is exact
except that, with a longer `other`, the storage taken can lack the word of the last
carry.
-/

namespace Liberty

namespace MutableBigInteger

/-! ## Rounds with a carry or a borrow -/

/-- The two loops that add or subtract: over the words of both numbers, then over the
words of the longer number as long as there is a carry or a borrow. -/
def carryLoops (step : Bool → Word → Word → Word × Bool) (last : Word → Word × Bool)
    (stop stop' : Cursor Bool → Bool) (readA readB : Cursor Bool → Option Word)
    (c : Cursor Bool) : Option (Cursor Bool) := do
  let c ← c.upLoop stop fun c => do return step c.carry (← readA c) (← readB c)
  c.upLoop stop' fun c => do return last (← readA c)

/-- The digits of a sum or a difference before carries: the words of `a` and, in the
first `n` places, `σ` times those of `b`. -/
def combined (a b : MutableBigInteger) (σ : ℤ) (n : ℕ) (t : ℕ) : ℤ :=
  words a.storage a.offset t + σ * if t < n then words b.storage b.offset t else 0

/-- `t` rounds that combine the words of `a` and `b`. -/
def Combines (a b : MutableBigInteger) (σ : ℤ) (n : ℕ) (c₀ : Cursor Bool) (t : ℕ)
    (c : Cursor Bool) : Prop :=
  Cursor.Risen 1 (fun carry => σ * bit carry) (combined a b σ n) c₀ t c

theorem value_combined {a b : MutableBigInteger} {n' t : ℕ} (length' : b.integerLength = n')
    (le : n' ≤ t) (σ : ℤ) :
    Positional.value wordBase (combined a b σ n') t =
      wordValue a.storage a.offset t + σ * b.magnitude := by
  rw [magnitude_eq length']
  exact Positional.value_add_mul_short le σ

/-- What the words written are worth once all the words of `b` have been combined. -/
theorem Combines.value_eq' {a b : MutableBigInteger} {σ : ℤ} {n' t : ℕ} {c₀ c : Cursor Bool}
    (h : Combines a b σ n' c₀ t c) (length' : b.integerLength = n') (le : n' ≤ t)
    (start : c₀.carry = false) :
    wordValue c.storage c₀.k t + wordBase ^ t * (σ * bit c.carry) =
      wordValue a.storage a.offset t + σ * b.magnitude := by
  have eq := h.value_eq
  simp only [value_combined length' le, start, bit_false] at eq
  linarith

/-- Without a carry, the words written and those above them are worth the combination
as far as the words above are those of `a`. -/
theorem Combines.value_of_no_carry {a b : MutableBigInteger} {σ : ℤ} {n n' t : ℕ}
    {c₀ c : Cursor Bool} (h : Combines a b σ n' c₀ t c) (length : a.integerLength = n)
    (length' : b.integerLength = n') (low : n' ≤ t) (high : t ≤ n)
    (start : c₀.carry = false) (ended : c.carry = false) {s : NativeArray Word}
    (written : ∀ u : ℕ, u < t → s.cell (c₀.k + u) = c.storage.cell (c₀.k + u)) :
    wordValue s c₀.k n + wordBase ^ t * wordValue a.storage (a.offset + t) (n - t) =
      a.magnitude + σ * b.magnitude + wordBase ^ t * wordValue s (c₀.k + t) (n - t) := by
  obtain ⟨u, rfl⟩ := Nat.exists_eq_add_of_le high
  have eq := h.value_eq' length' low start
  rw [magnitude_eq length, Nat.add_sub_cancel_left, wordValue_add s,
    wordValue_add a.storage, wordValue_congr written]
  simp only [ended, bit_false] at eq
  linear_combination eq

/-- The same when the words above are those of `a`. -/
theorem Combines.value_of_same {a b : MutableBigInteger} {σ : ℤ} {n n' t : ℕ}
    {c₀ c : Cursor Bool} (h : Combines a b σ n' c₀ t c) (length : a.integerLength = n)
    (length' : b.integerLength = n') (low : n' ≤ t) (high : t ≤ n)
    (start : c₀.carry = false) (ended : c.carry = false) {s : NativeArray Word}
    (written : ∀ u : ℕ, u < t → s.cell (c₀.k + u) = c.storage.cell (c₀.k + u))
    (above : ∀ u : ℕ, t ≤ u → u < n →
      s.cell (c₀.k + u) = a.storage.cell (a.offset + u)) :
    wordValue s c₀.k n = a.magnitude + σ * b.magnitude := by
  have eq := h.value_of_no_carry length length' low high start ended written
  have same : wordValue s (c₀.k + t) (n - t) =
      wordValue a.storage (a.offset + t) (n - t) :=
    wordValue_congr fun v hv => by
      have := above (t + v) (by omega) (by omega)
      push_cast at this
      rw [add_assoc, this, add_assoc]
  rw [same] at eq
  linarith

section Rounds

variable {step : Bool → Word → Word → Word × Bool} {last : Word → Word × Bool}
  {stop stop' : Cursor Bool → Bool} {readA readB : Cursor Bool → Option Word}
  {a b : MutableBigInteger} {σ : ℤ} {n p : ℕ} {c₀ : Cursor Bool}

/-- The first loop combines the words of both numbers. -/
theorem returns_commonRounds (low : 0 ≤ c₀.k) (high : c₀.k + p ≤ c₀.storage.size)
    (stepSpec : ∀ d x y, unsigned (step d x y).1 + wordBase * (σ * bit (step d x y).2) =
      unsigned x + σ * unsigned y + σ * bit d)
    (readsA : ∀ t c, t < p → Combines a b σ p c₀ t c →
      Returns (readA c) (· = a.storage.cell (a.offset + t)))
    (readsB : ∀ t c, t < p → Combines a b σ p c₀ t c →
      Returns (readB c) (· = b.storage.cell (b.offset + t)))
    (stops : ∀ t c, t ≤ p → Combines a b σ p c₀ t c → (stop c = true ↔ t = p)) :
    Returns (c₀.upLoop stop fun c => do return step c.carry (← readA c) (← readB c))
      fun c => Combines a b σ p c₀ p c := by
  refine Cursor.returns_upLoop 1 (fun carry => σ * bit carry) (combined a b σ p) p low
    high fun t c le risen => ?_
  split
  · rename_i stopped
    exact (stops t c le risen).mp stopped ▸ risen
  · rename_i going
    have lt : t < p := lt_of_le_of_ne le fun eq => going ((stops t c le risen).mpr eq)
    refine ⟨lt, (readsA t c lt risen).bind fun x hx => (readsB t c lt risen).bind
      fun y hy => Returns.pure_iff.mpr ?_⟩
    subst hx hy
    rw [one_mul, stepSpec, combined, if_pos lt]
    rfl

/-- The second loop goes on as long as there is a carry. -/
theorem returns_lastRounds {c₁ : Cursor Bool} (common : Combines a b σ p c₀ p c₁)
    (le : p ≤ n) (low : 0 ≤ c₀.k) (high : c₀.k + n ≤ c₀.storage.size)
    (lastSpec : ∀ x, unsigned (last x).1 + wordBase * (σ * bit (last x).2) =
      unsigned x + σ)
    (readsA : ∀ t c, t < n → Combines a b σ p c₀ t c →
      Returns (readA c) (· = a.storage.cell (a.offset + t)))
    (stops' : ∀ t c, t ≤ n → Combines a b σ p c₀ t c →
      (stop' c = true ↔ c.carry = false ∨ t = n)) :
    Returns (c₁.upLoop stop' fun c => do return last (← readA c)) fun c => ∃ t, p ≤ t ∧
      t ≤ n ∧ Combines a b σ p c₀ t c ∧ (c.carry = false ∨ t = n) ∧
      ∀ u, p ≤ u → u < t → ∃ c', Combines a b σ p c₀ u c' ∧ c'.carry = true := by
  have hk := common.k_eq
  have hsize := common.size_eq
  refine Cursor.returns_upLoop_of_passed 1 (fun carry => σ * bit carry)
    (fun t => combined a b σ p (p + t)) (n - p) (by omega) (by omega)
    fun t c le' risen passed => ?_
  have total : Combines a b σ p c₀ (p + t) c := common.trans risen
  have stopsHere := stops' (p + t) c (by omega) total
  split
  · rename_i stopped
    refine ⟨p + t, by omega, by omega, total, stopsHere.mp stopped, fun u low' lt => ?_⟩
    obtain ⟨v, rfl⟩ := Nat.exists_eq_add_of_le low'
    obtain ⟨c', risep, going⟩ := passed v (by omega)
    have total' : Combines a b σ p c₀ (p + v) c' := common.trans risep
    have goes := (stops' (p + v) c' (by omega) total').not.mp (by simp [going])
    exact ⟨c', total', Bool.not_eq_false _ ▸ (not_or.mp goes).1⟩
  · rename_i going
    rw [stopsHere, not_or, Bool.not_eq_false] at going
    obtain ⟨carry, more⟩ := going
    refine ⟨by omega, (readsA (p + t) c (by omega) total).bind fun x hx =>
      Returns.pure_iff.mpr ?_⟩
    subst hx
    rw [one_mul, lastSpec, combined, if_neg (by omega), carry, bit_true, mul_one, mul_zero,
      add_zero]
    rfl

theorem returns_carryLoops (le : p ≤ n) (low : 0 ≤ c₀.k)
    (high : c₀.k + n ≤ c₀.storage.size)
    (stepSpec : ∀ d x y, unsigned (step d x y).1 + wordBase * (σ * bit (step d x y).2) =
      unsigned x + σ * unsigned y + σ * bit d)
    (lastSpec : ∀ x, unsigned (last x).1 + wordBase * (σ * bit (last x).2) =
      unsigned x + σ)
    (readsA : ∀ t c, t < n → Combines a b σ p c₀ t c →
      Returns (readA c) (· = a.storage.cell (a.offset + t)))
    (readsB : ∀ t c, t < p → Combines a b σ p c₀ t c →
      Returns (readB c) (· = b.storage.cell (b.offset + t)))
    (stops : ∀ t c, t ≤ p → Combines a b σ p c₀ t c → (stop c = true ↔ t = p))
    (stops' : ∀ t c, t ≤ n → Combines a b σ p c₀ t c →
      (stop' c = true ↔ c.carry = false ∨ t = n)) :
    Returns (carryLoops step last stop stop' readA readB c₀) fun c => ∃ t, p ≤ t ∧ t ≤ n ∧
      Combines a b σ p c₀ t c ∧ (c.carry = false ∨ t = n) ∧
      ∀ u, p ≤ u → u < t → ∃ c', Combines a b σ p c₀ u c' ∧ c'.carry = true :=
  (returns_commonRounds low (by omega) stepSpec (fun t c lt => readsA t c (by omega)) readsB
    stops).bind fun _ common => returns_lastRounds common le low high lastSpec readsA stops'

end Rounds

theorem addStep_spec' (d : Bool) (x y : Word) :
    unsigned (addStep d x y).1 + wordBase * (1 * bit (addStep d x y).2) =
      unsigned x + 1 * unsigned y + 1 * bit d := by
  rw [one_mul, one_mul, one_mul]
  exact addStep_spec d x y

theorem mbiInc_spec' (x : Word) :
    unsigned (mbiInc x).1 + wordBase * (1 * bit (mbiInc x).2) = unsigned x + 1 := by
  rw [one_mul]
  exact mbiInc_spec x

/-! ## The source -/

/-- The first branch of `add_magnitude`, where `offset` does not change. -/
def addMagnitudeInPlace (m other : MutableBigInteger) : Option MutableBigInteger := do
  let n := m.offset + m.integerLength
  let c ← carryLoops addStep mbiInc
    (fun c => decide (c.j = other.offset + other.integerLength))
    (fun c => !c.carry || decide (c.i = n))
    (fun c => c.storage.item c.i) (fun c => other.storage.item c.j)
    ⟨m.storage, m.offset, other.offset, m.offset, false⟩
  if c.carry then
    let storage ← c.storage.put 1 n
    return { m with storage, integerLength := m.integerLength + 1 }
  else
    return { m with storage := c.storage }

/-- The new storage of the second branch of `add_magnitude`, its capacity, and whether
it is the storage of `a`. -/
def sumStorage (m a : MutableBigInteger) (aIsOther : Bool) :
    Option (Int × NativeArray Word × Bool) :=
  if m.capacity < a.integerLength then do
    let newCapacity ← capacityFromLowerBound m.capacity a.integerLength
    return (newCapacity, .calloc newCapacity, false)
  else if m.capacity = a.integerLength then do
    let newCapacity ← capacityFromLowerBound m.capacity (a.integerLength + 1)
    return (newCapacity, .calloc newCapacity, false)
  else if aIsOther then
    some (a.capacity, .calloc a.capacity, false)
  else
    some (a.capacity, a.storage, true)

/-- Read a word of `s`, which the cursor writes when `inPlace`. -/
def readFrom {γ : Type} (s : NativeArray Word) (inPlace : Bool) (c : Cursor γ)
    (i : Int) : Option Word :=
  if inPlace then c.storage.item i else s.item i

/-- The second branch of `add_magnitude` once the storage is there. -/
def addMagnitudeFrom (m a b : MutableBigInteger) (newCapacity : Int)
    (newStorage : NativeArray Word) (inPlace : Bool) : Option MutableBigInteger := do
  let c ← carryLoops addStep mbiInc (fun c => decide (c.k = b.integerLength))
    (fun c => !c.carry || decide (c.k = a.integerLength))
    (fun c => readFrom a.storage inPlace c c.i) (fun c => b.storage.item c.j)
    ⟨newStorage, a.offset, b.offset, 0, false⟩
  if c.carry then
    let storage ← c.storage.put 1 c.k
    return { m with
      capacity := newCapacity, storage, integerLength := a.integerLength + 1, offset := 0 }
  else
    let c ← c.upLoop (fun c => decide (c.k = a.integerLength))
      fun c => do return (← readFrom a.storage inPlace c c.i, c.carry)
    return { m with
      capacity := newCapacity, storage := c.storage, integerLength := a.integerLength,
      offset := 0 }

/-- The second branch of `add_magnitude`, after which `offset` is 0. -/
def addMagnitudeAway (same : Bool) (m other : MutableBigInteger) :
    Option MutableBigInteger := do
  let longer := decide (m.integerLength ≥ other.integerLength)
  let a := if longer then m else other
  let b := if longer then other else m
  let (newCapacity, newStorage, inPlace) ← m.sumStorage a (same || !longer)
  m.addMagnitudeFrom a b newCapacity newStorage inPlace

/-- `same` tells whether `other` is the object itself. -/
def addMagnitude (same : Bool) (m other : MutableBigInteger) : Option MutableBigInteger :=
  if m.integerLength > other.integerLength ∧ m.capacity - m.offset > m.integerLength then
    m.addMagnitudeInPlace other
  else
    m.addMagnitudeAway same other

/-! ## Exactness -/

section Sum

variable {m other : MutableBigInteger}

/-- An object written as the sum of two magnitudes. -/
structure SumOf (m a b r : MutableBigInteger) : Prop extends Valid r where
  negative_eq : r.negative = m.negative
  magnitude_eq' : r.magnitude = a.magnitude + b.magnitude

theorem SumOf.of_value {a b r : MutableBigInteger} {n : ℕ} (negative : r.negative = m.negative)
    (isCapacity : IsCapacity r.capacity) (size_eq : r.storage.size = r.capacity)
    (length : r.integerLength = n + 1) (low : 0 ≤ r.offset)
    (high : r.offset + (n + 1) ≤ r.capacity) (le : wordBase ^ n ≤ a.magnitude + b.magnitude)
    (eq : wordValue r.storage r.offset (n + 1) = a.magnitude + b.magnitude) :
    SumOf m a b r :=
  { Valid.of_top n isCapacity size_eq length low high (top_ne_zero_of_le (eq ▸ le)) with
    negative_eq := negative
    magnitude_eq' := (magnitude_eq (n := n + 1) length).trans eq }

theorem returns_addMagnitudeInPlace (hm : Valid m) (ho : Valid other)
    (longer : other.integerLength < m.integerLength)
    (room : m.integerLength < m.capacity - m.offset) :
    Returns (m.addMagnitudeInPlace other) fun r => SumOf m m other r := by
  obtain ⟨n', length'⟩ := ho.length_eq
  obtain ⟨n, length⟩ := hm.length_eq_succ (by omega)
  have length : m.integerLength = (n + 1 : ℕ) := by omega
  have le := hm.le_magnitude (n := n) (by omega)
  have nonneg := other.magnitude_nonneg
  have range := hm.offset_range
  have range' := ho.offset_range
  have size := hm.size_eq
  have size' := ho.size_eq
  refine (returns_carryLoops (a := m) (b := other) (σ := 1) (n := n + 1) (p := n')
    (by omega) (by simp only; omega) (by simp only; omega) addStep_spec' mbiInc_spec'
    (fun t c lt combines => ?_) (fun t c lt combines => ?_) (fun t c le combines => ?_)
    (fun t c le combines => ?_)).bind ?_
  · have hi := combines.i_eq
    have hsize := combines.size_eq
    simp only at hi hsize
    rw [NativeArray.returns_item, combines.frame _ (by simp only; omega), hi]
    exact ⟨by omega, rfl⟩
  · have hj := combines.j_eq
    simp only at hj
    rw [NativeArray.returns_item, hj]
    exact ⟨by omega, rfl⟩
  · have hj := combines.j_eq
    simp only at hj
    rw [decide_eq_true_eq]
    omega
  · have hi := combines.i_eq
    simp only at hi
    rw [Bool.or_eq_true, Bool.not_eq_true', decide_eq_true_eq]
    exact or_congr_right (by omega)
  · rintro c ⟨t, low, high, combines, ended, -⟩
    have hsize := combines.size_eq
    simp only at hsize
    cases carry : c.carry with
    | true =>
      obtain rfl : t = n + 1 := ended.resolve_left (by simp [carry])
      have eq := combines.value_eq' length' (by omega) rfl
      rw [← magnitude_eq length] at eq
      simp only [carry, bit_true, mul_one, one_mul] at eq
      rw [if_pos rfl, Returns.bind_iff, NativeArray.returns_put]
      refine ⟨by omega, Returns.pure_iff.mpr
        (SumOf.of_value (n := n + 1) rfl hm.isCapacity (hsize.trans size)
          (by simp only; omega) (by simp only; omega) (by simp only; omega) ?_ ?_)⟩
      · have := wordValue_nonneg c.storage m.offset (n + 1)
        omega
      · have below : wordValue (c.storage.set 1 (m.offset + m.integerLength)) m.offset
            (n + 1) = wordValue c.storage m.offset (n + 1) :=
          wordValue_congr fun u hu => NativeArray.cell_set_of_ne _ _ (by omega)
        rw [wordValue_succ, below, ← length, NativeArray.cell_set_self, unsigned_one,
          one_mul, eq]
    | false =>
      have eq := combines.value_of_same length length' low high rfl carry
        (fun _ _ => rfl) fun u hu hu' => combines.frame _ (by simp only; omega)
      rw [one_mul] at eq
      exact Returns.pure_iff.mpr (SumOf.of_value (n := n) rfl hm.isCapacity
        (hsize.trans size) (by simp only; omega) (by simp only; omega)
        (by simp only; omega) (by omega) eq)

theorem Combines.returns_readFrom {a b : MutableBigInteger} {σ : ℤ} {n' t : ℕ}
    {st : NativeArray Word} {inPlace : Bool} {c : Cursor Bool}
    (h : Combines a b σ n' ⟨st, a.offset, b.offset, 0, false⟩ t c)
    (same : inPlace = true → st = a.storage) (low : 0 ≤ a.offset)
    (high : a.offset + t < a.storage.size) :
    Returns (readFrom a.storage inPlace c c.i) (· = a.storage.cell (a.offset + t)) := by
  have hi := h.i_eq
  have hsize := h.size_eq
  simp only at hi hsize
  rw [readFrom]
  split
  · rename_i here
    obtain rfl := same here
    rw [NativeArray.returns_item, h.frame _ (by simp only; omega), hi]
    exact ⟨by omega, rfl⟩
  · rw [NativeArray.returns_item, hi]
    exact ⟨by omega, rfl⟩

section From

variable {a b : MutableBigInteger} {st : NativeArray Word} {inPlace : Bool}

/-- The two loops over the words of `a` and `b`, with `a` not shorter than `b`. -/
theorem returns_sumLoops (ha : Valid a) (hb : Valid b) (le : b.integerLength ≤ a.integerLength)
    (fits : a.integerLength ≤ st.size) (same : inPlace = true → st = a.storage)
    {n n' : ℕ} (length : a.integerLength = n + 1) (length' : b.integerLength = n') :
    Returns (carryLoops addStep mbiInc (fun c => decide (c.k = b.integerLength))
        (fun c => !c.carry || decide (c.k = a.integerLength))
        (fun c => readFrom a.storage inPlace c c.i) (fun c => b.storage.item c.j)
        ⟨st, a.offset, b.offset, 0, false⟩) fun c =>
      ∃ t, n' ≤ t ∧ t ≤ n + 1 ∧
        Combines a b 1 n' ⟨st, a.offset, b.offset, 0, false⟩ t c ∧
        (c.carry = false ∨ t = n + 1) := by
  have range := ha.offset_range
  have range' := hb.offset_range
  have size := ha.size_eq
  have size' := hb.size_eq
  refine (returns_carryLoops (n := n + 1) (by omega) le_rfl (by simp only; omega)
    addStep_spec' mbiInc_spec' (fun t c lt combines => ?_) (fun t c lt combines => ?_)
    (fun t c le combines => ?_) (fun t c le combines => ?_)).mono
    fun c ⟨t, low, high, combines, ended, _⟩ => ⟨t, low, high, combines, ended⟩
  · exact combines.returns_readFrom same (by omega) (by omega)
  · have hj := combines.j_eq
    simp only at hj
    rw [NativeArray.returns_item, hj]
    exact ⟨by omega, rfl⟩
  · have hk := combines.k_eq
    simp only at hk
    rw [decide_eq_true_eq]
    omega
  · have hk := combines.k_eq
    simp only at hk
    rw [Bool.or_eq_true, Bool.not_eq_true', decide_eq_true_eq]
    exact or_congr_right (by omega)

/-- Without a last carry, the rest of `a` is copied and the sum is right. -/
theorem returns_sumWithoutCarry (ha : Valid a) {n n' t : ℕ}
    (length : a.integerLength = (n + 1 : ℕ)) (length' : b.integerLength = n')
    {newCapacity : Int} (isCapacity : IsCapacity newCapacity) (size : st.size = newCapacity)
    (fits : a.integerLength ≤ newCapacity) (same : inPlace = true → st = a.storage)
    {c : Cursor Bool} (low : n' ≤ t) (high : t ≤ n + 1)
    (combines : Combines a b 1 n' ⟨st, a.offset, b.offset, 0, false⟩ t c)
    (carry : c.carry = false) :
    Returns (c.upLoop (fun c => decide (c.k = a.integerLength))
        fun c => do return (← readFrom a.storage inPlace c c.i, c.carry)) fun c' =>
      a.magnitude + b.magnitude < wordBase ^ (n + 1) ∧
        SumOf m a b { m with
          capacity := newCapacity, storage := c'.storage, integerLength := a.integerLength,
          offset := 0 } := by
  have least := ha.le_magnitude (n := n) (by omega)
  have nonneg := b.magnitude_nonneg
  have range := ha.offset_range
  have size' := ha.size_eq
  have hi := combines.i_eq
  have hk := combines.k_eq
  have hsize := combines.size_eq
  simp only at hi hk hsize
  refine (Cursor.returns_copyLoop a.storage (a.offset + t) (n + 1 - t) (by omega) (by omega)
    (fun u c' lt risen => ?_) fun u c' le risen => ?_).mono ?_
  · have hi' := risen.i_eq
    have hsize' := risen.size_eq
    rw [readFrom]
    split
    · rename_i here
      obtain rfl := same here
      rw [NativeArray.returns_item, risen.frame _ (by omega),
        combines.frame _ (by simp only; omega), hi', hi]
      exact ⟨by omega, rfl⟩
    · rw [NativeArray.returns_item, hi', hi]
      exact ⟨by omega, rfl⟩
  · have hk' := risen.k_eq
    rw [decide_eq_true_eq]
    omega
  · rintro c' ⟨hsize', frame, copied⟩
    have eq := combines.value_of_same length length' low high rfl carry
      (s := c'.storage) (fun u hu => frame _ (by simp only; omega)) fun u hu hu' => by
        obtain ⟨v, rfl⟩ := Nat.exists_eq_add_of_le hu
        have := copied v (by omega)
        rw [hk] at this
        push_cast
        rw [← add_assoc, ← add_assoc, this]
    have lt := wordValue_lt c'.storage 0 (n + 1)
    simp only [one_mul] at eq
    exact ⟨by omega, SumOf.of_value (n := n) rfl isCapacity (by simp only; omega)
      (by simp only; omega) le_rfl (by simp only; omega) (by omega) eq⟩

/-- With a last carry, the sum is right if its word is in the storage. -/
theorem sumWithCarry_spec {n n' : ℕ} (length : a.integerLength = (n + 1 : ℕ))
    (length' : b.integerLength = n') (le : n' ≤ n + 1) {newCapacity : Int}
    (isCapacity : IsCapacity newCapacity) (size : st.size = newCapacity) {c : Cursor Bool}
    (combines : Combines a b 1 n' ⟨st, a.offset, b.offset, 0, false⟩ (n + 1) c)
    (carry : c.carry = true) :
    wordBase ^ (n + 1) ≤ a.magnitude + b.magnitude ∧
      (a.integerLength < newCapacity → Returns (c.storage.put 1 c.k) fun storage =>
        SumOf m a b { m with
          capacity := newCapacity, storage, integerLength := a.integerLength + 1,
          offset := 0 }) ∧
      (newCapacity ≤ a.integerLength → c.storage.put 1 c.k = none) := by
  have hk := combines.k_eq
  have hsize := combines.size_eq
  simp only at hk hsize
  have eq := combines.value_eq' length' le rfl
  rw [← magnitude_eq length] at eq
  simp only [carry, bit_true, mul_one, one_mul] at eq
  have nonneg := wordValue_nonneg c.storage 0 (n + 1)
  refine ⟨by omega, fun fits => ?_, fun short => ?_⟩
  · rw [NativeArray.returns_put]
    refine ⟨by omega, SumOf.of_value (n := n + 1) rfl isCapacity (hsize.trans size)
      (by simp only; omega) le_rfl (by simp only; omega) (by omega) ?_⟩
    have below : wordValue (c.storage.set 1 c.k) 0 (n + 1) = wordValue c.storage 0 (n + 1) :=
      wordValue_congr fun u hu => NativeArray.cell_set_of_ne _ _ (by omega)
    rw [wordValue_succ, below, ← hk, NativeArray.cell_set_self, unsigned_one, one_mul, eq]
  · rw [NativeArray.put, if_neg]
    rintro ⟨_, inside⟩
    omega

/-- The sum is right, or the word of the last carry is out of the storage. -/
theorem addMagnitudeFrom_spec (ha : Valid a) (hb : Valid b)
    (le : b.integerLength ≤ a.integerLength) (nonzero : a.integerLength ≠ 0)
    {newCapacity : Int} (isCapacity : IsCapacity newCapacity)
    (size : st.size = newCapacity) (fits : a.integerLength ≤ newCapacity)
    (same : inPlace = true → st = a.storage) :
    ((wordBase ^ a.integerLength.toNat ≤ a.magnitude + b.magnitude →
        a.integerLength < newCapacity) →
      Returns (m.addMagnitudeFrom a b newCapacity st inPlace) fun r => SumOf m a b r) ∧
    (wordBase ^ a.integerLength.toNat ≤ a.magnitude + b.magnitude →
      newCapacity ≤ a.integerLength →
      m.addMagnitudeFrom a b newCapacity st inPlace = none) := by
  obtain ⟨n, length⟩ := ha.length_eq_succ nonzero
  obtain ⟨n', length'⟩ := hb.length_eq
  obtain ⟨c, run, t, low, high, combines, ended⟩ :=
    returns_sumLoops ha hb le (by omega) same (n := n) (by omega) length'
  rw [addMagnitudeFrom, run, show a.integerLength.toNat = n + 1 by omega, Returns.some_bind]
  cases carry : c.carry with
  | true =>
    obtain rfl : t = n + 1 := ended.resolve_left (by simp [carry])
    obtain ⟨big, enough, short⟩ := sumWithCarry_spec (m := m) length length' low
      isCapacity size combines carry
    rw [if_pos rfl]
    refine ⟨fun room => ?_, fun _ tight => ?_⟩
    · exact (enough (room big)).bind fun storage sum => Returns.pure_iff.mpr sum
    · rw [short tight, Returns.none_bind]
  | false =>
    obtain ⟨c', run', small, sum⟩ := returns_sumWithoutCarry (m := m) ha length length'
      isCapacity size fits same low high combines carry
    rw [if_neg Bool.false_ne_true, run', Returns.some_bind]
    exact ⟨fun _ => Returns.pure_iff.mpr sum, fun big => absurd big (by omega)⟩

end From

/-- The storage that `add_magnitude` takes for the sum can hold `a`; it holds no word
more exactly in the two cases of `LacksCarryWord`. -/
def LacksCarryWord (m a : MutableBigInteger) : Prop :=
  (m.capacity < a.integerLength ∧ IsCapacity a.integerLength) ∨
    (a.integerLength < m.capacity ∧ a.capacity = a.integerLength)

theorem returns_sumStorage {a : MutableBigInteger} (hm : Valid m) (ha : Valid a)
    (aIsOther : Bool) :
    Returns (m.sumStorage a aIsOther) fun (newCapacity, newStorage, inPlace) =>
      IsCapacity newCapacity ∧ newStorage.size = newCapacity ∧
        a.integerLength ≤ newCapacity ∧ (inPlace = true → newStorage = a.storage) ∧
        (newCapacity ≤ a.integerLength ↔ LacksCarryWord m a) := by
  have fits := ha.length_le
  rw [sumStorage, LacksCarryWord]
  split
  · rename_i short
    refine (returns_capacityFromLowerBound hm.isCapacity).bind ?_
    rintro capacity ⟨isCapacity, grown, enough, least⟩
    refine Returns.pure_iff.mpr ⟨isCapacity, rfl, enough, nofun, ?_⟩
    constructor
    · intro tight
      exact .inl ⟨short, (le_antisymm tight enough) ▸ isCapacity⟩
    · rintro (⟨-, exact⟩ | ⟨large, -⟩)
      · exact (exact.eq_of_lt_double isCapacity enough (by omega)).le
      · omega
  · split
    · refine (returns_capacityFromLowerBound hm.isCapacity).bind ?_
      rintro capacity ⟨isCapacity, -, enough, -⟩
      exact Returns.pure_iff.mpr ⟨isCapacity, rfl, by omega, nofun, by omega⟩
    · split
      · exact Returns.some_iff.mpr ⟨ha.isCapacity, rfl, fits, nofun, by omega⟩
      · exact Returns.some_iff.mpr ⟨ha.isCapacity, ha.size_eq, fits, fun _ => rfl, by omega⟩

theorem not_lacksCarryWord_self (hm : Valid m) : ¬LacksCarryWord m m := by
  have := hm.length_le
  rintro (⟨short, -⟩ | ⟨large, tight⟩) <;> omega

/-- `other` is longer, the sum has one word more, and the storage taken has not. -/
def SumOverflows (m other : MutableBigInteger) : Prop :=
  m.integerLength < other.integerLength ∧
    wordBase ^ other.integerLength.toNat ≤ m.magnitude + other.magnitude ∧
    LacksCarryWord m other

theorem addMagnitudeAway_spec (hm : Valid m) (ho : Valid other)
    (nonzero : m.integerLength ≠ 0) (same : Bool) :
    (¬SumOverflows m other →
      Returns (m.addMagnitudeAway same other) fun r => SumOf m m other r) ∧
    (SumOverflows m other → m.addMagnitudeAway same other = none) := by
  have nonneg := hm.length_nonneg
  rw [addMagnitudeAway]
  by_cases longer : m.integerLength ≥ other.integerLength
  · obtain ⟨⟨capacity, st, inPlace⟩, run, isCapacity, size, fits, here, tight⟩ :=
      returns_sumStorage hm hm (same || !true)
    obtain ⟨right, -⟩ := addMagnitudeFrom_spec (m := m) hm ho longer nonzero isCapacity size
      fits here
    simp only [decide_eq_true longer, if_true, run, Returns.some_bind]
    refine ⟨fun _ => right fun _ => ?_, fun overflows => absurd overflows.1 (by omega)⟩
    by_contra short
    exact not_lacksCarryWord_self hm (tight.mp (by omega))
  · obtain ⟨⟨capacity, st, inPlace⟩, run, isCapacity, size, fits, here, tight⟩ :=
      returns_sumStorage hm ho (same || !false)
    obtain ⟨right, wrong⟩ := addMagnitudeFrom_spec (m := m) ho hm (by omega) (by omega)
      isCapacity size fits here
    simp only [decide_eq_false longer, Bool.false_eq_true, if_false, run, Returns.some_bind]
    rw [add_comm other.magnitude] at right wrong
    refine ⟨fun not => (right fun big => ?_).mono fun r sum => ?_, fun overflows => ?_⟩
    · by_contra short
      exact not ⟨by omega, big, tight.mp (by omega)⟩
    · exact { sum with magnitude_eq' := sum.magnitude_eq'.trans (add_comm _ _) }
    · exact wrong overflows.2.1 (tight.mpr overflows.2.2)

/-- `add_magnitude` is exact unless the word of the last carry is out of the storage. -/
theorem returns_addMagnitude (hm : Valid m) (ho : Valid other)
    (nonzero : m.integerLength ≠ 0) (same : Bool) (fits : ¬SumOverflows m other) :
    Returns (m.addMagnitude same other) fun r => SumOf m m other r := by
  rw [addMagnitude]
  split
  · rename_i inPlace
    exact returns_addMagnitudeInPlace hm ho inPlace.1 inPlace.2
  · exact (addMagnitudeAway_spec hm ho nonzero same).1 fits

theorem addMagnitude_eq_none (hm : Valid m) (ho : Valid other)
    (nonzero : m.integerLength ≠ 0) (same : Bool) (overflows : SumOverflows m other) :
    m.addMagnitude same other = none := by
  rw [addMagnitude, if_neg]
  · exact (addMagnitudeAway_spec hm ho nonzero same).2 overflows
  · have := overflows.1
    omega

theorem not_sumOverflows_self (m : MutableBigInteger) : ¬SumOverflows m m :=
  fun overflows => lt_irrefl _ overflows.1

end Sum

end MutableBigInteger

end Liberty
