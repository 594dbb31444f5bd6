import Liberty.Numeric.MutableBigInteger.Subtraction

/-!
# Shifts

`shift_left` multiplies by a power of 2.  It moves the words up from the top or down from
the bottom, in place or into another storage, so that no word is overwritten before it is
read.  `shift_right` takes the words that remain and may move them down.
-/

namespace Liberty

namespace MutableBigInteger

/-! ## The source -/

/-- `a |<< left | (b |>>> right)`. -/
def shiftWord (left : ℕ) (a b : Word) : Word :=
  a <<< left ||| b >>> (32 - left)

/-- Write zero words from `k` down to 0. -/
def zeroDown (s : NativeArray Word) (k : Int) : Option (NativeArray Word) := do
  let c ← Cursor.downLoop (fun c => decide (c.k < 0)) (fun _ => some (0, ())) ⟨s, 0, 0, k, ()⟩
  return c.storage

/-- The loop from the top, and the lowest word after it.  The words are read at `i`,
down to `offset`, and written from `j` on. -/
def shiftDown (left : ℕ) (src dest : NativeArray Word) (inPlace : Bool)
    (offset i j : Int) (val1 : Word) : Option (NativeArray Word) := do
  let c ← Cursor.downLoop (fun c => decide (c.i = offset))
    (fun c => do
      let val2 ← readFrom src inPlace c (c.i - 1)
      return (shiftWord left c.carry val2, val2))
    ⟨dest, i, 0, j, val1⟩
  c.storage.put (c.carry <<< left) c.k

/-- The loop from the bottom, after zero words, and the highest word after it. -/
def shiftUp (left : ℕ) (s : NativeArray Word) (wordShift offset i : Int) (val1 : Word) :
    Option (NativeArray Word) := do
  let c ← Cursor.upLoop (fun c => decide (c.k = wordShift)) (fun _ => some (0, ()))
    ⟨s, 0, 0, 0, ()⟩
  let c ← Cursor.upLoop (fun c => decide (c.i = i))
    (fun c => do
      let val3 ← c.storage.item c.i
      return (shiftWord left val3 c.carry, val3))
    ⟨c.storage, offset, 0, c.k, (0 : Word)⟩
  c.storage.put (shiftWord left val1 c.carry) c.k

/-- The branch of `shift_left` for whole words. -/
def shiftLeftWords (m : MutableBigInteger) (wordShift : Int) : Option MutableBigInteger := do
  let newIntegerLength := m.integerLength + wordShift
  if m.offset ≥ wordShift then
    -- no need to deplace the number in the storage
    let offset := m.offset - wordShift
    let c ← Cursor.downLoop (fun c => decide (c.i = offset)) (fun _ => some (0, ()))
      ⟨m.storage, m.offset, 0, m.offset - 1, ()⟩
    return { m with storage := c.storage, offset, integerLength := newIntegerLength }
  else if m.capacity ≥ newIntegerLength then
    -- deplacing the number
    let c ← Cursor.downLoop (fun c => decide (c.i < m.offset))
      (fun c => do return (← c.storage.item c.i, c.carry))
      ⟨m.storage, m.offset + m.integerLength - 1, 0, wordShift + m.integerLength - 1, ()⟩
    let storage ← zeroDown c.storage c.k
    return { m with storage, offset := 0, integerLength := newIntegerLength }
  else
    -- reallocation
    let capacity ← capacityFromLowerBound m.capacity newIntegerLength
    let c ← Cursor.downLoop (fun c => decide (c.i < m.offset))
      (fun c => do return (← m.storage.item c.i, c.carry))
      ⟨.calloc capacity, m.offset + m.integerLength - 1, 0,
        wordShift + m.integerLength - 1, ()⟩
    return { m with
      storage := c.storage, capacity, offset := 0, integerLength := newIntegerLength }

/-- The branch of `shift_left` that moves bits between words, when the number of words
does not grow by a head. -/
def shiftLeftBits (m : MutableBigInteger) (wordShift : Int) (left : ℕ) (i : Int)
    (val1 : Word) : Option MutableBigInteger := do
  let newIntegerLength := m.integerLength + wordShift
  if m.capacity < newIntegerLength then
    let capacity ← capacityFromLowerBound m.capacity newIntegerLength
    let storage ← shiftDown left m.storage (.calloc capacity) false m.offset i
      (newIntegerLength - 1) val1
    return { m with storage, capacity, offset := 0, integerLength := newIntegerLength }
  else if m.offset > wordShift then
    let storage ← shiftUp left m.storage wordShift m.offset i val1
    return { m with storage, offset := 0, integerLength := newIntegerLength }
  else
    let storage ← shiftDown left m.storage m.storage true m.offset i
      (newIntegerLength - 1) val1
    let storage ← zeroDown storage (wordShift - 1)
    return { m with storage, offset := 0, integerLength := newIntegerLength }

/-- The same with a new head above the words. -/
def shiftLeftBitsHead (m : MutableBigInteger) (wordShift : Int) (left : ℕ) (i : Int)
    (val1 newHead : Word) : Option MutableBigInteger := do
  let newIntegerLength := m.integerLength + wordShift + 1
  if m.capacity < newIntegerLength then
    let capacity ← capacityFromLowerBound m.capacity newIntegerLength
    let j := newIntegerLength - 2
    let newStorage := NativeArray.calloc capacity
    let newStorage ← newStorage.put newHead (j + 1)
    let storage ← shiftDown left m.storage newStorage false m.offset i j val1
    return { m with storage, capacity, offset := 0, integerLength := newIntegerLength }
  else if m.offset > wordShift then
    let storage ← shiftUp left m.storage wordShift m.offset i val1
    let storage ← storage.put newHead (newIntegerLength - 1)
    return { m with storage, offset := 0, integerLength := newIntegerLength }
  else
    let storage ← shiftDown left m.storage m.storage true m.offset i
      (newIntegerLength - 2) val1
    let storage ← storage.put newHead (newIntegerLength - 1)
    let storage ← zeroDown storage (wordShift - 1)
    return { m with storage, offset := 0, integerLength := newIntegerLength }

/-- `shift_left`, for `n > 0`. -/
def shiftLeft (m : MutableBigInteger) (n : ℕ) : Option MutableBigInteger := do
  if m.integerLength > 0 then
    let wordShift : Int := (n / 32 : ℕ)
    let left := n % 32
    if left = 0 then
      m.shiftLeftWords wordShift
    else
      let i := m.offset + m.integerLength - 1
      let val1 ← m.storage.item i
      let newHead := val1 >>> (32 - left)
      if newHead = 0 then
        m.shiftLeftBits wordShift left i val1
      else
        m.shiftLeftBitsHead wordShift left i val1 newHead
  else
    return m

/-- `primitive_shift_right`, for `0 < n < 32`. -/
def primitiveShiftRight (m : MutableBigInteger) (n : ℕ) : Option MutableBigInteger := do
  let up := m.integerLength - 1
  let b ← m.storage.item m.offset
  let c ← Cursor.upLoop (fun c => decide (c.k ≥ up))
    (fun c : Cursor Word => do
      let next ← c.storage.item (c.i + 1)
      return (c.carry >>> n ||| next <<< (32 - n), next))
    ⟨m.storage, m.offset, 0, 0, b⟩
  let storage ← c.storage.put (c.carry >>> n) up
  if (← storage.item (m.integerLength - 1)) = 0 then
    return { m with storage, offset := 0, integerLength := m.integerLength - 1 }
  else
    return { m with storage, offset := 0 }

/-- The `n_ints` lowest words are no longer looked at. -/
def dropWords (m : MutableBigInteger) (nInts : ℕ) : MutableBigInteger :=
  { m with integerLength := m.integerLength - nInts, offset := m.offset + nInts }

/-- `shift_right`, for `n > 0`. -/
def shiftRight (m : MutableBigInteger) (n : ℕ) : Option MutableBigInteger :=
  if m.integerLength > 0 then
    let nInts := n / 32
    let nBits := n % 32
    let m := m.dropWords nInts
    if nBits = 0 then some m else m.primitiveShiftRight nBits
  else
    some m

/-! ## Words -/

/-- The words of two shifted neighbours: the low bits of `a` above the high bits of
`b`. -/
theorem unsigned_shiftWord {left : ℕ} (lt : left < 32) (a b : Word) :
    unsigned (shiftWord left a b) =
      unsigned a % 2 ^ (32 - left) * 2 ^ left + unsigned b / 2 ^ (32 - left) := by
  have hb := b.isLt
  have powers : 2 ^ (32 - left) * 2 ^ left = (2 : ℕ) ^ 32 := by
    rw [← pow_add, Nat.sub_add_cancel lt.le]
  have low : b.toNat / 2 ^ (32 - left) < 2 ^ left :=
    Nat.div_lt_of_lt_mul (by rw [powers]; exact hb)
  have high : a.toNat <<< left % 2 ^ 32 = (a.toNat % 2 ^ (32 - left)) <<< left := by
    rw [Nat.shiftLeft_eq, Nat.shiftLeft_eq, ← powers, Nat.mul_mod_mul_right]
  have word : (shiftWord left a b).toNat =
      a.toNat % 2 ^ (32 - left) * 2 ^ left + b.toNat / 2 ^ (32 - left) := by
    rw [shiftWord, BitVec.toNat_or, BitVec.toNat_shiftLeft, BitVec.toNat_ushiftRight, high,
      Nat.shiftRight_eq_div_pow, ← Nat.shiftLeft_add_eq_or_of_lt low, Nat.shiftLeft_eq]
  rw [unsigned, word]
  rfl

theorem shiftWord_zero (left : ℕ) (a : Word) : shiftWord left a 0 = a <<< left := by
  simp [shiftWord]

section Bits

variable {left : ℕ} (lt : left < 32)

include lt

theorem two_pow_mul_two_pow : (2 : ℤ) ^ (32 - left) * 2 ^ left = wordBase := by
  rw [← pow_add, Nat.sub_add_cancel lt.le]
  rfl

/-- From the top: what `a` still owes is paid in front of `b`. -/
theorem shiftWord_down (a b : Word) :
    2 ^ (32 - left) * unsigned (shiftWord left a b) + unsigned b % 2 ^ (32 - left) =
      unsigned b + wordBase * (unsigned a % 2 ^ (32 - left)) := by
  have split := Int.emod_add_mul_ediv (unsigned b) (2 ^ (32 - left))
  rw [unsigned_shiftWord lt, ← two_pow_mul_two_pow lt]
  linear_combination split

/-- From the bottom: what `a` has too much is left to the next word. -/
theorem shiftWord_up (a b : Word) :
    unsigned (shiftWord left a b) + wordBase * (unsigned a / 2 ^ (32 - left)) =
      2 ^ left * unsigned a + unsigned b / 2 ^ (32 - left) := by
  have split := Int.emod_add_mul_ediv (unsigned a) (2 ^ (32 - left))
  rw [unsigned_shiftWord lt, ← two_pow_mul_two_pow lt]
  linear_combination 2 ^ left * split

end Bits

/-! ## Loops -/

theorem returns_zeroDown {s : NativeArray Word} {n : ℕ} (size : (n : Int) ≤ s.size) :
    Returns (zeroDown s (n - 1)) fun s' => s'.size = s.size ∧
      (∀ x : Int, n ≤ x → s'.cell x = s.cell x) ∧ wordValue s' 0 n = 0 := by
  refine (Cursor.returns_downLoop 1 (fun _ => 0) (fun _ => 0) n (by dsimp only; omega)
    (by dsimp only; omega) (Q := fun c => Cursor.Sunk 1 (fun _ => 0) (fun _ => 0)
      ⟨s, 0, 0, n - 1, ()⟩ n n c) fun t c le sunk => ?_).bind fun c sunk => ?_
  · have hk := sunk.k_eq
    dsimp only at hk
    split
    · rename_i stopped
      rw [decide_eq_true_eq] at stopped
      obtain rfl : t = n := by omega
      exact sunk
    · rename_i going
      rw [decide_eq_true_eq] at going
      exact ⟨by omega, Returns.some_iff.mpr (by simp [show unsigned 0#32 = 0 from rfl])⟩
  · have eq := sunk.value_eq
    rw [Positional.value_of_zero fun _ _ => rfl, show (n : Int) - 1 - n + 1 = 0 by omega] at eq
    refine Returns.pure_iff.mpr ⟨sunk.size_eq, fun x hx => sunk.frame x ?_, by linarith⟩
    dsimp only
    omega

/-- The rule of a loop that copies `n` words from the top. -/
theorem returns_copyDown {c₀ : Cursor Unit} {stop : Cursor Unit → Bool}
    {read : Cursor Unit → Option Word} (s : NativeArray Word) (o : Int) (n : ℕ)
    (low : n ≤ c₀.k + 1) (high : c₀.k < c₀.storage.size)
    (reads : ∀ t c, t < n → Cursor.Sunk 1 (fun _ => 0) (words s o) c₀ n t c →
      Returns (read c) (· = s.cell (o + (n - (t + 1) : ℕ))))
    (stops : ∀ t c, t ≤ n → Cursor.Sunk 1 (fun _ => 0) (words s o) c₀ n t c →
      (stop c = true ↔ t = n)) :
    Returns (c₀.downLoop stop fun c => do return (← read c, c.carry)) fun c =>
      c.storage.size = c₀.storage.size ∧ c.k = c₀.k - n ∧
        (∀ x, x ≤ c₀.k - n ∨ c₀.k < x → c.storage.cell x = c₀.storage.cell x) ∧
        wordValue c.storage (c₀.k - n + 1) n = wordValue s o n := by
  refine Cursor.returns_downLoop 1 (fun _ => 0) (words s o) n low high fun t c le sunk => ?_
  split
  · rename_i stopped
    obtain rfl := (stops t c le sunk).mp stopped
    have eq := sunk.value_eq
    simp only [one_mul, add_zero, mul_zero, Nat.sub_self, zero_add] at eq
    exact ⟨sunk.size_eq, sunk.k_eq, sunk.frame, eq⟩
  · rename_i going
    have lt : t < n := lt_of_le_of_ne le fun eq => going ((stops t c le sunk).mpr eq)
    refine ⟨lt, (reads t c lt sunk).bind fun x hx => Returns.pure_iff.mpr ?_⟩
    subst hx
    simp only [one_mul, add_zero, mul_zero]
    rfl

section Loops

variable {left : ℕ} (lt : left < 32)

include lt

/-- The words shifted from the top, below the head. -/
theorem returns_shiftDown {src dest : NativeArray Word} {inPlace : Bool} {off w : Int} {n : ℕ}
    (same : inPlace = true → dest = src ∧ off ≤ w) (low : 0 ≤ off)
    (high : off + (n + 1) ≤ src.size) (low' : 0 ≤ w) (high' : w + (n + 1) ≤ dest.size) :
    Returns (shiftDown left src dest inPlace off (off + n) (w + n) (src.cell (off + n)))
      fun s => s.size = dest.size ∧
        (∀ x, x < w ∨ w + (n + 1) ≤ x → s.cell x = dest.cell x) ∧
        wordValue s w (n + 1) +
            wordBase ^ (n + 1) * (unsigned (src.cell (off + n)) / 2 ^ (32 - left)) =
          2 ^ left * wordValue src off (n + 1) := by
  refine (Cursor.returns_downLoop (2 ^ (32 - left)) (fun v => unsigned v % 2 ^ (32 - left))
    (words src off) n (by dsimp only; omega) (by dsimp only; omega)
    (Q := fun c => Cursor.Sunk (2 ^ (32 - left)) (fun v => unsigned v % 2 ^ (32 - left))
      (words src off) ⟨dest, off + n, 0, w + n, src.cell (off + n)⟩ n n c)
    fun t c le sunk => ?_).bind fun c sunk => ?_
  · have hi := sunk.i_eq
    have hsize := sunk.size_eq
    dsimp only at hi hsize
    split
    · rename_i stopped
      rw [decide_eq_true_eq] at stopped
      obtain rfl : t = n := by omega
      exact sunk
    · rename_i going
      rw [decide_eq_true_eq] at going
      have index : c.i - 1 = off + (n - (t + 1) : ℕ) := by omega
      refine ⟨by omega, Returns.bind (P := (· = src.cell (off + (n - (t + 1) : ℕ)))) ?_
        fun x hx => Returns.pure_iff.mpr ?_⟩
      · rw [readFrom, index]
        split
        · rename_i here
          obtain ⟨rfl, below⟩ := same here
          rw [NativeArray.returns_item, sunk.frame _ (by dsimp only; omega)]
          exact ⟨by omega, rfl⟩
        · rw [NativeArray.returns_item]
          exact ⟨by omega, rfl⟩
      · subst hx
        exact shiftWord_down lt _ _
  · have hk := sunk.k_eq
    have hsize := sunk.size_eq
    have eq := sunk.value_eq
    dsimp only at hk hsize eq
    rw [NativeArray.returns_put]
    refine ⟨by omega, hsize, fun x outside => ?_, ?_⟩
    · rw [NativeArray.cell_set_of_ne _ _ (by omega), sunk.frame _ (by dsimp only; omega)]
    · have first := shiftWord_down lt c.carry 0
      have split := Int.emod_add_mul_ediv (unsigned (src.cell (off + n))) (2 ^ (32 - left))
      have powers := two_pow_mul_two_pow lt
      have above : wordValue (c.storage.set (c.carry <<< left) c.k) (w + 1) n =
          wordValue c.storage (w + n - n + 1) n :=
        wordValue_congr fun u hu => by
          rw [NativeArray.cell_set_of_ne _ _ (by omega)]
          congr 1
          omega
      have digits : Positional.value wordBase (fun u => words src off (n - n + u)) n =
          wordValue src off n :=
        Positional.value_congr fun u _ => congrArg _ (by omega)
      rw [digits] at eq
      rw [shiftWord_zero, unsigned_zero, Int.zero_emod] at first
      refine mul_left_cancel₀ (a := (2 : ℤ) ^ (32 - left)) (by positivity) ?_
      rw [wordValue_succ', above, NativeArray.cell_set, if_pos (by omega),
        wordValue_succ src, pow_succ]
      linear_combination first + wordBase * eq + wordBase ^ n * wordBase * split -
        (wordValue src off n + unsigned (src.cell (off + n)) * wordBase ^ n) * powers

/-- The words shifted from the bottom, below the head. -/
theorem returns_shiftUp {s : NativeArray Word} {off : Int} {w n : ℕ} (low : w < off)
    (high : off + (n + 1) ≤ s.size) :
    Returns (shiftUp left s w off (off + n) (s.cell (off + n))) fun s' =>
      s'.size = s.size ∧ wordValue s' 0 w = 0 ∧
        wordValue s' w (n + 1) +
            wordBase ^ (n + 1) * (unsigned (s.cell (off + n)) / 2 ^ (32 - left)) =
          2 ^ left * wordValue s off (n + 1) := by
  refine (Cursor.returns_upLoop 1 (fun _ => 0) (fun _ => 0) w le_rfl (by dsimp only; omega)
    (Q := fun c => Cursor.Risen 1 (fun _ => 0) (fun _ => 0) ⟨s, 0, 0, 0, ()⟩ w c)
    fun t c le risen => ?_).bind fun c₁ zeroes => ?_
  · have hk := risen.k_eq
    dsimp only at hk
    split
    · rename_i stopped
      rw [decide_eq_true_eq] at stopped
      obtain rfl : t = w := by omega
      exact risen
    · rename_i going
      rw [decide_eq_true_eq] at going
      exact ⟨by omega, Returns.some_iff.mpr (by simp [show unsigned 0#32 = 0 from rfl])⟩
  have hk₁ := zeroes.k_eq
  have hsize₁ := zeroes.size_eq
  have eq₁ := zeroes.value_eq
  dsimp only at hk₁ hsize₁ eq₁
  rw [Positional.value_of_zero fun _ _ => rfl] at eq₁
  have kept : ∀ x : Int, w ≤ x → c₁.storage.cell x = s.cell x :=
    fun x hx => zeroes.frame x (by dsimp only; omega)
  refine (Cursor.returns_upLoop 1 (fun v => unsigned v / 2 ^ (32 - left))
    (fun t => 2 ^ left * words s off t) n (by dsimp only; omega) (by dsimp only; omega)
    (Q := fun c => Cursor.Risen 1 (fun v => unsigned v / 2 ^ (32 - left))
      (fun t => 2 ^ left * words s off t) ⟨c₁.storage, off, 0, c₁.k, (0 : Word)⟩ n c)
    fun t c le risen => ?_).bind fun c risen => ?_
  · have hi := risen.i_eq
    have hsize := risen.size_eq
    dsimp only at hi hsize
    split
    · rename_i stopped
      rw [decide_eq_true_eq] at stopped
      obtain rfl : t = n := by omega
      exact risen
    · rename_i going
      rw [decide_eq_true_eq] at going
      rw [Returns.bind_iff, NativeArray.returns_item, hi,
        risen.frame _ (by dsimp only; omega), kept _ (by omega), Returns.pure_iff, one_mul]
      exact ⟨by omega, by omega, shiftWord_up lt _ _⟩
  · have hk := risen.k_eq
    have hsize := risen.size_eq
    have eq := risen.value_eq
    dsimp only at hk hsize eq
    rw [NativeArray.returns_put]
    refine ⟨by omega, hsize.trans hsize₁, ?_, ?_⟩
    · have same : wordValue (c.storage.set (shiftWord left (s.cell (off + n)) c.carry) c.k) 0 w =
          wordValue c₁.storage 0 w :=
        wordValue_congr fun u hu => by
          rw [NativeArray.cell_set_of_ne _ _ (by omega), risen.frame _ (by dsimp only; omega)]
      linarith
    · have last := shiftWord_up lt (s.cell (off + n)) c.carry
      have below : wordValue (c.storage.set (shiftWord left (s.cell (off + n)) c.carry) c.k) w
          n = wordValue c.storage c₁.k n :=
        wordValue_congr fun u hu => by
          rw [NativeArray.cell_set_of_ne _ _ (by omega), hk₁, zero_add]
      have digits : Positional.value wordBase (fun t => 2 ^ left * words s off t) n =
          2 ^ left * wordValue s off n := by
        have := Positional.value_mul_add (B := wordBase) (f := words s off) (g := fun _ => 0)
          (n := n) (2 ^ left)
        rw [Positional.value_of_zero (f := fun _ => 0) fun _ _ => rfl] at this
        simp only [add_zero] at this
        rw [mul_comm (2 ^ left : ℤ), wordValue, ← this]
        exact Positional.value_congr fun t _ => mul_comm _ _
      rw [digits, unsigned_zero, Int.zero_ediv] at eq
      rw [wordValue_succ, below, show (w : Int) + n = c.k by omega,
        NativeArray.cell_set_self, wordValue_succ s, pow_succ]
      linear_combination eq + wordBase ^ n * last

end Loops

/-! ## shift_left -/

section ShiftLeft

variable {m : MutableBigInteger}

theorem two_pow_eq (n : ℕ) : (2 : ℤ) ^ n = wordBase ^ (n / 32) * 2 ^ (n % 32) := by
  rw [show wordBase = 2 ^ 32 from rfl, ← pow_mul, ← pow_add, Nat.div_add_mod]

theorem unsigned_head {left : ℕ} (v : Word) :
    unsigned (v >>> (32 - left)) = unsigned v / 2 ^ (32 - left) := by
  rw [unsigned, BitVec.toNat_ushiftRight, Nat.shiftRight_eq_div_pow]
  rfl

theorem le_shifted (hm : Valid m) {n : ℕ} (length : m.integerLength = n + 1) (left : ℕ) :
    wordBase ^ n ≤ 2 ^ left * m.magnitude := by
  have least := hm.le_magnitude length
  have pos := wordBase_pow_pos n
  have one_le : (1 : ℤ) ≤ 2 ^ left := one_le_pow₀ (by norm_num)
  nlinarith

/-- The words above `w` zero words, without a head. -/
theorem holds_of_shifted {r : MutableBigInteger} {n w : ℕ} {v : ℤ}
    (isCapacity : IsCapacity r.capacity) (size_eq : r.storage.size = r.capacity)
    (length : r.integerLength = n + 1 + w) (low : 0 ≤ r.offset)
    (high : r.offset + (n + 1 + w) ≤ r.capacity) (zero : wordValue r.storage r.offset w = 0)
    (value : wordValue r.storage (r.offset + w) (n + 1) = v) (least : wordBase ^ n ≤ v) :
    Holds r (signed r.negative (wordBase ^ w * v)) := by
  have top := top_ne_zero_of_le (value ▸ least)
  refine .of_window (w + n) isCapacity size_eq (by push_cast; omega) low
    (by push_cast; omega) ?_ ?_
  · rwa [Nat.cast_add, ← add_assoc]
  · rw [add_assoc, wordValue_add, zero, value, zero_add]

/-- The words above `w` zero words, with a head. -/
theorem holds_of_shifted_head {r : MutableBigInteger} {n w : ℕ} {v : ℤ} {head : Word}
    (isCapacity : IsCapacity r.capacity) (size_eq : r.storage.size = r.capacity)
    (length : r.integerLength = n + 1 + w + 1) (offset : r.offset = 0)
    (high : (n : Int) + 1 + w + 1 ≤ r.capacity) (zero : wordValue r.storage 0 w = 0)
    (value : wordValue r.storage w (n + 1) + wordBase ^ (n + 1) * unsigned head = v)
    (top : r.storage.cell (w + (n + 1)) = head) (nonzero : head ≠ 0) :
    Holds r (signed r.negative (wordBase ^ w * v)) := by
  refine .of_window (w + n + 1) isCapacity size_eq (by push_cast; omega) (by omega)
    (by push_cast; omega) ?_ ?_
  · rwa [offset, show (0 : Int) + ((w + n + 1 : ℕ) : Int) = w + (n + 1) by push_cast; omega,
      top]
  · rw [offset, show w + n + 1 + 1 = w + (n + 1 + 1) by omega, wordValue_add, zero, zero_add,
      wordValue_succ, zero_add, show (w : Int) + ((n + 1 : ℕ) : Int) = w + (n + 1) by
        push_cast; rfl, top, ← value]
    congr 1
    ring

theorem returns_shiftLeftWords (hm : Valid m) (nonzero : m.integerLength ≠ 0) (w : ℕ) :
    Returns (m.shiftLeftWords w) (Holds · (signed m.negative (wordBase ^ w * m.magnitude))) := by
  obtain ⟨n, length⟩ := hm.length_eq_succ nonzero
  have range := hm.offset_range nonzero
  have size := hm.size_eq
  have least := hm.le_magnitude length
  have magnitude := magnitude_eq (m := m) (n := n + 1) length
  rw [shiftLeftWords]
  split
  · refine (Cursor.returns_downLoop 1 (fun _ => 0) (fun _ => 0) w (by dsimp only; omega)
      (by dsimp only; omega) (Q := fun c => Cursor.Sunk 1 (fun _ => 0) (fun _ => 0)
        ⟨m.storage, m.offset, 0, m.offset - 1, ()⟩ w w c) fun t c le sunk => ?_).bind
      fun c sunk => ?_
    · have hi := sunk.i_eq
      dsimp only at hi
      split
      · rename_i stopped
        rw [decide_eq_true_eq] at stopped
        obtain rfl : t = w := by omega
        exact sunk
      · rename_i going
        rw [decide_eq_true_eq] at going
        exact ⟨by omega, Returns.some_iff.mpr (by simp [show unsigned 0#32 = 0 from rfl])⟩
    · have eq := sunk.value_eq
      rw [Positional.value_of_zero fun _ _ => rfl,
        show m.offset - 1 - w + 1 = m.offset - w by omega] at eq
      have same : wordValue c.storage (m.offset - w + w) (n + 1) = m.magnitude := by
        rw [magnitude]
        refine wordValue_congr fun t ht => ?_
        rw [sunk.frame _ (by dsimp only; omega)]
        congr 1
        omega
      exact Returns.pure_iff.mpr (holds_of_shifted hm.isCapacity
        (sunk.size_eq.trans size) (by dsimp only; omega) (by dsimp only; omega)
        (by dsimp only; omega) (by linarith) same least)
  split
  · refine (returns_copyDown m.storage m.offset (n + 1) (by dsimp only; push_cast; omega)
      (by dsimp only; omega) (fun t c lt sunk => ?_) fun t c le sunk => ?_).bind ?_
    · have hi := sunk.i_eq
      have hsize := sunk.size_eq
      dsimp only at hi hsize
      have index : c.i = m.offset + (n + 1 - (t + 1) : ℕ) := by omega
      rw [NativeArray.returns_item, index, sunk.frame _ (by dsimp only; omega)]
      exact ⟨by omega, rfl⟩
    · have hi := sunk.i_eq
      dsimp only at hi
      rw [decide_eq_true_eq]
      omega
    · rintro c ⟨hsize, hk, frame, value⟩
      dsimp only at hsize hk frame value
      rw [show c.k = (w : Int) - 1 by push_cast at hk; omega]
      refine (returns_zeroDown (by omega)).bind fun s' ⟨hsize', kept, zero⟩ =>
        Returns.pure_iff.mpr (holds_of_shifted hm.isCapacity
          (hsize'.trans (hsize.trans size)) (by dsimp only; omega) le_rfl
          (by dsimp only; omega) zero ?_ least)
      rw [magnitude, ← value]
      refine wordValue_congr fun t ht => ?_
      dsimp only
      rw [kept _ (by omega)]
      congr 1
      omega
  · refine (returns_capacityFromLowerBound hm.isCapacity).bind ?_
    rintro capacity ⟨isCapacity, -, enough, -⟩
    refine (returns_copyDown m.storage m.offset (n + 1) (by dsimp only; push_cast; omega)
      (by dsimp only [NativeArray.size_calloc]; omega) (fun t c lt sunk => ?_)
      fun t c le sunk => ?_).bind ?_
    · have hi := sunk.i_eq
      dsimp only at hi
      have index : c.i = m.offset + (n + 1 - (t + 1) : ℕ) := by omega
      rw [NativeArray.returns_item, index]
      exact ⟨by omega, rfl⟩
    · have hi := sunk.i_eq
      dsimp only at hi
      rw [decide_eq_true_eq]
      omega
    · rintro c ⟨hsize, hk, frame, value⟩
      refine Returns.pure_iff.mpr (holds_of_shifted isCapacity hsize
          (by dsimp only; omega) le_rfl (by dsimp only; omega) ?_ ?_ least)
      · refine wordValue_of_zero fun t ht => ?_
        rw [frame _ (by push_cast; omega)]
        rfl
      · rw [magnitude, ← value]
        refine wordValue_congr fun t ht => ?_
        congr 1
        push_cast
        omega

theorem returns_shiftLeftBits (hm : Valid m) {left : ℕ} (lt : left < 32) {n : ℕ}
    (length : m.integerLength = n + 1) (w : ℕ)
    (noHead : unsigned (m.storage.cell (m.offset + n)) / 2 ^ (32 - left) = 0) :
    Returns (m.shiftLeftBits w left (m.offset + n) (m.storage.cell (m.offset + n))) fun r =>
      Holds r (signed m.negative (wordBase ^ w * (2 ^ left * m.magnitude))) ∧
        r.offset = 0 := by
  have range := hm.offset_range (by omega)
  have size := hm.size_eq
  have least := le_shifted hm length left
  have magnitude := magnitude_eq (m := m) (n := n + 1) length
  have index : m.integerLength + w - 1 = w + (n : Int) := by omega
  rw [shiftLeftBits, index]
  split
  · refine (returns_capacityFromLowerBound hm.isCapacity).bind ?_
    rintro capacity ⟨isCapacity, -, enough, -⟩
    refine (returns_shiftDown lt (fun here => absurd here Bool.false_ne_true) range.1 (by omega) (by omega)
      (by rw [NativeArray.size_calloc]; omega)).bind fun s ⟨hsize, frame, value⟩ => ?_
    rw [noHead, mul_zero, add_zero, ← magnitude] at value
    refine Returns.pure_iff.mpr ⟨holds_of_shifted isCapacity hsize (by dsimp only; omega)
      le_rfl (by dsimp only; omega) (wordValue_of_zero fun t ht => ?_)
      (by rwa [zero_add]) least, rfl⟩
    dsimp only
    rw [frame _ (by omega)]
    rfl
  split
  · rename_i room
    refine (returns_shiftUp lt (by omega) (by omega)).bind fun s ⟨hsize, zero, value⟩ => ?_
    rw [noHead, mul_zero, add_zero, ← magnitude] at value
    exact Returns.pure_iff.mpr ⟨holds_of_shifted hm.isCapacity (hsize.trans size)
      (by dsimp only; omega) le_rfl (by dsimp only; omega) zero (by rwa [zero_add]) least,
      rfl⟩
  · refine (returns_shiftDown lt (fun _ => ⟨rfl, by omega⟩) range.1 (by omega) (by omega)
      (by omega)).bind fun s ⟨hsize, frame, value⟩ => ?_
    rw [noHead, mul_zero, add_zero, ← magnitude] at value
    refine (returns_zeroDown (by omega)).bind fun s' ⟨hsize', kept, zero⟩ =>
      Returns.pure_iff.mpr ⟨holds_of_shifted hm.isCapacity
        (hsize'.trans (hsize.trans size)) (by dsimp only; omega) le_rfl
        (by dsimp only; omega) zero ?_ least, rfl⟩
    rw [← value, zero_add]
    exact wordValue_congr fun t ht => kept _ (by omega)

theorem returns_shiftLeftBitsHead (hm : Valid m) {left : ℕ} (lt : left < 32) {n : ℕ}
    (length : m.integerLength = n + 1) (w : ℕ) {head : Word}
    (headValue : unsigned head = unsigned (m.storage.cell (m.offset + n)) / 2 ^ (32 - left))
    (nonzero : head ≠ 0) :
    Returns (m.shiftLeftBitsHead w left (m.offset + n) (m.storage.cell (m.offset + n)) head)
      fun r => Holds r (signed m.negative (wordBase ^ w * (2 ^ left * m.magnitude))) ∧
        r.offset = 0 := by
  have range := hm.offset_range (by omega)
  have size := hm.size_eq
  have magnitude := magnitude_eq (m := m) (n := n + 1) length
  have index : m.integerLength + w + 1 - 2 = w + (n : Int) := by omega
  rw [shiftLeftBitsHead]
  rw [index]
  split
  · refine (returns_capacityFromLowerBound hm.isCapacity).bind ?_
    rintro capacity ⟨isCapacity, -, enough, -⟩
    rw [Returns.bind_iff, NativeArray.returns_put, NativeArray.size_calloc]
    refine ⟨by omega, (returns_shiftDown lt (fun here => absurd here Bool.false_ne_true) range.1 (by omega) (by omega)
      (by rw [NativeArray.size_set, NativeArray.size_calloc]; omega)).bind
        fun s ⟨hsize, frame, value⟩ => ?_⟩
    rw [← headValue, ← magnitude] at value
    refine Returns.pure_iff.mpr ⟨holds_of_shifted_head (n := n) (w := w) isCapacity hsize
      (by dsimp only; omega) rfl (by dsimp only; omega) (wordValue_of_zero fun t ht => ?_)
      value ?_ nonzero, rfl⟩
    · rw [frame _ (by omega), NativeArray.cell_set_of_ne _ _ (by omega)]
      rfl
    · rw [frame _ (by omega), NativeArray.cell_set, if_pos (by omega)]
  split
  · rename_i room
    refine (returns_shiftUp lt (by omega) (by omega)).bind fun s ⟨hsize, zero, value⟩ => ?_
    rw [← headValue, ← magnitude] at value
    rw [Returns.bind_iff, NativeArray.returns_put]
    refine ⟨by omega, Returns.pure_iff.mpr ⟨holds_of_shifted_head (n := n) (w := w) hm.isCapacity
      (hsize.trans size) (by dsimp only; omega) rfl (by dsimp only; omega) ?_ ?_
      (by rw [NativeArray.cell_set, if_pos (by omega)]) nonzero, rfl⟩⟩
    · refine (wordValue_congr fun t ht => ?_).trans zero
      exact NativeArray.cell_set_of_ne _ _ (by omega)
    · rw [← value]
      exact congrArg (· + _)
        (wordValue_congr fun t ht => NativeArray.cell_set_of_ne _ _ (by omega))
  · refine (returns_shiftDown lt (fun _ => ⟨rfl, by omega⟩) range.1 (by omega) (by omega)
      (by omega)).bind fun s ⟨hsize, frame, value⟩ => ?_
    rw [← headValue, ← magnitude] at value
    rw [Returns.bind_iff, NativeArray.returns_put]
    refine ⟨by omega, (returns_zeroDown (by rw [NativeArray.size_set]; omega)).bind
      fun s' ⟨hsize', kept, zero⟩ => Returns.pure_iff.mpr ⟨holds_of_shifted_head (n := n) (w := w)
        hm.isCapacity (hsize'.trans (hsize.trans size)) (by dsimp only; omega) rfl
        (by dsimp only; omega) zero ?_ ?_ nonzero, rfl⟩⟩
    · rw [← value]
      refine congrArg (· + _) (wordValue_congr fun t ht => ?_)
      rw [kept _ (by omega), NativeArray.cell_set_of_ne _ _ (by omega)]
    · rw [kept _ (by omega), NativeArray.cell_set, if_pos (by omega)]

theorem returns_shiftLeft (hm : Valid m) (n : ℕ) :
    Returns (m.shiftLeft n) fun r => Holds r (m.value * 2 ^ n) ∧
      (m.integerLength ≠ 0 → n % 32 ≠ 0 → r.offset = 0) := by
  have nonneg := hm.length_nonneg
  have value : m.value * 2 ^ n =
      signed m.negative (wordBase ^ (n / 32) * (2 ^ (n % 32) * m.magnitude)) := by
    rw [value_eq_signed, two_pow_eq]
    cases m.negative
    · simp only [signed_false]
      ring
    · simp only [signed_true]
      ring
  rw [value, shiftLeft]
  split
  · rename_i positive
    obtain ⟨k, length⟩ := hm.length_eq_succ (by omega)
    have range := hm.offset_range (by omega)
    have size := hm.size_eq
    dsimp only
    split
    · rename_i whole
      rw [whole, pow_zero, one_mul]
      exact (returns_shiftLeftWords hm (by omega) _).mono fun r holds =>
        ⟨holds, fun _ nonzero => absurd rfl nonzero⟩
    · have lt : n % 32 < 32 := Nat.mod_lt _ (by norm_num)
      rw [show m.offset + m.integerLength - 1 = m.offset + k by omega, Returns.bind_iff,
        NativeArray.returns_item]
      refine ⟨by omega, ?_⟩
      have head := @unsigned_head (n % 32) (m.storage.cell (m.offset + k))
      split
      · rename_i zero
        rw [zero, unsigned_zero] at head
        exact (returns_shiftLeftBits hm lt length _ head.symm).mono
          fun r ⟨holds, offset⟩ => ⟨holds, fun _ _ => offset⟩
      · rename_i nonzero
        exact (returns_shiftLeftBitsHead hm lt length _ head nonzero).mono
          fun r ⟨holds, offset⟩ => ⟨holds, fun _ _ => offset⟩
  · have zero : m.integerLength = 0 := by omega
    refine Returns.pure_iff.mpr ⟨{ hm with value_eq := ?_ }, fun nonzero => absurd zero nonzero⟩
    rw [value_of_zero zero, magnitude_of_zero zero, mul_zero, mul_zero]
    cases m.negative <;> rfl

end ShiftLeft

/-! ## shift_right -/

section ShiftRight

variable {m : MutableBigInteger}

theorem shiftWord_right {n : ℕ} (lt : n < 32) (a b : Word) :
    b >>> n ||| a <<< (32 - n) = shiftWord (32 - n) a b := by
  rw [shiftWord, BitVec.or_comm, show 32 - (32 - n) = n by omega]

/-- What `b` still owes, and the next word `a`. -/
theorem shiftWord_next {n : ℕ} (pos : 0 < n) (lt : n < 32) (a b : Word) :
    unsigned (b >>> n ||| a <<< (32 - n)) + wordBase * (unsigned a / 2 ^ n) =
      2 ^ (32 - n) * unsigned a + unsigned b / 2 ^ n := by
  have up := @shiftWord_up (32 - n) (by omega) a b
  rwa [← shiftWord_right lt, show 32 - (32 - n) = n by omega] at up

/-- Dropping the lowest words divides by their weight. -/
theorem wordValue_drop (s : NativeArray Word) (o : Int) (k n : ℕ) :
    wordValue s o (k + n) / wordBase ^ k = wordValue s (o + k) n := by
  rw [wordValue_add, Int.add_mul_ediv_left _ _ (wordBase_pow_pos k).ne',
    Int.ediv_eq_zero_of_lt (wordValue_nonneg s o k) (wordValue_lt s o k), zero_add]

theorem returns_primitiveShiftRight {n : ℕ} (pos : 0 < n) (lt : n < 32) {k : ℕ}
    (length : m.integerLength = k + 1) (low : 0 ≤ m.offset)
    (high : m.offset + (k + 1) ≤ m.storage.size)
    (top : m.storage.cell (m.offset + k) ≠ 0) :
    Returns (m.primitiveShiftRight n) fun r => r.capacity = m.capacity ∧
      r.storage.size = m.storage.size ∧ r.negative = m.negative ∧ r.offset = 0 ∧
      (m.magnitude / 2 ^ n = 0 → r.integerLength = 0) ∧
      (m.magnitude / 2 ^ n ≠ 0 →
        Exact r (signed m.negative (m.magnitude / 2 ^ n))) := by
  have magnitude := magnitude_eq (m := m) (n := k + 1) length
  have least := pow_le_wordValue top
  have powers : (2 : ℤ) ^ n * 2 ^ (32 - n) = wordBase := by
    rw [← pow_add, show n + (32 - n) = 32 by omega]
    rfl
  rw [primitiveShiftRight, Returns.bind_iff, NativeArray.returns_item]
  refine ⟨by omega, (Cursor.returns_upLoop 1 (fun v => unsigned v / 2 ^ n)
    (fun t => 2 ^ (32 - n) * words m.storage (m.offset + 1) t) k le_rfl (by dsimp only; omega)
    (Q := fun c => Cursor.Risen 1 (fun v => unsigned v / 2 ^ n)
      (fun t => 2 ^ (32 - n) * words m.storage (m.offset + 1) t)
      ⟨m.storage, m.offset, 0, 0, m.storage.cell m.offset⟩ k c)
    fun t c le risen => ?_).bind fun c risen => ?_⟩
  · have hi := risen.i_eq
    have hk := risen.k_eq
    have hsize := risen.size_eq
    dsimp only at hi hk hsize
    split
    · rename_i stopped
      rw [decide_eq_true_eq] at stopped
      obtain rfl : t = k := by omega
      exact risen
    · rename_i going
      rw [decide_eq_true_eq] at going
      rw [Returns.bind_iff, NativeArray.returns_item, risen.frame _ (by dsimp only; omega),
        Returns.pure_iff, one_mul,
        show c.i + 1 = m.offset + 1 + t by omega]
      exact ⟨by omega, by omega, shiftWord_next pos lt _ _⟩
  · have hk := risen.k_eq
    have hsize := risen.size_eq
    have eq := risen.value_eq
    dsimp only at hk hsize eq
    have digits : Positional.value wordBase
        (fun t => 2 ^ (32 - n) * words m.storage (m.offset + 1) t) k =
        2 ^ (32 - n) * wordValue m.storage (m.offset + 1) k := by
      rw [wordValue, Positional.value, Positional.value, Finset.mul_sum]
      exact Finset.sum_congr rfl fun t _ => mul_assoc _ _ _
    have value : wordValue (c.storage.set (c.carry >>> n) (m.integerLength - 1)) 0 (k + 1) =
        m.magnitude / 2 ^ n := by
      have below : wordValue (c.storage.set (c.carry >>> n) (m.integerLength - 1)) 0 k =
          wordValue c.storage 0 k :=
        wordValue_congr fun u hu => NativeArray.cell_set_of_ne _ _ (by omega)
      have word : unsigned (c.carry >>> n) = unsigned c.carry / 2 ^ n := by
        have := @unsigned_head (32 - n) c.carry
        rwa [show 32 - (32 - n) = n by omega] at this
      have quotient : m.magnitude / 2 ^ n = unsigned (m.storage.cell m.offset) / 2 ^ n +
          2 ^ (32 - n) * wordValue m.storage (m.offset + 1) k := by
        rw [magnitude, wordValue_succ', ← powers, mul_assoc,
          Int.add_mul_ediv_left _ _ (by positivity)]
      rw [digits] at eq
      rw [wordValue_succ, below, NativeArray.cell_set, if_pos (by omega), word, quotient]
      linear_combination eq
    rw [Returns.bind_iff, NativeArray.returns_put]
    refine ⟨by omega, ?_⟩
    rw [Returns.bind_iff, NativeArray.returns_item, NativeArray.size_set]
    refine ⟨by omega, ?_⟩
    have index : m.integerLength - 1 = 0 + (k : Int) := by omega
    split
    · rename_i zero
      rw [wordValue_succ, ← index, zero, unsigned_zero, zero_mul, add_zero] at value
      cases k with
      | zero =>
        exact Returns.pure_iff.mpr
          ⟨rfl, hsize, rfl, rfl, fun _ => by dsimp only; omega,
            fun some => absurd value.symm some⟩
      | succ k =>
        have le : wordBase ^ k ≤ m.magnitude / 2 ^ n := by
          rw [Int.le_ediv_iff_mul_le (by positivity), magnitude]
          refine le_trans ?_ least
          rw [pow_succ]
          refine mul_le_mul_of_nonneg_left ?_ (wordBase_pow_pos k).le
          rw [← powers]
          exact le_mul_of_one_le_right (by positivity) (one_le_pow₀ (by norm_num))
        have := wordBase_pow_pos k
        refine Returns.pure_iff.mpr
          ⟨rfl, hsize, rfl, rfl, fun none => by omega, fun _ => ?_⟩
        exact (exact_iff (r := { m with storage := _, offset := 0, integerLength := _ })
          (n := k) (by dsimp only; omega) le_rfl
          (by dsimp only [NativeArray.size_set]; omega)).mpr ⟨value, le⟩
    · rename_i nonzero
      rw [index] at nonzero
      have le := pow_le_wordValue nonzero
      rw [← index, value] at le
      have := wordBase_pow_pos k
      refine Returns.pure_iff.mpr
        ⟨rfl, hsize, rfl, rfl, fun none => by omega, fun _ => ?_⟩
      exact (exact_iff (r := { m with storage := _, offset := 0 }) length le_rfl
        (by dsimp only [NativeArray.size_set]; omega)).mpr ⟨value, le⟩

theorem holds_zero {r : MutableBigInteger} (isCapacity : IsCapacity r.capacity)
    (size_eq : r.storage.size = r.capacity) (zero : r.integerLength = 0)
    (negative : r.negative = false) : Holds r 0 where
  top_ne_zero nonzero := absurd zero nonzero
  not_negative _ := negative
  isCapacity := isCapacity
  size_eq := size_eq
  length_nonneg := by omega
  length_le := by have := isCapacity.four_le; omega
  offset_range nonzero := absurd zero nonzero
  value_eq := value_of_zero zero

/-- A shift that leaves nothing must not drop more words than there are, and loses the
sign. -/
def ShiftRightExact (m : MutableBigInteger) (n : ℕ) : Prop :=
  m.integerLength ≠ 0 → m.magnitude / 2 ^ n = 0 →
    m.negative = false ∧ ((n / 32 : ℕ) < m.integerLength ∨ (n : Int) = 32 * m.integerLength)

theorem returns_shiftRight (hm : Valid m) (n : ℕ) (right : ShiftRightExact m n) :
    Returns (m.shiftRight n) fun r =>
      Holds r (signed m.negative (m.magnitude / 2 ^ n)) ∧ r.capacity = m.capacity ∧
        (n % 32 ≠ 0 → (m.integerLength = 0 → m.offset = 0) → r.offset = 0) := by
  have nonneg := hm.length_nonneg
  rw [shiftRight]
  split
  swap
  · have zero : m.integerLength = 0 := by omega
    rw [magnitude_of_zero zero, Int.zero_ediv, hm.not_negative zero, signed_false]
    exact Returns.some_iff.mpr
      ⟨{ hm with value_eq := value_of_zero zero }, rfl, fun _ origin => origin zero⟩
  obtain ⟨n', length⟩ := hm.length_eq
  have range := hm.offset_range (by omega)
  have size := hm.size_eq
  have nonzero : m.integerLength ≠ 0 := by omega
  dsimp only
  by_cases some : ((n / 32 : ℕ) : Int) < m.integerLength
  · obtain ⟨k, rfl⟩ : ∃ k, n' = n / 32 + (k + 1) :=
      Nat.exists_eq_add_of_lt (by omega : n / 32 < n')
    have length' : (m.dropWords (n / 32)).integerLength = k + 1 := by
      simp only [dropWords]
      omega
    have top : m.storage.cell (m.offset + (n / 32 : ℕ) + k) ≠ 0 := by
      have := hm.top_ne_zero nonzero
      rwa [show m.offset + m.integerLength - 1 = m.offset + (n / 32 : ℕ) + k by omega] at this
    have words : (m.dropWords (n / 32)).magnitude = m.magnitude / wordBase ^ (n / 32) := by
      rw [magnitude_eq (n := k + 1) length', magnitude_eq length, wordValue_drop]
      rfl
    have quotient : m.magnitude / 2 ^ n =
        (m.dropWords (n / 32)).magnitude / 2 ^ (n % 32) := by
      rw [words, two_pow_eq, Int.ediv_ediv_of_nonneg (wordBase_pow_pos _).le]
    rw [quotient]
    split
    · rename_i whole
      rw [whole, pow_zero, Int.ediv_one]
      refine Returns.some_iff.mpr ⟨(Valid.of_top (r := m.dropWords (n / 32)) k hm.isCapacity
        hm.size_eq length' ?_ ?_ top).holds (n := k + 1) length' ?_, rfl,
        fun bits _ => absurd rfl bits⟩
      · simp only [dropWords]
        omega
      · simp only [dropWords]
        omega
      · rw [magnitude_eq (n := k + 1) length']
        rfl
    · have lt : n % 32 < 32 := Nat.mod_lt _ (by norm_num)
      refine (returns_primitiveShiftRight (by omega) lt length' ?_ ?_ top).mono ?_
      · simp only [dropWords]
        omega
      · simp only [dropWords]
        omega
      · rintro r ⟨capacity, hsize, negative, offset, none, some⟩
        rw [← quotient] at none some ⊢
        refine ⟨?_, capacity, fun _ _ => offset⟩
        by_cases zero : m.magnitude / 2 ^ n = 0
        · rw [zero, (right nonzero zero).1, signed_false]
          exact holds_zero (capacity ▸ hm.isCapacity) (by rw [hsize, capacity]; exact size)
            (none zero) (negative.trans (right nonzero zero).1)
        · exact (some zero).holds (capacity ▸ hm.isCapacity)
            (by rw [hsize, capacity]; exact size)
  · have zero : m.magnitude / 2 ^ n = 0 := by
      refine Int.ediv_eq_zero_of_lt m.magnitude_nonneg ?_
      have lt := magnitude_lt length
      have le : wordBase ^ n' ≤ wordBase ^ (n / 32) :=
        pow_le_pow_right₀ wordBase_pos (by omega)
      have one : (1 : ℤ) ≤ 2 ^ (n % 32) := one_le_pow₀ (by norm_num)
      rw [two_pow_eq]
      have := le_mul_of_one_le_right (wordBase_pow_pos (n / 32)).le one
      omega
    obtain ⟨negative, exact⟩ := right nonzero zero
    rw [zero, negative, signed_false, if_pos (by omega), Returns.some_iff]
    refine ⟨holds_zero hm.isCapacity hm.size_eq ?_ negative, rfl, fun bits _ => by omega⟩
    simp only [dropWords]
    omega

end ShiftRight

end MutableBigInteger

end Liberty
