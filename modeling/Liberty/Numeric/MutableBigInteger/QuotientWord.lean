import Liberty.Library.QuotientDigit
import Liberty.Numeric.MutableBigInteger.Shift

/-!
# One word of a quotient

The estimate of a quotient word from the leading words, its product by the divisor
subtracted from the words of the dividend, and the divisor added back when the estimate
was too large.
-/

namespace Liberty

namespace MutableBigInteger

/-! ## The source -/

/-- The last test on `qhat`, by the word of the dividend at `j`. -/
def testThirdWord (s : NativeArray Word) (j : Int) (qhat rhat v2qhat1 v2qhat2 : Word) :
    Option Word :=
  if j < 0 then
    some (if v2qhat1 = rhat ∧ v2qhat2 ≠ 0 then qhat - 1 else qhat)
  else if v2qhat1 = rhat then do
    return if unsignedGreaterThan v2qhat2 (← s.item j) then qhat - 1 else qhat
  else
    some qhat

/-- D3: calculate `qhat`. -/
def estimateQhat (s : NativeArray Word) (j : Int) (u1 u2 v1 v2 : Word) : Option Word :=
  if u1 = v1 then
    some (~~~0)
  else do
    let (rhat, qhat) ← mbiDivide u1 u2 v1
    if qhat = 0 then
      return qhat
    else
      let (v2qhat2, v2qhat1) := mbiMultiply v2 qhat
      if unsignedGreaterThan v2qhat1 rhat then
        let qhat := qhat - 1
        let (v2qhat2, borrow) := mbiSubtract v2qhat2 v2
        let v2qhat1 := if borrow then v2qhat1 - 1 else v2qhat1
        let (rhat, overflow) := mbiAdd rhat v1
        if overflow then
          return qhat
        else if unsignedGreaterThan v2qhat1 rhat then
          return qhat - 1
        else
          testThirdWord s j qhat rhat v2qhat1 v2qhat2
      else
        testThirdWord s j qhat rhat v2qhat1 v2qhat2

/-- The loop that puts in each word of the remainder a combination of it with a word of
the divisor. -/
def windowLoop {γ : Type} (step : γ → Word → Word → Word × γ) (init : γ)
    (d : NativeArray Word) (dOffset : Int) (r : NativeArray Word) (rOffset length : Int) :
    Option (Cursor γ) :=
  let jmax := rOffset + length
  Cursor.upLoop (fun c => decide (c.k = jmax))
    (fun c => do return step c.carry (← c.storage.item c.k) (← d.item c.i))
    ⟨r, dOffset, 0, rOffset, init⟩

/-- The product of `y` by `qhat`, with the carry `m1`, is subtracted from `x`. -/
def multiplySubtractStep (qhat : Word) (carry : Word × Bool) (x y : Word) :
    Word × Word × Bool :=
  let (m2, m1) := mbiMultiplyWithAdd qhat y carry.1
  let (word, dec) := subtractStep carry.2 x m2
  (word, m1, dec)

/-- What the carries do to the word above the window, which is not there when `u1` is
zero. -/
def subtractLast (u1 m1 : Word) (dec : Bool) (r : NativeArray Word) (j : Int) :
    Option (NativeArray Word × Bool) :=
  if dec then
    if u1 = 0 then
      some (r, true)
    else do
      let (word, result) := mbiSubtractWithDec (← r.item j) m1
      return (← r.put word j, result)
  else if m1 = 0 then
    some (r, false)
  else if u1 = 0 then
    some (r, true)
  else do
    let (word, result) := mbiSubtract (← r.item j) m1
    return (← r.put word j, result)

/-- The same when `qhat` is 1 and there is no carry but the borrow. -/
def decrementLast (u1 : Word) (dec : Bool) (r : NativeArray Word) (j : Int) :
    Option (NativeArray Word × Bool) :=
  if dec then
    if u1 = 0 then
      some (r, true)
    else do
      let (word, result) := mbiDec (← r.item j)
      return (← r.put word j, result)
  else
    some (r, false)

/-- D4: `multiply_and_subtract`. -/
def multiplyAndSubtract (u1 qhat : Word) (d : NativeArray Word) (dOffset : Int)
    (r : NativeArray Word) (rOffset length : Int) : Option (NativeArray Word × Bool) :=
  if qhat = 1 then do
    let c ← windowLoop subtractStep false d dOffset r rOffset length
    decrementLast u1 c.carry c.storage c.k
  else do
    let c ← windowLoop (multiplySubtractStep qhat) (0, false) d dOffset r rOffset length
    subtractLast u1 c.carry.1 c.carry.2 c.storage c.k

/-- D6: `add_back`. -/
def addBack (oldU1 : Word) (d : NativeArray Word) (dOffset : Int) (r : NativeArray Word)
    (rOffset length : Int) : Option (NativeArray Word × Bool) := do
  let c ← windowLoop addStep false d dOffset r rOffset length
  if c.carry then
    if oldU1 = 0 then
      return (c.storage, true)
    else
      let (word, result) := mbiInc (← c.storage.item c.k)
      return (← c.storage.put word c.k, result)
  else
    return (c.storage, false)

/-- D4 to D6: the quotient word, and the storage of the remainder. -/
def subtractQhat (d : NativeArray Word) (dOffset dlen : Int) (u1 qhat : Word)
    (r : NativeArray Word) (rOffset : Int) : Option (Word × NativeArray Word) :=
  if qhat = 0 then
    some (0, r)
  else do
    let (r, borrow) ← multiplyAndSubtract u1 qhat d dOffset r rOffset dlen
    if borrow then
      let (r, _) ← addBack u1 d dOffset r rOffset dlen
      return (qhat - 1, r)
    else
      return (qhat, r)

/-! ## The estimate -/

open LongDivision

theorem unsigned_pred {w : Word} (nonzero : w ≠ 0) : unsigned (w - 1) = unsigned w - 1 := by
  have spec := mbiDec_spec w
  simp only [mbiDec, beq_eq_false_iff_ne.mpr nonzero, bit_false] at spec
  omega

section Estimate

variable {s : NativeArray Word} {j : Int} {u1 u2 v1 v2 : Word} {W d u : ℤ}

theorem returns_testThirdWord (inside : 0 ≤ j ∧ j < s.size)
    {qhat rhat v2qhat1 v2qhat2 : Word} {Q : Word → Prop}
    (le : unsigned v2qhat1 ≤ unsigned rhat)
    (larger : unsigned rhat * wordBase + unsigned (s.cell j) <
      unsigned v2qhat2 + wordBase * unsigned v2qhat1 → Q (qhat - 1))
    (smaller : unsigned v2qhat2 + wordBase * unsigned v2qhat1 ≤
      unsigned rhat * wordBase + unsigned (s.cell j) → Q qhat) :
    Returns (testThirdWord s j qhat rhat v2qhat1 v2qhat2) Q := by
  have low := unsigned_nonneg (s.cell j)
  have high := unsigned_lt v2qhat2
  rw [testThirdWord, if_neg (by omega)]
  split
  · rename_i equal
    rw [Returns.bind_iff, NativeArray.returns_item]
    refine ⟨inside, Returns.pure_iff.mpr ?_⟩
    split
    · rename_i greater
      rw [unsignedGreaterThan_iff] at greater
      exact larger (by rw [equal, mul_comm]; omega)
    · rename_i notGreater
      rw [unsignedGreaterThan_iff] at notGreater
      exact smaller (by rw [equal, mul_comm]; omega)
  · rename_i differ
    have lt : unsigned v2qhat1 < unsigned rhat :=
      lt_of_le_of_ne le fun eq => differ (unsigned_inj.mp eq)
    refine Returns.some_iff.mpr (smaller ?_)
    unfold wordBase at high ⊢
    omega

theorem returns_estimateQhat (inside : 0 ≤ j ∧ j < s.size)
    (h : Leading wordBase W (unsigned v1) (unsigned v2) (unsigned u1) (unsigned u2)
      (unsigned (s.cell j)) d u) (lt : u < wordBase * d) :
    Returns (estimateQhat s j u1 u2 v1 v2) fun q => Close u d (unsigned q) := by
  have positive := h.divisor_pos
  have first := h.first_le lt
  rw [estimateQhat]
  split
  · rename_i equal
    exact Returns.some_iff.mpr (h.close_of_eq (congrArg unsigned equal) (by decide) lt)
  rename_i differ
  have less : unsigned u1 < unsigned v1 :=
    lt_of_le_of_ne first fun eq => differ (unsigned_inj.mp eq)
  obtain ⟨rhat, qhat, run, eq, rest⟩ := mbiDivide_spec less
  rw [run, Returns.some_bind]
  have nonneg := unsigned_nonneg qhat
  have digit := unsigned_lt qhat
  have rest_nonneg := unsigned_nonneg rhat
  have upper : u < (unsigned qhat + 1) * d :=
    h.lt_of_first (by omega) (by rw [add_mul, one_mul]; omega)
  have lower : (unsigned qhat - 1 - 1) * d ≤ u := by
    by_cases two : 2 ≤ unsigned qhat
    · exact h.pred_pred_mul_le two digit.le (by omega)
    · refine le_trans ?_ h.dividend_nonneg
      exact mul_nonpos_of_nonpos_of_nonneg (by omega) positive.le
  dsimp only
  split
  · rename_i zero
    refine Returns.pure_iff.mpr ⟨?_, upper⟩
    rw [zero, unsigned_zero]
    exact le_trans (by omega) h.dividend_nonneg
  rename_i nonzero
  have qhat_pos := unsigned_pos nonzero
  have pred := unsigned_pred nonzero
  have third_lt := unsigned_lt (s.cell j)
  have product := mbiMultiply_spec v2 qhat
  generalize mbiMultiply v2 qhat = p at product
  obtain ⟨v2qhat2, v2qhat1⟩ := p
  -- what a failed test by two digits says of the estimate and of its predecessor
  have close : u < unsigned qhat * d → Close u d (unsigned (qhat - 1)) := by
    intro lt
    rw [pred]
    exact ⟨lower, by rwa [sub_add_cancel]⟩
  have tooLarge : unsigned rhat * wordBase + unsigned (s.cell j) <
      unsigned v2qhat2 + wordBase * unsigned v2qhat1 → u < unsigned qhat * d := by
    intro second
    refine h.lt_of_second nonneg ?_
    rw [eq, mul_add]
    linarith
  dsimp only at product ⊢
  split
  · rename_i greater
    rw [unsignedGreaterThan_iff] at greater
    have low := unsigned_nonneg v2qhat2
    have closePred := close (tooLarge (by unfold wordBase at *; omega))
    have difference := subtractStep_spec false v2qhat2 v2
    have sum := addStep_spec false rhat v1
    simp only [subtractStep, addStep, Bool.false_eq_true, if_false, bit_false, add_zero]
      at difference sum
    generalize mbiSubtract v2qhat2 v2 = p at difference
    obtain ⟨v2qhat2', borrow⟩ := p
    generalize mbiAdd rhat v1 = p at sum
    obtain ⟨rhat', overflow⟩ := p
    dsimp only at difference sum ⊢
    -- the test by two digits, for the predecessor
    have high : unsigned (if borrow = true then v2qhat1 - 1 else v2qhat1) =
        unsigned v2qhat1 - bit borrow := by
      cases borrow
      · simp
      · have nonzero : v2qhat1 ≠ 0 := fun zero => by
          rw [zero, unsigned_zero] at greater
          omega
        rw [if_pos rfl, unsigned_pred nonzero, bit_true]
    generalize (if borrow = true then v2qhat1 - 1 else v2qhat1) = v2qhat1' at high
    split
    · exact Returns.pure_iff.mpr closePred
    rename_i carry
    rw [Bool.not_eq_true] at carry
    rw [carry, bit_false, mul_zero, add_zero] at sum
    have product' : unsigned v2qhat2' + wordBase * unsigned v2qhat1' =
        unsigned v2 * (unsigned qhat - 1) := by
      rw [high, mul_sub, mul_sub, mul_one, ← product]
      linarith
    have closePred' : unsigned rhat' * wordBase + unsigned (s.cell j) <
        unsigned v2qhat2' + wordBase * unsigned v2qhat1' →
          Close u d (unsigned (qhat - 1 - 1)) := by
      intro second
      have lt' : u < (unsigned qhat - 1) * d := by
        refine h.lt_of_second (by omega) ?_
        rw [sum] at second
        rw [eq]
        linarith
      have twice : qhat - 1 ≠ 0 := fun zero => by
        rw [← pred, zero, unsigned_zero, zero_mul] at lt'
        have := h.dividend_nonneg
        omega
      rw [unsigned_pred twice]
      exact closePred.pred positive (pred ▸ lt')
    split
    · rename_i greater'
      rw [unsignedGreaterThan_iff] at greater'
      have low' := unsigned_nonneg v2qhat2'
      exact Returns.pure_iff.mpr (closePred' (by unfold wordBase at *; omega))
    · rename_i notGreater'
      rw [unsignedGreaterThan_iff, not_lt] at notGreater'
      exact returns_testThirdWord inside notGreater' closePred' fun _ => closePred
  · rename_i notGreater
    rw [unsignedGreaterThan_iff, not_lt] at notGreater
    refine returns_testThirdWord inside notGreater (fun larger => close (tooLarge larger))
      fun smaller => ⟨h.pred_mul_le qhat_pos digit.le ?_, upper⟩
    rw [eq, mul_add]
    linarith

end Estimate

/-! ## Multiply and subtract -/

section Window

variable {d r : NativeArray Word} {dOffset rOffset : Int} {n : ℕ} {u1 : Word}

/-- The words that a round reads and writes: `n` words of the divisor, `n` words of the
remainder, and the word above these when the word `u1` that is taken for it is not zero. -/
structure Window (u1 : Word) (d : NativeArray Word) (dOffset : Int) (r : NativeArray Word)
    (rOffset : Int) (n : ℕ) : Prop where
  dLow : 0 ≤ dOffset
  dHigh : dOffset + n ≤ d.size
  rLow : 0 ≤ rOffset
  rHigh : rOffset + n ≤ r.size
  top : u1 ≠ 0 → rOffset + n < r.size

/-- A storage that is another one outside a window. -/
structure Framed (r : NativeArray Word) (rOffset : Int) (n : ℕ) (s : NativeArray Word) :
    Prop where
  size_eq : s.size = r.size
  frame : ∀ x, x < rOffset ∨ rOffset + n ≤ x → s.cell x = r.cell x

theorem returns_windowLoop {γ : Type} {step : γ → Word → Word → Word × γ} (init : γ)
    (weight : γ → ℤ) (σ : ℤ) (w : Window u1 d dOffset r rOffset n)
    (spec : ∀ g x y, unsigned (step g x y).1 + wordBase * weight (step g x y).2 =
      unsigned x + σ * unsigned y + weight g) :
    Returns (windowLoop step init d dOffset r rOffset n) fun c =>
      c.k = rOffset + n ∧ Framed r rOffset n c.storage ∧
        wordValue c.storage rOffset n + wordBase ^ n * weight c.carry =
          wordValue r rOffset n + σ * wordValue d dOffset n + weight init := by
  obtain ⟨dLow, dHigh, rLow, rHigh, -⟩ := w
  refine Cursor.returns_upLoop 1 weight
    (fun t => words r rOffset t + σ * words d dOffset t) n rLow rHigh
    fun t c le risen => ?_
  have hi := risen.i_eq
  have hk := risen.k_eq
  have hsize := risen.size_eq
  dsimp only at hi hk hsize
  split
  · rename_i stopped
    rw [decide_eq_true_eq] at stopped
    obtain rfl : t = n := by omega
    have eq := risen.value_eq
    refine ⟨hk, ⟨hsize, risen.frame⟩, ?_⟩
    rw [Positional.value_add_mul, one_mul] at eq
    exact eq
  · rename_i going
    rw [decide_eq_true_eq] at going
    rw [Returns.bind_iff, NativeArray.returns_item, Returns.bind_iff, NativeArray.returns_item,
      Returns.pure_iff, one_mul, risen.frame _ (by dsimp only; omega), hk, hi]
    exact ⟨by omega, by omega, by omega, spec _ _ _⟩

/-- A borrow out of a window of weight `P`. -/
theorem borrow_of_bounds {P w v c : ℤ} (nonneg : 0 ≤ w) (lt : w < P) (low : -P ≤ v)
    (high : v < P) (eq : w = v + P * c) : (0 ≤ v → c = 0) ∧ (v < 0 → c = 1) := by
  constructor
  · intro _
    have upper : c < 1 := by
      by_contra ge
      nlinarith
    have lower : -1 < c := by
      by_contra le
      nlinarith
    omega
  · intro _
    have upper : c < 2 := by
      by_contra ge
      nlinarith
    have lower : 0 < c := by
      by_contra le
      nlinarith
    omega

/-- The word above the window tells the borrow. -/
theorem returns_subtractLast {m1 : Word} {dec : Bool} {s : NativeArray Word} {j c : ℤ}
    (top : u1 ≠ 0 → (0 ≤ j ∧ j < s.size) ∧ s.cell j = u1)
    (carry : unsigned m1 + bit dec = unsigned u1 + c) (borrow : c = 0 ∨ c = 1) :
    Returns (subtractLast u1 m1 dec s j) fun (s', b) =>
      s'.size = s.size ∧ (∀ x, x ≠ j → s'.cell x = s.cell x) ∧ bit b = c := by
  have nonneg := unsigned_nonneg m1
  rw [subtractLast]
  split
  · rename_i one
    rw [one, bit_true] at carry
    split
    · rename_i zero
      rw [zero, unsigned_zero] at carry
      exact Returns.some_iff.mpr ⟨rfl, fun _ _ => rfl, by rw [bit_true]; omega⟩
    · rename_i nonzero
      obtain ⟨inside, cell⟩ := top nonzero
      rw [Returns.bind_iff, NativeArray.returns_item, cell]
      have step := subtractStep_spec true u1 m1
      simp only [subtractStep, if_true, bit_true] at step
      generalize mbiSubtractWithDec u1 m1 = p at step
      obtain ⟨word, b⟩ := p
      have low := unsigned_nonneg word
      have high := unsigned_lt word
      dsimp only at step ⊢
      refine ⟨inside, ?_⟩
      rw [Returns.bind_iff, NativeArray.returns_put]
      refine ⟨inside, Returns.pure_iff.mpr
        ⟨rfl, fun x ne => NativeArray.cell_set_of_ne _ _ ne, ?_⟩⟩
      cases b
      · rw [bit_false] at step ⊢
        omega
      · rw [bit_true] at step ⊢
        omega
  rename_i zero
  rw [Bool.not_eq_true] at zero
  rw [zero, bit_false, add_zero] at carry
  have nonneg' := unsigned_nonneg u1
  split
  · rename_i none
    rw [none, unsigned_zero] at carry
    exact Returns.some_iff.mpr ⟨rfl, fun _ _ => rfl, by rw [bit_false]; omega⟩
  rename_i some
  have positive := unsigned_pos some
  split
  · rename_i zero
    rw [zero, unsigned_zero] at carry
    exact Returns.some_iff.mpr ⟨rfl, fun _ _ => rfl, by rw [bit_true]; omega⟩
  · rename_i nonzero
    obtain ⟨inside, cell⟩ := top nonzero
    rw [Returns.bind_iff, NativeArray.returns_item, cell]
    have step := subtractStep_spec false u1 m1
    simp only [subtractStep, Bool.false_eq_true, if_false, bit_false, add_zero] at step
    generalize mbiSubtract u1 m1 = p at step
    obtain ⟨word, b⟩ := p
    have low := unsigned_nonneg word
    have high := unsigned_lt word
    dsimp only at step ⊢
    refine ⟨inside, ?_⟩
    rw [Returns.bind_iff, NativeArray.returns_put]
    refine ⟨inside, Returns.pure_iff.mpr
      ⟨rfl, fun x ne => NativeArray.cell_set_of_ne _ _ ne, ?_⟩⟩
    cases b
    · rw [bit_false] at step ⊢
      omega
    · rw [bit_true] at step ⊢
      omega

theorem returns_decrementLast {dec : Bool} {s : NativeArray Word} {j c : ℤ}
    (top : u1 ≠ 0 → (0 ≤ j ∧ j < s.size) ∧ s.cell j = u1)
    (carry : bit dec = unsigned u1 + c) (borrow : c = 0 ∨ c = 1) :
    Returns (decrementLast u1 dec s j) fun (s', b) =>
      s'.size = s.size ∧ (∀ x, x ≠ j → s'.cell x = s.cell x) ∧ bit b = c := by
  have nonneg := unsigned_nonneg u1
  rw [decrementLast]
  split
  · rename_i one
    rw [one, bit_true] at carry
    split
    · rename_i zero
      rw [zero, unsigned_zero] at carry
      exact Returns.some_iff.mpr ⟨rfl, fun _ _ => rfl, by rw [bit_true]; omega⟩
    · rename_i nonzero
      have positive := unsigned_pos nonzero
      obtain ⟨inside, cell⟩ := top nonzero
      rw [Returns.bind_iff, NativeArray.returns_item, cell, mbiDec,
        beq_eq_false_iff_ne.mpr nonzero]
      rw [Returns.bind_iff, NativeArray.returns_put]
      exact ⟨inside, inside, Returns.pure_iff.mpr
        ⟨rfl, fun x ne => NativeArray.cell_set_of_ne _ _ ne, by rw [bit_false]; omega⟩⟩
  · rename_i zero
    rw [Bool.not_eq_true] at zero
    rw [zero, bit_false] at carry
    exact Returns.some_iff.mpr ⟨rfl, fun _ _ => rfl, by rw [bit_false]; omega⟩

theorem multiplySubtractStep_spec (qhat : Word) (g : Word × Bool) (x y : Word) :
    unsigned (multiplySubtractStep qhat g x y).1 +
        wordBase * -(unsigned (multiplySubtractStep qhat g x y).2.1 +
          bit (multiplySubtractStep qhat g x y).2.2) =
      unsigned x + -unsigned qhat * unsigned y + -(unsigned g.1 + bit g.2) := by
  have product := mbiMultiplyWithAdd_spec qhat y g.1
  have difference := subtractStep_spec g.2 x (mbiMultiplyWithAdd qhat y g.1).1
  simp only [multiplySubtractStep]
  linarith

/-- `multiply_and_subtract` leaves the difference, completed by the weight of the window
when it is negative. -/
theorem returns_multiplyAndSubtract (w : Window u1 d dOffset r rOffset n)
    (top : u1 ≠ 0 → r.cell (rOffset + n) = u1) {qhat : Word}
    (close : Close (wordValue r rOffset n + wordBase ^ n * unsigned u1)
      (wordValue d dOffset n) (unsigned qhat)) {v : ℤ}
    (difference : v = wordValue r rOffset n + wordBase ^ n * unsigned u1 -
      unsigned qhat * wordValue d dOffset n) :
    Returns (multiplyAndSubtract u1 qhat d dOffset r rOffset n) fun (s, b) =>
      s.size = r.size ∧ (∀ x, x < rOffset → s.cell x = r.cell x) ∧
        b = decide (v < 0) ∧ wordValue s rOffset n = v + wordBase ^ n * bit b := by
  have dlt := wordValue_lt d dOffset n
  have lower : -wordBase ^ n ≤ v := by
    have := close.le
    rw [sub_mul, one_mul] at this
    omega
  have upper : v < wordBase ^ n := by
    have := close.lt
    rw [add_mul, one_mul] at this
    omega
  -- the end of both branches: a carry `carry` goes out of the window
  have finish : ∀ {s : NativeArray Word} {carry : ℤ}
      {last : Option (NativeArray Word × Bool)}, Framed r rOffset n s →
      wordValue s rOffset n + wordBase ^ n * -carry =
        wordValue r rOffset n + -unsigned qhat * wordValue d dOffset n →
      (∀ c, carry = unsigned u1 + c → (c = 0 ∨ c = 1) →
        (u1 ≠ 0 → (0 ≤ rOffset + (n : Int) ∧ rOffset + n < s.size) ∧
          s.cell (rOffset + n) = u1) →
        Returns last fun (s', b) => s'.size = s.size ∧
          (∀ x, x ≠ rOffset + n → s'.cell x = s.cell x) ∧ bit b = c) →
      Returns last fun (s', b) => s'.size = r.size ∧
        (∀ x, x < rOffset → s'.cell x = r.cell x) ∧ b = decide (v < 0) ∧
        wordValue s' rOffset n = v + wordBase ^ n * bit b := by
    intro s carry last framed eq run
    obtain ⟨nonnegative, negative⟩ := borrow_of_bounds (wordValue_nonneg s rOffset n)
      (wordValue_lt s rOffset n) lower upper (c := carry - unsigned u1) (by
        rw [difference]
        linear_combination eq)
    have borrow : carry - unsigned u1 = bit (decide (v < 0)) := by
      by_cases neg : v < 0
      · rw [negative neg, decide_eq_true neg, bit_true]
      · rw [nonnegative (not_lt.mp neg), decide_eq_false neg, bit_false]
    refine (run (carry - unsigned u1) (by omega) ?_ fun nonzero => ?_).mono ?_
    · rw [borrow]
      cases decide (v < 0) <;> simp
    · have inside := w.top nonzero
      have := w.rLow
      rw [framed.size_eq, framed.frame _ (by omega)]
      exact ⟨by omega, top nonzero⟩
    · rintro ⟨s', b⟩ ⟨size, frame, out⟩
      have same : b = decide (v < 0) := by
        rw [borrow] at out
        revert out
        cases b <;> cases decide (v < 0) <;> simp
      refine ⟨size.trans framed.size_eq, fun x below => ?_, same, ?_⟩
      · rw [frame x (by omega), framed.frame x (by omega)]
      · rw [wordValue_congr fun t ht => frame _ (by omega), out, difference]
        linear_combination eq
  rw [multiplyAndSubtract]
  split
  · rename_i one
    refine (returns_windowLoop false (fun b => -1 * bit b) (-1) w
      subtractStep_spec').bind fun c ⟨hk, framed, eq⟩ => ?_
    rw [hk]
    refine finish framed ?_ fun k carry borrow top =>
      returns_decrementLast top carry borrow
    rw [one, unsigned_one]
    rw [bit_false] at eq
    linarith
  · refine (returns_windowLoop (0, false) (fun g => -(unsigned g.1 + bit g.2))
      (-unsigned qhat) w (multiplySubtractStep_spec qhat)).bind fun c ⟨hk, framed, eq⟩ => ?_
    rw [hk]
    refine finish framed ?_
      fun k carry borrow top => returns_subtractLast top carry borrow
    rw [unsigned_zero, bit_false, add_zero, neg_zero, add_zero] at eq
    exact eq

/-- `add_back` repairs a negative difference. -/
theorem returns_addBack (w : Window u1 d dOffset r rOffset n) {v : ℤ}
    (negative : wordValue r rOffset n = v + wordBase ^ n)
    (range : 0 ≤ v + wordValue d dOffset n ∧ v + wordValue d dOffset n < wordBase ^ n) :
    Returns (addBack u1 d dOffset r rOffset n) fun (s, _) =>
      s.size = r.size ∧ (∀ x, x < rOffset → s.cell x = r.cell x) ∧
        wordValue s rOffset n = v + wordValue d dOffset n := by
  have low := w.rLow
  refine (returns_windowLoop false (fun b => 1 * bit b) 1 w addStep_spec').bind
    fun c ⟨hk, framed, eq⟩ => ?_
  simp only [one_mul, bit_false, add_zero, negative] at eq
  have lt := wordValue_lt c.storage rOffset n
  have one : bit c.carry = 1 := by
    cases carry : c.carry
    · rw [carry, bit_false] at eq
      omega
    · rfl
  have value : wordValue c.storage rOffset n = v + wordValue d dOffset n := by
    rw [one] at eq
    linarith
  split
  · split
    · exact Returns.pure_iff.mpr
        ⟨framed.size_eq, fun x below => framed.frame x (.inl below), value⟩
    · rename_i nonzero
      have inside := w.top nonzero
      have size := framed.size_eq
      rw [hk, Returns.bind_iff, NativeArray.returns_item]
      refine ⟨by omega, ?_⟩
      rw [Returns.bind_iff, NativeArray.returns_put]
      refine ⟨by omega, Returns.pure_iff.mpr ⟨size, fun x below => ?_, ?_⟩⟩
      · rw [NativeArray.cell_set_of_ne _ _ (by omega), framed.frame x (.inl below)]
      · rw [← value]
        exact wordValue_congr fun t ht => NativeArray.cell_set_of_ne _ _ (by omega)
  · rename_i none
    rw [Bool.not_eq_true] at none
    rw [none, bit_false] at one
    omega

/-- The quotient word and what remains of the window. -/
theorem returns_subtractQhat (w : Window u1 d dOffset r rOffset n)
    (top : u1 ≠ 0 → r.cell (rOffset + n) = u1) {qhat : Word} {u : ℤ}
    (value : u = wordValue r rOffset n + wordBase ^ n * unsigned u1)
    (close : Close u (wordValue d dOffset n) (unsigned qhat)) :
    Returns (subtractQhat d dOffset n u1 qhat r rOffset) fun (word, s) =>
      s.size = r.size ∧ (∀ x, x < rOffset → s.cell x = r.cell x) ∧
        u = unsigned word * wordValue d dOffset n + wordValue s rOffset n ∧
        wordValue s rOffset n < wordValue d dOffset n := by
  have dlt := wordValue_lt d dOffset n
  have nonneg := wordValue_nonneg r rOffset n
  have nonneg' := unsigned_nonneg u1
  have power := wordBase_pow_pos n
  obtain ⟨exact, repaired⟩ := close.remainder_range
  rw [subtractQhat]
  split
  · rename_i zero
    have lt := close.lt
    rw [zero, unsigned_zero, zero_add, one_mul] at lt
    have none : unsigned u1 = 0 := by nlinarith
    rw [none, mul_zero, add_zero] at value
    refine Returns.some_iff.mpr ⟨rfl, fun _ _ => rfl, ?_, by omega⟩
    rw [unsigned_zero, zero_mul, zero_add, value]
  rename_i nonzero
  subst value
  refine (returns_multiplyAndSubtract w top close rfl).bind ?_
  rintro ⟨s, b⟩ ⟨size, frame, borrow, value⟩
  dsimp only
  split
  · rename_i negative
    rw [borrow, decide_eq_true_eq] at negative
    obtain ⟨low, high⟩ := repaired (by omega)
    rw [sub_mul, one_mul] at low high
    rw [borrow, decide_eq_true negative, bit_true, mul_one] at value
    have w' : Window u1 d dOffset s rOffset n :=
      ⟨w.dLow, w.dHigh, w.rLow, size ▸ w.rHigh, fun nonzero => size ▸ w.top nonzero⟩
    refine (returns_addBack w' value (by omega)).bind ?_
    rintro ⟨s', _⟩ ⟨size', frame', value'⟩
    refine Returns.pure_iff.mpr
      ⟨size'.trans size, fun x below => ?_, ?_, by dsimp only; omega⟩
    · rw [frame' x below, frame x below]
    · rw [value', unsigned_pred nonzero]
      ring
  · rename_i positive
    rw [borrow, decide_eq_true_eq] at positive
    rw [borrow, decide_eq_false positive, bit_false, mul_zero, add_zero] at value
    refine Returns.pure_iff.mpr ⟨size, frame, ?_, by dsimp only; omega⟩
    rw [value]
    ring

end Window

end MutableBigInteger

end Liberty
