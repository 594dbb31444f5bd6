import Liberty.Numeric.MutableBigInteger.QuotientWord

/-!
# Long division

The division by several words.  `divide_to` and `remainder_with_quotient_to` run the same
loop, on a copy of the dividend and on the dividend itself.
-/

namespace Liberty

namespace MutableBigInteger

/-! ## The source -/

/-- The state of the loop: the storages of the quotient and of the remainder, the place
of the next quotient word and the two highest words of what remains. -/
structure DivisionState where
  q : NativeArray Word
  r : NativeArray Word
  j : Int
  k : Int
  u1 : Word
  u2 : Word

/-- One quotient word, D3 to D7. -/
def divisionRound (d : NativeArray Word) (dOffset dlen : Int) (v1 v2 : Word)
    (s : DivisionState) : Option DivisionState := do
  let j := s.j - 1
  let qhat ← estimateQhat s.r j s.u1 s.u2 v1 v2
  let (word, r) ← subtractQhat d dOffset dlen s.u1 qhat s.r (j - dlen + 2)
  let q ← s.q.put word s.k
  return { q, r, j, k := s.k - 1, u1 := ← r.item (j + 1), u2 := ← r.item j }

/-- D2: whether the dividend is looked at with a zero word above it, and the number of
quotient words. -/
def startDivision (q r : NativeArray Word) (j nlen dlen : Int) (v1 u2 : Word) :
    Option (Int × DivisionState) :=
  if unsignedGreaterOrEqual u2 v1 then
    some (nlen - dlen + 1, ⟨q, r, j, nlen - dlen, 0, u2⟩)
  else do
    return (nlen - dlen, ⟨q, r, j - 1, nlen - dlen - 1, u2, ← r.item (j - 1)⟩)

/-- Resize the quotient if necessary. -/
def resizeQuotient (quotient : MutableBigInteger) (qlen : Int) :
    Option (Int × NativeArray Word) :=
  if quotient.capacity < qlen then do
    let qCapacity ← capacityFromLowerBound quotient.capacity qlen
    return (qCapacity, .calloc qCapacity)
  else
    some (quotient.capacity, quotient.storage)

/-- D2 to D7, for the normalised divisor `divisor` and the dividend of `nlen` words of `r`
from `offset` on: the quotient, the storage with the remainder, and the length of the
remainder as it is looked for from the beginning of the storage. -/
def longDivision (divisor : MutableBigInteger) (r : NativeArray Word) (offset nlen : Int)
    (quotient : MutableBigInteger) : Option (MutableBigInteger × NativeArray Word × Int) := do
  let dlen := divisor.integerLength
  let j := offset + nlen - 1
  let u2 ← r.item j
  let k := divisor.offset + dlen - 1
  let v1 ← divisor.storage.item k
  let v2 ← divisor.storage.item (k - 1)
  let (qlen, s) ← startDivision quotient.storage r j nlen dlen v1 u2
  let (qCapacity, q) ← quotient.resizeQuotient qlen
  let s ← untilLoop (fun s => some (decide (s.k < 0)))
    (divisionRound divisor.storage divisor.offset dlen v1 v2) (s.k + 1).toNat { s with q }
  -- remove leading zero of quotient
  let k := qlen - 1
  let qlen := if (← s.q.item k) = 0 then k else qlen
  -- remove leading zero of remainder
  let j ← untilLoop
    (fun j => if j < 0 then some true else do return (← s.r.item j) != 0)
    (fun j => some (j - 1)) dlen.toNat (dlen - 1)
  return (⟨s.q, qCapacity, qlen, 0, false⟩, s.r, j + 1)

/-! ## Rounds -/

open LongDivision

section Rounds

variable {d : NativeArray Word} {dOffset base : Int} {p K t : ℕ} {N : ℤ}
  {q₀ r₀ : NativeArray Word} {s : DivisionState}

/-- The words still to be divided, with `u1` on top of them. -/
def DivisionState.rest (s : DivisionState) (base : Int) (p t : ℕ) : ℤ :=
  wordValue s.r base (p + 1 + t) + wordBase ^ (p + 1 + t) * unsigned s.u1

/-- Of the `K` words of the quotient of `N` by the `p + 2` words of `d`, those from `t` on
are there. -/
structure Divides (N : ℤ) (d : NativeArray Word) (dOffset base : Int) (p K : ℕ)
    (q₀ r₀ : NativeArray Word) (t : ℕ) (s : DivisionState) : Prop where
  le : t ≤ K
  q_size : s.q.size = q₀.size
  r_size : s.r.size = r₀.size
  j_eq : s.j = base + p + t
  k_eq : s.k = t - 1
  room : base + p + t < s.r.size
  u2_eq : s.u2 = s.r.cell s.j
  top : s.u1 ≠ 0 → base + p + t + 1 < s.r.size ∧ s.r.cell (base + p + t + 1) = s.u1
  last : t < K → s.u1 = s.r.cell (base + p + t + 1)
  value_eq : N = wordValue d dOffset (p + 2) * (wordBase ^ t * wordValue s.q t (K - t)) +
    s.rest base p t
  rest_lt : s.rest base p t < wordBase ^ t * wordValue d dOffset (p + 2)

/-- The leading words of the divisor and of a window. -/
theorem leading_of_words {r : NativeArray Word} {rOffset : Int} {u1 : Word}
    (half : wordBase ≤ 2 * unsigned (d.cell (dOffset + p + 1))) :
    Leading wordBase (wordBase ^ p) (unsigned (d.cell (dOffset + p + 1)))
      (unsigned (d.cell (dOffset + p))) (unsigned u1)
      (unsigned (r.cell (rOffset + p + 1))) (unsigned (r.cell (rOffset + p)))
      (wordValue d dOffset (p + 2))
      (wordValue r rOffset (p + 2) + wordBase ^ (p + 2) * unsigned u1) := by
  have dn := wordValue_nonneg d dOffset p
  have dl := wordValue_lt d dOffset p
  have rn := wordValue_nonneg r rOffset p
  have rl := wordValue_lt r rOffset p
  have two : ∀ (s : NativeArray Word) (o : Int), wordValue s o (p + 2) =
      wordValue s o p + (unsigned (s.cell (o + p + 1)) * wordBase +
        unsigned (s.cell (o + p))) * wordBase ^ p := by
    intro s o
    rw [wordValue_succ, wordValue_succ, pow_succ]
    push_cast
    ring
  refine
    { weight_pos := wordBase_pow_pos p
      divisor_ge := by rw [two]; linarith
      divisor_lt := by rw [two]; linarith
      dividend_ge := ?_
      dividend_lt := ?_
      half := half
      v1_pos := by have := wordBase_pos; omega
      v2_range := ⟨unsigned_nonneg _, unsigned_lt _⟩
      u1_nonneg := unsigned_nonneg _
      u2_nonneg := unsigned_nonneg _
      u3_range := ⟨unsigned_nonneg _, unsigned_lt _⟩ }
  · rw [two, pow_add]
    linarith
  · rw [two, pow_add]
    linarith

theorem returns_divisionRound (h : Divides N d dOffset base p K q₀ r₀ (t + 1) s)
    (dLow : 0 ≤ dOffset) (dHigh : dOffset + (p + 2) ≤ d.size) (low : 0 ≤ base)
    (room : K ≤ q₀.size)
    (half : wordBase ≤ 2 * unsigned (d.cell (dOffset + p + 1))) :
    Returns (divisionRound d dOffset (p + 2 : ℕ) (d.cell (dOffset + p + 1))
      (d.cell (dOffset + p)) s) (Divides N d dOffset base p K q₀ r₀ t) := by
  have hj := h.j_eq
  have hk := h.k_eq
  have inside := h.room
  have q_size := h.q_size
  have le := h.le
  -- the window, and what it is worth below the words above it
  have split : s.rest base p (t + 1) = wordValue s.r base t + wordBase ^ t *
      (wordValue s.r (base + t) (p + 2) + wordBase ^ (p + 2) * unsigned s.u1) := by
    rw [DivisionState.rest, show p + 1 + (t + 1) = t + (p + 2) by omega, wordValue_add,
      pow_add]
    ring
  have lower := wordValue_nonneg s.r base t
  have power := wordBase_pow_pos t
  generalize uEq : wordValue s.r (base + t) (p + 2) + wordBase ^ (p + 2) * unsigned s.u1 = u
    at split
  have lt : u < wordBase * wordValue d dOffset (p + 2) := by
    have := h.rest_lt
    rw [split, pow_succ, mul_assoc] at this
    by_contra ge
    have := mul_le_mul_of_nonneg_left (not_lt.mp ge) power.le
    omega
  have leading := @leading_of_words d dOffset p s.r (base + t) s.u1 half
  rw [uEq] at leading
  have first : s.j - 1 = base + t + p := by omega
  have second : s.u2 = s.r.cell (base + t + p + 1) := by
    rw [h.u2_eq, hj]
    congr 1
    omega
  have window : base + (t : Int) + p - ((p + 2 : ℕ) : Int) + 2 = base + t := by
    omega
  have w : Window s.u1 d dOffset s.r (base + t) (p + 2) :=
    { dLow
      dHigh := by push_cast; omega
      rLow := by omega
      rHigh := by push_cast; omega
      top := fun nonzero => by
        have := (h.top nonzero).1
        omega }
  rw [divisionRound, first, second, window]
  refine (returns_estimateQhat ⟨by omega, by omega⟩ leading lt).bind fun qhat close => ?_
  refine (returns_subtractQhat w (fun nonzero => ?_) uEq.symm close).bind ?_
  · rw [← (h.top nonzero).2]
    congr 1
    omega
  rintro ⟨word, r⟩ ⟨size, frame, value, less⟩
  rw [Returns.bind_iff, NativeArray.returns_put]
  refine ⟨by omega, ?_⟩
  simp only [Returns.bind_iff, NativeArray.returns_item, Returns.pure_iff]
  refine ⟨by omega, by omega, ?_⟩
  have rest : (⟨s.q.set word s.k, r, base + t + p, s.k - 1, r.cell (base + t + p + 1),
      r.cell (base + t + p)⟩ : DivisionState).rest base p t =
      wordValue s.r base t + wordBase ^ t * wordValue r (base + t) (p + 2) := by
    rw [DivisionState.rest, mul_comm, show base + (t : Int) + p + 1 = base + ((p + 1 + t : ℕ) : Int) by
      push_cast; omega, ← wordValue_succ, show p + 1 + t + 1 = t + (p + 2) by omega,
      wordValue_add, wordValue_congr fun v hv => frame _ (by omega)]
  have words : wordValue (s.q.set word s.k) t (K - t) =
      unsigned word + wordBase * wordValue s.q (t + 1) (K - (t + 1)) := by
    rw [show K - t = K - (t + 1) + 1 by omega, wordValue_succ', NativeArray.cell_set,
      if_pos (by omega)]
    refine congrArg _ (congrArg _ (wordValue_congr fun v hv => ?_))
    exact NativeArray.cell_set_of_ne _ _ (by omega)
  refine
    { le := by omega
      q_size := q_size
      r_size := size.trans h.r_size
      j_eq := by dsimp only; omega
      k_eq := by dsimp only; omega
      room := by dsimp only; omega
      u2_eq := rfl
      top := fun _ => ⟨by dsimp only; omega, ?_⟩
      last := fun _ => ?_
      value_eq := ?_
      rest_lt := ?_ }
  · dsimp only
    congr 1
    omega
  · dsimp only
    congr 1
    omega
  · have whole := h.value_eq
    rw [split, value, pow_succ] at whole
    rw [rest, words, whole]
    push_cast
    ring
  · have := wordValue_lt s.r base t
    have := mul_le_mul_of_nonneg_left (Int.add_one_le_of_lt less) power.le
    rw [mul_add, mul_one] at this
    omega

theorem returns_divisionLoop (h : Divides N d dOffset base p K q₀ r₀ K s)
    (dLow : 0 ≤ dOffset) (dHigh : dOffset + (p + 2) ≤ d.size) (low : 0 ≤ base)
    (room : K ≤ q₀.size)
    (half : wordBase ≤ 2 * unsigned (d.cell (dOffset + p + 1))) :
    Returns (untilLoop (fun s => some (decide (s.k < 0)))
      (divisionRound d dOffset (p + 2 : ℕ) (d.cell (dOffset + p + 1)) (d.cell (dOffset + p)))
      (s.k + 1).toNat s) (Divides N d dOffset base p K q₀ r₀ 0) := by
  refine returns_untilLoop (fun s => ∃ t, Divides N d dOffset base p K q₀ r₀ t s)
    (fun s => (s.k + 1).toNat) ⟨K, h⟩ le_rfl ?_
  rintro s ⟨t, h⟩
  have hk := h.k_eq
  rw [Returns.some_iff]
  split
  · rename_i stopped
    rw [decide_eq_true_eq] at stopped
    obtain rfl : t = 0 := by omega
    exact h
  · rename_i going
    rw [decide_eq_true_eq] at going
    obtain ⟨t, rfl⟩ : ∃ u, t = u + 1 := ⟨t - 1, by omega⟩
    refine (returns_divisionRound h dLow dHigh low room half).mono fun s' h' => ⟨⟨t, h'⟩, ?_⟩
    have hk' := h'.k_eq
    omega

/-- The dividend has the words of the divisor. -/
theorem longer_of_le {r : NativeArray Word} {k : ℕ}
    (nonzero : d.cell (dOffset + p + 1) ≠ 0)
    (le : wordValue d dOffset (p + 2) ≤ wordValue r base (k + 1)) : p + 1 ≤ k := by
  have least : wordBase ^ (p + 1) ≤ wordValue d dOffset (p + 2) :=
    pow_le_wordValue (by push_cast; rwa [← add_assoc])
  have lt := wordValue_lt r base (k + 1)
  by_contra shorter
  have := pow_le_pow_right₀ (show 1 ≤ wordBase by decide) (show k + 1 ≤ p + 1 by omega)
  omega

theorem returns_startDivision {q r : NativeArray Word} {k : ℕ}
    (low : 0 ≤ base) (high : base + (k + 1) ≤ r.size) (top : r.cell (base + k) ≠ 0)
    (le : wordValue d dOffset (p + 2) ≤ wordValue r base (k + 1))
    (nonzero : d.cell (dOffset + p + 1) ≠ 0) :
    Returns (startDivision q r (base + k) (k + 1) (p + 2 : ℕ) (d.cell (dOffset + p + 1))
        (r.cell (base + k))) fun (qlen, s) => ∃ K : ℕ, qlen = K ∧ 0 < K ∧
      wordBase ^ (K + p) ≤ wordValue r base (k + 1) ∧ s.q = q ∧
      ∀ q', Divides (wordValue r base (k + 1)) d dOffset base p K q' r K
        { s with q := q' } := by
  have least : wordBase ^ (p + 1) ≤ wordValue d dOffset (p + 2) :=
    pow_le_wordValue (by push_cast; rwa [← add_assoc])
  have dividend := pow_le_wordValue top
  have lt := wordValue_lt r base (k + 1)
  have longer := longer_of_le nonzero le
  rw [startDivision]
  split
  · rename_i large
    obtain ⟨K, rfl⟩ : ∃ K, k = K + p := ⟨k - p, by omega⟩
    refine Returns.some_iff.mpr ⟨K, by push_cast; omega, by omega, dividend, rfl, fun q' =>
      { le := le_rfl
        q_size := rfl
        r_size := rfl
        j_eq := by push_cast; omega
        k_eq := by push_cast; omega
        room := by push_cast at high; dsimp only; omega
        u2_eq := rfl
        top := fun differ => absurd rfl differ
        last := fun before => by omega
        value_eq := ?_
        rest_lt := ?_ }⟩
    · rw [DivisionState.rest, Nat.sub_self, wordValue_zero, mul_zero, mul_zero, zero_add,
        unsigned_zero, mul_zero, add_zero, show p + 1 + K = K + p + 1 by omega]
    · rw [DivisionState.rest, unsigned_zero, mul_zero, add_zero,
        show p + 1 + K = K + p + 1 by omega]
      refine lt.trans_le ?_
      rw [add_assoc, pow_add]
      exact mul_le_mul_of_nonneg_left least (wordBase_pow_pos K).le
  · rename_i small
    rw [unsignedGreaterOrEqual_iff, not_le] at small
    obtain ⟨K, rfl⟩ : ∃ K, k = K + (p + 1) := ⟨k - (p + 1), by omega⟩
    have bound : wordValue r base (K + (p + 1) + 1) <
        wordBase ^ K * wordValue d dOffset (p + 2) := by
      have below := wordValue_lt r base (K + (p + 1))
      have low' := wordValue_nonneg d dOffset (p + 1)
      have power := wordBase_pow_pos (K + (p + 1))
      have step := mul_le_mul_of_nonneg_right (Int.add_one_le_of_lt small) power.le
      calc wordValue r base (K + (p + 1) + 1)
          = wordValue r base (K + (p + 1)) +
              unsigned (r.cell (base + (K + (p + 1) : ℕ))) * wordBase ^ (K + (p + 1)) :=
            wordValue_succ _ _ _
        _ < unsigned (d.cell (dOffset + p + 1)) * wordBase ^ (K + (p + 1)) := by
            rw [add_mul, one_mul] at step
            omega
        _ = wordBase ^ K *
              (unsigned (d.cell (dOffset + p + 1)) * wordBase ^ (p + 1)) := by
            ring
        _ ≤ wordBase ^ K * wordValue d dOffset (p + 2) := by
            refine mul_le_mul_of_nonneg_left ?_ (wordBase_pow_pos K).le
            rw [wordValue_succ d dOffset (p + 1)]
            push_cast
            rw [← add_assoc]
            omega
    have positive' : 0 < K := by
      rcases Nat.eq_zero_or_pos K with rfl | pos
      · rw [pow_zero, one_mul] at bound
        omega
      · exact pos
    have rest : ∀ q', (⟨q', r, base + ((K + (p + 1) : ℕ) : Int) - 1,
        ((K + (p + 1) : ℕ) : Int) + 1 - ((p + 2 : ℕ) : Int) - 1,
        r.cell (base + ((K + (p + 1) : ℕ) : Int)),
        r.cell (base + ((K + (p + 1) : ℕ) : Int) - 1)⟩ : DivisionState).rest base p K =
        wordValue r base (K + (p + 1) + 1) := fun q' => by
      rw [DivisionState.rest, mul_comm, show p + 1 + K = K + (p + 1) by omega, wordValue_succ]
    rw [Returns.bind_iff, NativeArray.returns_item]
    refine ⟨by push_cast; omega, Returns.pure_iff.mpr ⟨K, by push_cast; omega, positive',
      (pow_le_pow_right₀ (show 1 ≤ wordBase by decide) (by omega)).trans dividend, rfl, fun q' =>
      { le := le_rfl
        q_size := rfl
        r_size := rfl
        j_eq := by push_cast; omega
        k_eq := by push_cast; omega
        room := by dsimp only; omega
        u2_eq := rfl
        top := fun _ => ⟨by dsimp only; omega, ?_⟩
        last := fun before => by omega
        value_eq := ?_
        rest_lt := ?_ }⟩⟩
    · dsimp only
      congr 1
      omega
    · rw [rest, Nat.sub_self, wordValue_zero, mul_zero, mul_zero, zero_add]
    · rwa [rest]

/-! ## The whole division -/

theorem returns_resizeQuotient {quotient : MutableBigInteger} (hq : Valid quotient)
    (qlen : Int) :
    Returns (quotient.resizeQuotient qlen) fun (capacity, q) =>
      IsCapacity capacity ∧ q.size = capacity ∧ qlen ≤ capacity := by
  rw [resizeQuotient]
  split
  · refine (returns_capacityFromLowerBound hq.isCapacity).bind ?_
    rintro capacity ⟨isCapacity, -, enough, -⟩
    exact Returns.pure_iff.mpr ⟨isCapacity, rfl, enough⟩
  · exact Returns.some_iff.mpr ⟨hq.isCapacity, hq.size_eq, by omega⟩

/-- The length of the words of `s` without the zero words above them. -/
theorem returns_remainderLength {s : NativeArray Word} {n : ℕ} (size : (n : Int) ≤ s.size) :
    Returns (untilLoop
        (fun j => if j < 0 then some true else do return (← s.item j) != 0)
        (fun j => some (j - 1)) n (n - 1)) fun j => ∃ u : ℕ, j = u - 1 ∧ u ≤ n ∧
      wordValue s 0 u = wordValue s 0 n ∧ (u ≠ 0 → s.cell (u - 1) ≠ 0) := by
  refine returns_untilLoop
    (fun j : Int => ∃ u : ℕ, j = u - 1 ∧ u ≤ n ∧ wordValue s 0 u = wordValue s 0 n)
    (fun j => (j + 1).toNat) ⟨n, rfl, le_rfl, rfl⟩ (by omega) ?_
  rintro j ⟨u, rfl, le, eq⟩
  split
  · exact Returns.some_iff.mpr ⟨u, rfl, le, eq, fun nonzero => by omega⟩
  · obtain ⟨u, rfl⟩ : ∃ v, u = v + 1 := ⟨u - 1, by omega⟩
    have index : ((u + 1 : ℕ) : Int) - 1 = u := by push_cast; omega
    rw [index, Returns.bind_iff, NativeArray.returns_item]
    refine ⟨by omega, Returns.pure_iff.mpr ?_⟩
    split
    · rename_i nonzero
      exact ⟨u + 1, index.symm, le, eq, fun _ => by
        simpa using nonzero⟩
    · rename_i zero
      have zero : s.cell u = 0 := by simpa using zero
      rw [wordValue_succ, zero_add, zero, unsigned_zero, zero_mul, add_zero] at eq
      exact Returns.some_iff.mpr ⟨⟨u, rfl, by omega, eq⟩, by omega⟩

/-- At most one leading zero word in a quotient that is long enough. -/
theorem holds_quotient {q : NativeArray Word} {capacity : Int} {K : ℕ} {Q : ℤ}
    (isCapacity : IsCapacity capacity) (size : q.size = capacity) (fits : K ≤ capacity)
    (value : wordValue q 0 K = Q) (positive : 0 < Q)
    (long : wordBase ^ K < wordBase ^ 2 * (Q + 1)) :
    Holds ⟨q, capacity, if q.cell (K - 1) = 0 then (K : Int) - 1 else K, 0, false⟩ Q := by
  obtain ⟨k, rfl⟩ : ∃ k, K = k + 1 := by
    cases K with
    | zero => rw [wordValue_zero] at value; omega
    | succ k => exact ⟨k, rfl⟩
  have index : ((k + 1 : ℕ) : Int) - 1 = k := by push_cast; omega
  rw [index]
  split
  · rename_i zero
    rw [wordValue_succ, zero_add, zero, unsigned_zero, zero_mul, add_zero] at value
    obtain ⟨k, rfl⟩ : ∃ l, k = l + 1 := by
      cases k with
      | zero => rw [wordValue_zero] at value; omega
      | succ k => exact ⟨k, rfl⟩
    have least : wordBase ^ k ≤ Q := by
      rw [show k + 1 + 1 = 2 + k by omega, pow_add] at long
      have := lt_of_mul_lt_mul_left long (by decide : (0 : ℤ) ≤ wordBase ^ 2)
      omega
    refine Holds.of_window k isCapacity size (by push_cast; rfl) le_rfl ?_ ?_ ?_
    · dsimp only
      omega
    · exact top_ne_zero_of_le (by rwa [value])
    · exact value
  · rename_i nonzero
    exact Holds.of_window k isCapacity size (by push_cast; rfl) le_rfl
      (by dsimp only; push_cast at fits; omega) (by rwa [zero_add]) value

/-- The division by a normalised divisor of several words. -/
theorem returns_longDivision {divisor quotient : MutableBigInteger} (hd : Valid divisor)
    (hq : Valid quotient) (length : divisor.integerLength = (p + 2 : ℕ))
    (half : wordBase ≤ 2 * unsigned (divisor.storage.cell (divisor.offset + p + 1)))
    {r : NativeArray Word} {k : ℕ} (low : 0 ≤ base) (high : base + (k + 1) ≤ r.size)
    (top : r.cell (base + k) ≠ 0) (le : divisor.magnitude ≤ wordValue r base (k + 1)) :
    Returns (longDivision divisor r base (k + 1) quotient) fun (q, s, len) =>
      ∃ Q : ℤ, Holds q Q ∧ q.offset = 0 ∧ q.negative = false ∧ s.size = r.size ∧
        wordValue r base (k + 1) =
          divisor.magnitude * Q + wordValue s base (p + 2) ∧
        wordValue s base (p + 2) < divisor.magnitude ∧
        ∃ u : ℕ, len = u ∧ u ≤ p + 2 ∧ wordValue s 0 u = wordValue s 0 (p + 2) ∧
          (u ≠ 0 → s.cell (u - 1) ≠ 0) := by
  have range := hd.offset_range (by omega)
  have size := hd.size_eq
  have magnitude := magnitude_eq length
  have positive := hd.magnitude_pos (by omega)
  rw [magnitude] at le positive ⊢
  have nonzero : divisor.storage.cell (divisor.offset + p + 1) ≠ 0 := by
    intro zero
    rw [zero, unsigned_zero] at half
    exact absurd half (by decide)
  have longer := longer_of_le nonzero le
  have first : base + ((k : Int) + 1) - 1 = base + k := by omega
  have head : divisor.offset + divisor.integerLength - 1 = divisor.offset + p + 1 := by omega
  have next : divisor.offset + (p : Int) + 1 - 1 = divisor.offset + p := by omega
  rw [longDivision]
  dsimp only
  rw [first, head, next]
  simp only [Returns.bind_iff, NativeArray.returns_item]
  refine ⟨by omega, by omega, by omega, ?_⟩
  rw [length]
  refine (returns_startDivision low high top le nonzero).mono ?_
  rintro ⟨_, s⟩ ⟨K, rfl, pos, long, -, start⟩
  refine (returns_resizeQuotient hq K).mono ?_
  rintro ⟨capacity, q⟩ ⟨isCapacity, q_size, fits⟩
  refine (returns_divisionLoop (start q) (by omega) (by omega) low (by omega) half).mono ?_
  intro s' h
  have r_size := h.r_size
  have q_size' := h.q_size
  refine ⟨by omega, (returns_remainderLength (n := p + 2) (by push_cast; omega)).mono ?_⟩
  rintro _ ⟨u, rfl, le', same, topWord⟩
  rw [Returns.pure_iff]
  have rest : s'.rest base p 0 = wordValue s'.r base (p + 2) := by
    rw [DivisionState.rest, h.last pos, wordValue_succ s'.r base (p + 1), mul_comm,
      Nat.add_zero, show base + ((p + 1 : ℕ) : Int) = base + p + ((0 : ℕ) : Int) + 1 by
        push_cast; omega]
  have value := h.value_eq
  have less := h.rest_lt
  rw [rest, pow_zero, one_mul] at value less
  refine ⟨wordValue s'.q 0 K, ?_, rfl, rfl, r_size, value, less, u,
    by dsimp only; omega, le', same, topWord⟩
  refine holds_quotient isCapacity (q_size'.trans q_size) fits rfl ?_ ?_
  · by_contra none
    have := mul_nonpos_of_nonneg_of_nonpos positive.le (not_lt.mp none)
    rw [Nat.sub_zero, Nat.cast_zero] at value
    omega
  · rw [Nat.sub_zero, Nat.cast_zero] at value
    have small := wordValue_lt divisor.storage divisor.offset (p + 2)
    have upper : wordValue r base (k + 1) < wordBase ^ (p + 2) * (wordValue s'.q 0 K + 1) := by
      have := mul_le_mul_of_nonneg_right small.le
        (add_nonneg (wordValue_nonneg s'.q 0 K) zero_le_one)
      linarith
    rw [pow_add] at long
    refine lt_of_mul_lt_mul_right (?_ : wordBase ^ K * wordBase ^ p < _) (wordBase_pow_pos p).le
    refine long.trans_lt (upper.trans_eq ?_)
    ring

end Rounds

end MutableBigInteger

end Liberty
