import Liberty.Numeric.MutableBigInteger.Exactness

/-!
# Shifts in a reachable world

`shift_left` is exact in every reachable world.  `shift_right` is exact if and only if the
shift leaves something, or what it drops is a number without a sign that it can drop.
-/

namespace Liberty

namespace MutableBigInteger

section ShiftRight

variable {m : MutableBigInteger}

/-- The bits of an object without words cannot be moved: the last word has no place. -/
theorem not_returns_primitiveShiftRight (empty : m.integerLength ≤ 0) (n : ℕ)
    {P : MutableBigInteger → Prop} : ¬Returns (m.primitiveShiftRight n) P := by
  intro returns
  rw [primitiveShiftRight] at returns
  rw [Returns.bind_iff, NativeArray.returns_item] at returns
  rw [Cursor.upLoop, untilLoop_stopped (by simp only [Option.some.injEq, decide_eq_true_eq]; omega),
    Returns.some_bind, Returns.bind_iff, NativeArray.returns_put] at returns
  omega

/-- A shift that leaves nothing, over fewer words than there are, keeps the sign. -/
theorem Exact.not_negative_of_shiftRight (hm : Valid m) {n : ℕ} {v : ℤ}
    (inside : ((n / 32 : ℕ) : Int) < m.integerLength) (zero : m.magnitude / 2 ^ n = 0)
    (returns : Returns (m.shiftRight n) (Exact · v)) : m.negative = false := by
  have range := hm.offset_range (by omega)
  have size := hm.size_eq
  obtain ⟨k, length⟩ : ∃ k : ℕ, m.integerLength = ((n / 32 + (k + 1) : ℕ) : Int) :=
    ⟨(m.integerLength - (n / 32 : ℕ) - 1).toNat, by omega⟩
  have length' : (m.dropWords (n / 32)).integerLength = k + 1 := by
    simp only [dropWords]
    omega
  have top : m.storage.cell (m.offset + (n / 32 : ℕ) + k) ≠ 0 := by
    have top := hm.top_ne_zero (by omega)
    rwa [show m.offset + m.integerLength - 1 = m.offset + (n / 32 : ℕ) + k by omega] at top
  have words : (m.dropWords (n / 32)).magnitude = m.magnitude / wordBase ^ (n / 32) := by
    rw [magnitude_eq (n := k + 1) length', magnitude_eq length, wordValue_drop]
    rfl
  have quotient : m.magnitude / 2 ^ n = (m.dropWords (n / 32)).magnitude / 2 ^ (n % 32) := by
    rw [words, two_pow_eq, Int.ediv_ediv_of_nonneg (wordBase_pow_pos _).le]
  rw [quotient] at zero
  rw [shiftRight, if_pos (by omega)] at returns
  dsimp only at returns
  split at returns
  · rename_i whole
    rw [whole, pow_zero, Int.ediv_one, magnitude_eq (n := k + 1) length'] at zero
    have positive := pow_le_wordValue (s := m.storage) (o := m.offset + (n / 32 : ℕ)) top
    have power := wordBase_pow_pos k
    change wordValue m.storage (m.offset + (n / 32 : ℕ)) (k + 1) = 0 at zero
    omega
  · have lt : n % 32 < 32 := Nat.mod_lt _ (by norm_num)
    obtain ⟨r, run, -, -, negative, -, none, -⟩ := returns_primitiveShiftRight (by omega) lt
      length' (by simp only [dropWords]; omega) (by simp only [dropWords]; omega) top
    have exact := returns.unique run
    rw [← show r.negative = m.negative from negative]
    exact exact.not_negative (none zero)

/-- `shift_right` is exact if and only if it does not lose a sign or words that are not
there. -/
theorem shiftRight_iff (hm : Valid m) (n : ℕ) :
    Returns (m.shiftRight n) (Exact · (signed m.negative (m.magnitude / 2 ^ n))) ↔
      ShiftRightExact m n := by
  constructor
  · intro returns nonzero zero
    have nonneg := hm.length_nonneg
    by_cases inside : ((n / 32 : ℕ) : Int) < m.integerLength
    · exact ⟨Exact.not_negative_of_shiftRight hm inside zero returns, .inl inside⟩
    rw [shiftRight, if_pos (by omega)] at returns
    dsimp only at returns
    split at returns
    · rename_i whole
      have exact := Returns.some_iff.mp returns
      have length := exact.length_nonneg
      have negative := exact.not_negative
      simp only [dropWords] at length negative
      exact ⟨negative (by omega), .inr (by omega)⟩
    · refine absurd returns (not_returns_primitiveShiftRight ?_ _)
      simp only [dropWords]
      omega
  · intro right
    exact (returns_shiftRight hm n right).mono fun r holds => holds.1.exact

end ShiftRight

/-- The sign of a number under a magnitude that is not larger. -/
theorem Valid.signed_ediv (hm : Valid m) (n : ℕ) :
    signed m.negative (m.magnitude / 2 ^ n) = m.value.sign * (|m.value| / 2 ^ n) := by
  rw [abs_value]
  rcases Int.lt_trichotomy m.value 0 with negative | zero | positive
  · rw [Int.sign_eq_neg_one_of_neg negative, hm.value_neg_iff.mp negative, signed_true]
    ring
  · have zero := hm.value_eq_zero.mp zero
    rw [value_of_zero zero, magnitude_of_zero zero, hm.not_negative zero]
    simp
  · have sign : m.negative = false := by
      rw [← Bool.not_eq_true, ← hm.value_neg_iff]
      omega
    rw [Int.sign_eq_one_of_pos positive, sign, signed_false, one_mul]

namespace World

variable {w : World}

/-- In every reachable world `shift_left` multiplies by a power of 2, and `shift_right`
divides the magnitude by it, the latter if and only if `ShiftRightExact` holds. -/
theorem Reachable.shifts (reachable : Reachable w) {i : ℕ} (created : w.Created i) (n : ℕ) :
    Returns (w.run (.shiftLeft i n)) (w.Becomes i (w.value i * 2 ^ n)) ∧
    (Returns (w.run (.shiftRight i n))
        (w.Becomes i ((w.value i).sign * (|w.value i| / 2 ^ n))) ↔
      ShiftRightExact (w.object i) n) := by
  have hm := reachable.valid.created created
  constructor
  · apply (returns_becomes_iff w i _ _).mpr
    exact (returns_shiftLeft hm n).mono fun r ⟨holds, _⟩ => holds.exact
  · apply (returns_becomes_iff w i _ _).trans
    rw [value, ← hm.signed_ediv]
    exact shiftRight_iff hm n

/-- A run leaves `-1` in the object 0.  Shifted by 1, it is a zero with a sign. -/
theorem reachable_minusOne : ∃ w, Reachable w ∧ w.Created 0 ∧ w.value 0 = -1 ∧
    ∃ w', w.run (.shiftRight 0 1) = some w' ∧ (w'.object 0).integerLength = 0 ∧
      (w'.object 0).negative = true := by
  have minusOne := Reachable.start.step (c := .fromInteger 0 (-1)) trivial trivial rfl
  exact ⟨_, minusOne, by decide, by decide, _, rfl, by decide, by decide⟩

theorem Reachable.shifts_minusOne : ∃ w, Reachable w ∧
    Returns (w.run (.shiftLeft 0 40)) (w.Becomes 0 (-1 * 2 ^ 40)) ∧
    (Returns (w.run (.shiftRight 0 1)) (w.Becomes 0 ((-1 : ℤ).sign * (|-1| / 2 ^ 1))) ↔
      ShiftRightExact (w.object 0) 1) := by
  obtain ⟨w, reachable, created, value, -⟩ := reachable_minusOne
  have left := (reachable.shifts created 40).1
  have right := (reachable.shifts created 1).2
  rw [value] at left right
  exact ⟨w, reachable, left, right⟩

/-- `shift_right` does not always leave a normalised result. -/
theorem not_shiftRight_exact : ¬∀ w i n, Reachable w → w.Created i → 0 < n →
    Returns (w.run (.shiftRight i n))
      (w.Becomes i ((w.value i).sign * (|w.value i| / 2 ^ n))) := by
  intro exact
  obtain ⟨w, reachable, created, -, w', run, zero, negative⟩ := reachable_minusOne
  have becomes := (exact w 0 1 reachable created (by decide)).unique run
  rw [becomes.1.not_negative zero] at negative
  cases negative

end World

end MutableBigInteger

end Liberty
