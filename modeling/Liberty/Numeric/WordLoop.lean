import Liberty.Library.Positional
import Liberty.Numeric.Word
import Liberty.Storage.NativeArray

/-!
# Loops over words

The loops of MUTABLE_BIG_INTEGER move a few indices by one at each round, compute one
word from the words under the indices and from a carry, and write it.  A cursor is the
state of such a loop.  One lemma for each direction says what the written words are
worth; the carry is weighed by a function, so that the same lemma serves carries,
borrows, the high words of products and the bits that a shift moves.
-/

namespace Liberty

/-- The words of `s` from `o` on, as digits. -/
def words (s : NativeArray Word) (o : Int) (t : ℕ) : ℤ :=
  unsigned (s.cell (o + t))

theorem digits_words (s : NativeArray Word) (o : Int) (n : ℕ) :
    Positional.Digits wordBase (words s o) n :=
  fun _ _ => ⟨unsigned_nonneg _, unsigned_lt _⟩

/-- The value of `n` words of `s` from `o` on. -/
def wordValue (s : NativeArray Word) (o : Int) (n : ℕ) : ℤ :=
  Positional.value wordBase (words s o) n

@[simp] theorem wordValue_zero (s : NativeArray Word) (o : Int) : wordValue s o 0 = 0 :=
  rfl

theorem wordValue_nonneg (s : NativeArray Word) (o : Int) (n : ℕ) :
    0 ≤ wordValue s o n :=
  Positional.value_nonneg wordBase_pos fun _ _ => unsigned_nonneg _

theorem wordValue_lt (s : NativeArray Word) (o : Int) (n : ℕ) :
    wordValue s o n < wordBase ^ n :=
  Positional.value_lt wordBase_pos (digits_words s o n)

theorem wordValue_succ (s : NativeArray Word) (o : Int) (n : ℕ) :
    wordValue s o (n + 1) = wordValue s o n + unsigned (s.cell (o + n)) * wordBase ^ n :=
  Positional.value_succ

theorem wordValue_succ' (s : NativeArray Word) (o : Int) (n : ℕ) :
    wordValue s o (n + 1) =
      unsigned (s.cell o) + wordBase * wordValue s (o + 1) n := by
  rw [wordValue, Positional.value_succ', words, Nat.cast_zero, add_zero]
  refine congrArg _ (congrArg _ (Positional.value_congr fun t _ => ?_))
  simp only [words, Nat.cast_add, Nat.cast_one]
  congr 2
  omega

theorem wordValue_add (s : NativeArray Word) (o : Int) (m n : ℕ) :
    wordValue s o (m + n) = wordValue s o m + wordBase ^ m * wordValue s (o + m) n := by
  rw [wordValue, Positional.value_add]
  refine congrArg _ (congrArg _ (Positional.value_congr fun t _ => ?_))
  simp only [words, Nat.cast_add]
  congr 2
  omega

theorem wordValue_congr {s s' : NativeArray Word} {o o' : Int} {n : ℕ}
    (same : ∀ t : ℕ, t < n → s.cell (o + t) = s'.cell (o' + t)) :
    wordValue s o n = wordValue s' o' n :=
  Positional.value_congr fun t ht => congrArg unsigned (same t ht)

theorem wordValue_of_zero {s : NativeArray Word} {o : Int} {n : ℕ}
    (zero : ∀ t : ℕ, t < n → s.cell (o + t) = 0) : wordValue s o n = 0 :=
  Positional.value_of_zero fun t ht => unsigned_eq_zero.mpr (zero t ht)

theorem wordValue_mono (s : NativeArray Word) (o : Int) {m n : ℕ} (le : m ≤ n) :
    wordValue s o m ≤ wordValue s o n := by
  obtain ⟨k, rfl⟩ := Nat.exists_eq_add_of_le le
  rw [wordValue_add]
  have := mul_nonneg (pow_nonneg wordBase_pos.le m) (wordValue_nonneg s (o + m) k)
  omega

theorem wordValue_inj {s s' : NativeArray Word} {o o' : Int} {n : ℕ} :
    wordValue s o n = wordValue s' o' n ↔
      ∀ t : ℕ, t < n → s.cell (o + t) = s'.cell (o' + t) := by
  refine ⟨fun eq t ht => unsigned_inj.mp ?_, wordValue_congr⟩
  exact Positional.digits_eq_of_value_eq wordBase_pos (digits_words s o n)
    (digits_words s' o' n) eq t ht

theorem wordValue_digit (s : NativeArray Word) (o : Int) {m n : ℕ} (lt : m < n) :
    wordValue s o n / wordBase ^ m % wordBase = unsigned (s.cell (o + m)) :=
  Positional.digit_eq wordBase_pos (digits_words s o n) lt

theorem pow_le_wordValue {s : NativeArray Word} {o : Int} {n : ℕ}
    (top : s.cell (o + n) ≠ 0) : wordBase ^ n ≤ wordValue s o (n + 1) :=
  Positional.pow_le_value wordBase_pos (digits_words s o (n + 1))
    fun zero => top (unsigned_eq_zero.mp zero)

theorem top_ne_zero_of_le {s : NativeArray Word} {o : Int} {n : ℕ}
    (le : wordBase ^ n ≤ wordValue s o (n + 1)) : s.cell (o + n) ≠ 0 := by
  intro zero
  have lt := wordValue_lt s o n
  rw [wordValue_succ, zero, unsigned_zero, zero_mul, add_zero] at le
  omega

theorem wordBase_pow_pos (n : ℕ) : 0 < wordBase ^ n := pow_pos wordBase_pos n

/-! ## Cursors -/

/-- The storage being written, two reading indices, the writing index and the carry. -/
structure Cursor (γ : Type) where
  storage : NativeArray Word
  i : Int
  j : Int
  k : Int
  carry : γ

namespace Cursor

variable {γ : Type}

/-- Write a word and move the indices up. -/
def up (c : Cursor γ) (word : Word × γ) : Option (Cursor γ) := do
  let storage ← c.storage.put word.1 c.k
  return { storage, i := c.i + 1, j := c.j + 1, k := c.k + 1, carry := word.2 }

/-- Write a word and move the indices down. -/
def down (c : Cursor γ) (word : Word × γ) : Option (Cursor γ) := do
  let storage ← c.storage.put word.1 c.k
  return { storage, i := c.i - 1, j := c.j - 1, k := c.k - 1, carry := word.2 }

/-- A loop with increasing indices.  It writes another cell at each round, so that the
size of the storage bounds its rounds. -/
def upLoop (stop : Cursor γ → Bool) (word : Cursor γ → Option (Word × γ))
    (c : Cursor γ) : Option (Cursor γ) :=
  untilLoop (fun c => some (stop c)) (fun c => word c >>= c.up) c.storage.size.toNat c

/-- A loop with decreasing indices. -/
def downLoop (stop : Cursor γ → Bool) (word : Cursor γ → Option (Word × γ))
    (c : Cursor γ) : Option (Cursor γ) :=
  untilLoop (fun c => some (stop c)) (fun c => word c >>= c.down) c.storage.size.toNat c

/-- After `t` rounds up from `c₀`: the words written are worth, scaled by `scale` and
with the carry on top of them, the digits `digit` and the first carry. -/
structure Risen (scale : ℤ) (weight : γ → ℤ) (digit : ℕ → ℤ) (c₀ : Cursor γ) (t : ℕ)
    (c : Cursor γ) : Prop where
  i_eq : c.i = c₀.i + t
  j_eq : c.j = c₀.j + t
  k_eq : c.k = c₀.k + t
  size_eq : c.storage.size = c₀.storage.size
  frame : ∀ x, x < c₀.k ∨ c₀.k + t ≤ x → c.storage.cell x = c₀.storage.cell x
  value_eq : scale * wordValue c.storage c₀.k t + wordBase ^ t * weight c.carry =
    Positional.value wordBase digit t + weight c₀.carry

section Up

variable {scale : ℤ} {weight : γ → ℤ} {digit : ℕ → ℤ} {c₀ c c' : Cursor γ} {t : ℕ}

theorem Risen.start : Risen scale weight digit c₀ 0 c₀ where
  i_eq := by simp
  j_eq := by simp
  k_eq := by simp
  size_eq := rfl
  frame _ _ := rfl
  value_eq := by simp

theorem Risen.up (h : Risen scale weight digit c₀ t c) {r : Word × γ}
    (inside : 0 ≤ c.k ∧ c.k < c.storage.size)
    (word : scale * unsigned r.1 + wordBase * weight r.2 = digit t + weight c.carry) :
    Returns (c.up r) fun c' => Risen scale weight digit c₀ (t + 1) c' := by
  simp only [Cursor.up, Returns.bind_iff, NativeArray.returns_put, Returns.pure_iff]
  refine ⟨inside, ?_⟩
  have hk := h.k_eq
  refine
    { i_eq := by have := h.i_eq; push_cast; omega
      j_eq := by have := h.j_eq; push_cast; omega
      k_eq := by push_cast; omega
      size_eq := h.size_eq
      frame := fun x outside => ?_
      value_eq := ?_ }
  · push_cast at outside
    rw [NativeArray.cell_set_of_ne _ _ (by omega), h.frame x (by omega)]
  · have below : wordValue (c.storage.set r.1 c.k) c₀.k t = wordValue c.storage c₀.k t :=
      wordValue_congr fun u hu => NativeArray.cell_set_of_ne _ _ (by omega)
    have eq := h.value_eq
    rw [wordValue_succ, Positional.value_succ, below, ← hk, NativeArray.cell_set_self,
      pow_succ]
    linear_combination eq + wordBase ^ t * word

theorem Risen.trans {u : ℕ} (h : Risen scale weight digit c₀ t c)
    (h' : Risen scale weight (fun v => digit (t + v)) c u c') :
    Risen scale weight digit c₀ (t + u) c' where
  i_eq := by have := h.i_eq; have := h'.i_eq; push_cast; omega
  j_eq := by have := h.j_eq; have := h'.j_eq; push_cast; omega
  k_eq := by have := h.k_eq; have := h'.k_eq; push_cast; omega
  size_eq := h'.size_eq.trans h.size_eq
  frame x outside := by
    have hk := h.k_eq
    rw [h'.frame x (by omega), h.frame x (by omega)]
  value_eq := by
    have hk := h.k_eq
    have below : wordValue c'.storage c₀.k t = wordValue c.storage c₀.k t :=
      wordValue_congr fun v hv => h'.frame _ (by omega)
    have eq := h.value_eq
    have eq' := h'.value_eq
    rw [hk] at eq'
    rw [wordValue_add, Positional.value_add, below, pow_add]
    linear_combination eq + wordBase ^ t * eq'

/-- The loop went through the rounds before `t` without stopping. -/
def Passed (stop : Cursor γ → Bool) (scale : ℤ) (weight : γ → ℤ) (digit : ℕ → ℤ)
    (c₀ : Cursor γ) (t : ℕ) : Prop :=
  ∀ u < t, ∃ c, Risen scale weight digit c₀ u c ∧ stop c = false

/-- The rule of a loop with increasing indices that makes at most `n` rounds. -/
theorem returns_upLoop_of_passed {stop : Cursor γ → Bool}
    {word : Cursor γ → Option (Word × γ)} {Q : Cursor γ → Prop} (scale : ℤ)
    (weight : γ → ℤ) (digit : ℕ → ℤ) (n : ℕ) (low : 0 ≤ c₀.k)
    (high : c₀.k + n ≤ c₀.storage.size)
    (round : ∀ t c, t ≤ n → Risen scale weight digit c₀ t c →
      Passed stop scale weight digit c₀ t →
      if stop c = true then Q c
      else t < n ∧ Returns (word c) fun r =>
        scale * unsigned r.1 + wordBase * weight r.2 = digit t + weight c.carry) :
    Returns (upLoop stop word c₀) Q := by
  refine returns_untilLoop
    (fun c => ∃ t, t ≤ n ∧ Risen scale weight digit c₀ t c ∧
      Passed stop scale weight digit c₀ t)
    (fun c => (c₀.k + n - c.k).toNat)
    ⟨0, by omega, Risen.start, fun u hu => absurd hu (Nat.not_lt_zero u)⟩ (by omega) ?_
  rintro c ⟨t, le, risen, passed⟩
  have next := round t c le risen passed
  have hk := risen.k_eq
  have hsize := risen.size_eq
  rw [Returns.some_iff]
  split at next
  · rwa [if_pos ‹_›]
  · rename_i going
    rw [if_neg going, Returns.bind_iff]
    refine next.2.mono fun r eq => (risen.up (by omega) eq).mono fun c' risen' => ?_
    have hk' := risen'.k_eq
    refine ⟨⟨t + 1, by omega, risen', fun u hu => ?_⟩, by omega⟩
    rcases Nat.lt_succ_iff_lt_or_eq.mp hu with before | rfl
    · exact passed u before
    · exact ⟨c, risen, Bool.not_eq_true _ ▸ going⟩

theorem returns_upLoop {stop : Cursor γ → Bool} {word : Cursor γ → Option (Word × γ)}
    {Q : Cursor γ → Prop} (scale : ℤ) (weight : γ → ℤ) (digit : ℕ → ℤ) (n : ℕ)
    (low : 0 ≤ c₀.k) (high : c₀.k + n ≤ c₀.storage.size)
    (round : ∀ t c, t ≤ n → Risen scale weight digit c₀ t c →
      if stop c = true then Q c
      else t < n ∧ Returns (word c) fun r =>
        scale * unsigned r.1 + wordBase * weight r.2 = digit t + weight c.carry) :
    Returns (upLoop stop word c₀) Q :=
  returns_upLoop_of_passed scale weight digit n low high fun t c le risen _ =>
    round t c le risen

end Up

/-- The rule of a loop that copies `n` words, whatever the carry. -/
theorem returns_copyLoop {γ : Type} {c₀ : Cursor γ} {stop : Cursor γ → Bool}
    {read : Cursor γ → Option Word} (s : NativeArray Word) (o : Int) (n : ℕ)
    (low : 0 ≤ c₀.k) (high : c₀.k + n ≤ c₀.storage.size)
    (reads : ∀ t c, t < n → Risen 1 (fun _ => 0) (words s o) c₀ t c →
      Returns (read c) (· = s.cell (o + t)))
    (stops : ∀ t c, t ≤ n → Risen 1 (fun _ => 0) (words s o) c₀ t c →
      (stop c = true ↔ t = n)) :
    Returns (c₀.upLoop stop fun c => do return (← read c, c.carry)) fun c =>
      c.storage.size = c₀.storage.size ∧
        (∀ x, x < c₀.k ∨ c₀.k + n ≤ x → c.storage.cell x = c₀.storage.cell x) ∧
        ∀ t : ℕ, t < n → c.storage.cell (c₀.k + t) = s.cell (o + t) := by
  refine returns_upLoop 1 (fun _ => 0) (words s o) n low high fun t c le risen => ?_
  split
  · rename_i stopped
    obtain rfl := (stops t c le risen).mp stopped
    have eq := risen.value_eq
    simp only [one_mul, mul_zero, add_zero] at eq
    have digits := Positional.digits_eq_of_value_eq wordBase_pos
      (digits_words c.storage c₀.k t) (digits_words s o t) eq
    exact ⟨risen.size_eq, risen.frame, fun u hu => unsigned_inj.mp (digits u hu)⟩
  · rename_i going
    have lt : t < n := lt_of_le_of_ne le fun eq => going ((stops t c le risen).mpr eq)
    refine ⟨lt, (reads t c lt risen).bind fun x hx => Returns.pure_iff.mpr ?_⟩
    subst hx
    simp only [one_mul, mul_zero, add_zero]
    rfl

/-- After `t` rounds down from `c₀`, which began `n - 1` words above `base`: the words
written, scaled and with the carry below them, are worth the digits and the first
carry on top of them. -/
structure Sunk (scale : ℤ) (weight : γ → ℤ) (digit : ℕ → ℤ) (c₀ : Cursor γ) (n t : ℕ)
    (c : Cursor γ) : Prop where
  i_eq : c.i = c₀.i - t
  j_eq : c.j = c₀.j - t
  k_eq : c.k = c₀.k - t
  size_eq : c.storage.size = c₀.storage.size
  frame : ∀ x, x ≤ c₀.k - t ∨ c₀.k < x → c.storage.cell x = c₀.storage.cell x
  value_eq : scale * wordValue c.storage (c₀.k - t + 1) t + weight c.carry =
    Positional.value wordBase (fun u => digit (n - t + u)) t +
      wordBase ^ t * weight c₀.carry

section Down

variable {scale : ℤ} {weight : γ → ℤ} {digit : ℕ → ℤ} {c₀ c c' : Cursor γ} {n t : ℕ}

theorem Sunk.start : Sunk scale weight digit c₀ n 0 c₀ where
  i_eq := by simp
  j_eq := by simp
  k_eq := by simp
  size_eq := rfl
  frame _ _ := rfl
  value_eq := by simp

theorem Sunk.down (h : Sunk scale weight digit c₀ n t c) (lt : t < n) {r : Word × γ}
    (inside : 0 ≤ c.k ∧ c.k < c.storage.size)
    (word : scale * unsigned r.1 + weight r.2 =
      digit (n - (t + 1)) + wordBase * weight c.carry) :
    Returns (c.down r) fun c' => Sunk scale weight digit c₀ n (t + 1) c' := by
  simp only [Cursor.down, Returns.bind_iff, NativeArray.returns_put, Returns.pure_iff]
  refine ⟨inside, ?_⟩
  have hk := h.k_eq
  refine
    { i_eq := by have := h.i_eq; push_cast; omega
      j_eq := by have := h.j_eq; push_cast; omega
      k_eq := by push_cast; omega
      size_eq := h.size_eq
      frame := fun x outside => ?_
      value_eq := ?_ }
  · push_cast at outside
    rw [NativeArray.cell_set_of_ne _ _ (by omega), h.frame x (by omega)]
  · have start : c₀.k - ((t + 1 : ℕ) : Int) + 1 = c.k := by push_cast; omega
    have above : wordValue (c.storage.set r.1 c.k) (c.k + 1) t =
        wordValue c.storage (c₀.k - t + 1) t :=
      wordValue_congr fun u hu => by
        rw [NativeArray.cell_set_of_ne _ _ (by omega), hk]
    have digits : Positional.value wordBase (fun u => digit (n - (t + 1) + (u + 1))) t =
        Positional.value wordBase (fun u => digit (n - t + u)) t :=
      Positional.value_congr fun u _ => congrArg digit (by omega)
    have eq := h.value_eq
    rw [start, wordValue_succ', Positional.value_succ', above, digits,
      NativeArray.cell_set_self, pow_succ, Nat.add_zero]
    linear_combination wordBase * eq + word

/-- The rule of a loop with decreasing indices that makes at most `n` rounds, with an
invariant of the carry. -/
theorem returns_downLoop_of_carry {stop : Cursor γ → Bool}
    {word : Cursor γ → Option (Word × γ)} {Q : Cursor γ → Prop} (scale : ℤ)
    (weight : γ → ℤ) (digit : ℕ → ℤ) (n : ℕ) (small : γ → Prop) (init : small c₀.carry)
    (low : n ≤ c₀.k + 1) (high : c₀.k < c₀.storage.size)
    (round : ∀ t c, t ≤ n → Sunk scale weight digit c₀ n t c → small c.carry →
      if stop c = true then Q c
      else t < n ∧ Returns (word c) fun r =>
        scale * unsigned r.1 + weight r.2 =
          digit (n - (t + 1)) + wordBase * weight c.carry ∧ small r.2) :
    Returns (downLoop stop word c₀) Q := by
  refine returns_untilLoop
    (fun c => ∃ t, t ≤ n ∧ Sunk scale weight digit c₀ n t c ∧ small c.carry)
    (fun c => (c.k - c₀.k + n).toNat) ⟨0, by omega, Sunk.start, init⟩ (by omega) ?_
  rintro c ⟨t, le, sunk, carry⟩
  have next := round t c le sunk carry
  have hk := sunk.k_eq
  have hsize := sunk.size_eq
  rw [Returns.some_iff]
  split at next
  · rwa [if_pos ‹_›]
  · rw [if_neg ‹_›, Returns.bind_iff]
    refine next.2.mono fun r ⟨eq, carry'⟩ => ?_
    simp only [Cursor.down, Returns.bind_iff, NativeArray.returns_put, Returns.pure_iff]
    have inside : 0 ≤ c.k ∧ c.k < c.storage.size := by omega
    have sunk' := Returns.bind_iff.mp (sunk.down next.1 inside eq)
    rw [NativeArray.returns_put, Returns.pure_iff] at sunk'
    refine ⟨inside, ⟨t + 1, by omega, sunk'.2, carry'⟩, by omega⟩

theorem returns_downLoop {stop : Cursor γ → Bool} {word : Cursor γ → Option (Word × γ)}
    {Q : Cursor γ → Prop} (scale : ℤ) (weight : γ → ℤ) (digit : ℕ → ℤ) (n : ℕ)
    (low : n ≤ c₀.k + 1) (high : c₀.k < c₀.storage.size)
    (round : ∀ t c, t ≤ n → Sunk scale weight digit c₀ n t c →
      if stop c = true then Q c
      else t < n ∧ Returns (word c) fun r =>
        scale * unsigned r.1 + weight r.2 =
          digit (n - (t + 1)) + wordBase * weight c.carry) :
    Returns (downLoop stop word c₀) Q := by
  refine returns_downLoop_of_carry scale weight digit n (fun _ => True) trivial low high
    fun t c le sunk _ => ?_
  simpa only [and_true] using round t c le sunk

end Down

end Cursor

end Liberty
