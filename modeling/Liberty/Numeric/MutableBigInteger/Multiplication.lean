import Liberty.Numeric.MutableBigInteger.SumInteger

/-!
# Multiplication of magnitudes

The schoolbook product, written row by row into another storage, below the words of the
object, or in place from the top.  The words of one factor stay where they are; the
other factor gives one word a row, read before the row overwrites it.
-/

namespace Liberty

namespace MutableBigInteger

/-! ## Rows -/

/-- A row of a product up to the index `up`: its first word, then the next ones. -/
def rowLoop (up : Int) (first : Option (Word × Word))
    (next : Cursor Word → Option (Word × Word)) (c : Cursor Word) : Option (Cursor Word) := do
  let r ← first
  let c ← c.up r
  c.upLoop (fun c => decide (c.i > up)) next

/-- A row of the first pass: the words of `x` times `v`. -/
def multiplyRow (x : NativeArray Word) (up : Int) (v : Word) (c : Cursor Word) :
    Option (Cursor Word) :=
  rowLoop up (do return mbiMultiply (← x.item c.i) v)
    (fun c => do return mbiMultiplyWithAdd (← x.item c.i) v c.carry) c

/-- A row of the next passes, added to the words that are there. -/
def multiplyRowAdd (x : NativeArray Word) (up : Int) (v : Word) (c : Cursor Word) :
    Option (Cursor Word) :=
  rowLoop up (do return mbiMultiplyWithAdd (← x.item c.i) v (← c.storage.item c.k))
    (fun c => do
      return mbiMultiplyWith2Add (← x.item c.i) v c.carry (← c.storage.item c.k)) c

/-- A row of the passes from the top, whose first word replaces the word `v`. -/
def multiplyRowReverse (x : NativeArray Word) (up : Int) (v : Word) (c : Cursor Word) :
    Option (Cursor Word) :=
  rowLoop up (do return mbiMultiply (← x.item c.i) v)
    (fun c => do
      return mbiMultiplyWith2Add (← x.item c.i) v c.carry (← c.storage.item c.k)) c

section Rows

theorem returns_row {first : Option (Word × Word)}
    {next : Cursor Word → Option (Word × Word)} {digit : ℕ → ℤ} {n : ℕ} {c₀ : Cursor Word}
    {up : Int} (last : up = c₀.i + n) (low : 0 ≤ c₀.k)
    (high : c₀.k + (n + 1) ≤ c₀.storage.size) (carry : c₀.carry = 0)
    (firstSpec : Returns first fun r => unsigned r.1 + wordBase * unsigned r.2 = digit 0)
    (nextSpec : ∀ t c, 0 < t → t < n + 1 → Cursor.Risen 1 unsigned digit c₀ t c →
      Returns (next c) fun r =>
        unsigned r.1 + wordBase * unsigned r.2 = digit t + unsigned c.carry) :
    Returns (rowLoop up first next c₀) fun c =>
      Cursor.Risen 1 unsigned digit c₀ (n + 1) c := by
  refine firstSpec.bind fun r eq => Returns.bind
    (P := fun c => Cursor.Risen 1 unsigned digit c₀ (0 + 1) c)
    (Cursor.Risen.up .start (by omega) ?_) fun c₁ one => ?_
  · rw [one_mul, eq, carry, unsigned_zero, add_zero]
  have hk := one.k_eq
  have hsize := one.size_eq
  refine Cursor.returns_upLoop 1 unsigned (fun t => digit (0 + 1 + t)) n (by omega)
    (by omega) fun t c le risen => ?_
  have total := one.trans risen
  have hi := total.i_eq
  split
  · rename_i stopped
    rw [decide_eq_true_eq] at stopped
    obtain rfl : t = n := by omega
    rwa [show 0 + 1 + t = t + 1 by omega] at total
  · rename_i going
    rw [decide_eq_true_eq] at going
    refine ⟨by omega, (nextSpec (0 + 1 + t) c (by omega) (by omega) total).mono
      fun r eq => ?_⟩
    rw [one_mul, eq]

variable {x : NativeArray Word} {i₀ : Int} {n : ℕ} {c₀ : Cursor Word} (v : Word)
  (start : c₀.i = i₀) (inside : 0 ≤ i₀ ∧ i₀ + (n + 1) ≤ x.size) (low : 0 ≤ c₀.k)
  (high : c₀.k + (n + 1) ≤ c₀.storage.size) (carry : c₀.carry = 0)

include start inside low high carry

theorem returns_multiplyRow :
    Returns (multiplyRow x (i₀ + n) v c₀) fun c =>
      Cursor.Risen 1 unsigned (fun t => words x i₀ t * unsigned v) c₀ (n + 1) c := by
  refine returns_row (by rw [start]) low high carry ?_ fun t c pos lt risen => ?_
  · simp only [Returns.bind_iff, NativeArray.returns_item, Returns.pure_iff, start]
    exact ⟨by omega, by rw [mbiMultiply_spec]; simp [words]⟩
  · have hi := risen.i_eq
    simp only [Returns.bind_iff, NativeArray.returns_item, Returns.pure_iff, hi, start]
    exact ⟨by omega, mbiMultiplyWithAdd_spec _ _ _⟩

theorem returns_multiplyRowAdd :
    Returns (multiplyRowAdd x (i₀ + n) v c₀) fun c =>
      Cursor.Risen 1 unsigned
        (fun t => words x i₀ t * unsigned v + words c₀.storage c₀.k t) c₀ (n + 1) c := by
  refine returns_row (by rw [start]) low high carry ?_ fun t c pos lt risen => ?_
  · simp only [Returns.bind_iff, NativeArray.returns_item, Returns.pure_iff, start]
    exact ⟨by omega, by omega, by rw [mbiMultiplyWithAdd_spec]; simp [words]⟩
  · have hi := risen.i_eq
    have hk := risen.k_eq
    have hsize := risen.size_eq
    simp only [Returns.bind_iff, NativeArray.returns_item, Returns.pure_iff, hi, hk, start,
      risen.frame _ (.inr le_rfl)]
    exact ⟨by omega, by omega, by rw [mbiMultiplyWith2Add_spec]; simp only [words]; ring⟩

theorem returns_multiplyRowReverse :
    Returns (multiplyRowReverse x (i₀ + n) v c₀) fun c =>
      Cursor.Risen 1 unsigned
        (fun t => words x i₀ t * unsigned v + if t = 0 then 0 else words c₀.storage c₀.k t)
        c₀ (n + 1) c := by
  refine returns_row (by rw [start]) low high carry ?_ fun t c pos lt risen => ?_
  · simp only [Returns.bind_iff, NativeArray.returns_item, Returns.pure_iff, start]
    exact ⟨by omega, by rw [mbiMultiply_spec]; simp [words]⟩
  · have hi := risen.i_eq
    have hk := risen.k_eq
    have hsize := risen.size_eq
    simp only [Returns.bind_iff, NativeArray.returns_item, Returns.pure_iff, hi, hk, start,
      risen.frame _ (.inr le_rfl), if_neg pos.ne']
    exact ⟨by omega, by omega, by rw [mbiMultiplyWith2Add_spec]; simp only [words]; ring⟩

end Rows

/-! ## All the rows -/

/-- The passes of `multiply_to_like_human` and `multiply_like_human_aux`: the words
`i … up_i` of `x` times the words `j … up_j` that `readV` gives, written from 0 on.
The result is the storage and the last high word. -/
def multiplyWords (x : NativeArray Word) (readV : NativeArray Word → Int → Option Word)
    (i upI j upJ : Int) (storage : NativeArray Word) :
    Option (NativeArray Word × Word) := do
  -- First pass
  let v ← readV storage j
  let c ← multiplyRow x upI v ⟨storage, i, 0, 0, 0⟩
  let storage ← c.storage.put c.carry c.k
  let (storage, _, _, overflow) ← untilLoop
    (fun (_, j, _, _) => some (decide (j = upJ)))
    (fun (storage, j, downK, _) => do
      let j := j + 1
      let v ← readV storage j
      let c ← multiplyRowAdd x upI v ⟨storage, i, 0, downK, 0⟩
      let storage ← c.storage.put c.carry c.k
      return (storage, j, downK + 1, c.carry))
    storage.size.toNat (storage, j, 1, c.carry)
  return (storage, overflow)

section Words

variable {x y : NativeArray Word} {i₀ o : Int} {n n' : ℕ}

/-- The words up to row `r` are the product by the words of `y` up to `r`. -/
structure RowsDone (x : NativeArray Word) (i₀ : Int) (n : ℕ) (y : NativeArray Word)
    (o : Int) (storage : NativeArray Word) (r : ℕ) (s : NativeArray Word)
    (overflow : Word) : Prop where
  size_eq : s.size = storage.size
  frame : ∀ u : Int, (n + 1 + (r + 1) : ℕ) ≤ u → s.cell u = storage.cell u
  value_eq : wordValue s 0 (n + 1 + (r + 1)) = wordValue x i₀ (n + 1) * wordValue y o (r + 1)
  top_eq : s.cell (n + 1 + r : ℕ) = overflow

/-- A row that starts at `r` and the high word written above it. -/
theorem wordValue_row {s : NativeArray Word} {c : Cursor Word} {v : Word} {r : ℕ}
    {digit : ℕ → ℤ} {a : ℤ}
    (row : Cursor.Risen 1 unsigned digit ⟨s, i₀, 0, r, 0⟩ (n + 1) c)
    (digits : Positional.value wordBase digit (n + 1) = wordValue x i₀ (n + 1) * unsigned v + a) :
    wordValue (c.storage.set c.carry c.k) 0 (n + 1 + (r + 1)) =
      wordValue s 0 r + wordBase ^ r * (wordValue x i₀ (n + 1) * unsigned v + a) := by
  have hk := row.k_eq
  have eq := row.value_eq
  simp only at hk eq
  rw [digits, one_mul, unsigned_zero, add_zero] at eq
  have below : wordValue (c.storage.set c.carry c.k) 0 r = wordValue s 0 r :=
    wordValue_congr fun u hu => by
      rw [NativeArray.cell_set_of_ne _ _ (by omega), row.frame _ (by simp only; omega)]
  have middle : wordValue (c.storage.set c.carry c.k) (0 + r) (n + 1) =
      wordValue c.storage r (n + 1) :=
    wordValue_congr fun u hu => by
      rw [NativeArray.cell_set_of_ne _ _ (by omega), zero_add]
  rw [show n + 1 + (r + 1) = r + (n + 1 + 1) by omega, wordValue_add, below, wordValue_succ,
    middle, show (0 + r + ((n + 1 : ℕ) : Int)) = c.k by omega, NativeArray.cell_set_self, ← eq]
  ring

theorem RowsDone.start {storage : NativeArray Word} {c : Cursor Word} {v : Word}
    (row : Cursor.Risen 1 unsigned (fun t => words x i₀ t * unsigned v)
      ⟨storage, i₀, 0, 0, 0⟩ (n + 1) c) (hv : v = y.cell o) :
    RowsDone x i₀ n y o storage 0 (c.storage.set c.carry c.k) c.carry := by
  have hk := row.k_eq
  simp only at hk
  have eq := wordValue_row (x := x) (v := v) (r := 0) (a := 0) row (by
    have := Positional.value_mul_add (B := wordBase) (f := words x i₀) (g := fun _ => 0)
      (n := n + 1) (unsigned v)
    simpa [wordValue, Positional.value_of_zero] using this)
  refine ⟨row.size_eq, fun u hu => ?_, ?_, ?_⟩
  · rw [NativeArray.cell_set_of_ne _ _ (by omega), row.frame _ (by simp only; omega)]
  · rw [eq, wordValue_zero, hv, wordValue_succ y, wordValue_zero, Nat.cast_zero, add_zero o]
    ring
  · rw [show ((n + 1 + 0 : ℕ) : Int) = c.k by omega, NativeArray.cell_set_self]

theorem RowsDone.next {storage s : NativeArray Word} {c : Cursor Word} {v overflow : Word}
    {r : ℕ} (done : RowsDone x i₀ n y o storage r s overflow)
    (row : Cursor.Risen 1 unsigned
      (fun t => words x i₀ t * unsigned v + words s (r + 1 : ℕ) t)
      ⟨s, i₀, 0, (r + 1 : ℕ), 0⟩ (n + 1) c) (hv : v = y.cell (o + (r + 1 : ℕ))) :
    RowsDone x i₀ n y o storage (r + 1) (c.storage.set c.carry c.k) c.carry := by
  have hk := row.k_eq
  simp only at hk
  have eq := wordValue_row (x := x) row (Positional.value_mul_add _)
  have before := done.value_eq
  rw [show n + 1 + (r + 1) = r + 1 + (n + 1) by omega, wordValue_add, zero_add] at before
  refine ⟨row.size_eq.trans done.size_eq, fun u hu => ?_, ?_, ?_⟩
  · rw [NativeArray.cell_set_of_ne _ _ (by omega), row.frame _ (by simp only; omega),
      done.frame _ (by push_cast at hu ⊢; omega)]
  · rw [eq, wordValue_succ y, hv]
    change wordValue s 0 (r + 1) + wordBase ^ (r + 1) * (_ + wordValue s (r + 1 : ℕ) (n + 1)) = _
    linear_combination before
  · rw [show ((n + 1 + (r + 1) : ℕ) : Int) = c.k by push_cast at hk ⊢; omega,
      NativeArray.cell_set_self]

theorem returns_multiplyWords {readV : NativeArray Word → Int → Option Word} {j₀ : Int}
    {storage : NativeArray Word} (inside : 0 ≤ i₀ ∧ i₀ + (n + 1) ≤ x.size)
    (room : (n + n' + 2 : ℕ) ≤ storage.size)
    (reads : ∀ r : ℕ, r ≤ n' → ∀ s : NativeArray Word, s.size = storage.size →
      (∀ u : Int, (n + 1 + r : ℕ) ≤ u → s.cell u = storage.cell u) →
      Returns (readV s (j₀ + r)) (· = y.cell (o + r))) :
    Returns (multiplyWords x readV i₀ (i₀ + n) j₀ (j₀ + n') storage) fun (s, overflow) =>
      RowsDone x i₀ n y o storage n' s overflow := by
  have first := reads 0 (by omega) storage rfl fun _ _ => rfl
  rw [Nat.cast_zero, add_zero, add_zero] at first
  refine first.bind fun v hv => (returns_multiplyRow v rfl inside le_rfl
    (by simp only; omega) rfl).bind fun c row => ?_
  have hk := row.k_eq
  have hsize := row.size_eq
  simp only at hk hsize
  rw [Returns.bind_iff, NativeArray.returns_put]
  refine ⟨by omega, Returns.bind (P := fun result => RowsDone x i₀ n y o storage n' result.1
    result.2.2.2) ?_ fun _ done => Returns.pure_iff.mpr done⟩
  refine returns_untilLoop
    (fun (s, j, downK, overflow) => ∃ r : ℕ, r ≤ n' ∧ j = j₀ + r ∧ downK = r + 1 ∧
      RowsDone x i₀ n y o storage r s overflow)
    (fun (_, j, _, _) => (j₀ + n' - j).toNat)
    ⟨0, by omega, by simp, by simp, .start row hv⟩
    (by simp only [NativeArray.size_set]; omega) ?_
  rintro ⟨s, _, _, overflow⟩ ⟨r, le, rfl, rfl, done⟩
  rw [Returns.some_iff]
  split
  · rename_i stopped
    rw [decide_eq_true_eq] at stopped
    obtain rfl : r = n' := by omega
    exact done
  · rename_i going
    rw [decide_eq_true_eq] at going
    have size := done.size_eq
    have next := reads (r + 1) (by omega) s size done.frame
    rw [show j₀ + ((r + 1 : ℕ) : Int) = j₀ + r + 1 by push_cast; omega] at next
    refine next.bind fun v hv => (returns_multiplyRowAdd v rfl inside (by simp only; omega)
      (by simp only; push_cast; omega) rfl).bind fun c row => ?_
    have hk := row.k_eq
    have hsize := row.size_eq
    simp only at hk hsize
    rw [Returns.bind_iff, NativeArray.returns_put]
    exact ⟨by omega, Returns.pure_iff.mpr ⟨⟨r + 1, by omega, by push_cast; omega,
      by push_cast; rfl, done.next row hv⟩, by dsimp only; omega⟩⟩

/-- The passes never end when `j` begins above its last value. -/
theorem multiplyWords_eq_none {readV : NativeArray Word → Int → Option Word} {upI j upJ : Int}
    (above : upJ < j) (storage : NativeArray Word) :
    multiplyWords x readV i₀ upI j upJ storage = none := by
  rw [multiplyWords]
  cases readV storage j with
  | none => rfl
  | some v =>
    rw [Returns.some_bind]
    cases multiplyRow x upI v ⟨storage, i₀, 0, 0, 0⟩ with
    | none => rfl
    | some c =>
      rw [Returns.some_bind]
      cases c.storage.put c.carry c.k with
      | none => rfl
      | some storage =>
        rw [Returns.some_bind, untilLoop_eq_none (fun s => upJ < s.2.1) above]
        · rfl
        · rintro ⟨_, j, _, _⟩ lt stopped
          simp only [Option.some.injEq, decide_eq_true_eq] at lt stopped
          omega
        · rintro ⟨_, j, _, _⟩ ⟨_, j', _, _⟩ lt run
          simp only [Option.bind_eq_bind, Option.bind_eq_some_iff, Option.pure_def,
            Option.some.injEq, Prod.mk.injEq] at lt run
          dsimp only
          omega

end Words

/-! ## From the top -/

/-- Add the last high word of a row to the word above the row, and its carry to the
words above that one. -/
def addAbove (s : NativeArray Word) (k : Int) (overflow : Word) :
    Option (NativeArray Word) := do
  let c ← Cursor.up ⟨s, k, 0, k, false⟩ (mbiAdd (← s.item k) overflow)
  let c ← c.upLoop (fun c => !c.carry) fun c => do return mbiInc (← c.storage.item c.i)
  return c.storage

/-- The passes of `multiply_like_human_aux_reverse`: the words `i … up_i` of `x` times
the words of the storage from `j` down to `down_j`, written from each of these on. -/
def multiplyWordsReverse (x : NativeArray Word) (i upI downJ j : Int)
    (storage : NativeArray Word) : Option (NativeArray Word) := do
  -- First pass
  let v ← storage.item j
  let c ← multiplyRow x upI v ⟨storage, i, 0, j, 0⟩
  let storage ← c.storage.put c.carry c.k
  let (storage, _, _) ← untilLoop
    (fun (_, j, _) => some (decide (j = downJ)))
    (fun (storage, j, downK) => do
      let j := j - 1
      let v ← storage.item j
      let c ← multiplyRowReverse x upI v ⟨storage, i, 0, downK, 0⟩
      let storage ← addAbove c.storage c.k c.carry
      return (storage, j, downK - 1))
    storage.size.toNat (storage, j, j - 1)
  return storage

section Reverse

variable {x : NativeArray Word} {i₀ : Int} {n n' : ℕ}

theorem returns_addAbove {s : NativeArray Word} {k : Int} {n : ℕ} {overflow : Word}
    (low : 0 ≤ k) (high : k + (n + 1) ≤ s.size)
    (fits : wordValue s k (n + 1) + unsigned overflow < wordBase ^ (n + 1)) :
    Returns (addAbove s k overflow) fun s' => s'.size = s.size ∧
      (∀ u : Int, u < k ∨ k + (n + 1) ≤ u → s'.cell u = s.cell u) ∧
      wordValue s' k (n + 1) = wordValue s k (n + 1) + unsigned overflow := by
  let a : MutableBigInteger := ⟨s, s.size, (n + 1 : ℕ), k, false⟩
  have value := magnitude_oneWord overflow
  have noCarry : ∀ c, Combines a (oneWord overflow) 1 1 ⟨s, k, 0, k, false⟩ (n + 1) c →
      c.carry = false := by
    intro c combines
    have eq := combines.value_eq' (b := oneWord overflow) rfl (by omega) rfl
    have nonneg := wordValue_nonneg c.storage k (n + 1)
    cases carry : c.carry with
    | false => rfl
    | true =>
      rw [value, carry] at eq
      simp only [bit_true, mul_one, one_mul] at eq
      change _ + _ = wordValue s k (n + 1) + _ at eq
      omega
  rw [addAbove, Returns.bind_iff, NativeArray.returns_item]
  refine ⟨by omega, (returns_firstRound (m := a) addStep_spec' low (by simp only [a]; omega)
    overflow).bind fun c₁ common => (returns_lastRounds (n := n + 1) common (by omega) low
      (by simp only; push_cast; omega) mbiInc_spec' (fun t c lt combines => ?_)
      fun t c le combines => ?_).bind ?_⟩
  · have hi := combines.i_eq
    have hsize := combines.size_eq
    simp only [a] at hi hsize
    rw [NativeArray.returns_item, combines.frame _ (by simp only [a]; omega), hi]
    exact ⟨by omega, rfl⟩
  · rw [Bool.not_eq_true']
    refine ⟨.inl, fun ended => ended.elim id ?_⟩
    rintro rfl
    exact noCarry c combines
  · rintro c ⟨t, low', high', combines, ended, -⟩
    have carry : c.carry = false := by
      refine ended.elim id ?_
      rintro rfl
      exact noCarry c combines
    have eq := combines.value_of_same (a := a) (n := n + 1) rfl (b := oneWord overflow) rfl
      low' high' rfl carry (fun _ _ => rfl) fun u hu hu' => combines.frame _ (by
        omega)
    rw [magnitude, value, one_mul] at eq
    exact Returns.pure_iff.mpr ⟨combines.size_eq, fun u outside => combines.frame _ (by
      simp only [a]
      omega), eq⟩

/-- The words from `d` on are the product by the words that stood there. -/
structure RowsSunk (x : NativeArray Word) (i₀ : Int) (n : ℕ) (storage : NativeArray Word)
    (d : Int) (r : ℕ) (s : NativeArray Word) : Prop where
  size_eq : s.size = storage.size
  frame : ∀ u : Int, u < d → s.cell u = storage.cell u
  value_eq : wordValue s d (r + n + 2) =
    wordValue x i₀ (n + 1) * wordValue storage d (r + 1)

theorem RowsSunk.start {storage : NativeArray Word} {c : Cursor Word} {v : Word} {d : Int}
    (row : Cursor.Risen 1 unsigned (fun t => words x i₀ t * unsigned v)
      ⟨storage, i₀, 0, d, 0⟩ (n + 1) c) (hv : v = storage.cell d) :
    RowsSunk x i₀ n storage d 0 (c.storage.set c.carry c.k) := by
  have hk := row.k_eq
  have eq := row.value_eq
  simp only at hk eq
  have digits := Positional.value_mul_add (B := wordBase) (f := words x i₀) (g := fun _ => 0)
    (n := n + 1) (unsigned v)
  rw [Positional.value_of_zero (f := fun _ => 0) fun _ _ => rfl] at digits
  simp only [add_zero] at digits
  rw [digits, one_mul, unsigned_zero, add_zero] at eq
  change _ = wordValue x i₀ (n + 1) * _ at eq
  have below : wordValue (c.storage.set c.carry c.k) d (n + 1) = wordValue c.storage d (n + 1) :=
    wordValue_congr fun u hu => NativeArray.cell_set_of_ne _ _ (by omega)
  refine ⟨row.size_eq, fun u hu => ?_, ?_⟩
  · rw [NativeArray.cell_set_of_ne _ _ (by omega), row.frame _ (by simp only; omega)]
  · rw [show 0 + n + 2 = n + 1 + 1 by omega, wordValue_succ, below, ← hk,
      NativeArray.cell_set_self, wordValue_succ storage, wordValue_zero, Nat.cast_zero,
      add_zero d, ← hv, pow_zero]
    linear_combination eq

/-- What a row from the top and the words above it are worth. -/
theorem wordValue_rowReverse {s : NativeArray Word} {c : Cursor Word} {v : Word} {d : Int}
    (row : Cursor.Risen 1 unsigned
      (fun t => words x i₀ t * unsigned v + if t = 0 then 0 else words s (d - 1) t)
      ⟨s, i₀, 0, d - 1, 0⟩ (n + 1) c) (m : ℕ) :
    wordValue c.storage (d - 1) (n + 1) +
        wordBase ^ (n + 1) * (unsigned c.carry + wordValue c.storage (d + n) m) =
      wordValue x i₀ (n + 1) * unsigned v + wordBase * wordValue s d (n + m) := by
  have eq := row.value_eq
  have tail : Positional.value wordBase (fun t => if t = 0 then 0 else words s (d - 1) t)
      (n + 1) = wordBase * wordValue s d n := by
    rw [Positional.value_succ', if_pos rfl, zero_add]
    refine congrArg _ (Positional.value_congr fun t _ => ?_)
    rw [if_neg (Nat.succ_ne_zero t)]
    simp only [words]
    congr 2
    omega
  rw [Positional.value_mul_add, tail, one_mul, unsigned_zero, add_zero] at eq
  have above : wordValue c.storage (d + n) m = wordValue s (d + n) m :=
    wordValue_congr fun u hu => row.frame _ (by simp only; push_cast; omega)
  rw [above, wordValue_add s d]
  change _ = wordValue x i₀ (n + 1) * _ + _ at eq
  linear_combination eq

theorem RowsSunk.next {storage s : NativeArray Word} {c : Cursor Word} {v : Word} {d : Int}
    {r : ℕ} (done : RowsSunk x i₀ n storage d r s)
    (row : Cursor.Risen 1 unsigned
      (fun t => words x i₀ t * unsigned v + if t = 0 then 0 else words s (d - 1) t)
      ⟨s, i₀, 0, d - 1, 0⟩ (n + 1) c) (hv : v = storage.cell (d - 1)) (low : 0 < d)
    (room : d + (r + n + 2) ≤ storage.size) :
    Returns (addAbove c.storage c.k c.carry) fun s' =>
      RowsSunk x i₀ n storage (d - 1) (r + 1) s' := by
  have hk := row.k_eq
  have hsize := row.size_eq
  have size := done.size_eq
  simp only at hk hsize
  have whole := wordValue_rowReverse row (r + 2)
  rw [show n + (r + 2) = r + n + 2 by omega, done.value_eq] at whole
  have product : wordValue x i₀ (n + 1) * unsigned v +
        wordBase * (wordValue x i₀ (n + 1) * wordValue storage d (r + 1)) =
      wordValue x i₀ (n + 1) * wordValue storage (d - 1) (r + 2) := by
    rw [wordValue_succ' storage (d - 1), ← hv, show d - 1 + 1 = d by omega]
    ring
  have fits : wordValue c.storage (d + n) (r + 1 + 1) + unsigned c.carry <
      wordBase ^ (r + 1 + 1) := by
    have ltX := wordValue_lt x i₀ (n + 1)
    have ltV := wordValue_lt storage (d - 1) (r + 2)
    have nonnegX := wordValue_nonneg x i₀ (n + 1)
    have nonnegV := wordValue_nonneg storage (d - 1) (r + 2)
    have nonneg := wordValue_nonneg c.storage (d - 1) (n + 1)
    have pos := wordBase_pow_pos (n + 1)
    have lt : wordValue x i₀ (n + 1) * wordValue storage (d - 1) (r + 2) <
        wordBase ^ (n + 1) * wordBase ^ (r + 2) :=
      mul_lt_mul'' ltX ltV nonnegX nonnegV
    refine lt_of_mul_lt_mul_left (a := wordBase ^ (n + 1)) ?_ pos.le
    linarith
  rw [show c.k = d + n by omega]
  refine (returns_addAbove (by omega) (by push_cast; omega) fits).mono ?_
  rintro s' ⟨hsize', frame, eq⟩
  refine ⟨by omega, fun u hu => ?_, ?_⟩
  · rw [frame u (by omega), row.frame u (by simp only; omega), done.frame u (by omega)]
  · have below : wordValue s' (d - 1) (n + 1) = wordValue c.storage (d - 1) (n + 1) :=
      wordValue_congr fun u hu => frame _ (by omega)
    rw [show r + 1 + n + 2 = n + 1 + (r + 1 + 1) by omega, wordValue_add, below,
      show d - 1 + ((n + 1 : ℕ) : Int) = d + n by push_cast; omega, eq]
    linarith

theorem returns_multiplyWordsReverse {storage : NativeArray Word} {off : Int}
    (inside : 0 ≤ i₀ ∧ i₀ + (n + 1) ≤ x.size) (low : 0 ≤ off)
    (room : off + (n + n' + 2 : ℕ) ≤ storage.size) :
    Returns (multiplyWordsReverse x i₀ (i₀ + n) off (off + n') storage) fun s =>
      RowsSunk x i₀ n storage off n' s := by
  rw [multiplyWordsReverse, Returns.bind_iff, NativeArray.returns_item]
  refine ⟨by omega, (returns_multiplyRow _ rfl inside (by simp only; omega)
    (by simp only; omega) rfl).bind fun c row => ?_⟩
  have hk := row.k_eq
  have hsize := row.size_eq
  simp only at hk hsize
  rw [Returns.bind_iff, NativeArray.returns_put]
  refine ⟨by omega, Returns.bind (P := fun result => RowsSunk x i₀ n storage off n' result.1)
    ?_ fun _ done => Returns.pure_iff.mpr done⟩
  refine returns_untilLoop
    (fun (s, j, downK) => ∃ r : ℕ, r ≤ n' ∧ j = off + n' - r ∧ downK = j - 1 ∧
      RowsSunk x i₀ n storage j r s)
    (fun (_, j, _) => (j - off).toNat)
    ⟨0, by omega, by simp, rfl, .start row rfl⟩
    (by simp only [NativeArray.size_set]; omega) ?_
  rintro ⟨s, _, _⟩ ⟨r, le, rfl, rfl, done⟩
  rw [Returns.some_iff]
  split
  · rename_i stopped
    rw [decide_eq_true_eq] at stopped
    obtain rfl : r = n' := by omega
    rwa [show off + (r : Int) - r = off by omega] at done
  · rename_i going
    rw [decide_eq_true_eq] at going
    have size := done.size_eq
    rw [Returns.bind_iff, NativeArray.returns_item]
    refine ⟨by omega, (returns_multiplyRowReverse _ rfl inside (by simp only; omega)
      (by simp only; omega) rfl).bind fun c row => (done.next row
        (done.frame _ (by omega)) (by omega) (by omega)).bind fun s' done' =>
          Returns.pure_iff.mpr ⟨⟨r + 1, by omega, by push_cast; omega, rfl, ?_⟩, ?_⟩⟩
    · exact done'
    · dsimp only
      omega

end Reverse

end MutableBigInteger

end Liberty
