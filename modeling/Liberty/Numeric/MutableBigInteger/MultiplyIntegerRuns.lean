import Liberty.Numeric.MutableBigInteger.Exactness

/-!
# Products with an INTEGER in a reachable world

`multiply_integer` writes the words of the product where they belong.  It does not record
the length of a product that is longer than the object, and for the minimum integer it
shifts the object in place of the result.
-/

namespace Liberty

namespace MutableBigInteger

section Exactness

variable {m res : MutableBigInteger}

/-- The product has the length that `res` is given. -/
def MultiplyIntegerRight (m res : MutableBigInteger) (other : Word) : Prop :=
  other ≠ 0 → m.integerLength ≠ 0 →
    other ≠ minimumInteger ∧
      (m.magnitude * |other.toInt| < wordBase ^ m.integerLength.toNat ∨
        res.integerLength = m.integerLength + 1)

/-- The storage taken for `res` has a word more than the object. -/
theorem returns_multiplyIntegerStorage (hm : Valid m) (size : res.storage.size = res.capacity) :
    Returns (m.multiplyIntegerStorage res (m.integerLength + 1)) fun (m', r) =>
      (∃ capacity, m' = { m with capacity }) ∧ (∃ storage, r = { res with storage }) ∧
        m.integerLength < r.storage.size := by
  have least := hm.isCapacity.four_le
  have le := hm.length_le
  rw [multiplyIntegerStorage]
  split
  · split
    · rw [Returns.some_bind]
      refine Returns.pure_iff.mpr ⟨⟨_, rfl⟩, ⟨_, rfl⟩, ?_⟩
      rw [NativeArray.size_calloc]
      omega
    · apply (returns_capacityFromUpperBound hm.isCapacity (by omega)).bind
      rintro capacity ⟨_, enough, _⟩
      refine Returns.pure_iff.mpr ⟨⟨_, rfl⟩, ⟨_, rfl⟩, ?_⟩
      rw [NativeArray.size_calloc]
      omega
  · exact Returns.some_iff.mpr ⟨⟨_, rfl⟩, ⟨_, rfl⟩, by omega⟩

/-- The length of a normalised number is the one of its magnitude. -/
theorem Exact.length_eq {r : MutableBigInteger} {negative : Bool} {v : ℤ} {n : ℕ}
    (exact : Exact r (signed negative v)) (low : wordBase ^ n ≤ v)
    (high : v < wordBase ^ (n + 1)) : r.integerLength = n + 1 := by
  have positive := wordBase_pow_pos n
  have magnitude : r.magnitude = v := by
    rw [← abs_value, exact.value_eq]
    cases negative
    · rw [signed_false, abs_of_nonneg (by omega)]
    · rw [signed_true, abs_neg, abs_of_nonneg (by omega)]
  have nonneg := exact.length_nonneg
  have some : r.integerLength ≠ 0 := fun zero => by
    rw [magnitude_of_zero zero] at magnitude
    omega
  obtain ⟨k, length⟩ : ∃ k : ℕ, r.integerLength = k + 1 :=
    ⟨(r.integerLength - 1).toNat, by omega⟩
  have least := exact.toNormalised.le_magnitude length
  have most := magnitude_lt (n := k + 1) length
  have one : 1 < wordBase := by decide
  have le : k < n + 1 := (pow_lt_pow_iff_right₀ one).mp (by omega)
  have ge : n < k + 1 := (pow_lt_pow_iff_right₀ one).mp (by omega)
  omega

/-- The row of the product, and what `res` is told about its length. -/
theorem returns_multiplyIntegerWords_iff (hm : Valid m) (hr : Valid res)
    (nonzero : m.integerLength ≠ 0) {v : Word} (some : v ≠ 0) (negative : Bool) :
    Returns (m.multiplyIntegerWords (res.setNegative negative) v) fun (m', r) =>
      m'.value = m.value ∧
        (Exact r (signed negative (m.magnitude * unsigned v)) ↔
          m.magnitude * unsigned v < wordBase ^ m.integerLength.toNat ∨
            res.integerLength = m.integerLength + 1) := by
  have range := hm.offset_range nonzero
  have size := hm.size_eq
  obtain ⟨n, length⟩ := hm.length_eq_succ nonzero
  have magnitude := magnitude_eq (m := m) (n := n + 1) length
  have least := hm.le_magnitude length
  have most := magnitude_lt (n := n + 1) length
  have positive := unsigned_pos some
  have word := unsigned_lt v
  apply (@returns_multiplyIntegerStorage _ (res.setNegative negative) hm hr.size_eq).bind
  intro (m', r) ⟨⟨capacity, same⟩, ⟨storage, same'⟩, room⟩
  subst same same'
  dsimp only at room ⊢
  rw [show m.offset + m.integerLength - 1 = m.offset + n by omega,
    show m.integerLength.toNat = n + 1 by omega]
  apply (returns_multiplyRow (n := n) v (show _ = m.offset from rfl) ⟨range.1, by omega⟩ le_rfl
    (by simp only [setOffset]; omega) rfl).bind
  intro c row
  have hsize := row.size_eq
  have eq := row.value_eq
  have product := Positional.value_mul_add (B := wordBase) (f := words m.storage m.offset)
    (g := fun _ => 0) (n := n + 1) (unsigned v)
  rw [Positional.value_of_zero (f := fun _ => (0 : ℤ)) fun _ _ => rfl, add_zero] at product
  simp only [add_zero] at product
  dsimp only [setOffset] at hsize eq
  rw [product, one_mul, unsigned_zero, add_zero] at eq
  change _ = wordValue m.storage m.offset (n + 1) * unsigned v at eq
  rw [← magnitude] at eq
  have nonneg := wordValue_nonneg c.storage 0 (n + 1)
  have low := wordValue_lt c.storage 0 (n + 1)
  split
  · rename_i none
    rw [none, unsigned_zero, mul_zero, add_zero] at eq
    refine Returns.pure_iff.mpr ⟨rfl, iff_of_true ?_ (.inl (by omega))⟩
    refine (exact_iff (n := n) ?_ le_rfl ?_).mpr ⟨eq, ?_⟩
    · dsimp only [setIntegerLength]
      omega
    · dsimp only [setIntegerLength, setOffset]
      omega
    · exact least.trans (le_mul_of_one_le_right m.magnitude_nonneg positive)
  · rename_i carries
    have carry := unsigned_pos carries
    have long : wordBase ^ (n + 1) ≤ m.magnitude * unsigned v := by nlinarith
    have short : m.magnitude * unsigned v < wordBase ^ (n + 1 + 1) := by
      rw [pow_succ]
      nlinarith
    rw [put, Returns.bind_iff, Returns.bind_iff, NativeArray.returns_put]
    refine ⟨by dsimp only; omega, Returns.pure_iff.mpr (Returns.pure_iff.mpr ⟨rfl, ?_⟩)⟩
    constructor
    · intro exact
      have recorded := exact.length_eq long short
      dsimp only [setOffset, setNegative] at recorded
      exact .inr (by omega)
    · intro recorded
      refine (exact_iff (n := n + 1) ?_ le_rfl ?_).mpr ⟨?_, long⟩
      · dsimp only [setOffset, setNegative]
        omega
      · dsimp only [setOffset, NativeArray.size_set]
        omega
      · dsimp only [setOffset]
        have below : wordValue (c.storage.set c.carry m.integerLength) 0 (n + 1) =
            wordValue c.storage 0 (n + 1) :=
          wordValue_congr fun u hu => NativeArray.cell_set_of_ne _ _ (by omega)
        have top : (c.storage.set c.carry m.integerLength).cell (0 + (n + 1 : ℕ)) = c.carry := by
          rw [show (0 : Int) + (n + 1 : ℕ) = m.integerLength by push_cast; omega,
            NativeArray.cell_set_self]
        rw [wordValue_succ, below, top, ← eq]
        ring

/-- For the minimum integer the object is shifted. -/
theorem value_ne_of_minimum (hm : Valid m) (nonzero : m.integerLength ≠ 0) :
    Returns (m.shiftLeft 31) fun r => r.value ≠ m.value := by
  have some : m.value ≠ 0 := fun zero => nonzero (hm.value_eq_zero.mp zero)
  apply (returns_shiftLeft hm 31).mono
  intro r ⟨holds, _⟩ same
  rw [holds.value_eq] at same
  omega

theorem signed_mul_right (negative : Bool) (a b : ℤ) :
    signed negative a * b = signed negative (a * b) := by
  cases negative
  · rfl
  · exact neg_mul a b

/-- `multiply_integer` leaves the product in `res` and the value of the object if and only
if the product has the length that `res` is given. -/
theorem multiplyInteger_iff (hm : Valid m) (hr : Valid res) (other : Word) :
    Returns (m.multiplyInteger other res) (fun (m', r) =>
      m'.value = m.value ∧ Exact r (m.value * other.toInt)) ↔ MultiplyIntegerRight m res other := by
  rw [multiplyInteger]
  split
  · rename_i zero
    have product : m.value * other.toInt = 0 := by
      rcases zero with rfl | zero
      · exact mul_zero _
      · rw [value_of_zero zero, zero_mul]
    rw [product, Returns.some_iff]
    exact iff_of_true ⟨rfl, hr.setWithZero_holds.exact⟩
      fun some nonzero => absurd zero (not_or.mpr ⟨some, nonzero⟩)
  rename_i some
  obtain ⟨some, nonzero⟩ := not_or.mp some
  have right : MultiplyIntegerRight m res other ↔ other ≠ minimumInteger ∧
      (m.magnitude * |other.toInt| < wordBase ^ m.integerLength.toNat ∨
        res.integerLength = m.integerLength + 1) :=
    ⟨fun right => right some nonzero, fun right _ _ => right⟩
  rw [right, value_eq_signed m, signed_mul_right]
  split
  · rename_i minimum
    refine iff_of_false (fun returns => ?_) fun right => right.1 minimum
    obtain ⟨r, run, changed⟩ := value_ne_of_minimum hm nonzero
    rw [run, Returns.some_bind, Returns.pure_iff] at returns
    exact changed (returns.1.trans (value_eq_signed m).symm)
  rename_i notMinimum
  rw [and_iff_right notMinimum]
  split
  · rename_i positive
    rw [abs_of_pos positive, ← unsigned_of_toInt_pos positive]
    exact (returns_multiplyIntegerWords_iff hm hr nonzero some m.negative).iff_of
      fun _ whole => (and_iff_right whole.1).trans whole.2
  · rename_i notPositive
    have negative : other.toInt < 0 := by
      rcases Int.lt_trichotomy other.toInt 0 with negative | zero | positive
      · exact negative
      · exact absurd (BitVec.eq_of_toInt_eq zero) some
      · exact absurd positive notPositive
    have word := unsigned_neg_of_toInt_neg negative
    have some' : -other ≠ 0 := fun zero => by
      rw [zero, unsigned_zero] at word
      omega
    rw [abs_of_neg negative, ← word, show m.magnitude * other.toInt =
      -(m.magnitude * unsigned (-other)) by rw [word]; ring, ← signed_not]
    exact (returns_multiplyIntegerWords_iff hm hr nonzero some' (!m.negative)).iff_of
      fun _ whole => (and_iff_right whole.1).trans whole.2

end Exactness

namespace World

variable {w : World}

/-- In every reachable world `multiply_integer` leaves the product in `res`, and the value
of the object as it was, if and only if the product has the length that `res` is given. -/
theorem Reachable.multiplyInteger (reachable : Reachable w) {i res : ℕ} (created : w.Created i)
    (created' : w.Created res) (apart : res ≠ i) (k : Word) :
    Returns (w.run (.multiplyInteger i k res)) (fun w' =>
        w'.value i = w.value i ∧ Exact (w'.object res) (w.value i * k.toInt)) ↔
      MultiplyIntegerRight (w.object i) (w.object res) k := by
  have hm := reachable.valid.created created
  have hr := reachable.valid.created created'
  refine Iff.trans ?_ (multiplyInteger_iff hm hr k)
  rw [run]
  cases product : (w.object i).multiplyInteger k (w.object res) with
  | none => simp
  | some result =>
    rw [Returns.some_bind, Returns.pure_iff, Returns.some_iff, value, value,
      set_object_of_ne _ _ apart.symm, set_object_self, set_object_self]

/-- A run leaves `2 ^ 31` in the object 0 and `0` in the object 1.  The product by 2 has two
words, and the object 1 is told nothing about them. -/
theorem reachable_half : ∃ w, Reachable w ∧ w.Created 0 ∧ w.Created 1 ∧
    w.value 0 = 2147483648 ∧ ∃ w', w.run (.multiplyInteger 0 2 1) = some w' ∧
      (w'.object 1).integerLength = 0 := by
  have zero := Reachable.start.step (c := .fromInteger 1 0) trivial trivial rfl
  have half := zero.step (c := .fromInteger 0 0x80000000) trivial trivial rfl
  have positive := half.step (c := .negate 0) (by unfold Allowed; decide) trivial rfl
  exact ⟨_, positive, by decide, by decide, by decide, _, rfl, by decide⟩

theorem Reachable.multiplyInteger_half : ∃ w, Reachable w ∧
    (Returns (w.run (.multiplyInteger 0 1 1)) (fun w' =>
        w'.value 0 = w.value 0 ∧ Exact (w'.object 1) (w.value 0 * (1 : Word).toInt)) ↔
      MultiplyIntegerRight (w.object 0) (w.object 1) 1) := by
  obtain ⟨w, reachable, created, created', -⟩ := reachable_half
  exact ⟨w, reachable, reachable.multiplyInteger created created' (by decide) 1⟩

/-- `multiply_integer` does not always leave the product. -/
theorem not_multiplyInteger_exact : ¬∀ w i res k, Reachable w → w.Created i → w.Created res →
    res ≠ i → Returns (w.run (.multiplyInteger i k res)) fun w' =>
      w'.value i = w.value i ∧ Exact (w'.object res) (w.value i * k.toInt) := by
  intro exact
  obtain ⟨w, reachable, created, created', value, w', run, zero⟩ := reachable_half
  obtain ⟨-, product⟩ := (exact w 0 1 2 reachable created created' (by decide)).unique run
  have eq := product.value_eq
  rw [value_of_zero zero, value] at eq
  exact absurd eq (by decide)

end World

end MutableBigInteger

end Liberty
