import Liberty.Numeric.Number.IntegerGeneralNumber

/-!
# The order of integers

Two BIG_INTEGER_NUMBERs of one sign and one length are ordered by the highest words that differ.  The words
are compared as INTEGERs with a sign: the order is the wrong one exactly where one of them has its top bit set
and the other has not.
-/

namespace Liberty

open MutableBigInteger

/-! ## The source -/

/-- `greater_with_big_integer_number` of two BIG_INTEGER_NUMBERs: `other` is the smaller one -/
def BigIntegerNumber.greaterWithBigIntegerNumber (n other : BigIntegerNumber) : Option Bool :=
  if n.negative ≠ other.negative then some (!n.negative)
  else if n.capacity = other.capacity then do
    let i ← untilLoop (fun i => if i < 0 then some true
        else do return decide ((← n.storage.item i) ≠ (← other.storage.item i)))
      (fun i => some (i - 1)) n.capacity.toNat (n.capacity - 1)
    if 0 ≤ i then
      let greater := decide ((← other.storage.item i).toInt < (← n.storage.item i).toInt)
      return greater ^^ n.negative
    else return false
  else
    some (decide (other.capacity < n.capacity) ^^ n.negative)

namespace IntegerGeneralNumber

/-- `infix "@>"` -/
def greaterThanInteger64 (n : IntegerGeneralNumber) (other : BitVec 64) : Bool :=
  match n with
  | integer64 value => decide (other.toInt < value.toInt)
  | bigInteger n => !n.negative

/-- `greater_with_big_integer_number` -/
def greaterWithBigIntegerNumber (n : IntegerGeneralNumber) (other : BigIntegerNumber) : Option Bool :=
  match n with
  | integer64 _ => some other.negative
  | bigInteger n => n.greaterWithBigIntegerNumber other

/-- `infix "<"` -/
def lessThan (n other : IntegerGeneralNumber) : Option Bool :=
  match n with
  | integer64 value => some (other.greaterThanInteger64 value)
  | bigInteger n => other.greaterWithBigIntegerNumber n

end IntegerGeneralNumber

/-! ## The words that decide -/

section Words

variable {x y : ℤ} {i j : ℕ}

/-- The word of a number at one place, in base `2 ^ 32`. -/
def wordAt (x : ℤ) (i : ℕ) : ℤ :=
  x / wordBase ^ i % wordBase

/-- The place is the highest one at which two numbers differ. -/
structure DiffersFirst (x y : ℤ) (i : ℕ) : Prop where
  above : x / wordBase ^ (i + 1) = y / wordBase ^ (i + 1)
  digit_ne : wordAt x i ≠ wordAt y i

theorem ediv_pow_succ (x : ℤ) (i : ℕ) : x / wordBase ^ i = x / wordBase ^ (i + 1) * wordBase + wordAt x i := by
  rw [wordAt, pow_succ, ← Int.ediv_ediv_of_nonneg (wordBase_pow_pos i).le, mul_comm]
  exact (Int.mul_ediv_add_emod _ _).symm

/-- What is above a place is above every higher one. -/
theorem digit_eq_of_above (above : x / wordBase ^ (i + 1) = y / wordBase ^ (i + 1)) (less : i < j) :
    wordAt x j = wordAt y j := by
  obtain ⟨k, rfl⟩ : ∃ k, j = i + 1 + k := ⟨j - (i + 1), by omega⟩
  unfold wordAt
  rw [pow_add, ← Int.ediv_ediv_of_nonneg (wordBase_pow_pos _).le, ← Int.ediv_ediv_of_nonneg (wordBase_pow_pos _).le,
    above]

theorem DiffersFirst.unique (h : DiffersFirst x y i) (h' : DiffersFirst x y j) : i = j := by
  rcases lt_trichotomy i j with less | same | more
  · exact absurd (digit_eq_of_above h.above less) h'.digit_ne
  · exact same
  · exact absurd (digit_eq_of_above h'.above more) h.digit_ne

/-- The highest digits that differ decide the order. -/
theorem DiffersFirst.lt_iff (h : DiffersFirst x y i) : x < y ↔ wordAt x i < wordAt y i := by
  have first := ediv_pow_succ x i
  have second := ediv_pow_succ y i
  have differ := h.digit_ne
  rw [h.above] at first
  have positive := wordBase_pow_pos i
  constructor
  · intro less
    have le := Int.ediv_le_ediv positive less.le
    omega
  · intro less
    by_contra more
    have le := Int.ediv_le_ediv positive (not_lt.mp more)
    omega

/-- The word has its top bit set. -/
def HighWord (w : ℤ) : Prop :=
  2147483648 ≤ w

/-- The order of two integers is read in words of which one has its top bit set and the other has not. -/
def Misorders (x y : ℤ) : Prop :=
  ¬InInteger64 x ∧ ¬InInteger64 y ∧ (x < 0 ↔ y < 0) ∧
    ∃ i : ℕ, wordBase ^ i ≤ |x| ∧ wordBase ^ i ≤ |y| ∧ DiffersFirst |x| |y| i ∧
      (HighWord (wordAt |x| i) ↔ ¬HighWord (wordAt |y| i))

theorem DiffersFirst.symm (h : DiffersFirst x y i) : DiffersFirst y x i :=
  ⟨h.above.symm, h.digit_ne.symm⟩

theorem Misorders.symm (h : Misorders x y) : Misorders y x := by
  obtain ⟨large, large', signs, i, le, le', differs, high⟩ := h
  exact ⟨large', large, signs.symm, i, le', le, differs.symm, by rw [high, not_not]⟩

theorem toInt_eq (w : Word) :
    ¬HighWord (unsigned w) ∧ w.toInt = unsigned w ∨ HighWord (unsigned w) ∧ w.toInt = unsigned w - wordBase := by
  rw [BitVec.toInt_eq_toNat_cond]
  unfold HighWord
  unfold unsigned wordBase at *
  split <;> omega

/-- The order of INTEGERs is that of the words when both have their top bits set or none has. -/
theorem toInt_lt_iff_of_agree {w w' : Word} (agree : HighWord (unsigned w) ↔ HighWord (unsigned w')) :
    w.toInt < w'.toInt ↔ unsigned w < unsigned w' := by
  rcases toInt_eq w with ⟨low, same⟩ | ⟨high, same⟩
  · rcases toInt_eq w' with ⟨low', same'⟩ | ⟨high', same'⟩
    · rw [same, same']
    · exact absurd (agree.mpr high') low
  · rcases toInt_eq w' with ⟨low', same'⟩ | ⟨high', same'⟩
    · exact absurd (agree.mp high) low'
    · rw [same, same']
      omega

theorem toInt_lt_iff_of_differ {w w' : Word} (differ : HighWord (unsigned w) ↔ ¬HighWord (unsigned w')) :
    w.toInt < w'.toInt ↔ unsigned w' < unsigned w := by
  have less := unsigned_lt w
  have less' := unsigned_lt w'
  have nonneg := unsigned_nonneg w
  have nonneg' := unsigned_nonneg w'
  rcases toInt_eq w with ⟨low, same⟩ | ⟨high, same⟩
  · rcases toInt_eq w' with ⟨low', same'⟩ | ⟨high', same'⟩
    · exact absurd (differ.mpr low') low
    · unfold HighWord at low high'
      omega
  · rcases toInt_eq w' with ⟨low', same'⟩ | ⟨high', same'⟩
    · unfold HighWord at high low'
      omega
    · exact absurd high' (differ.mp high)

end Words

/-! ## Comparison -/

namespace BigIntegerNumber

variable {n other : BigIntegerNumber} {x y : ℤ}

/-- The loop of `greater_with_big_integer_number` finds the highest words that differ. -/
theorem returns_firstDifference {s s' : NativeArray Word} {capacity : Int} (nonneg : 0 ≤ capacity)
    (inside : capacity ≤ s.size) (inside' : capacity ≤ s'.size) :
    Returns (untilLoop (fun i => if i < 0 then some true
        else do return decide ((← s.item i) ≠ (← s'.item i)))
      (fun i => some (i - 1)) capacity.toNat (capacity - 1)) fun i =>
        -1 ≤ i ∧ i < capacity ∧ (∀ j, i < j → j < capacity → s.cell j = s'.cell j) ∧
          (0 ≤ i → s.cell i ≠ s'.cell i) := by
  refine returns_untilLoop
    (fun i => -1 ≤ i ∧ i < capacity ∧ ∀ j, i < j → j < capacity → s.cell j = s'.cell j)
    (fun i => (i + 1).toNat) ⟨by omega, by omega, fun j above below => by omega⟩ (by omega) ?_
  intro i ⟨low, high, same⟩
  split
  · rename_i below
    rw [Returns.some_iff, if_pos rfl]
    exact ⟨low, high, same, fun above => by omega⟩
  · rename_i above
    rw [Returns.bind_iff, NativeArray.returns_item]
    refine ⟨by omega, ?_⟩
    rw [Returns.bind_iff, NativeArray.returns_item]
    refine ⟨by omega, Returns.pure_iff.mpr ?_⟩
    split
    · rename_i differ
      exact ⟨low, high, same, fun _ => of_decide_eq_true differ⟩
    · rename_i equal
      rw [decide_eq_true_eq, not_not] at equal
      refine Returns.some_iff.mpr ⟨⟨by omega, by omega, fun j after below => ?_⟩, by omega⟩
      rcases Decidable.em (j = i) with here | further
      · rw [here]
        exact equal
      · exact same j (by omega) below

theorem Represents.magnitude (h : n.Represents x) : ∃ k : ℕ, n.capacity = k + 1 ∧
    |x| = wordValue n.storage 0 (k + 1) ∧ wordBase ^ k ≤ |x| ∧ |x| < wordBase ^ (k + 1) ∧
      ∀ i : ℕ, i ≤ k → wordAt |x| i = unsigned (n.storage.cell i) := by
  obtain ⟨k, capacity, -, value, least⟩ := h.words
  have magnitude : |x| = wordValue n.storage 0 (k + 1) := by
    have nonneg := wordValue_nonneg n.storage 0 (k + 1)
    rw [value]
    cases n.negative
    · rw [signed_false, abs_of_nonneg nonneg]
    · rw [signed_true, abs_neg, abs_of_nonneg nonneg]
  refine ⟨k, capacity, magnitude, magnitude ▸ least, magnitude ▸ wordValue_lt _ _ _, fun i le => ?_⟩
  rw [magnitude, wordAt, wordValue_digit _ _ (by omega), zero_add]

/-- A shorter number is not compared in its words. -/
theorem not_misorders_of_length {k k' : ℕ} (high : |x| < wordBase ^ (k + 1)) (low : wordBase ^ k' ≤ |y|)
    (shorter : k < k') : ¬Misorders x y := by
  intro ⟨_, _, _, i, le, _, differs, _⟩
  have small : i < k + 1 := by
    by_contra large
    have most : wordBase ^ (k + 1) ≤ wordBase ^ i := pow_le_pow_right₀ wordBase_pos (by omega)
    omega
  obtain ⟨e, rfl⟩ : ∃ e, k' = i + 1 + e := ⟨k' - (i + 1), by omega⟩
  have mono : wordBase ^ (k + 1) ≤ wordBase ^ (i + 1 + e) := pow_le_pow_right₀ wordBase_pos (by omega)
  have first : |x| / wordBase ^ (i + 1) < wordBase ^ e := by
    apply Int.ediv_lt_of_lt_mul (wordBase_pow_pos _)
    rw [mul_comm, ← pow_add]
    omega
  have second : wordBase ^ e ≤ |y| / wordBase ^ (i + 1) := by
    apply Int.le_ediv_of_mul_le (wordBase_pow_pos _)
    rwa [mul_comm, ← pow_add]
  have same := differs.above
  omega

/-- The order of two numbers of one sign is that of their magnitudes, or the opposite one. -/
theorem decide_lt_of_sign {negative : Bool} (sign : negative = true ↔ x < 0) (sign' : negative = true ↔ y < 0)
    (differ : |x| ≠ |y|) : decide (y < x) = (decide (|y| < |x|) ^^ negative) := by
  cases negative with
  | false =>
    have nonneg : 0 ≤ x := not_lt.mp fun less => Bool.false_ne_true (sign.mpr less)
    have nonneg' : 0 ≤ y := not_lt.mp fun less => Bool.false_ne_true (sign'.mpr less)
    rw [abs_of_nonneg nonneg, abs_of_nonneg nonneg', Bool.xor_false]
  | true =>
    have less := sign.mp rfl
    have less' := sign'.mp rfl
    rw [abs_of_neg less, abs_of_neg less'] at differ ⊢
    rw [Bool.xor_true, Bool.eq_iff_iff, Bool.not_eq_true', decide_eq_true_eq, decide_eq_false_iff_not]
    omega

theorem wordValue_ediv (s : NativeArray Word) {t k : ℕ} (le : t ≤ k) :
    wordValue s 0 (k + 1) / wordBase ^ (t + 1) = wordValue s (t + 1 : ℕ) (k - t) := by
  rw [show k + 1 = t + 1 + (k - t) by omega, wordValue_add, Int.add_mul_ediv_left _ _ (wordBase_pow_pos _).ne',
    Int.ediv_eq_zero_of_lt (wordValue_nonneg _ _ _) (wordValue_lt _ _ _), zero_add, zero_add]

/-- `greater_with_big_integer_number` tells the order exactly where it does not read it in words of different top
bits. -/
theorem Represents.returns_greater (h : n.Represents x) (h' : other.Represents y) :
    Returns (n.greaterWithBigIntegerNumber other) fun greater =>
      greater = decide (y < x) ↔ ¬Misorders x y := by
  obtain ⟨k, capacity, magnitude, low, high, digits⟩ := h.magnitude
  obtain ⟨k', capacity', magnitude', low', high', digits'⟩ := h'.magnitude
  have size := h.size_eq
  have size' := h'.size_eq
  have sign := h.negative_iff
  have sign' := h'.negative_iff
  rw [greaterWithBigIntegerNumber]
  split
  · rename_i differ
    refine Returns.some_iff.mpr (iff_of_true ?_ fun wrong => differ ?_)
    · cases negative : n.negative with
      | true =>
        rw [negative] at sign differ
        rw [Bool.eq_false_iff.mpr fun signed => differ signed.symm] at sign'
        have less := sign.mp rfl
        have nonneg : 0 ≤ y := not_lt.mp fun less => Bool.false_ne_true (sign'.mpr less)
        rw [decide_eq_false (by omega)]
        rfl
      | false =>
        rw [negative] at sign differ
        rw [Bool.eq_true_of_not_eq_false fun signed => differ signed.symm] at sign'
        have less := sign'.mp rfl
        have nonneg : 0 ≤ x := not_lt.mp fun less => Bool.false_ne_true (sign.mpr less)
        rw [decide_eq_true (by omega)]
        rfl
    · rw [Bool.eq_iff_iff, sign, sign']
      exact wrong.2.2.1
  rename_i signs
  rw [not_not] at signs
  rw [← signs] at sign'
  split
  · rename_i lengths
    have same : k' = k := by omega
    subst same
    rw [Returns.bind_iff]
    refine (returns_firstDifference (by omega) size.ge (lengths ▸ size'.ge)).mono ?_
    intro i ⟨below, inside, equal, differ⟩
    split
    · rename_i above
      obtain ⟨t, rfl⟩ : ∃ t : ℕ, i = t := ⟨i.toNat, by omega⟩
      have place : t ≤ k' := by omega
      have first := digits t place
      have second := digits' t place
      have differs : DiffersFirst |x| |y| t := by
        refine ⟨?_, ?_⟩
        · rw [magnitude, magnitude', wordValue_ediv _ place, wordValue_ediv _ place]
          exact wordValue_congr fun u less => equal _ (by omega) (by omega)
        · rw [first, second, Ne, unsigned_inj]
          exact differ (by omega)
      have power : wordBase ^ t ≤ wordBase ^ k' := pow_le_pow_right₀ wordBase_pos place
      have wrong : Misorders x y ↔ (HighWord (unsigned (n.storage.cell t)) ↔
          ¬HighWord (unsigned (other.storage.cell t))) := by
        rw [← first, ← second]
        constructor
        · intro ⟨_, _, _, j, _, _, differs', high⟩
          rwa [differs'.unique differs] at high
        · intro high
          exact ⟨h.large, h'.large, by rw [← sign, ← sign'], t, by omega, by omega, differs, high⟩
      have order := differs.symm.lt_iff
      rw [first, second] at order
      rw [Returns.bind_iff, NativeArray.returns_item]
      refine ⟨by omega, ?_⟩
      rw [Returns.bind_iff, NativeArray.returns_item]
      refine ⟨by omega, Returns.pure_iff.mpr ?_⟩
      have unequal : |x| ≠ |y| := fun same => differs.digit_ne (by rw [same])
      rw [decide_lt_of_sign sign sign' unequal, wrong, Bool.xor_left_inj, decide_eq_decide, order]
      rcases Classical.em (HighWord (unsigned (n.storage.cell t)) ↔
        ¬HighWord (unsigned (other.storage.cell t))) with apart | agree
      · rw [toInt_lt_iff_of_differ (by rw [apart, not_not])]
        have unsame : unsigned (n.storage.cell t) ≠ unsigned (other.storage.cell t) := by
          rw [← first, ← second]
          exact differs.digit_ne
        exact iff_of_false (fun both => by omega) (not_not.mpr apart)
      · rw [toInt_lt_iff_of_agree (by tauto)]
        exact iff_of_true Iff.rfl agree
    · rename_i none
      have same : |x| = |y| := by
        rw [magnitude, magnitude']
        exact wordValue_congr fun u less => equal _ (by omega) (by omega)
      refine Returns.pure_iff.mpr (iff_of_true ?_ fun wrong => ?_)
      · rw [decide_eq_false]
        rcases abs_eq_abs.mp same with rfl | opposite
        · exact lt_irrefl _
        · have := sign.symm.trans sign'
          omega
      · obtain ⟨_, _, _, j, _, _, differs, _⟩ := wrong
        exact differs.digit_ne (by rw [same])
  · rename_i lengths
    have order : |y| < |x| ↔ other.capacity < n.capacity := by
      rcases lt_or_gt_of_ne (show k ≠ k' by omega) with shorter | longer
      · have mono : wordBase ^ (k + 1) ≤ wordBase ^ k' := pow_le_pow_right₀ wordBase_pos (by omega)
        omega
      · have mono : wordBase ^ (k' + 1) ≤ wordBase ^ k := pow_le_pow_right₀ wordBase_pos (by omega)
        omega
    have right : ¬Misorders x y := by
      rcases lt_or_gt_of_ne (show k ≠ k' by omega) with shorter | longer
      · exact not_misorders_of_length high low' shorter
      · exact fun wrong => not_misorders_of_length high' low longer wrong.symm
    have unequal : |x| ≠ |y| := by
      rcases lt_or_gt_of_ne (show k ≠ k' by omega) with shorter | longer
      · have mono : wordBase ^ (k + 1) ≤ wordBase ^ k' := pow_le_pow_right₀ wordBase_pos (by omega)
        omega
      · omega
    refine Returns.some_iff.mpr (iff_of_true ?_ right)
    rw [decide_lt_of_sign sign sign' unequal, Bool.xor_left_inj, decide_eq_decide]
    exact order.symm

end BigIntegerNumber

namespace IntegerGeneralNumber

variable {n other : IntegerGeneralNumber} {x y : ℤ}

theorem not_misorders_of_inInteger64 (inside : InInteger64 x) : ¬Misorders x y :=
  fun wrong => wrong.1 inside

/-- `infix "<"` of integers tells the order exactly where it does not read it in words of different top bits. -/
theorem Represents.returns_lessThan (h : n.Represents x) (h' : other.Represents y) :
    Returns (n.lessThan other) fun less => less = decide (x < y) ↔ ¬Misorders x y := by
  cases n with
  | integer64 value =>
    have same : value.toInt = x := h
    have inside : InInteger64 x := same ▸ inInteger64_toInt value
    refine Returns.some_iff.mpr (iff_of_true ?_ (not_misorders_of_inInteger64 inside))
    cases other with
    | integer64 value' =>
      have same' : value'.toInt = y := h'
      rw [← same, ← same']
      rfl
    | bigInteger other =>
      have large := BigIntegerNumber.Represents.large h'
      have negative := BigIntegerNumber.Represents.negative_iff h'
      change (!other.negative) = _
      rw [Bool.eq_iff_iff, Bool.not_eq_true', ← Bool.not_eq_true, negative, decide_eq_true_eq]
      unfold InInteger64 at inside large
      omega
  | bigInteger n =>
    have large := BigIntegerNumber.Represents.large h
    cases other with
    | integer64 value' =>
      have same' : value'.toInt = y := h'
      have inside : InInteger64 y := same' ▸ inInteger64_toInt value'
      have negative := BigIntegerNumber.Represents.negative_iff h
      refine Returns.some_iff.mpr (iff_of_true ?_ fun wrong => wrong.2.1 inside)
      rw [Bool.eq_iff_iff, negative, decide_eq_true_eq]
      unfold InInteger64 at inside large
      omega
    | bigInteger other =>
      refine (BigIntegerNumber.Represents.returns_greater h' h).mono fun less tells => ?_
      rw [tells]
      exact not_congr ⟨Misorders.symm, Misorders.symm⟩

end IntegerGeneralNumber

end Liberty
