import Liberty.Numeric.MutableBigInteger.Subtraction

/-!
# Comparison

`is_equal` and `infix "<"` compare the signs, the lengths and then the words, the latter
from the top.  Words are compared as unsigned numbers.
-/

namespace Liberty

namespace MutableBigInteger

/-! ## The source -/

/-- `is_equal`; `same` tells whether `other` is the object itself. -/
def isEqual (m : MutableBigInteger) (same : Bool) (other : MutableBigInteger) : Option Bool :=
  if same then return true
  else if m.integerLength ≠ other.integerLength then return false
  else if m.negative ≠ other.negative then return false
  else do
    let c := m.offset + m.integerLength
    let (_, _, result) ← untilLoop (fun s => some (decide (s.1 = c)))
      (fun (a, b, result) => do
        if (← m.storage.item a) ≠ (← other.storage.item b) then return (c, b, false)
        else return (a + 1, b + 1, result))
      m.integerLength.toNat (m.offset, other.offset, true)
    return result

/-- `infix "<"`; `same` tells whether `other` is the object itself. -/
def lessThan (m : MutableBigInteger) (same : Bool) (other : MutableBigInteger) : Option Bool :=
  if same then return false
  else if m.negative ≠ other.negative then return m.negative
  else if m.integerLength ≠ other.integerLength then
    return decide (m.integerLength < other.integerLength) ^^ m.negative
  else do
    let (_, _, result) ← untilLoop (fun s => some (decide (s.1 < m.offset)))
      (fun (a, b, result) => do
        let va ← m.storage.item a
        let vb ← other.storage.item b
        if unsignedLessThan va vb then return (-1, b, !m.negative)
        else if unsignedLessThan vb va then return (-1, b, m.negative)
        else return (a - 1, b - 1, result))
      m.integerLength.toNat
      (m.offset + m.integerLength - 1, other.offset + m.integerLength - 1, false)
    return result

/-- `abs_compare`; `same` tells whether `other` is the object itself. -/
def absCompareTo (m : MutableBigInteger) (same : Bool) (other : MutableBigInteger) :
    Option Int :=
  if same then return 0 else m.absCompare other

/-! ## Exactness -/

section Exactness

variable {m other : MutableBigInteger}

/-- Normalised numbers of one value have one sign and one length. -/
theorem Valid.same_of_value_eq (hm : Valid m) (ho : Valid other) (same : m.value = other.value) :
    m.integerLength = other.integerLength ∧ m.negative = other.negative := by
  have magnitude : m.magnitude = other.magnitude := by
    rw [← abs_value, ← abs_value, same]
  obtain ⟨n, length⟩ := hm.length_eq
  obtain ⟨k, length'⟩ := ho.length_eq
  have sign : m.negative = other.negative := by
    rw [Bool.eq_iff_iff, ← hm.value_neg_iff, ← ho.value_neg_iff, same]
  refine ⟨?_, sign⟩
  rcases lt_trichotomy n k with less | equal | more
  · obtain ⟨j, rfl⟩ := Nat.exists_eq_add_of_lt less
    have least := ho.le_magnitude (n := n + j) (by omega)
    have most := magnitude_lt length
    have grows := pow_le_pow_right₀ (show (1 : ℤ) ≤ wordBase by decide) (Nat.le_add_right n j)
    omega
  · omega
  · obtain ⟨j, rfl⟩ := Nat.exists_eq_add_of_lt more
    have least := hm.le_magnitude (n := k + j) (by omega)
    have most := magnitude_lt length'
    have grows := pow_le_pow_right₀ (show (1 : ℤ) ≤ wordBase by decide) (Nat.le_add_right k j)
    omega

theorem returns_isEqual (hm : Valid m) (ho : Valid other) :
    Returns (m.isEqual false other) fun equal => equal = decide (m.value = other.value) := by
  unfold isEqual
  rw [if_neg Bool.false_ne_true]
  split
  · rename_i differ
    rw [Returns.pure_iff, decide_eq_false fun same => differ (hm.same_of_value_eq ho same).1]
  · rename_i lengths
    split
    · rename_i differ
      rw [Returns.pure_iff, decide_eq_false fun same => differ (hm.same_of_value_eq ho same).2]
    · rename_i signs
      rw [not_not] at signs
      obtain ⟨n, length⟩ := hm.length_eq
      have length' : other.integerLength = n := by omega
      have size := hm.size_eq
      have size' := ho.size_eq
      have range := hm.offset_range
      have range' := ho.offset_range
      have values : (m.value = other.value) ↔
          ∀ t : ℕ, t < n → m.storage.cell (m.offset + t) = other.storage.cell (other.offset + t) := by
        rw [← wordValue_inj, ← magnitude_eq length, ← magnitude_eq length', ← abs_value m,
          ← abs_value other]
        refine ⟨fun same => by rw [same], fun same => ?_⟩
        rw [abs_value, abs_value] at same
        rw [value_eq_signed, value_eq_signed, same, signs]
      rw [Returns.bind_iff]
      refine returns_untilLoop
        (fun s : Int × Int × Bool =>
          (s.1 = m.offset + m.integerLength ∧ s.2.2 = false ∧ ¬m.value = other.value) ∨
          ∃ t : ℕ, t ≤ n ∧ s.1 = m.offset + t ∧ s.2.1 = other.offset + t ∧ s.2.2 = true ∧
            ∀ u : ℕ, u < t → m.storage.cell (m.offset + u) = other.storage.cell (other.offset + u))
        (fun s => (m.offset + m.integerLength - s.1).toNat)
        (.inr ⟨0, Nat.zero_le _, by dsimp only; omega, by dsimp only; omega, rfl,
          fun u less => absurd less (Nat.not_lt_zero u)⟩) (by dsimp only; omega) ?_
      rintro ⟨a, b, result⟩ kept
      dsimp only at kept ⊢
      rw [Returns.some_iff]
      split
      · rename_i stop
        have stop : a = m.offset + m.integerLength := of_decide_eq_true stop
        rw [Returns.pure_iff]
        rcases kept with ⟨-, no, differ⟩ | ⟨t, -, place, -, yes, same⟩
        · rw [no, decide_eq_false differ]
        · obtain rfl : t = n := by omega
          rw [yes, decide_eq_true (values.mpr same)]
      · rename_i goes
        have goes : ¬a = m.offset + m.integerLength := fun stop => goes (decide_eq_true stop)
        rcases kept with ⟨stop, -⟩ | ⟨t, le, place, place', yes, same⟩
        · exact absurd stop goes
        · have less : t < n := by omega
          rw [Returns.bind_iff, NativeArray.returns_item]
          refine ⟨by omega, ?_⟩
          rw [Returns.bind_iff, NativeArray.returns_item]
          refine ⟨by omega, ?_⟩
          split
          · rename_i differ
            rw [place, place'] at differ
            exact Returns.pure_iff.mpr ⟨.inl ⟨rfl, rfl, fun equal =>
              differ (values.mp equal t less)⟩, by dsimp only; omega⟩
          · rename_i equal
            rw [not_not, place, place'] at equal
            refine Returns.pure_iff.mpr ⟨.inr ⟨t + 1, less, by dsimp only; omega,
              by dsimp only; omega, yes, fun u before => ?_⟩, by dsimp only; omega⟩
            rcases Nat.lt_succ_iff_lt_or_eq.mp before with earlier | rfl
            · exact same u earlier
            · exact equal

theorem returns_absCompareTo (hm : Valid m) (ho : Valid other) (same : Bool)
    (isSame : same = true → other = m) :
    Returns (m.absCompareTo same other) fun r => r = (|m.value| - |other.value|).sign := by
  rw [absCompareTo, abs_value, abs_value]
  split
  · rename_i eq
    rw [isSame eq, sub_self]
    exact Returns.pure_iff.mpr rfl
  · exact returns_absCompare hm ho

/-- Under one sign the magnitudes decide the order. -/
theorem decide_lt_of_less (signs : m.negative = other.negative)
    (less : m.magnitude < other.magnitude) : decide (m.value < other.value) = !m.negative := by
  rw [value_eq_signed, value_eq_signed, ← signs]
  cases m.negative
  · exact decide_eq_true less
  · exact decide_eq_false (not_lt.mpr (neg_le_neg less.le))

theorem decide_lt_of_more (signs : m.negative = other.negative)
    (more : other.magnitude < m.magnitude) : decide (m.value < other.value) = m.negative := by
  rw [value_eq_signed, value_eq_signed, ← signs]
  cases m.negative
  · exact decide_eq_false (not_lt.mpr more.le)
  · exact decide_eq_true (neg_lt_neg more)

theorem decide_lt_of_equal (signs : m.negative = other.negative)
    (equal : m.magnitude = other.magnitude) : decide (m.value < other.value) = false := by
  rw [value_eq_signed, value_eq_signed, ← signs, equal]
  exact decide_eq_false (lt_irrefl _)

theorem returns_lessThan (hm : Valid m) (ho : Valid other) :
    Returns (m.lessThan false other) fun less => less = decide (m.value < other.value) := by
  have sign := hm.value_neg_iff
  have sign' := ho.value_neg_iff
  unfold lessThan
  rw [if_neg Bool.false_ne_true]
  split
  · rename_i differ
    rw [Returns.pure_iff]
    cases negative : m.negative
    · rw [negative] at differ sign
      rw [Bool.eq_true_of_not_eq_false differ.symm] at sign'
      simp only [Bool.false_eq_true, iff_false] at sign
      simp only [iff_true] at sign'
      exact (decide_eq_false (by omega)).symm
    · rw [negative] at differ sign
      rw [Bool.eq_false_of_not_eq_true differ.symm] at sign'
      simp only [iff_true] at sign
      simp only [Bool.false_eq_true, iff_false] at sign'
      exact (decide_eq_true (by omega)).symm
  rename_i signs
  rw [not_not] at signs
  split
  · rename_i differ
    rw [Returns.pure_iff]
    rcases lt_or_gt_of_ne differ with shorter | longer
    · rw [decide_lt_of_less signs (magnitude_lt_of_length_lt hm shorter ho),
        decide_eq_true shorter, Bool.true_xor]
    · rw [decide_lt_of_more signs (magnitude_lt_of_length_lt ho longer hm),
        decide_eq_false (by omega), Bool.false_xor]
  obtain ⟨n, length⟩ := hm.length_eq
  have length' : other.integerLength = n := by omega
  have size := hm.size_eq
  have size' := ho.size_eq
  have range := hm.offset_range
  have range' := ho.offset_range
  have words := magnitude_eq length
  have words' := magnitude_eq length'
  rw [Returns.bind_iff]
  refine returns_untilLoop
    (fun s : Int × Int × Bool =>
      (s.1 = -1 ∧ n ≠ 0 ∧ s.2.2 = decide (m.value < other.value)) ∨
      ∃ t : ℕ, t ≤ n ∧ s.1 = m.offset + t - 1 ∧ s.2.1 = other.offset + t - 1 ∧
        s.2.2 = false ∧ ∀ u : ℕ, t ≤ u → u < n →
          m.storage.cell (m.offset + u) = other.storage.cell (other.offset + u))
    (fun s => (s.1 - m.offset + 1).toNat)
    (.inr ⟨n, le_rfl, by dsimp only; omega, by dsimp only; omega, rfl,
      fun u low high => by omega⟩) (by dsimp only; omega) ?_
  intro (a, b, result) kept
  dsimp only at kept ⊢
  rw [Returns.some_iff]
  split
  · rename_i stop
    have stop : a < m.offset := of_decide_eq_true stop
    rw [Returns.pure_iff]
    rcases kept with ⟨_, _, answer⟩ | ⟨t, le, place, _, no, same⟩
    · exact answer
    · obtain rfl : t = 0 := by omega
      have equal := wordValue_congr fun u hu => same u (Nat.zero_le u) hu
      rw [no, decide_lt_of_equal signs (by rw [words, words', equal])]
  · rename_i goes
    have goes : ¬a < m.offset := fun stop => goes (decide_eq_true stop)
    rcases kept with ⟨back, some, _⟩ | ⟨t, le, place, place', no, same⟩
    · have := range (by omega)
      omega
    · obtain ⟨t, rfl⟩ : ∃ u, t = u + 1 := ⟨t - 1, by omega⟩
      have here : a = m.offset + t := by push_cast at place; omega
      have here' : b = other.offset + t := by push_cast at place'; omega
      subst here here'
      rw [Returns.bind_iff, NativeArray.returns_item]
      refine ⟨by omega, ?_⟩
      rw [Returns.bind_iff, NativeArray.returns_item]
      refine ⟨by omega, ?_⟩
      split
      · rename_i less
        rw [unsignedLessThan_iff] at less
        have smaller := wordValue_lt_of_top (n := n) (by omega) less
          fun u above high => same u (by omega) high
        refine Returns.pure_iff.mpr ⟨.inl ⟨rfl, by omega, ?_⟩, by dsimp only; omega⟩
        exact (decide_lt_of_less signs (by rwa [words, words'])).symm
      split
      · rename_i _ more
        rw [unsignedLessThan_iff] at more
        have larger := wordValue_lt_of_top (n := n) (by omega) more
          fun u above high => (same u (by omega) high).symm
        refine Returns.pure_iff.mpr ⟨.inl ⟨rfl, by omega, ?_⟩, by dsimp only; omega⟩
        exact (decide_lt_of_more signs (by rwa [words, words'])).symm
      · rename_i notLess notMore
        rw [unsignedLessThan_iff] at notLess notMore
        have equal : m.storage.cell (m.offset + t) = other.storage.cell (other.offset + t) :=
          unsigned_inj.mp (by omega)
        refine Returns.pure_iff.mpr ⟨.inr ⟨t, by omega, by dsimp only, by dsimp only, no,
          fun u low high => ?_⟩, by dsimp only; omega⟩
        rcases Nat.eq_or_lt_of_le low with rfl | above
        · exact equal
        · exact same u above high

end Exactness

end MutableBigInteger

end Liberty
