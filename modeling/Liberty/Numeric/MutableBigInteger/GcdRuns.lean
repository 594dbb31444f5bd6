import Liberty.Numeric.MutableBigInteger.Exactness

/-!
# Greatest common divisors in a reachable world

After the first two divisions both numbers of `gcd` are not negative, and the remainders
begin their storages, so that the divisions that follow are sound.  What is left to ask
for is a condition on the object and the other number.
-/

namespace Liberty

namespace MutableBigInteger

/-! ## Where the remainders begin -/

section Offsets

variable {m other quotient remainder register1 r q : MutableBigInteger}

theorem offset_of_subtractMagnitudeRaw (run : m.subtractMagnitudeRaw other = some r) :
    r.offset = 0 := by
  obtain ⟨c, -, run⟩ := Option.bind_eq_some_iff.mp run
  split at run
  · obtain ⟨k, -, run⟩ := Option.bind_eq_some_iff.mp run
    cases run
    rfl
  · cases run
    rfl

theorem offset_of_removeLeadingZero (run : m.removeLeadingZero = some r) :
    r.offset = m.offset := by
  obtain ⟨w, -, run⟩ := Option.bind_eq_some_iff.mp run
  split at run <;> cases run <;> rfl

theorem offset_of_subtractMagnitudeSameLength
    (run : m.subtractMagnitudeSameLength other = some r) (some : r.integerLength ≠ 0) :
    r.offset = 0 := by
  obtain ⟨⟨length, v1, v2⟩, -, run⟩ := Option.bind_eq_some_iff.mp run
  dsimp only at run
  split at run
  · split at run
    · obtain ⟨m', truncated, run⟩ := Option.bind_eq_some_iff.mp run
      obtain ⟨c, -, truncated⟩ := Option.bind_eq_some_iff.mp truncated
      rw [offset_of_removeLeadingZero run]
      cases truncated
      rfl
    · obtain ⟨m', truncated, run⟩ := Option.bind_eq_some_iff.mp run
      obtain ⟨c, -, truncated⟩ := Option.bind_eq_some_iff.mp truncated
      rw [offset_of_removeLeadingZero run]
      cases truncated
      rfl
  · cases run
    exact absurd rfl some

/-- A difference begins its storage unless the borrow stops below the top of a longer
`other`. -/
theorem offset_of_subtractMagnitude (hm : Valid m) (ho : Valid other)
    (nonzero : m.integerLength ≠ 0) (moves : ¬KeepsOffset m other)
    (run : m.subtractMagnitude other = some r) (some : r.integerLength ≠ 0) : r.offset = 0 := by
  rw [subtractMagnitude, subtractMagnitudeWith] at run
  split at run
  · exact offset_of_subtractMagnitudeSameLength run some
  split at run
  · exact offset_of_subtractMagnitudeRaw run
  split at run
  · rename_i room
    have flipped : Valid { m with negative := !m.negative } :=
      { hm with not_negative := fun zero => absurd zero nonzero }
    have offset := ((returns_subtractMagnitudeRawReverse flipped ho nonzero (by dsimp only; omega)
      room).unique run).2.2
    exact offset.resolve_right moves
  · rename_i same shorter _
    obtain ⟨new, copied, run⟩ := Option.bind_eq_some_iff.mp run
    obtain ⟨new', difference, run⟩ := Option.bind_eq_some_iff.mp run
    have length := ((returns_copy fits_blank ho).unique copied).1.length_eq'
    rw [subtractMagnitudeWith, if_neg (by omega), if_pos (by omega)] at difference
    have offset := offset_of_subtractMagnitudeRaw difference
    cases run
    exact offset

/-- The correction of a remainder keeps it at the beginning of its storage. -/
theorem offset_of_divideSignCorrection {negative : Bool} (hr : Valid remainder)
    (ho : Valid other) (divides : other.integerLength ≠ 0)
    (moves : negative = true → ¬KeepsOffset remainder other)
    (origin : negative = false → remainder.offset = 0)
    (run : divideSignCorrection negative other quotient remainder = some (q, r))
    (some : r.integerLength ≠ 0) : r.offset = 0 := by
  rw [divideSignCorrection, isZero] at run
  split at run
  · rename_i zero
    cases run
    exact absurd (of_decide_eq_true zero) some
  rename_i nonzero
  have nonzero : remainder.integerLength ≠ 0 := fun zero => nonzero (decide_eq_true zero)
  have nonzero' : (remainder.setNegative true).integerLength ≠ 0 := nonzero
  have flipped : Valid (remainder.setNegative true) :=
    (hr.setNegative_holds true fun _ => nonzero).toValid
  split at run
  · rename_i negated
    have keeps : ¬KeepsOffset (remainder.setNegative true) other := moves negated
    split at run
    · rename_i sign
      obtain ⟨q', -, run⟩ := Option.bind_eq_some_iff.mp run
      obtain ⟨r', difference, run⟩ := Option.bind_eq_some_iff.mp run
      cases run
      rw [MutableBigInteger.subtract, if_neg Bool.false_ne_true, if_neg divides, if_neg nonzero',
        if_pos (show (remainder.setNegative true).negative = other.negative from sign.symm)]
        at difference
      exact offset_of_subtractMagnitude flipped ho nonzero keeps difference some
    · rename_i sign
      obtain ⟨q', -, run⟩ := Option.bind_eq_some_iff.mp run
      obtain ⟨r', difference, run⟩ := Option.bind_eq_some_iff.mp run
      cases run
      rw [add, if_neg divides, if_neg nonzero', if_neg (show ¬(remainder.setNegative true).negative =
        other.negative from Ne.symm sign)] at difference
      exact offset_of_subtractMagnitude flipped ho nonzero keeps difference some
  · rename_i notNegated
    have offset := origin (Bool.eq_false_iff.mpr notNegated)
    split at run <;> cases run <;> exact offset

/-- The object was smaller than the divisor and keeps its place in the storage. -/
def KeepsPlace (m other : MutableBigInteger) : Prop :=
  m.offset ≠ 0 ∧ m.magnitude < other.magnitude ∧ (m.negative = true → KeepsOffset m other)

theorem not_keepsOffset (origin : m.offset = 0) : ¬KeepsOffset m other :=
  fun keeps => keeps.1 origin

/-- The remainder begins its storage unless the object keeps its place. -/
theorem returns_mod_offset (hm : Valid m) (ho : Valid other) (h₁ : Valid register1)
    (divides : other.integerLength ≠ 0) (exact : ModExact m other) (moves : ¬KeepsPlace m other) :
    Returns (m.mod other register1) fun (r, _) => r.integerLength ≠ 0 → r.offset = 0 := by
  obtain ⟨⟨r, register⟩, run, -⟩ := returns_mod hm ho h₁ divides exact
  refine ⟨_, run, fun some => ?_⟩
  rw [MutableBigInteger.mod] at run
  obtain ⟨quotient, created, run⟩ := Option.bind_eq_some_iff.mp run
  obtain ⟨hq, origin, -⟩ := (returns_fromInteger fits_blank 0).unique created
  obtain ⟨⟨m', q, register'⟩, run, same⟩ := Option.bind_eq_some_iff.mp run
  cases same
  rw [remainderWithQuotientTo] at run
  split at run
  · cases run
    exact absurd rfl some
  obtain ⟨cmp, compared, run⟩ := Option.bind_eq_some_iff.mp run
  obtain rfl := (returns_absCompare hm ho).unique compared
  split at run
  · rename_i less
    rw [sign_sub_neg_iff] at less
    obtain ⟨⟨q', r'⟩, corrected, run⟩ := Option.bind_eq_some_iff.mp run
    cases run
    have valid : Valid (m.setNegative false) :=
      (hm.setNegative_holds false fun negated => absurd negated Bool.false_ne_true).toValid
    refine offset_of_divideSignCorrection valid ho divides (fun negative keeps => ?_)
      (fun positive => ?_) corrected some
    · exact moves ⟨keeps.1, less, fun _ => keeps⟩
    · by_contra displaced
      refine moves ⟨displaced, less, fun negative => ?_⟩
      rw [positive] at negative
      cases negative
  rename_i notLess
  rw [sign_sub_neg_iff] at notLess
  split at run
  · obtain ⟨q', -, run⟩ := Option.bind_eq_some_iff.mp run
    cases run
    exact absurd rfl some
  rename_i notEqual
  rw [sign_sub_eq_zero_iff] at notEqual
  have larger : other.magnitude < m.magnitude := by omega
  split at run
  · rename_i one
    have range := ho.offset_range divides
    have size := ho.size_eq
    rw [NativeArray.item_of_inBounds ⟨range.1, by omega⟩, Returns.some_bind] at run
    obtain ⟨⟨q', rem⟩, divided, run⟩ := Option.bind_eq_some_iff.mp run
    obtain ⟨r', put, run⟩ := Option.bind_eq_some_iff.mp run
    obtain ⟨⟨q'', r''⟩, corrected, run⟩ := Option.bind_eq_some_iff.mp run
    cases run
    rw [putRemainderKeepingOffset_eq fun _ => origin] at put
    obtain ⟨valid, -, offset, -⟩ := (remainderWord hq.toValid rem).unique put
    have begins : r'.offset = 0 := by
      by_cases zero : rem = 0
      · rw [zero, putRemainder, if_neg (not_not.mpr rfl)] at put
        cases put
        exact origin
      · exact offset zero
    exact offset_of_divideSignCorrection valid ho divides
      (fun _ => not_keepsOffset begins) (fun _ => begins) corrected some
  · rename_i more
    have nonneg := ho.length_nonneg
    obtain ⟨p, length⟩ : ∃ p : ℕ, other.integerLength = (p + 2 : ℕ) :=
      ⟨(other.integerLength - 2).toNat, by omega⟩
    obtain ⟨⟨q', r', register''⟩, divided, run⟩ := Option.bind_eq_some_iff.mp run
    obtain ⟨⟨q'', r''⟩, corrected, run⟩ := Option.bind_eq_some_iff.mp run
    cases run
    obtain ⟨-, valid, -, begins, -⟩ := (returns_divideMagnitude ho hq.toValid hm h₁ length
      (by omega) (exact.aligned larger more)).unique divided
    exact offset_of_divideSignCorrection valid ho divides
      (fun _ => not_keepsOffset begins) (fun _ => begins) corrected some

end Offsets

/-! ## Rounds -/

section Rounds

variable {m other register1 register2 : MutableBigInteger}

/-- A dividend that is not negative needs no correction. -/
theorem modSound_of_nonneg (hm : Valid m) (nonneg : 0 ≤ m.value)
    (aligned : other.integerLength ≠ 1 → Aligned m other) : ModSound m other := by
  have positive : m.negative ≠ true := fun negative => by
    have neg := hm.value_neg_iff.mpr negative
    omega
  exact ⟨{ less := fun negative => absurd negative positive
           cancels := fun _ cancels => positive cancels.1
           oneWord := fun _ _ => .inl rfl
           aligned := fun _ => aligned },
    fun negative => absurd negative positive⟩

/-- The state after a round: both numbers are not negative, the second one is smaller and
begins its storage, and the first one can be divided by it. -/
structure Descends (s : MutableBigInteger × MutableBigInteger × MutableBigInteger) : Prop where
  object : Valid s.1
  register2 : Valid s.2.1
  register1 : Valid s.2.2
  nonneg : 0 ≤ s.2.1.value
  less : s.2.1.value < s.1.value
  origin : s.2.1.integerLength ≠ 0 → s.2.1.offset = 0
  aligned : s.2.1.integerLength ≠ 0 → s.2.1.integerLength ≠ 1 → Aligned s.1 s.2.1

/-- The end of a round that leaves nothing. -/
theorem Descends.of_zero {a b c : MutableBigInteger} (ha : Valid a) (hb : Valid b) (hc : Valid c)
    (zero : b.integerLength = 0) (positive : 0 < a.value) : Descends (a, b, c) where
  object := ha
  register2 := hb
  register1 := hc
  nonneg := by rw [value_of_zero zero]
  less := by rwa [value_of_zero zero]
  origin some := absurd zero some
  aligned some := absurd zero some

/-- The second division of a round, by a remainder that is not zero. -/
theorem returns_secondDivision {a : MutableBigInteger} (h₂ : Valid register2) (ha : Valid a)
    (h₁ : Valid register1) (positive : 0 < a.value) (sound : ModSound register2 a)
    (moves : ¬KeepsPlace register2 a)
    (aligned : ∀ b, Holds b (register2.value % a.value) → b.integerLength ≠ 0 →
      b.integerLength ≠ 1 → Aligned a b) :
    Returns (do
        let (register2, register1) ← register2.mod a register1
        return (a, register2, register1)) Descends := by
  have divides : a.integerLength ≠ 0 := fun zero => by
    rw [value_of_zero zero] at positive
    omega
  have rest := Int.emod_nonneg register2.value positive.ne'
  have less := Int.emod_lt_of_pos register2.value positive
  apply ((returns_mod_of_sound h₂ ha h₁ divides sound).and
    (returns_mod_offset h₂ ha h₁ divides sound.1 moves)).bind
  intro (b, register) ⟨⟨holds, valid⟩, origin⟩
  exact Returns.pure_iff.mpr
    { object := ha
      register2 := holds.toValid
      register1 := valid
      nonneg := by rw [holds.value_eq]; exact rest
      less := by rw [holds.value_eq]; exact less
      origin
      aligned := aligned b holds }

theorem not_keepsPlace_of_le (le : other.magnitude ≤ m.magnitude) : ¬KeepsPlace m other := by
  intro keeps
  have less := keeps.2.1
  omega

/-- A round of the loop is sound, and its end descends again. -/
theorem Descends.gcdRound {s : MutableBigInteger × MutableBigInteger × MutableBigInteger}
    (h : Descends s) (some : s.2.1.integerLength ≠ 0) :
    GcdRoundSound s ∧ Returns (MutableBigInteger.gcdRound id s) Descends := by
  obtain ⟨m, register2, register1⟩ := s
  obtain ⟨hm, h₂, h₁, nonneg, less, origin, aligned⟩ := h
  dsimp only at hm h₂ h₁ nonneg less origin aligned some
  have positive : 0 < register2.value := by
    have nonzero : register2.value ≠ 0 := fun zero => some (h₂.value_eq_zero.mp zero)
    omega
  have first : ModSound m register2 := modSound_of_nonneg hm (by omega) (aligned some)
  have smaller : register2.magnitude ≤ m.magnitude := by
    rw [← abs_value, ← abs_value, abs_of_pos positive, abs_of_pos (by omega)]
    omega
  have rest := Int.emod_nonneg m.value positive.ne'
  have below := Int.emod_lt_of_pos m.value positive
  obtain ⟨⟨a, register⟩, run, ⟨holds, valid⟩, begins⟩ :=
    (returns_mod_of_sound hm h₂ h₁ some first).and
      (returns_mod_offset hm h₂ h₁ some first.1 (not_keepsPlace_of_le smaller))
  have second : ModSound register2 a := modSound_of_nonneg h₂ nonneg fun _ => .inl (origin some)
  refine ⟨⟨first, fun a' register' run' nonzero => ?_⟩, ?_⟩
  · dsimp only at run'
    rw [run] at run'
    cases run'
    exact second
  · rw [MutableBigInteger.gcdRound]
    rw [run, Returns.some_bind]
    dsimp only
    split
    · rename_i zero
      exact Returns.pure_iff.mpr
        (.of_zero h₂ holds.toValid valid (of_decide_eq_true zero) positive)
    · rename_i nonzero
      have nonzero : a.integerLength ≠ 0 := fun zero => nonzero (decide_eq_true zero)
      have more : a.value ≠ 0 := fun zero => nonzero (holds.value_eq_zero.mp zero)
      have value := holds.value_eq
      refine returns_secondDivision h₂ holds.toValid valid (by omega) second
        (not_keepsPlace_of_le ?_) fun _ _ _ _ => .inl (begins nonzero)
      rw [← abs_value, ← abs_value, abs_of_nonneg nonneg, abs_of_nonneg (by omega)]
      omega

/-! ## The first round -/

/-- The top word of a number of several words has its highest bit. -/
def HasTopBit (v : ℤ) : Prop :=
  ∃ n : ℕ, wordBase ^ (n + 1) ≤ v ∧ v < wordBase ^ (n + 2) ∧ wordBase ^ (n + 2) ≤ 2 * v

/-- The second division subtracts its remainder from the divisor `a`, and the difference
begins with two zero words. -/
def SecondCancels (other a : ℤ) : Prop :=
  ∃ n : ℕ, wordBase ^ n ≤ a ∧ a < wordBase ^ (n + 1) ∧ wordBase ^ n ≤ |other| % a ∧
    CancelsTwo (|other| % a) a

/-- What `gcd` asks of the object and of the copy of the other number: the first division is
sound, the second one does not lose two words for a negative number, and the third one
finds its dividend where it looks for it. -/
structure GcdExact (m other : MutableBigInteger) : Prop where
  first : ModSound m other
  second : other.value < 0 → ¬SecondCancels other.value (m.value % other.value)
  third : KeepsPlace m other → m.value % other.value ≠ 0 →
    ¬HasTopBit (other.value % (m.value % other.value))

/-- A divisor whose top bit is not set is shifted, and its dividend with it. -/
theorem aligned_of_not_hasTopBit {b : MutableBigInteger} (hb : Valid b) (nonneg : 0 ≤ b.value)
    (some : b.integerLength ≠ 0) (more : b.integerLength ≠ 1) (clear : ¬HasTopBit b.value) :
    Aligned m b := by
  have length := hb.length_nonneg
  obtain ⟨n, words⟩ : ∃ n : ℕ, b.integerLength = (n + 1 : ℕ) + 1 :=
    ⟨(b.integerLength - 2).toNat, by omega⟩
  have magnitude : b.value = b.magnitude := by rw [← abs_value, abs_of_nonneg nonneg]
  have least := hb.le_magnitude words
  have most := magnitude_lt (n := n + 2) (show b.integerLength = (n + 2 : ℕ) by omega)
  have small : 2 * b.magnitude < wordBase ^ (n + 2) := by
    by_contra large
    exact clear ⟨n, by omega, by omega, by omega⟩
  right
  rw [magnitude_eq (n := n + 1 + 1) (by push_cast at words ⊢; omega), wordValue_succ,
    show wordBase ^ (n + 2) = wordBase ^ (n + 1) * wordBase from pow_succ _ _] at small
  rw [show b.offset + b.integerLength - 1 = b.offset + (n + 1 : ℕ) by omega]
  have low := wordValue_nonneg b.storage b.offset (n + 1)
  have power := wordBase_pow_pos (n + 1)
  nlinarith

/-- The first round is sound, and its end descends. -/
theorem GcdExact.gcdRound (hm : Valid m) (h₂ : Valid register2) (h₁ : Valid register1)
    (some : register2.integerLength ≠ 0) (origin : register2.offset = 0)
    (exact : GcdExact m register2) :
    GcdRoundSound (m, register2, register1) ∧
      Returns (MutableBigInteger.gcdRound MutableBigInteger.abs (m, register2, register1))
        Descends := by
  have nonzero : register2.value ≠ 0 := fun zero => some (h₂.value_eq_zero.mp zero)
  have rest := Int.emod_nonneg m.value nonzero
  have below := Int.emod_lt_abs m.value nonzero
  rw [abs_value] at below
  obtain ⟨⟨a, register⟩, run, holds, valid⟩ :=
    returns_mod_of_sound hm h₂ h₁ some exact.first
  have value := holds.value_eq
  have magnitude : a.magnitude = m.value % register2.value := by
    rw [← abs_value, value, abs_of_nonneg rest]
  have second : a.integerLength ≠ 0 → ModSound register2 a := by
    intro some'
    refine ⟨⟨fun _ less => by omega, fun _ cancels => ?_, fun _ _ => .inl rfl,
      fun _ _ => .inl origin⟩, fun _ less => by omega⟩
    obtain ⟨n, length⟩ := holds.toValid.length_eq_succ some'
    have least := holds.toValid.le_magnitude length
    have most := magnitude_lt (n := n + 1) length
    obtain ⟨negative, long, two⟩ := cancels
    rw [show a.integerLength.toNat - 1 = n by omega] at long
    rw [magnitude, ← abs_value] at long two
    rw [magnitude] at least most
    exact exact.second (h₂.value_neg_iff.mpr negative) ⟨n, least, most, long, two⟩
  refine ⟨⟨exact.first, fun a' register' run' nonzero => ?_⟩, ?_⟩
  · dsimp only at run'
    rw [run] at run'
    cases run'
    exact second nonzero
  · rw [MutableBigInteger.gcdRound]
    rw [run, Returns.some_bind]
    dsimp only
    split
    · rename_i zero
      have positive : 0 < register2.abs.value := by
        rw [h₂.abs_holds.value_eq]
        exact abs_pos.mpr nonzero
      exact Returns.pure_iff.mpr (.of_zero h₂.abs_holds.toValid holds.toValid valid
        (of_decide_eq_true zero) positive)
    · rename_i more
      have more : a.integerLength ≠ 0 := fun zero => more (decide_eq_true zero)
      have notZero : a.value ≠ 0 := fun zero => more (holds.value_eq_zero.mp zero)
      refine returns_secondDivision h₂ holds.toValid valid (by omega) (second more)
        (not_keepsPlace_of_le (by omega)) fun b hb some' many => ?_
      by_cases keeps : KeepsPlace m register2
      · have nonneg := Int.emod_nonneg register2.value notZero
        have clear := exact.third keeps (by omega)
        rw [← value, ← hb.value_eq] at clear
        exact aligned_of_not_hasTopBit hb.toValid (by rw [hb.value_eq]; exact nonneg) some' many
          clear
      · have begins := (returns_mod_offset hm h₂ h₁ some exact.first.1 keeps).unique run
        exact .inl (begins more)

/-- The condition on the two numbers makes all the divisions of `gcd` sound. -/
theorem GcdExact.gcdSound (hm : Valid m) (ho : Valid other) (h₁ : Valid register1)
    (h₂ : Valid register2) (some : other.integerLength ≠ 0)
    (exact : ∀ copy, register2.copy other = Option.some copy → GcdExact m copy) :
    GcdSound m other register1 register2 := by
  intro copy run
  obtain ⟨copied, -⟩ := (returns_copy h₂.fits ho).unique run
  obtain ⟨sound, descends⟩ := (exact copy run).gcdRound hm copied.toValid h₁
    (by rw [copied.length_eq']; exact some) copied.offset_eq
  refine ⟨sound, fun s first s' passes => ?_⟩
  have kept : Descends s' := by
    induction passes with
    | start => exact descends.unique first
    | round _ going run ih =>
      refine (ih.gcdRound fun zero => ?_).2.unique run
      exact absurd (Option.some.inj going) (by rw [isZero, decide_eq_true zero]; decide)
  exact fun nonzero => (kept.gcdRound nonzero).1

/-- An object that begins its storage, with no negative number on either side, is right. -/
theorem GcdExact.of_nonneg (hm : Valid m) (nonneg : 0 ≤ m.value) (nonneg' : 0 ≤ other.value)
    (origin : m.offset = 0) : GcdExact m other where
  first := modSound_of_nonneg hm nonneg fun _ => .inl origin
  second negative := by omega
  third keeps := absurd origin keeps.1

end Rounds

namespace World

variable {w : World}

/-- What `gcd` asks of two objects of a world. -/
def GcdRight (w : World) (i other : ℕ) : Prop :=
  other ≠ i → (w.object i).integerLength ≠ 0 → (w.object other).integerLength ≠ 0 →
    ∀ copy, w.register2.copy (w.object other) = some copy → GcdExact (w.object i) copy

/-- In every reachable world `gcd` comes to an end, leaves the greatest common divisor in its
object and every other object as it was. -/
theorem Reachable.gcd (reachable : Reachable w) {i other : ℕ} (created : w.Created i)
    (created' : w.Created other) (right : w.GcdRight i other) :
    Returns (w.run (.gcd i other)) (w.Becomes i (Int.gcd (w.value i) (w.value other))) := by
  have hw := reachable.valid
  have hm := hw.created created
  have ho := hw.created created'
  apply (returns_gcd hm ho hw.register1 hw.register2 (decide (other = i))
    (fun same => by rw [of_decide_eq_true same]) fun differ some nonzero =>
      GcdExact.gcdSound hm ho hw.register1 hw.register2 some
        (right (of_decide_eq_false differ) nonzero some)).bind
  intro (r, register1, register2) ⟨holds, _⟩
  exact Returns.pure_iff.mpr (becomes_set i holds.exact)

/-- A run leaves `12` and `18` in the objects 0 and 1. -/
theorem Reachable.gcd_twelve : ∃ w, Reachable w ∧ w.value 0 = 12 ∧ w.value 1 = 18 ∧
    Returns (w.run (.gcd 0 1)) (w.Becomes 0 (Int.gcd 12 18)) := by
  have twelve := Reachable.start.step (c := .fromInteger 0 12) trivial trivial rfl
  have both := twelve.step (c := .fromInteger 1 18) trivial trivial rfl
  have hm := both.valid.created (i := 0) (by decide)
  have hw := both.valid
  have divisor := @Reachable.gcd _ both 0 1 (by decide) (by decide) fun _ _ _ copy run => by
    have same := ((returns_copy hw.register2.fits (hw.created (i := 1) (by decide))).unique
      run).1.value_eq
    refine .of_nonneg hm (by decide) ?_ (by decide)
    rw [same]
    decide
  exact ⟨_, both, by decide, by decide, divisor⟩

/-- A run leaves `2 ^ 64 + 1` in the object 0, from the second word of its storage on, and
`2 ^ 63` in the object 1.  What `gcd` leaves is `2 ^ 32`. -/
theorem reachable_misaligned : ∃ w, Reachable w ∧ w.Created 0 ∧ w.Created 1 ∧
    w.value 0 = 2 ^ 64 + 1 ∧ w.value 1 = 2 ^ 63 ∧
    ∃ w', w.run (.gcd 0 1) = some w' ∧ w'.value 0 = 2 ^ 32 := by
  have one := Reachable.start.step (c := .fromInteger 0 1) trivial trivial rfl
  have power := one.step (c := .shiftLeft 0 64) ⟨by decide, by decide⟩ trivial rfl
  have next := power.step (c := .addInteger 0 1) (by unfold Allowed; decide) trivial rfl
  have shifted := next.step (c := .shiftLeft 0 32) ⟨by decide, by decide⟩ trivial rfl
  have back := shifted.step (c := .shiftRight 0 32) ⟨by decide, by decide⟩
    (fun _ zero => absurd zero (by decide)) rfl
  have other := back.step (c := .fromInteger 1 1) trivial trivial rfl
  have both := other.step (c := .shiftLeft 1 63) ⟨by decide, by decide⟩ trivial rfl
  exact ⟨_, both, by decide, by decide, by decide, by decide, _, rfl, by decide⟩

/-- `gcd` does not always leave the greatest common divisor. -/
theorem not_gcd : ¬∀ w i other, Reachable w → w.Created i → w.Created other →
    Returns (w.run (.gcd i other)) (w.Becomes i (Int.gcd (w.value i) (w.value other))) := by
  intro claim
  obtain ⟨w, reachable, created, created', value, value', w', run, result⟩ :=
    reachable_misaligned
  have divisor := ((claim w 0 1 reachable created created').unique run).1.value_eq
  rw [value, value'] at divisor
  exact absurd (result.symm.trans divisor) (by decide)

end World

end MutableBigInteger

end Liberty
