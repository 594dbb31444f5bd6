import Liberty.Numeric.MutableBigInteger.Euclid

/-!
# Greatest common divisor

`gcd` divides the object by a copy of the other number, then one by the other in turn,
until the copy is zero.
-/

namespace Liberty

namespace MutableBigInteger

/-! ## The source -/

/-- Both divisions of a round, on the object, `register2` and `register1`.  When the first
one leaves nothing, `swap_with` exchanges the numbers, and the object is finished. -/
def gcdRound (finish : MutableBigInteger → MutableBigInteger)
    (s : MutableBigInteger × MutableBigInteger × MutableBigInteger) :
    Option (MutableBigInteger × MutableBigInteger × MutableBigInteger) := do
  let (m, register2, register1) := s
  let (m, register1) ← m.mod register2 register1
  if m.isZero then
    return (finish register2, m, register1)
  else
    let (register2, register1) ← register2.mod m register1
    return (m, register2, register1)

/-- The test of the loop. -/
def gcdStop (s : MutableBigInteger × MutableBigInteger × MutableBigInteger) : Option Bool :=
  some s.2.1.isZero

/-- `gcd`: the object, `register1` and `register2`.  `same` tells whether `other` is the
object itself. -/
def gcd (same : Bool) (m other register1 register2 : MutableBigInteger) :
    Option (MutableBigInteger × MutableBigInteger × MutableBigInteger) :=
  if same then
    some (m.abs, register1, register2)
  else if other.isZero then
    some (m.abs, register1, register2)
  else if m.isZero then do
    let m ← m.copy other
    return (m.abs, register1, register2)
  else do
    let register2 ← register2.copy other
    let s ← gcdRound abs (m, register2, register1)
    let (m, register2, register1) ←
      untilLoop gcdStop (gcdRound id) s.2.1.magnitude.toNat s
    return (m, register1, register2)

/-! ## Exactness -/

section Exactness

variable {m other register1 register2 : MutableBigInteger}

/-- `mod` is exact and records the capacity. -/
def ModSound (m other : MutableBigInteger) : Prop :=
  ModExact m other ∧ RemainderRemembers m other

/-- Both divisions of a round are sound. -/
def GcdRoundSound (s : MutableBigInteger × MutableBigInteger × MutableBigInteger) : Prop :=
  ModSound s.1 s.2.1 ∧ ∀ m register1, s.1.mod s.2.1 s.2.2 = some (m, register1) →
    m.integerLength ≠ 0 → ModSound s.2.1 m

/-- All the divisions of `gcd` are sound. -/
def GcdSound (m other register1 register2 : MutableBigInteger) : Prop :=
  ∀ copy, register2.copy other = some copy → GcdRoundSound (m, copy, register1) ∧
    ∀ s, gcdRound abs (m, copy, register1) = some s →
      ∀ s', LoopPasses gcdStop (gcdRound id) s s' → s'.2.1.integerLength ≠ 0 →
        GcdRoundSound s'

theorem Valid.abs_holds (hm : Valid m) : Holds m.abs |m.value| := by
  rw [abs_value]
  exact hm.setNegative_holds false fun negated => absurd negated Bool.false_ne_true

theorem returns_mod_of_sound (hm : Valid m) (ho : Valid other) (h₁ : Valid register1)
    (divides : other.integerLength ≠ 0) (sound : ModSound m other) :
    Returns (m.mod other register1) fun (r, register1) =>
      Holds r (m.value % other.value) ∧ Valid register1 :=
  (returns_mod hm ho h₁ divides sound.1).mono fun _ ⟨_, remembered, register⟩ =>
    ⟨remembered sound.2, register⟩

theorem gcd_emod_right (a b : ℤ) : Int.gcd b (a % b) = Int.gcd a b := by
  calc Int.gcd b (a % b) = Int.gcd b (a % b + b * (a / b)) :=
        (Int.gcd_add_mul_left_right b (a % b) (a / b)).symm
    _ = Int.gcd a b := by rw [Int.emod_add_mul_ediv, Int.gcd_comm]

/-- One round keeps the greatest common divisor and lowers the magnitude of `register2`. -/
theorem returns_gcdRound {finish : MutableBigInteger → MutableBigInteger} (hm : Valid m)
    (h₂ : Valid register2) (h₁ : Valid register1) (divides : register2.integerLength ≠ 0)
    (sound : GcdRoundSound (m, register2, register1))
    (finished : Holds (finish register2) |register2.value|) :
    Returns (gcdRound finish (m, register2, register1)) fun (m', register2', register1') =>
      Valid m' ∧ Valid register2' ∧ Valid register1' ∧ 0 ≤ m'.value ∧ 0 ≤ register2'.value ∧
        Int.gcd m'.value register2'.value = Int.gcd m.value register2.value ∧
        register2'.magnitude < register2.magnitude := by
  have nonzero : register2.value ≠ 0 := fun zero => divides (h₂.value_eq_zero.mp zero)
  have common := gcd_emod_right m.value register2.value
  rw [gcdRound]
  obtain ⟨⟨m', register1'⟩, run, holds, valid⟩ :=
    returns_mod_of_sound hm h₂ h₁ divides sound.1
  dsimp only at holds valid ⊢
  rw [run, Returns.some_bind]
  have rest := Int.emod_nonneg m.value nonzero
  have less := Int.emod_lt_abs m.value nonzero
  rw [abs_value] at less
  have least := holds.value_eq
  split
  · rename_i zero
    rw [isZero, decide_eq_true_eq, ← holds.value_eq_zero] at zero
    refine Returns.pure_iff.mpr ⟨finished.toValid, holds.toValid, valid, ?_,
      by dsimp only; omega, ?_, ?_⟩
    · rw [finished.value_eq]
      exact abs_nonneg _
    · rw [finished.value_eq, zero, ← common, ← holds.value_eq, zero]
      simp [Int.gcd, Int.natAbs_abs]
    · rw [magnitude_of_zero (holds.value_eq_zero.mp zero)]
      exact h₂.magnitude_pos divides
  · rename_i some
    rw [isZero, decide_eq_true_eq] at some
    have nonzero' : m'.value ≠ 0 := fun zero => some (holds.value_eq_zero.mp zero)
    have rest' := Int.emod_nonneg register2.value nonzero'
    have less' := Int.emod_lt_of_pos register2.value (show 0 < m'.value by omega)
    refine (returns_mod_of_sound h₂ holds.toValid valid some (sound.2 _ _ run some)).bind ?_
    rintro ⟨register2', register1''⟩ ⟨holds', valid'⟩
    refine Returns.pure_iff.mpr ⟨holds.toValid, holds'.toValid, valid',
      by dsimp only; omega, by rw [holds'.value_eq]; exact rest', ?_, ?_⟩
    · rw [holds'.value_eq, ← common, ← holds.value_eq, gcd_emod_right]
    · rw [← abs_value, holds'.value_eq, abs_of_nonneg rest']
      omega

theorem returns_gcd (hm : Valid m) (ho : Valid other) (h₁ : Valid register1)
    (h₂ : Valid register2) (same : Bool) (isSame : same = true → other = m)
    (sound : same = false → other.integerLength ≠ 0 → m.integerLength ≠ 0 →
      GcdSound m other register1 register2) :
    Returns (m.gcd same other register1 register2) fun (r, register1, register2) =>
      Holds r (Int.gcd m.value other.value) ∧ Valid register1 ∧ Valid register2 := by
  rw [gcd]
  split
  · rename_i eq
    rw [isSame eq]
    refine Returns.some_iff.mpr ⟨?_, h₁, h₂⟩
    rw [Int.gcd_self, Int.natCast_natAbs]
    exact hm.abs_holds
  rename_i differs
  rw [Bool.not_eq_true] at differs
  split
  · rename_i zero
    rw [isZero_eq ho, decide_eq_true_eq] at zero
    rw [zero, Int.gcd_zero_right, Int.natCast_natAbs]
    exact Returns.some_iff.mpr ⟨hm.abs_holds, h₁, h₂⟩
  rename_i some
  rw [isZero, decide_eq_true_eq] at some
  split
  · rename_i zero
    rw [isZero_eq hm, decide_eq_true_eq] at zero
    rw [zero, Int.gcd_zero_left, Int.natCast_natAbs]
    refine (returns_copy hm.fits ho).bind ?_
    rintro r ⟨copy, _⟩
    refine Returns.pure_iff.mpr ⟨?_, h₁, h₂⟩
    rw [← copy.value_eq]
    exact copy.toValid.abs_holds
  rename_i some'
  rw [isZero, decide_eq_true_eq] at some'
  obtain ⟨first, next⟩ : True ∧ GcdSound m other register1 register2 :=
    ⟨trivial, sound differs some some'⟩
  obtain ⟨copied, run, copy, -⟩ := returns_copy h₂.fits ho
  obtain ⟨first, rounds⟩ := next copied run
  rw [run, Returns.some_bind, ← copy.value_eq]
  have length : copied.integerLength ≠ 0 := by
    rw [copy.length_eq']
    exact some
  obtain ⟨⟨m', copied', register1'⟩, run', hm', h₂', h₁', pos, pos', common, -⟩ :=
    returns_gcdRound hm copy.toValid h₁ length first copy.toValid.abs_holds
  rw [run', Returns.some_bind]
  refine Returns.bind (P := fun s => Holds s.1 (Int.gcd m.value copied.value) ∧ Valid s.2.1 ∧
    Valid s.2.2) ?_ fun s valid => Returns.pure_iff.mpr ⟨valid.1, valid.2.2, valid.2.1⟩
  refine returns_untilLoop_of_passes
    (fun s => Valid s.1 ∧ Valid s.2.1 ∧ Valid s.2.2 ∧ 0 ≤ s.1.value ∧ 0 ≤ s.2.1.value ∧
      Int.gcd s.1.value s.2.1.value = Int.gcd m.value copied.value)
    (fun s => s.2.1.magnitude.toNat) ⟨hm', h₂', h₁', pos, pos', common⟩ le_rfl ?_
  rintro ⟨a, b, c⟩ passes ⟨ha, hb, hc, nonneg, nonneg', common⟩
  dsimp only at ha hb hc nonneg nonneg' common
  refine Returns.some_iff.mpr ?_
  rw [isZero_eq hb]
  split
  · rename_i zero
    rw [decide_eq_true_eq] at zero
    rw [zero, Int.gcd_zero_right] at common
    refine ⟨{ ha with value_eq := ?_ }, hb, hc⟩
    rw [← common, Int.natAbs_of_nonneg nonneg]
  · rename_i going
    rw [decide_eq_true_eq, hb.value_eq_zero] at going
    have finished : Holds (id b) |b.value| := by
      rw [abs_of_nonneg nonneg']
      exact hb.holds_self
    refine (returns_gcdRound ha hb hc going (rounds _ run' _ passes going) finished).mono ?_
    rintro ⟨a', b', c'⟩ ⟨ha', hb', hc', pos, pos', common', less⟩
    have := b'.magnitude_nonneg
    exact ⟨⟨ha', hb', hc', pos, pos', common'.trans common⟩, by dsimp only; omega⟩

end Exactness

end MutableBigInteger

end Liberty
