import Liberty.Numeric.Number.NumberRuns

/-!
# Exact operations in a run of NUMBER

In a run of sound operations the sums and the reciprocals are exact.  The products are where nothing is cut to
32 bits and no divisor is beyond 64 bits, and the Euclidean divisions but for a negative number of 64 bits that
is divided by a bigger one.
-/

namespace Liberty

open Calculation MutableBigInteger

namespace NumberPool

open ExactNumber

variable {s : NumberPool} {a b : ExactNumber}

/-- What the operation gives in the pool is exactly `q`. -/
def Gives (s : NumberPool) (p : Calculation ExactNumber) (q : ℚ) : Prop :=
  Returns (p.run World.run s.registers) fun (c, _) => c.Represents q

/-- No command of the operation loses a word, an offset or a capacity of a register. -/
def Meets (s : NumberPool) {α : Type} (p : Calculation α) : Prop :=
  CommandProgram.Meets World.run Calculation.Sound p s.registers

theorem Canonical.represents (h : s.Canonical) (member : a ∈ s.numbers) : a.Represents a.value := by
  obtain ⟨q, represents⟩ := h.numbers a member
  rwa [represents.value_eq]

theorem Canonical.gives (h : s.Canonical) {p : Calculation ExactNumber} {q : ℚ} (meets : s.Meets p)
    (exact : Produces p (·.Represents q)) : s.Gives p q :=
  (exact s.registers h.registers meets).mono fun _ ⟨_, represents⟩ => represents

/-- What holds of the NUMBER that an operation gives. -/
theorem Canonical.of_gives (h : s.Canonical) {p : Calculation ExactNumber} {q : ℚ} {Q : ExactNumber → Prop}
    (meets : s.Meets p) (given : s.Gives p q) (partial' : ProducesIfDefined p Q) :
    ∃ c, c.Represents q ∧ Q c := by
  obtain ⟨⟨c, w⟩, run, represents⟩ := given
  exact ⟨c, represents, (partial' s.registers h.registers meets c w run).2⟩

/-! ## Sums -/

/-- The sum and the difference of two NUMBERs of a run are exact and canonical. -/
theorem Reaches.sums (reached : Reaches Sound s) (member : a ∈ s.numbers) (member' : b ∈ s.numbers) :
    (s.Meets (a.add b) → s.Gives (a.add b) (a.value + b.value)) ∧
      (s.Meets (a.subtract b) → s.Gives (a.subtract b) (a.value - b.value)) := by
  have canonical := reached.canonical
  have first := canonical.represents member
  have second := canonical.represents member'
  exact ⟨fun meets => canonical.gives meets (first.produces_add second),
    fun meets => canonical.gives meets (first.produces_subtract second)⟩

theorem two_sums : NumberPool.Gives ⟨[.integer (.integer64 2)], start.registers⟩
    ((integer (.integer64 2)).add (integer (.integer64 2)))
    ((integer (.integer64 2)).value + (integer (.integer64 2)).value) := by
  have two : Reaches Sound ⟨[.integer (.integer64 2)], start.registers⟩ :=
    .step (.fromInteger64 2) .start trivial ⟨trivial, id⟩ rfl
  exact (two.sums (List.mem_singleton.mpr rfl) (List.mem_singleton.mpr rfl)).1 trivial

/-- A BIG_INTEGER_NUMBER with a top word that is zero is not canonical. -/
theorem not_gives_of_top {p : Calculation ExactNumber} {n : BigIntegerNumber} {w : World} {q : ℚ}
    (run : p.run World.run s.registers = some (.integer (.bigInteger n), w))
    (top : n.storage.cell (n.capacity - 1) = 0) : ¬s.Gives p q := by
  intro given
  have represents := given.unique run
  exact BigIntegerNumber.Represents.top_ne_zero represents.2 top

/-- `2 ^ 65 + -(2 ^ 65 - 5)` is stored in two words. -/
theorem not_sums : ¬∀ s, Reaches (fun _ _ => True) s → ∀ a b, a ∈ s.numbers → b ∈ s.numbers →
    s.Gives (a.add b) (a.value + b.value) ∧ s.Gives (a.subtract b) (a.value - b.value) := by
  intro claim
  have nothing : Reaches (fun _ _ => True) start := .start
  have power := nothing.step (.fromInteger64 0x4000000000000000) trivial trivial rfl
  have large := power.step (.mixed .multiply 0 8) (fun _ _ => trivial) trivial rfl
  have less := large.step (.mixed .add 1 (-5)) (fun _ _ => trivial) trivial rfl
  have opposite := less.step (.unary .negate 2) (fun _ _ => trivial) trivial rfl
  have sums := claim _ opposite _ _ (List.mem_of_getElem? (i := 1) rfl) (List.mem_of_getElem? (i := 3) rfl)
  exact not_gives_of_top rfl (by decide) sums.1

/-! ## Products -/

/-- The product of two NUMBERs of a run is exact and canonical where nothing is cut. -/
theorem Canonical.multiply_iff (h : s.Canonical) {q r : ℚ} (first : a.Represents q) (second : b.Represents r)
    (meets : s.Meets (a.multiply b)) : s.Gives (a.multiply b) (q * r) ↔ MultipliesExactly q r := by
  constructor
  · intro given
    obtain ⟨c, represents, exact⟩ := h.of_gives meets given (first.multipliesExactly_of_run second)
    exact exact represents
  · exact fun exact => h.gives meets (first.produces_multiply second exact)

theorem Canonical.divide_iff (h : s.Canonical) {q r : ℚ} (first : a.Represents q) (second : b.Represents r)
    (nonzero : r ≠ 0) (meets : s.Meets (a.divide b)) :
    s.Gives (a.divide b) (q / r) ↔ MultipliesExactly q r⁻¹ := by
  rw [div_eq_mul_inv]
  constructor
  · intro given
    have inverse := (second.produces_inverse nonzero).ifDefined
    obtain ⟨c, represents, exact⟩ := h.of_gives meets given
      (inverse.bind fun _ represents => first.multipliesExactly_of_run represents)
    exact exact represents
  · exact fun exact => h.gives meets <| (second.produces_inverse nonzero).bind fun _ represents =>
      first.produces_multiply represents exact

/-- The products and the quotients of the NUMBERs of a run are exact and canonical exactly where nothing is cut,
and the reciprocals always are. -/
theorem Reaches.products (reached : Reaches Sound s) (member : a ∈ s.numbers) (member' : b ∈ s.numbers) :
    (s.Meets (a.multiply b) → (s.Gives (a.multiply b) (a.value * b.value) ↔ MultipliesExactly a.value b.value)) ∧
      (b.value ≠ 0 →
        (s.Meets (a.divide b) →
          (s.Gives (a.divide b) (a.value / b.value) ↔ MultipliesExactly a.value b.value⁻¹)) ∧
        (s.Meets b.inverse → s.Gives b.inverse b.value⁻¹)) := by
  have canonical := reached.canonical
  have first := canonical.represents member
  have second := canonical.represents member'
  exact ⟨canonical.multiply_iff first second, fun nonzero => ⟨canonical.divide_iff first second nonzero,
    fun meets => canonical.gives meets (second.produces_inverse nonzero)⟩⟩

theorem multipliesExactly_one (r : ℚ) : MultipliesExactly 1 r := by
  have powers := multipliesExactly_pow r 0 one_pos
  rwa [pow_zero, pow_one] at powers

theorem third_products :
    (NumberPool.mk [.integer (.integer64 1), .integer (.integer64 3)] start.registers).Gives
      ((integer (.integer64 1)).divide (integer (.integer64 3)))
      ((integer (.integer64 1)).value / (integer (.integer64 3)).value) := by
  have one : Reaches Sound ⟨[.integer (.integer64 1)], start.registers⟩ :=
    .step (.fromInteger64 1) .start trivial ⟨trivial, id⟩ rfl
  have three : Reaches Sound ⟨[.integer (.integer64 1), .integer (.integer64 3)], start.registers⟩ :=
    one.step (.fromInteger64 3) trivial ⟨trivial, id⟩ rfl
  have products := three.products (List.mem_of_getElem? (i := 0) rfl) (List.mem_of_getElem? (i := 1) rfl)
  have quotients := (products.2 (by decide)).1 trivial
  have unit : (integer (.integer64 1)).value = 1 := Int.cast_one
  exact quotients.mpr (unit ▸ multipliesExactly_one _)

/-- `1 / 2 * 2 ^ 32` is 0: the second factor is cut to 32 bits. -/
theorem not_products : ¬∀ s, Reaches (fun _ _ => True) s → ∀ a b, a ∈ s.numbers → b ∈ s.numbers →
    s.Gives (a.multiply b) (a.value * b.value) ∧
      (b.value ≠ 0 → s.Gives (a.divide b) (a.value / b.value) ∧ s.Gives b.inverse b.value⁻¹) := by
  intro claim
  have nothing : Reaches (fun _ _ => True) start := .start
  have one := nothing.step (.fromInteger64 1) trivial trivial rfl
  have half := one.step (.mixed .divide 0 2) (fun _ _ => by change (2 : BitVec 64) ≠ 0; decide) trivial rfl
  have large := half.step (.fromInteger64 0x100000000) trivial trivial rfl
  have products := claim _ large _ _ (List.mem_of_getElem? (i := 1) rfl) (List.mem_of_getElem? (i := 2) rfl)
  have same : ((0 : ℤ) : ℚ) = (1 : ℤ) / (2 : ℤ) * (4294967296 : ℤ) := (products.1.unique rfl).value_eq
  norm_num at same

/-! ## Euclidean division -/

/-- `a // b` and then `a \\ b`. -/
def divideWithRemainder (a b : ExactNumber) : Calculation (ExactNumber × ExactNumber) := do
  let q ← a.integerDivide b
  let r ← a.remainder b
  return (q, r)

/-- The quotient and the remainder are canonical, and they are those of the Euclidean division. -/
def DividesEuclid (s : NumberPool) (a b : ExactNumber) (x y : ℤ) : Prop :=
  Returns ((divideWithRemainder a b).run World.run s.registers) fun ((q, r), _) =>
    ∃ u v : ℤ, q.Represents u ∧ r.Represents v ∧ x = u * y + v ∧ 0 ≤ v ∧ v < |y|

theorem Canonical.euclid_iff (h : s.Canonical) {n m : IntegerGeneralNumber} {x y : ℤ} (first : n.Represents x)
    (second : m.Represents y) (nonzero : y ≠ 0) (meets : s.Meets (divideWithRemainder (.integer n) (.integer m))) :
    s.DividesEuclid (.integer n) (.integer m) x y ↔ ¬DividesShort x y := by
  have quotient := first.produces_integerDivide second nonzero
  constructor
  · rintro ⟨⟨⟨q, r⟩, w⟩, run, u, v, -, represents, -, nonneg, -⟩ short
    have both : ProducesIfDefined (divideWithRemainder (.integer n) (.integer m)) fun (_, r) => r.Represents x := by
      refine .bind (P := fun _ => True) (.bind quotient.ifDefined fun _ _ => .done trivial) fun _ _ => ?_
      refine .bind (P := fun r => r.Represents x) ?_ fun _ represents => .done represents
      exact .bind (first.produces_remainder_of_short second short).ifDefined fun _ represents =>
        .done (represents_integer represents)
    have kept := (both s.registers h.registers meets (q, r) w run).2
    have same : x = v := Int.cast_inj.mp (kept.value_eq.symm.trans represents.value_eq)
    have negative := short.1
    omega
  · intro long
    have remainder := first.produces_remainder second nonzero
    have both : Produces (divideWithRemainder (.integer n) (.integer m)) fun (q, r) =>
        ∃ u v : ℤ, q.Represents u ∧ r.Represents v ∧ x = u * y + v ∧ 0 ≤ v ∧ v < |y| := by
      refine .bind (P := fun q => q.Represents (x / y : ℤ)) (.bind quotient fun _ ⟨u, represents, exact⟩ => .done ?_)
        fun q hq => ?_
      · rw [exact long] at represents
        exact represents_integer represents
      refine .bind (P := fun r => r.Represents (x % y : ℤ)) (.bind remainder fun _ ⟨v, represents, exact, _⟩ => .done ?_)
        fun r hr => .done ⟨x / y, x % y, hq, hr, ?_, Int.emod_nonneg x nonzero, Int.emod_lt_abs x nonzero⟩
      · rw [exact long] at represents
        exact represents_integer represents
      · rw [mul_comm]
        exact (Int.mul_ediv_add_emod x y).symm
    exact (both s.registers h.registers meets).mono fun _ ⟨_, euclid⟩ => euclid

/-- The Euclidean division of two integers of a run is exact and canonical but for the short divisions. -/
theorem Reaches.euclid (reached : Reaches Sound s) {n m : IntegerGeneralNumber} (member : .integer n ∈ s.numbers)
    (member' : .integer m ∈ s.numbers) (nonzero : m.value ≠ 0)
    (meets : s.Meets (divideWithRemainder (.integer n) (.integer m))) :
    s.DividesEuclid (.integer n) (.integer m) n.value m.value ↔ ¬DividesShort n.value m.value := by
  have canonical := reached.canonical
  obtain ⟨q, represents⟩ := canonical.numbers _ member
  obtain ⟨r, represents'⟩ := canonical.numbers _ member'
  have first := represents.2
  have second := represents'.2
  rw [← first.value_eq] at first
  rw [← second.value_eq] at second
  exact canonical.euclid_iff first second nonzero meets

/-- 7 is divided by the opposite of the minimum. -/
theorem seven_euclid : ∃ s, ∃ m : IntegerGeneralNumber, m.value = 9223372036854775808 ∧
    DividesEuclid s (.integer (.integer64 7)) (.integer m) 7 9223372036854775808 := by
  have least : Reaches Sound ⟨[.integer (.integer64 Integer64.minimum)], start.registers⟩ :=
    .step (.fromInteger64 Integer64.minimum) .start trivial ⟨trivial, id⟩ rfl
  have opposite := least.step (.unary .negate 0) (fun _ _ => trivial)
    ⟨⟨trivial, fun _ _ => ⟨trivial, fun _ _ => CommandProgram.meets_read _ _ _⟩⟩, id⟩ rfl
  have seven := opposite.step (.fromInteger64 7) trivial ⟨trivial, id⟩ rfl
  have divided := seven.euclid (List.mem_of_getElem? (i := 2) rfl) (List.mem_of_getElem? (i := 1) rfl)
    (by decide) trivial
  exact ⟨_, _, by decide, divided.mpr (by decide)⟩

/-- `-1 // 2 ^ 65` is 0 and `-1 \\ 2 ^ 65` is -1. -/
theorem not_euclid : ¬∀ s, Reaches (fun _ _ => True) s → ∀ n m : IntegerGeneralNumber,
    .integer n ∈ s.numbers → .integer m ∈ s.numbers → m.value ≠ 0 →
      s.DividesEuclid (.integer n) (.integer m) n.value m.value := by
  intro claim
  have nothing : Reaches (fun _ _ => True) start := .start
  have power := nothing.step (.fromInteger64 0x4000000000000000) trivial trivial rfl
  have large := power.step (.mixed .multiply 0 8) (fun _ _ => trivial) trivial rfl
  have small := large.step (.fromInteger64 (-1)) trivial trivial rfl
  have divided := claim _ small _ _ (List.mem_of_getElem? (i := 2) rfl) (List.mem_of_getElem? (i := 1) rfl) (by decide)
  obtain ⟨u, v, -, rest, -, nonneg, -⟩ := divided.unique rfl
  have same : v = -1 := Int.cast_inj.mp rest.value_eq.symm
  omega

/-! ## Powers -/

/-- The divisor of two numbers of 64 bits is `2 ^ 63`, or the machine traps. -/
def GcdFails (x y : ℤ) : Prop :=
  IntegerGeneralNumber.GcdTraps x y ∨ Int.gcd x y = 9223372036854775808 ∧ InInteger64 x ∧ InInteger64 y

instance (x y : ℤ) : Decidable (GcdFails x y) :=
  inferInstanceAs (Decidable ((_ ∧ _) ∨ _))

/-- `gcd` gives the greatest common divisor of two integers. -/
theorem Canonical.gcd_iff (h : s.Canonical) {n m : IntegerGeneralNumber} {x y : ℤ} (first : n.Represents x)
    (second : m.Represents y) (meets : s.Meets (ExactNumber.gcd (.integer n) (.integer m))) :
    s.Gives (ExactNumber.gcd (.integer n) (.integer m)) (Int.gcd x y : ℤ) ↔ ¬GcdFails x y := by
  constructor
  · rintro ⟨⟨c, w⟩, run, represents⟩ (traps | ⟨large, inside, inside'⟩)
    · have none := first.not_run_of_gcdTraps second traps
      have defined : ProducesIfDefined (ExactNumber.gcd (.integer n) (.integer m)) fun _ => False :=
        .bind none fun _ no => no.elim
      exact (defined s.registers h.registers meets c w run).2
    · have overflows := first.gcd_overflows second inside inside' large
      have cut : ProducesIfDefined (ExactNumber.gcd (.integer n) (.integer m)) fun c =>
          c.Represents (-9223372036854775808 : ℤ) :=
        .bind overflows fun _ represents => .done (represents_integer represents)
      have other := (cut s.registers h.registers meets c w run).2
      have same := Int.cast_inj.mp (represents.value_eq.symm.trans other.value_eq)
      omega
  · intro safe
    have divisor := first.produces_gcd second fun traps => safe (.inl traps)
    refine h.gives meets (.bind divisor fun g ⟨v, represents, isGcd⟩ => .done (represents_integer ?_))
    rcases isGcd with exact | ⟨-, large, inside⟩
    · rwa [exact] at represents
    · exact absurd (.inr ⟨large, inside⟩) safe

/-- The greatest common divisor of two integers of a run is exact and canonical in both orders, unless it is
`2 ^ 63` between numbers of 64 bits or the machine traps in one order. -/
theorem Reaches.gcds (reached : Reaches Sound s) {n m : IntegerGeneralNumber} (member : .integer n ∈ s.numbers)
    (member' : .integer m ∈ s.numbers) (meets : s.Meets (ExactNumber.gcd (.integer n) (.integer m)))
    (meets' : s.Meets (ExactNumber.gcd (.integer m) (.integer n))) :
    s.Gives (ExactNumber.gcd (.integer n) (.integer m)) (Int.gcd n.value m.value : ℤ) ∧
        s.Gives (ExactNumber.gcd (.integer m) (.integer n)) (Int.gcd n.value m.value : ℤ) ↔
      ¬GcdFails n.value m.value ∧ ¬GcdFails m.value n.value := by
  have canonical := reached.canonical
  obtain ⟨q, represents⟩ := canonical.numbers _ member
  obtain ⟨r, represents'⟩ := canonical.numbers _ member'
  have first := represents.2
  have second := represents'.2
  rw [← first.value_eq] at first
  rw [← second.value_eq] at second
  have there := canonical.gcd_iff first second meets
  have back := canonical.gcd_iff second first meets'
  rw [Int.gcd_comm] at back
  exact and_congr there back

theorem twelve_gcds : NumberPool.Gives ⟨[.integer (.integer64 12), .integer (.integer64 18)], start.registers⟩
    (ExactNumber.gcd (.integer (.integer64 12)) (.integer (.integer64 18))) (Int.gcd 12 18 : ℤ) := by
  have twelve : Reaches Sound ⟨[.integer (.integer64 12)], start.registers⟩ :=
    .step (.fromInteger64 12) .start trivial ⟨trivial, id⟩ rfl
  have both : Reaches Sound ⟨[.integer (.integer64 12), .integer (.integer64 18)], start.registers⟩ :=
    twelve.step (.fromInteger64 18) trivial ⟨trivial, id⟩ rfl
  exact ((both.gcds (List.mem_of_getElem? (i := 0) rfl) (List.mem_of_getElem? (i := 1) rfl) trivial trivial).mpr
    (by decide)).1

/-- The divisor of the minimum and itself is the minimum. -/
theorem not_gcds : ¬∀ s, Reaches (fun _ _ => True) s → ∀ n m : IntegerGeneralNumber, .integer n ∈ s.numbers →
    .integer m ∈ s.numbers →
      s.Gives (ExactNumber.gcd (.integer n) (.integer m)) (Int.gcd n.value m.value : ℤ) := by
  intro claim
  have nothing : Reaches (fun _ _ => True) start := .start
  have least := nothing.step (.fromInteger64 Integer64.minimum) trivial trivial rfl
  have given := claim _ least _ _ (List.mem_of_getElem? (i := 0) rfl) (List.mem_of_getElem? (i := 0) rfl)
  have same : (-9223372036854775808 : ℤ) = (9223372036854775808 : ℤ) :=
    Int.cast_inj.mp ((given.unique rfl).value_eq : _)
  omega

end NumberPool

end Liberty
