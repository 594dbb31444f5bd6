import Liberty.Numeric.MutableBigInteger.World

/-!
# What the commands leave in a reachable world

Sums, products and Euclidean divisions of the objects of a run, with everything else that
they leave unchanged, and the class invariant after any command.
-/

namespace Liberty

namespace MutableBigInteger

namespace World

/-- The value of an object. -/
def value (w : World) (i : ℕ) : ℤ :=
  (w.object i).value

/-- The object `i` is exactly `v`, and every other object is as it was. -/
def Becomes (w : World) (i : ℕ) (v : ℤ) (w' : World) : Prop :=
  Exact (w'.object i) v ∧ ∀ j, j ≠ i → w'.object j = w.object j

/-- `q` and `r` are the quotient and the remainder of `n` by `d`. -/
def Euclidean (n d q r : ℤ) : Prop :=
  n = q * d + r ∧ 0 ≤ r ∧ r < |d|

/-- The objects `i` and `j` are exactly the quotient and the remainder of `n` by `d`, and
every other object is as it was. -/
def BecomesQuotient (w : World) (i j : ℕ) (n d : ℤ) (w' : World) : Prop :=
  (∃ q r, Euclidean n d q r ∧ Exact (w'.object i) q ∧ Exact (w'.object j) r) ∧
    ∀ k, k ≠ i → k ≠ j → w'.object k = w.object k

section Exactness

variable {w : World}

theorem euclidean_ediv_emod {n d : ℤ} (nonzero : d ≠ 0) :
    Euclidean n d (n / d) (n % d) := by
  refine ⟨?_, Int.emod_nonneg n nonzero, Int.emod_lt_abs n nonzero⟩
  rw [mul_comm, Int.mul_ediv_add_emod]

theorem becomes_set (i : ℕ) {m : MutableBigInteger} {v : ℤ} (exact : Exact m v) :
    w.Becomes i v (w.set i m) :=
  ⟨by rwa [set_object_self], fun _ differ => set_object_of_ne w m differ⟩

/-- A command that writes its object is exact if and only if the operation is. -/
theorem returns_becomes_iff (w : World) (i : ℕ) (x : Option MutableBigInteger) (v : ℤ) :
    Returns (x >>= fun m => pure (w.set i m)) (w.Becomes i v) ↔ Returns x (Exact · v) := by
  cases x with
  | none => simp
  | some m =>
    rw [Returns.some_bind, Returns.pure_iff, Returns.some_iff]
    constructor
    · intro becomes
      have exact := becomes.1
      rwa [set_object_self] at exact
    · exact becomes_set i

/-! ## Sums -/

/-- In every reachable world, `add` and `subtract` of two objects are exact if and only if
the operation on magnitudes that they choose is; with an object itself they always are. -/
theorem Reachable.add_subtract (reachable : Reachable w) {i other : ℕ}
    (created : w.Created i) (created' : w.Created other) :
    (other ≠ i →
      (Returns (w.run (.add i other)) (w.Becomes i (w.value i + w.value other)) ↔
        AddExact (w.object i) (w.object other)) ∧
      (Returns (w.run (.subtract i other)) (w.Becomes i (w.value i - w.value other)) ↔
        SubtractExact (w.object i) (w.object other))) ∧
    Returns (w.run (.add i i)) (w.Becomes i (w.value i + w.value i)) ∧
    Returns (w.run (.subtract i i)) (w.Becomes i (w.value i - w.value i)) := by
  have hw := reachable.valid
  have hm := hw.created created
  have ho := hw.created created'
  refine ⟨fun differ => ⟨?_, ?_⟩, ?_, ?_⟩
  · exact (returns_becomes_iff w i _ _).trans (add_spec hm ho _).1
  · refine (returns_becomes_iff w i _ _).trans ?_
    rw [decide_eq_false differ]
    exact (subtract_spec hm ho).1
  · exact (returns_becomes_iff w i _ _).mpr ((hw.returns_add created created
      fun differ => absurd rfl differ).mono fun r holds => holds.exact)
  · exact (returns_becomes_iff w i _ _).mpr ((hw.returns_subtract created created
      fun differ => absurd rfl differ).mono fun r holds => holds.exact)

/-- A run leaves `2 ^ 65` and `2 ^ 65 - 1` in the objects 0 and 1.  Their difference has two
words, and the high one is zero. -/
theorem reachable_neighbours : ∃ w, Reachable w ∧ w.Created 0 ∧ w.Created 1 ∧
    w.value 0 = 2 ^ 65 ∧ w.value 1 = 2 ^ 65 - 1 ∧
    ∃ w', w.run (.subtract 0 1) = some w' ∧ (w'.object 0).integerLength = 2 ∧
      (w'.object 0).offset = 0 ∧ (w'.object 0).storage.cell 1 = 0 := by
  have two := Reachable.start.step (c := .fromInteger 0 2) trivial trivial rfl
  have shifted := two.step (c := .shiftLeft 0 64) ⟨by decide, by decide⟩ trivial rfl
  have copied := shifted.step (c := .copy 1 0) (by unfold Allowed; decide)
    (fun same => absurd same (by decide)) rfl
  have less := copied.step (c := .subtractInteger 1 1) (by unfold Allowed; decide) trivial rfl
  exact ⟨_, less, by decide, by decide, by decide, by decide, _, rfl, by decide, by decide,
    by decide⟩

theorem Reachable.add_subtract_neighbours : ∃ w, Reachable w ∧
    Returns (w.run (.add 0 0)) (w.Becomes 0 (2 ^ 65 + 2 ^ 65)) ∧
    (Returns (w.run (.subtract 0 1)) (w.Becomes 0 (w.value 0 - w.value 1)) ↔
      SubtractExact (w.object 0) (w.object 1)) := by
  obtain ⟨w, reachable, created, created', value, -⟩ := reachable_neighbours
  obtain ⟨differ, sum, -⟩ := reachable.add_subtract created created'
  rw [value] at sum
  exact ⟨w, reachable, sum, (differ (by decide)).2⟩

/-- The difference of two objects of a run is not always normalised. -/
theorem not_subtract_exact : ¬∀ w i other, Reachable w → w.Created i → w.Created other →
    other ≠ i →
      Returns (w.run (.subtract i other)) (w.Becomes i (w.value i - w.value other)) := by
  intro exact
  obtain ⟨w, reachable, created, created', -, -, w', run, length, offset, top⟩ :=
    reachable_neighbours
  have becomes := (exact w 0 1 reachable created created' (by decide)).unique run
  refine becomes.1.top_ne_zero (by rw [length]; decide) ?_
  rw [length, offset]
  exact top

/-! ## Products -/

/-- In every reachable world, `multiply` is exact, and `multiply_to` is, unless the result
is the second factor and the factors do not allow it. -/
theorem Reachable.multiply_multiplyTo (reachable : Reachable w) {i other res : ℕ}
    (created : w.Created i) (created' : w.Created other) (created'' : w.Created res)
    (_apart : res ≠ i) :
    Returns (w.run (.multiply i other)) (w.Becomes i (w.value i * w.value other)) ∧
    (Returns (w.run (.multiplyTo i other res))
        (w.Becomes res (w.value i * w.value other)) ↔
      (res = other → MultiplyToOtherExact (w.object i) (w.object other))) := by
  have hw := reachable.valid
  have hm := hw.created created
  have ho := hw.created created'
  refine ⟨?_, (returns_becomes_iff w res _ _).trans ?_⟩
  · refine (hw.returns_multiply created created').bind ?_
    intro (m, register1) ⟨holds, _⟩
    exact Returns.pure_iff.mpr (becomes_set i holds.exact)
  · by_cases same : res = other
    · subst same
      rw [decide_eq_true rfl]
      exact (multiplyTo_other_iff hm ho).trans
        ⟨fun exact _ => exact, fun exact => exact rfl⟩
    · rw [decide_eq_false same]
      exact iff_of_true ((returns_multiplyTo hm ho (hw.created created'')).mono
        fun r holds => holds.exact) fun eq => absurd eq same

/-- A run leaves `2` and `3` in the objects 0 and 1. -/
theorem reachable_small : ∃ w, Reachable w ∧ w.Created 0 ∧ w.Created 1 ∧
    w.value 0 = 2 ∧ w.value 1 = 3 ∧ w.run (.multiplyTo 0 1 1) = none := by
  have two := Reachable.start.step (c := .fromInteger 0 2) trivial trivial rfl
  have three := two.step (c := .fromInteger 1 3) trivial trivial rfl
  refine ⟨_, three, by decide, by decide, by decide, by decide, ?_⟩
  rfl

theorem Reachable.multiply_multiplyTo_small : ∃ w, Reachable w ∧
    Returns (w.run (.multiply 0 1)) (w.Becomes 0 (2 * 3)) ∧
    (Returns (w.run (.multiplyTo 0 1 1)) (w.Becomes 1 (2 * 3)) ↔
      (1 = 1 → MultiplyToOtherExact (w.object 0) (w.object 1))) := by
  obtain ⟨w, reachable, created, created', value, value', -⟩ := reachable_small
  have product := reachable.multiply_multiplyTo created created' created' (by decide)
  rw [value, value'] at product
  exact ⟨w, reachable, product⟩

/-- `multiply_to` into the second factor does not always return. -/
theorem not_multiplyTo_exact : ¬∀ w i other res, Reachable w → w.Created i →
    w.Created other → w.Created res → res ≠ i →
      Returns (w.run (.multiplyTo i other res))
        (w.Becomes res (w.value i * w.value other)) := by
  intro exact
  obtain ⟨w, reachable, created, created', -, -, stops⟩ := reachable_small
  obtain ⟨w', run, -⟩ := exact w 0 1 1 reachable created created' created' (by decide)
  rw [stops] at run
  cases run

/-! ## Euclidean division -/

theorem becomesQuotient_set {i j : ℕ} (differ : i ≠ j) {m m' : MutableBigInteger} {n d : ℤ}
    (nonzero : d ≠ 0) (quotient : Exact m (n / d)) (remainder : Exact m' (n % d))
    (register1 register2 : MutableBigInteger) :
    w.BecomesQuotient i j n d { (w.set i m).set j m' with register1, register2 } := by
  refine ⟨⟨n / d, n % d, euclidean_ediv_emod nonzero, ?_, ?_⟩, fun k notI notJ => ?_⟩
  · change Exact (((w.set i m).set j m').object i) _
    rwa [set_object_of_ne _ _ differ, set_object_self]
  · change Exact (((w.set i m).set j m').object j) _
    rwa [set_object_self]
  · change ((w.set i m).set j m').object k = _
    rw [set_object_of_ne _ _ notJ, set_object_of_ne _ _ notI]

theorem set_comm {i j : ℕ} (differ : i ≠ j) (m m' : MutableBigInteger) :
    (w.set i m).set j m' = (w.set j m').set i m := by
  change World.mk _ _ _ = World.mk _ _ _
  congr 1
  exact Function.update_comm differ m m' w.object

/-- The divisions are exact, each under its condition on the dividend, the divisor and the
object that receives a result.  What is not written, the divisor above all, is unchanged. -/
theorem Reachable.divisions (reachable : Reachable w) {i other : ℕ}
    (created : w.Created i) (divides : w.Divides other) :
    (∀ quotient remainder, w.Created quotient → w.Created remainder →
      quotient ≠ other → quotient ≠ i → remainder ≠ other → remainder ≠ i →
      quotient ≠ remainder → DivideToExact (w.object i) (w.object other) →
        Returns (w.run (.divideTo i other quotient remainder))
          (w.BecomesQuotient quotient remainder (w.value i) (w.value other))) ∧
    (∀ result, w.Created result → result ≠ other → result ≠ i → other ≠ i →
      RemainderExact (w.object i) (w.object other) (w.object result) →
      ¬NegativeZeroQuotient (w.object i) (w.object other) →
        Returns (w.run (.remainderWithQuotientTo i other result))
          (w.BecomesQuotient result i (w.value i) (w.value other)) ∧
        Returns (w.run (.divideWithRemainderTo i other result))
          (w.BecomesQuotient i result (w.value i) (w.value other))) ∧
    (other ≠ i → RemainderExact (w.object i) (w.object other) w.register2 →
      ¬NegativeZeroQuotient (w.object i) (w.object other) →
        Returns (w.run (.divide i other)) fun w' =>
          ∃ q r, Euclidean (w.value i) (w.value other) q r ∧ w.Becomes i q w') ∧
    (other ≠ i → ModExact (w.object i) (w.object other) →
        Returns (w.run (.mod i other)) fun w' =>
          ∃ q r, Euclidean (w.value i) (w.value other) q r ∧ w.Becomes i r w') := by
  have hw := reachable.valid
  have hm := hw.created created
  have ho := hw.created divides.1
  have h₁ := hw.register1
  have nonzero : w.value other ≠ 0 := fun zero => divides.2 (ho.value_eq_zero.mp zero)
  refine ⟨?_, ?_, ?_, ?_⟩
  · intro quotient remainder createdQ createdR _ _ _ _ differ exact
    rw [run, if_neg differ]
    refine (returns_divideTo hm ho (hw.created createdQ) (hw.created createdR) h₁ divides.2
      exact).bind ?_
    rintro ⟨q, r, register1⟩ ⟨quotient, remainder, _, _⟩
    exact Returns.pure_iff.mpr
      (becomesQuotient_set differ nonzero quotient.exact remainder register1 w.register2)
  · intro result createdR _ differ _ exact signs
    constructor
    · refine (returns_remainderWithQuotientTo hm ho (hw.created createdR) h₁ divides.2
        exact).bind ?_
      rintro ⟨r, q, register1⟩ ⟨quotient, remainder, _, _⟩
      refine Returns.pure_iff.mpr ?_
      rw [set_comm differ.symm]
      exact becomesQuotient_set differ nonzero (quotient signs).exact remainder register1
        w.register2
    · refine (returns_divideWithRemainderTo hm ho (hw.created createdR) h₁ divides.2
        exact).bind ?_
      rintro ⟨q, r, register1⟩ ⟨quotient, remainder, _, _⟩
      exact Returns.pure_iff.mpr (becomesQuotient_set differ.symm nonzero
        (quotient signs).exact remainder register1 w.register2)
  · intro _ exact signs
    refine (returns_divide hm ho h₁ hw.register2 divides.2 exact).bind ?_
    rintro ⟨q, register1, register2⟩ ⟨quotient, _, _⟩
    exact Returns.pure_iff.mpr ⟨_, _, euclidean_ediv_emod nonzero,
      becomes_set i (quotient signs).exact⟩
  · intro _ exact
    refine (returns_mod hm ho h₁ divides.2 exact).bind ?_
    rintro ⟨r, register1⟩ ⟨remainder, _, _⟩
    exact Returns.pure_iff.mpr ⟨_, _, euclidean_ediv_emod nonzero, becomes_set i remainder⟩

/-- A run leaves `1`, `-2`, `0` and `0` in four objects.  The quotient of the first two is
zero with a sign. -/
theorem reachable_one : ∃ w, Reachable w ∧ w.Created 0 ∧ w.Divides 1 ∧ w.Created 2 ∧
    w.Created 3 ∧ w.value 0 = 1 ∧ w.value 1 = -2 ∧
    ModExact (w.object 0) (w.object 1) ∧
    ∃ w', w.run (.divideTo 0 1 2 3) = some w' ∧ (w'.object 2).integerLength = 0 ∧
      (w'.object 2).negative = true := by
  have one := Reachable.start.step (c := .fromInteger 0 1) trivial trivial rfl
  have two := one.step (c := .fromInteger 1 (-2)) trivial trivial rfl
  have quotient := two.step (c := .fromInteger 2 0) trivial trivial rfl
  have remainder := quotient.step (c := .fromInteger 3 0) trivial trivial rfl
  refine ⟨_, remainder, by decide, ⟨by decide, by decide⟩, by decide, by decide, by decide,
    by decide, ?_, _, rfl, by decide, by decide⟩
  exact
    { less := fun negative => absurd negative (by decide)
      cancels := fun larger => absurd larger (by decide)
      oneWord := fun larger => absurd larger (by decide)
      aligned := fun larger => absurd larger (by decide) }

theorem Reachable.divisions_one : ∃ w, Reachable w ∧
    Returns (w.run (.mod 0 1)) fun w' => ∃ q r, Euclidean 1 (-2) q r ∧ w.Becomes 0 r w' := by
  obtain ⟨w, reachable, created, divides, -, -, value, value', exact, -⟩ := reachable_one
  obtain ⟨-, -, -, remainder⟩ := reachable.divisions created divides
  rw [value, value'] at remainder
  exact ⟨w, reachable, remainder (by decide) exact⟩

/-- `divide_to` does not always leave normalised results. -/
theorem not_divideTo_exact : ¬∀ w i other quotient remainder, Reachable w → w.Created i →
    w.Divides other → w.Created quotient → w.Created remainder → quotient ≠ other →
    quotient ≠ i → remainder ≠ other → remainder ≠ i → quotient ≠ remainder →
      Returns (w.run (.divideTo i other quotient remainder))
        (w.BecomesQuotient quotient remainder (w.value i) (w.value other)) := by
  intro exact
  obtain ⟨w, reachable, created, divides, created₂, created₃, -, -, -, w', run, zero, sign⟩ :=
    reachable_one
  obtain ⟨⟨q, r, -, quotient, -⟩, -⟩ := (exact w 0 1 2 3 reachable created divides created₂
    created₃ (by decide) (by decide) (by decide) (by decide) (by decide)).unique run
  rw [quotient.not_negative zero] at sign
  cases sign

/-! ## Class invariant -/

/-- Every allowed and sound command, in every reachable world, keeps the class invariant
of every object. -/
theorem Reachable.class_invariant (reachable : Reachable w) {c : Command}
    (allowed : w.Allowed c) (sound : w.Sound c) : Returns (w.run c) Valid :=
  reachable.valid.returns_run allowed sound

/-- A run leaves `2 ^ 64` in an object, shifts it back and subtracts it from itself. -/
theorem reachable_shifted : ∃ w, Reachable w ∧ w.Allowed (.subtract 0 0) ∧
    w.Sound (.subtract 0 0) ∧ ∃ w', w.run (.subtract 0 0) = some w' ∧
      w'.Created 0 ∧ (w'.object 0).integerLength = 0 ∧ (w'.object 0).offset = 2 := by
  have one := Reachable.start.step (c := .fromInteger 0 1) trivial trivial rfl
  have shifted := one.step (c := .shiftLeft 0 64) ⟨by decide, by decide⟩ trivial rfl
  have back := shifted.step (c := .shiftRight 0 64) ⟨by decide, by decide⟩
    (fun _ zero => absurd zero (by decide)) rfl
  exact ⟨_, back, ⟨by decide, by decide⟩, fun differ => absurd rfl differ, _, rfl, by decide,
    by decide, by decide⟩

theorem Reachable.class_invariant_shifted : ∃ w, Reachable w ∧
    Returns (w.run (.subtract 0 0)) Valid := by
  obtain ⟨w, reachable, allowed, sound, -⟩ := reachable_shifted
  exact ⟨w, reachable, reachable.class_invariant allowed sound⟩

/-- A zero is not always at the beginning of its storage. -/
theorem not_zero_at_origin : ¬∀ w c, Reachable w → w.Allowed c → w.Sound c →
    Returns (w.run c) fun w' => ∀ i, w'.Created i → (w'.object i).integerLength = 0 →
      (w'.object i).offset = 0 := by
  intro origin
  obtain ⟨w, reachable, allowed, sound, w', run, created, zero, offset⟩ := reachable_shifted
  have := (origin w _ reachable allowed sound).unique run 0 created zero
  omega

end Exactness

end World

end MutableBigInteger

end Liberty
