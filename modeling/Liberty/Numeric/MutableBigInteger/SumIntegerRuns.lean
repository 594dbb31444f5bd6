import Liberty.Library.Loops
import Liberty.Numeric.MutableBigInteger.Comparison
import Liberty.Numeric.MutableBigInteger.Conversions
import Liberty.Numeric.MutableBigInteger.Exactness

/-!
# Sums with an INTEGER in a reachable world

`add_integer` and `subtract_integer` are exact.  `add` and `subtract` of the number created
from the same INTEGER are, unless they lose the high words of a longer object.
`add_integer_64` is `add` of the number that a register holds, which is the one of a new
object as far as `add` reads it.
-/

namespace Liberty

namespace MutableBigInteger

section Short

variable {m other : MutableBigInteger}

/-- A number of at most two words never makes a sum too long for its storage. -/
theorem not_sumOverflows_of_short (hm : Valid m) (ho : Valid other)
    (short : other.integerLength ≤ 2) : ¬SumOverflows m other := by
  have least := hm.isCapacity.four_le
  have least' := ho.isCapacity.four_le
  intro overflows
  rcases overflows.2.2 with lacks | lacks <;> omega

/-- The difference of two numbers of at most two words loses at most one of them. -/
theorem not_cancelsTwoWords_of_short (hm : Valid m)
    (lengths : m.integerLength = other.integerLength) (short : other.integerLength ≤ 2) :
    ¬CancelsTwoWords m other := by
  intro ⟨t, lt, differ, _, small⟩
  obtain ⟨n, length⟩ := hm.length_eq
  have length' : other.integerLength = n := by omega
  have nonzero : m.magnitude - other.magnitude ≠ 0 := by
    intro same
    have words : m.magnitude = other.magnitude := by omega
    rw [magnitude_eq length, magnitude_eq length', wordValue_inj] at words
    exact differ (words t (by omega))
  have positive := abs_pos.mpr nonzero
  have power : wordBase ^ t ≤ wordBase ^ 1 := pow_le_pow_right₀ wordBase_pos (by omega)
  have base := wordBase_pos
  nlinarith

/-- A difference with a number of one word has the right value only if it is exact. -/
theorem subtractMagnitude_value_iff (hm : Valid m) (ho : Valid other)
    (nonzero : m.integerLength ≠ 0) (one : other.integerLength = 1) :
    Returns (m.subtractMagnitude other)
        (·.value = signed m.negative (m.magnitude - other.magnitude)) ↔
      SubtractMagnitudeExact m other := by
  have nonneg := hm.length_nonneg
  have exact := (subtractMagnitude_iff hm ho nonzero rfl).1
  refine ⟨fun returns => exact.mp ?_, fun right =>
    (exact.mpr right).mono fun r holds => holds.value_eq⟩
  by_cases same : m.integerLength = other.integerLength
  · exact exact.mpr ⟨fun _ => not_cancelsTwoWords_of_short hm same (by omega),
      fun _ => by omega, fun _ => by omega⟩
  · have longer : other.integerLength < m.integerLength := by omega
    rw [subtractMagnitude, subtractMagnitudeWith, if_neg same, if_pos longer] at returns ⊢
    exact (returns.and (returns_subtractMagnitudeRaw hm ho longer)).mono
      fun r holds => holds.2.2.2 holds.1

/-- `add` of a number of one word has the right value only if it is exact. -/
theorem add_value_iff (hm : Valid m) (ho : Valid other) (short : other.integerLength ≤ 1) :
    Returns (m.add false other) (·.value = m.value + other.value) ↔ AddExact m other := by
  refine ⟨fun returns nonzero' nonzero => ?_, fun right =>
    ((add_spec hm ho false).1.mpr right).mono fun r holds => holds.value_eq⟩
  have length := ho.length_nonneg
  refine ⟨fun _ => not_sumOverflows_of_short hm ho (by omega), fun differ => ?_⟩
  rw [add, if_neg nonzero', if_neg nonzero, if_neg differ] at returns
  refine (subtractMagnitude_value_iff hm ho nonzero (by omega)).mp (returns.mono fun r value => ?_)
  rw [value, signed_sub, value_eq_signed, value_eq_signed other]
  revert differ
  cases m.negative <;> cases other.negative <;> simp

theorem subtract_value_iff (hm : Valid m) (ho : Valid other) (short : other.integerLength ≤ 1) :
    Returns (m.subtract false other) (·.value = m.value - other.value) ↔
      SubtractExact m other := by
  refine ⟨fun returns nonzero' nonzero => ?_, fun right =>
    ((subtract_spec hm ho).1.mpr right).mono fun r holds => holds.value_eq⟩
  have length := ho.length_nonneg
  refine ⟨fun _ => not_sumOverflows_of_short hm ho (by omega), fun same => ?_⟩
  rw [not_not] at same
  rw [subtract, if_neg Bool.false_ne_true, if_neg nonzero', if_neg nonzero, if_pos same] at returns
  refine (subtractMagnitude_value_iff hm ho nonzero (by omega)).mp (returns.mono fun r value => ?_)
  rw [value, value_eq_signed, value_eq_signed other, ← same]
  cases m.negative
  · rfl
  · simp only [signed_true]
    ring

end Short

/-! ## Numbers that are read alike -/

section Alike

/-- The words of both numbers begin their storages and are the same. -/
structure Alike (a b : MutableBigInteger) : Prop where
  offset_eq : a.offset = 0
  offset_eq' : b.offset = 0
  length_eq : a.integerLength = b.integerLength
  negative_eq : a.negative = b.negative
  item_eq : ∀ t, 0 ≤ t → t < a.integerLength → a.storage.item t = b.storage.item t

variable {m a b : MutableBigInteger}

theorem Alike.of_value_eq (ha : Valid a) (hb : Valid b) (offset : a.offset = 0)
    (offset' : b.offset = 0) (same : a.value = b.value) : Alike a b := by
  obtain ⟨length, negative⟩ := ha.same_of_value_eq hb same
  refine ⟨offset, offset', length, negative, fun t low high => ?_⟩
  obtain ⟨n, words⟩ := ha.length_eq
  obtain ⟨u, rfl⟩ := Int.eq_ofNat_of_zero_le low
  have magnitude : a.magnitude = b.magnitude := by
    rw [← abs_value, ← abs_value, same]
  rw [magnitude_eq words, magnitude_eq (length ▸ words), offset, offset', wordValue_inj] at magnitude
  have cell := magnitude u (by omega)
  have range := ha.offset_range (by omega)
  have range' := hb.offset_range (by omega)
  have size := ha.size_eq
  have size' := hb.size_eq
  rw [zero_add] at cell
  rw [NativeArray.item_of_inBounds ⟨low, by omega⟩, NativeArray.item_of_inBounds ⟨low, by omega⟩,
    cell]

theorem Cursor.up_eq_some {γ : Type} {c c' : Cursor γ} {r : Word × γ} (run : c.up r = some c') :
    c'.j = c.j + 1 ∧ c'.k = c.k + 1 ∧ c'.carry = r.2 := by
  rw [Cursor.up] at run
  cases written : c.storage.put r.1 c.k with
  | none =>
    rw [written] at run
    cases run
  | some storage =>
    rw [written] at run
    cases run
    exact ⟨rfl, rfl, rfl⟩

/-- Two loops whose rounds compute the same words. -/
theorem Cursor.upLoop_congr {γ : Type} (c₀ : Cursor γ) (stop : Cursor γ → Bool)
    (word word' : Cursor γ → Option (Word × γ)) (invariant : Cursor γ → Prop)
    (init : invariant c₀) (same : ∀ c, invariant c → stop c = false → word c = word' c)
    (kept : ∀ c r c', invariant c → stop c = false → word c = some r → c.up r = some c' →
      invariant c') :
    c₀.upLoop stop word = c₀.upLoop stop word' ∧
      ∀ c, c₀.upLoop stop word = some c → invariant c := by
  have step := @inStep_untilLoop _ _ (fun c => some (stop c)) (fun c => word c >>= c.up)
    (fun c => some (stop c)) (fun c => word' c >>= c.up) id invariant c₀ init
    (fun _ _ => rfl) (fun c holds going => ?_) c₀.storage.size.toNat
  · rw [InStep, Option.map_id] at step
    exact step
  · have goes : stop c = false := Option.some.inj going
    refine ⟨?_, fun c' run => ?_⟩
    · rw [Option.map_id, id, same c holds goes]
      rfl
    · cases found : word c with
      | none =>
        rw [found] at run
        cases run
      | some r =>
        rw [found, Returns.some_bind] at run
        exact kept c r c' holds goes found run

/-- `subtract_magnitude_raw` reads `other` in its first loop only. -/
theorem subtractMagnitudeRaw_congr (alike : Alike a b) :
    m.subtractMagnitudeRaw a = m.subtractMagnitudeRaw b := by
  have common := Cursor.upLoop_congr ⟨m.storage, m.offset, 0, 0, false⟩
    (fun c => decide (c.k > a.integerLength - 1))
    (fun c => do
      return subtractStep c.carry (← c.storage.item c.i) (← a.storage.item c.j))
    (fun c => do
      return subtractStep c.carry (← c.storage.item c.i) (← b.storage.item c.j))
    (fun c => c.j = c.k ∧ 0 ≤ c.k) ⟨rfl, le_rfl⟩
    (fun c ⟨same, low⟩ going => by
      rw [decide_eq_false_iff_not] at going
      rw [alike.item_eq c.j (by omega) (by omega)])
    (fun c r c' ⟨same, low⟩ _ _ run => by
      obtain ⟨hj, hk, -⟩ := Cursor.up_eq_some run
      omega)
  rw [subtractMagnitudeRaw, subtractMagnitudeRaw, alike.offset_eq, alike.offset_eq',
    ← alike.length_eq]
  dsimp only [carryLoops]
  rw [common.1]

/-- `subtract_magnitude_raw_reverse` reads two words of `other`, of which the second is not
zero. -/
theorem subtractMagnitudeRawReverse_congr (alike : Alike a b) (two : a.integerLength = 2)
    (top : ∀ w, a.storage.item 1 = some w → w ≠ 0) (one : m.integerLength = 1) :
    m.subtractMagnitudeRawReverse a = m.subtractMagnitudeRawReverse b := by
  have common := Cursor.upLoop_congr ⟨m.storage, m.offset, 0, 0, false⟩
    (fun c => decide (c.k > m.integerLength - 1))
    (fun c => do
      return subtractStep c.carry (← a.storage.item c.j) (← c.storage.item c.i))
    (fun c => do
      return subtractStep c.carry (← b.storage.item c.j) (← c.storage.item c.i))
    (fun c => c.j = c.k ∧ 0 ≤ c.k ∧ c.k ≤ 1) ⟨rfl, le_rfl, Int.one_nonneg⟩
    (fun c ⟨same, low, _⟩ going => by
      rw [alike.item_eq c.j (by omega) (by omega)])
    (fun c r c' ⟨same, low, _⟩ going _ run => by
      rw [decide_eq_false_iff_not] at going
      obtain ⟨hj, hk, -⟩ := Cursor.up_eq_some run
      omega)
  rw [subtractMagnitudeRawReverse, subtractMagnitudeRawReverse, alike.offset_eq,
    alike.offset_eq', ← alike.length_eq]
  dsimp only [carryLoops]
  rw [← common.1]
  cases first : Cursor.upLoop (fun c => decide (c.k > m.integerLength - 1))
    (fun c => do return subtractStep c.carry (← a.storage.item c.j) (← c.storage.item c.i))
    ⟨m.storage, m.offset, 0, 0, false⟩ with
  | none => rfl
  | some c₁ =>
    obtain ⟨same, low, high⟩ := common.2 c₁ first
    -- a borrow from the second word ends with it
    have last := Cursor.upLoop_congr c₁ (fun c => !c.carry)
      (fun c => do return mbiDec (← a.storage.item c.j))
      (fun c => do return mbiDec (← b.storage.item c.j))
      (fun c => c.j = c.k ∧ 0 ≤ c.k ∧ c.k ≤ 2 ∧ (c.carry = true → c.k ≤ 1))
      ⟨same, low, by omega, fun _ => high⟩
      (fun c ⟨same, low, _, high⟩ going => by
        have high := high (by simpa using going)
        rw [alike.item_eq c.j (by omega) (by omega)])
      (fun c r c' ⟨same, low, _, high⟩ going word run => by
        have high := high (by simpa using going)
        obtain ⟨hj, hk, carry⟩ := Cursor.up_eq_some run
        refine ⟨by omega, by omega, by omega, fun borrow => ?_⟩
        by_contra second
        rw [show c.j = 1 by omega] at word
        cases found : a.storage.item 1 with
        | none =>
          rw [found] at word
          cases word
        | some w =>
          rw [found] at word
          cases word
          rw [carry] at borrow
          exact top w found (beq_iff_eq.mp borrow))
    rw [Returns.some_bind, Returns.some_bind, ← last.1]
    cases second : Cursor.upLoop (fun c => !c.carry)
      (fun c => do return mbiDec (← a.storage.item c.j)) c₁ with
    | none => rfl
    | some c₂ =>
      obtain ⟨same, low, high, -⟩ := last.2 c₂ second
      have copy := Cursor.upLoop_congr c₂
        (fun c => decide (c.k = a.integerLength))
        (fun c => do return (← a.storage.item c.j, c.carry))
        (fun c => do return (← b.storage.item c.j, c.carry))
        (fun c => c.j = c.k ∧ 0 ≤ c.k ∧ c.k ≤ 2) ⟨same, low, high⟩
        (fun c ⟨same, low, high⟩ going => by
          rw [decide_eq_false_iff_not] at going
          rw [alike.item_eq c.j (by omega) (by omega)])
        (fun c r c' ⟨same, low, high⟩ going _ run => by
          rw [decide_eq_false_iff_not] at going
          obtain ⟨hj, hk, -⟩ := Cursor.up_eq_some run
          omega)
      rw [Returns.some_bind, Returns.some_bind, copy.1]

/-- `add` of numbers that are read alike leaves one value, whether or not it is exact. -/
theorem returns_add_alike (hm : Valid m) (ha : Valid a) (hb : Valid b) (alike : Alike a b)
    (short : a.integerLength ≤ 2) (same : a.value = b.value) :
    Returns (m.add false a) fun r => Returns (m.add false b) fun r' => r.value = r'.value := by
  have length := alike.length_eq
  have nonneg := hm.length_nonneg
  by_cases exact : AddExact m a ∧ AddExact m b
  · apply ((add_spec hm ha false).1.mpr exact.1).mono
    intro r holds
    apply ((add_spec hm hb false).1.mpr exact.2).mono
    intro r' holds'
    rw [holds.value_eq, holds'.value_eq, same]
  -- what is left is a difference of numbers of different lengths
  have differs : a.integerLength ≠ 0 ∧ m.integerLength ≠ 0 ∧ m.negative ≠ a.negative ∧
      m.integerLength ≠ a.integerLength := by
    by_contra otherwise
    simp only [not_and_or, not_not] at otherwise
    refine exact ⟨fun some nonzero => ⟨fun _ => not_sumOverflows_of_short hm ha short, fun sign => ?_⟩,
      fun some nonzero => ⟨fun _ => not_sumOverflows_of_short hm hb (by omega), fun sign => ?_⟩⟩
    · have lengths : m.integerLength = a.integerLength :=
        ((otherwise.resolve_left some).resolve_left nonzero).resolve_left sign
      exact ⟨fun _ => not_cancelsTwoWords_of_short hm lengths short, fun _ => by omega,
        fun _ => by omega⟩
    · rw [← length] at some
      rw [← alike.negative_eq] at sign
      have lengths : m.integerLength = a.integerLength :=
        ((otherwise.resolve_left some).resolve_left nonzero).resolve_left sign
      exact ⟨fun _ => not_cancelsTwoWords_of_short hm (by omega) (by omega), fun _ => by omega,
        fun _ => by omega⟩
  obtain ⟨some, nonzero, sign, lengths⟩ := differs
  have sums : m.add false a = m.add false b := by
    rw [add, add, if_neg some, if_neg nonzero, if_neg sign, if_neg (length ▸ some), if_neg nonzero,
      if_neg (alike.negative_eq ▸ sign), subtractMagnitude, subtractMagnitude, subtractMagnitudeWith,
      subtractMagnitudeWith, ← length, if_neg lengths, if_neg lengths]
    by_cases longer : m.integerLength > a.integerLength
    · rw [if_pos longer, if_pos longer, subtractMagnitudeRaw_congr alike]
    · have least := hm.isCapacity.four_le
      have range := ha.offset_range some
      have size := ha.size_eq
      have top := ha.top_ne_zero some
      have offset := alike.offset_eq
      rw [show a.offset + a.integerLength - 1 = 1 by omega] at top
      rw [if_neg longer, if_neg longer, if_pos (by omega), if_pos (by omega)]
      refine subtractMagnitudeRawReverse_congr alike (by omega) (fun w found => ?_) (by
        dsimp only
        omega)
      rw [NativeArray.item_of_inBounds ⟨by omega, by omega⟩] at found
      cases found
      exact top
  have returns : Returns (m.add false a) fun _ => True := by
    rw [add, if_neg some, if_neg nonzero, if_neg sign]
    exact (returns_subtractMagnitude hm ha nonzero).mono fun _ _ => trivial
  obtain ⟨r, run, -⟩ := returns
  rw [← sums, run]
  exact Returns.some_iff.mpr (Returns.some_iff.mpr rfl)

end Alike

namespace World

variable {w : World}

/-- Both programs return and leave one value in the object `i`. -/
def LeaveSame (i : ℕ) (x y : Option World) : Prop :=
  Returns x fun w' => Returns y fun w'' => w'.value i = w''.value i

/-- `add` of the number that `from_integer` creates is exact. -/
def AddsInteger (m : MutableBigInteger) (k : Word) : Prop :=
  ∀ big, blank.fromInteger k = some big → AddExact m big

/-- `subtract` of the number that `from_integer` creates is exact. -/
def SubtractsInteger (m : MutableBigInteger) (k : Word) : Prop :=
  ∀ big, blank.fromInteger k = some big → SubtractExact m big

/-- An object that has not been created is blank. -/
theorem Valid.blank_of_not_created (hw : w.Valid) {j : ℕ} (fresh : ¬w.Created j) :
    w.object j = blank := by
  rcases hw.object j with blank | valid
  · exact blank
  · have least := valid.isCapacity.four_le
    unfold Created at fresh
    omega

/-- The number of an INTEGER has at most one word. -/
theorem length_le_one {big : MutableBigInteger} {k : Word} (holds : Holds big k.toInt) :
    big.integerLength ≤ 1 := by
  by_contra more
  have least := holds.toValid.pow_le_magnitude (n := 1) (by omega)
  have low := BitVec.le_toInt k
  have high := BitVec.toInt_lt (x := k)
  rw [← abs_value, holds.value_eq, le_abs] at least
  unfold wordBase at least
  omega

/-- The number of an INTEGER_64 has at most two words. -/
theorem length_le_two {big : MutableBigInteger} {k : BitVec 64} (holds : Holds big k.toInt) :
    big.integerLength ≤ 2 := by
  by_contra more
  have least := holds.toValid.pow_le_magnitude (n := 2) (by push_cast; omega)
  have low := BitVec.le_toInt k
  have high := BitVec.toInt_lt (x := k)
  rw [← abs_value, holds.value_eq, le_abs] at least
  unfold wordBase at least
  omega

/-- A command on a number just created in the object `j`. -/
theorem leaveSame_of_created {i j : ℕ} (apart : j ≠ i) {big : MutableBigInteger}
    {f : MutableBigInteger → MutableBigInteger → Option MutableBigInteger} {x : Option World}
    {v : ℤ} (right : Returns x fun w' => w'.value i = v) :
    LeaveSame i x (do
        let m ← f ((w.set j big).object i) ((w.set j big).object j)
        return (w.set j big).set i m) ↔
      Returns (f (w.object i) big) (·.value = v) := by
  obtain ⟨w', run, rfl⟩ := right
  rw [LeaveSame, run, Returns.some_iff, set_object_of_ne _ _ apart.symm, set_object_self,
    Returns.bind_iff]
  simp only [Returns.pure_iff, value, set_object_self, eq_comm]

/-- In every reachable world `add_integer` and `subtract_integer` are exact.  They leave what
`add` and `subtract` of the number created from the INTEGER leave if and only if these are
exact, and `add_integer_64` always leaves what `add` does. -/
theorem Reachable.integer_operands (reachable : Reachable w) {i j : ℕ} (created : w.Created i)
    (fresh : ¬w.Created j) :
    (∀ k : Word,
      Returns (w.run (.addInteger i k)) (w.Becomes i (w.value i + k.toInt)) ∧
      Returns (w.run (.subtractInteger i k)) (w.Becomes i (w.value i - k.toInt)) ∧
      (LeaveSame i (w.run (.addInteger i k))
          (w.run (.fromInteger j k) >>= fun w' => w'.run (.add i j)) ↔
        AddsInteger (w.object i) k) ∧
      (LeaveSame i (w.run (.subtractInteger i k))
          (w.run (.fromInteger j k) >>= fun w' => w'.run (.subtract i j)) ↔
        SubtractsInteger (w.object i) k)) ∧
    ∀ k : BitVec 64, LeaveSame i (w.run (.addInteger64 i k))
      (w.run (.fromInteger64 j k) >>= fun w' => w'.run (.add i j)) := by
  have hw := reachable.valid
  have hm := hw.created created
  have blank := hw.blank_of_not_created fresh
  have apart : j ≠ i := fun same => fresh (same ▸ created)
  constructor
  · intro k
    have sum : Returns (w.run (.addInteger i k)) (w.Becomes i (w.value i + k.toInt)) :=
      (returns_becomes_iff w i _ _).mpr ((returns_addInteger hm k).mono fun r holds => holds.exact)
    have difference : Returns (w.run (.subtractInteger i k)) (w.Becomes i (w.value i - k.toInt)) :=
      (returns_becomes_iff w i _ _).mpr
        ((returns_subtractInteger hm k).mono fun r holds => holds.exact)
    obtain ⟨big, run, holds, -⟩ := returns_fromInteger fits_blank k
    have start : w.run (.fromInteger j k) = some (w.set j big) := by
      rw [World.run, blank, run]
      rfl
    have only : ∀ {P : MutableBigInteger → Prop},
        (∀ big', MutableBigInteger.blank.fromInteger k = some big' → P big') ↔ P big := by
      intro P
      rw [run]
      exact ⟨fun all => all big rfl, fun one big' same => Option.some.inj same ▸ one⟩
    have short := length_le_one holds
    refine ⟨sum, difference, ?_, ?_⟩
    · rw [start, Returns.some_bind, AddsInteger, only, ← add_value_iff hm holds.toValid short,
        holds.value_eq, World.run, decide_eq_false apart]
      exact leaveSame_of_created (f := fun m other => m.add false other) apart
        (sum.mono fun w' becomes => becomes.1.value_eq)
    · rw [start, Returns.some_bind, SubtractsInteger, only,
        ← subtract_value_iff hm holds.toValid short, holds.value_eq, World.run,
        decide_eq_false apart]
      exact leaveSame_of_created (f := fun m other => m.subtract false other) apart
        (difference.mono fun w' becomes => becomes.1.value_eq)
  · intro k
    obtain ⟨big, run, holds, offset, -⟩ := returns_fromInteger64 fits_blank k
    obtain ⟨register, run', holds', offset', -⟩ := returns_fromInteger64 hw.register1.fits k
    have start : w.run (.fromInteger64 j k) = some (w.set j big) := by
      rw [World.run, blank, run]
      rfl
    have same : register.value = big.value := by rw [holds.value_eq, holds'.value_eq]
    have alike : Returns ((w.object i).add false register) fun r =>
        Returns ((w.object i).add false big) fun r' => r.value = r'.value := by
      by_cases zero : k = 0
      · have none : ∀ {big : MutableBigInteger}, Holds big k.toInt → big.integerLength = 0 := by
          intro big holds
          rw [← holds.toValid.value_eq_zero, holds.value_eq, zero]
          rfl
        rw [add, if_pos (none holds'), add, if_pos (none holds)]
        exact Returns.some_iff.mpr (Returns.some_iff.mpr rfl)
      · exact returns_add_alike hm holds'.toValid holds.toValid
          (.of_value_eq holds'.toValid holds.toValid (offset' zero) (offset zero) same)
          (length_le_two holds') same
    obtain ⟨r, sum, r', sum', equal⟩ := alike
    rw [LeaveSame, start, Returns.some_bind, World.run, World.run, decide_eq_false apart,
      set_object_of_ne _ _ apart.symm, set_object_self, sum', addInteger64, run', Returns.some_bind,
      sum]
    refine Returns.some_iff.mpr (Returns.some_iff.mpr ?_)
    change ((w.set i r).object i).value = (((w.set j big).set i r').object i).value
    rw [set_object_self, set_object_self, equal]

/-- A run leaves `2 ^ 64 + 1` in the object 0, from the second word of its storage on.  After
`add_integer (-1)` it is `2 ^ 64`, and after `add` of a new `-1` it is `2 ^ 32`. -/
theorem reachable_displaced : ∃ w, Reachable w ∧ w.Created 0 ∧ ¬w.Created 1 ∧
    w.value 0 = 2 ^ 64 + 1 ∧
    ∃ w' w'', w.run (.addInteger 0 (-1)) = some w' ∧ w'.value 0 = 2 ^ 64 ∧
      (w.run (.fromInteger 1 (-1)) >>= fun w' => w'.run (.add 0 1)) = some w'' ∧
      w''.value 0 = 2 ^ 32 := by
  have one := Reachable.start.step (c := .fromInteger 0 1) trivial trivial rfl
  have power := one.step (c := .shiftLeft 0 64) ⟨by decide, by decide⟩ trivial rfl
  have next := power.step (c := .addInteger 0 1) (by unfold Allowed; decide) trivial rfl
  have shifted := next.step (c := .shiftLeft 0 32) ⟨by decide, by decide⟩ trivial rfl
  have back := shifted.step (c := .shiftRight 0 32) ⟨by decide, by decide⟩
    (fun _ zero => absurd zero (by decide)) rfl
  exact ⟨_, back, by decide, by decide, by decide, _, _, rfl, by decide, rfl, by decide⟩

theorem Reachable.integer_operands_displaced : ∃ w, Reachable w ∧
    Returns (w.run (.addInteger 0 (-1))) (w.Becomes 0 (2 ^ 64 + 1 + (-1 : Word).toInt)) ∧
    LeaveSame 0 (w.run (.addInteger64 0 (-1)))
      (w.run (.fromInteger64 1 (-1)) >>= fun w' => w'.run (.add 0 1)) := by
  obtain ⟨w, reachable, created, fresh, value, -⟩ := reachable_displaced
  obtain ⟨small, large⟩ := reachable.integer_operands created fresh
  have sum := (small (-1)).1
  rw [value] at sum
  exact ⟨w, reachable, sum, large (-1)⟩

/-- `add_integer` does not always leave what `add` of the number created from the INTEGER
leaves. -/
theorem not_integer_operands : ¬∀ w i j k, Reachable w → w.Created i → ¬w.Created j →
    LeaveSame i (w.run (.addInteger i k))
      (w.run (.fromInteger j k) >>= fun w' => w'.run (.add i j)) := by
  intro claim
  obtain ⟨w, reachable, created, fresh, -, w', w'', run, value, run', value'⟩ :=
    reachable_displaced
  have same := claim w 0 1 (-1) reachable created fresh
  rw [LeaveSame, run, Returns.some_iff, run', Returns.some_iff, value, value'] at same
  exact absurd same (by decide)

end World

end MutableBigInteger

end Liberty
