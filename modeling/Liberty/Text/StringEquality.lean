import Liberty.Text.StringWorld

/-!
# Equality of strings

`is_equal` compares two natively stored strings by their storages, any other pair character by
character, and a ROPE on the left up to the end of the shorter string only.
-/

namespace Liberty

/-! ## Loops on two strings -/

section Loops

variable {item item' : Int → Option Character} {count count' : Int} {xs ys : List Character}

theorem Spells.tests (h : Spells item count xs) (h' : Spells item' count' ys)
    (r : Character → Character → Bool) :
    Tests (fun i => do return r (← item i) (← item' i)) 1 (fun p => r p.1 p.2) (xs.zip ys) := by
  intro k p found
  obtain ⟨left, right⟩ := List.getElem?_zip_eq_some.mp found
  dsimp only
  rw [Int.add_comm, h.item_eq k p.1 left, h'.item_eq k p.2 right]
  rfl

/-- The characters are compared up to the end of the shorter string. -/
theorem Spells.allUp_min_eq (h : Spells item count xs) (h' : Spells item' count' ys)
    (r : Character → Character → Bool) :
    allUp (fun i => do return r (← item i) (← item' i)) true 1 (min count count') =
      some ((xs.zip ys).all fun p => r p.1 p.2) := by
  have left := h.count_eq
  have right := h'.count_eq
  apply allUp_eq (h.tests h' r)
  rw [List.length_zip]
  omega

/-- Strings of different lengths are told apart at once. -/
theorem Spells.allUp_eq (h : Spells item count xs) (h' : Spells item' count' ys)
    (r : Character → Character → Bool) :
    allUp (fun i => do return r (← item i) (← item' i)) (decide (count = count')) 1 count =
      some (decide (xs.length = ys.length) && (xs.zip ys).all fun p => r p.1 p.2) := by
  have left := h.count_eq
  have right := h'.count_eq
  by_cases same : count = count'
  · have run := h.allUp_min_eq h' r
    rw [← same, Int.min_self] at run
    rw [decide_eq_true same, run, decide_eq_true (show xs.length = ys.length by omega), Bool.true_and]
  · rw [decide_eq_false same, allUp_false, decide_eq_false (show ¬xs.length = ys.length by omega),
      Bool.false_and]

theorem all_zip_iff : ((xs.zip ys).all fun p => decide (p.1 = p.2)) = true ↔ xs <+: ys ∨ ys <+: xs := by
  induction xs generalizing ys with
  | nil => simp
  | cons x xs ih =>
    cases ys with
    | nil => simp
    | cons y ys =>
      rw [List.zip_cons_cons, List.all_cons, Bool.and_eq_true, decide_eq_true_eq, ih,
        List.cons_prefix_cons, List.cons_prefix_cons]
      constructor
      · intro h
        rcases h with ⟨same, starts | starts⟩
        · exact .inl ⟨same, starts⟩
        · exact .inr ⟨same.symm, starts⟩
      · intro h
        rcases h with ⟨same, starts⟩ | ⟨same, starts⟩
        · exact ⟨same, .inl starts⟩
        · exact ⟨same.symm, .inr starts⟩

theorem all_zip_iff_of_length (same : xs.length = ys.length) :
    ((xs.zip ys).all fun p => decide (p.1 = p.2)) = true ↔ xs = ys := by
  rw [all_zip_iff]
  constructor
  · intro h
    rcases h with starts | starts
    · exact starts.eq_of_length same
    · exact (starts.eq_of_length same.symm).symm
  · intro equal
    subst equal
    exact .inl (List.prefix_refl _)

theorem NativelyStoredString.Readable.directEqual_eq {s nss : NativelyStoredString} (h : s.Readable)
    (h' : nss.Readable) (same : Bool) :
    s.directEqual same nss = some (decide (s.count = nss.count) && (same || decide (s.chars = nss.chars))) := by
  have left := h.count_eq
  have right := h'.count_eq
  unfold directEqual
  by_cases length : s.count = nss.count
  · rw [if_pos length, decide_eq_true length, Bool.true_and]
    cases same with
    | true => rfl
    | false =>
      exact h.holds.sliceFastMemcmp_eq h'.holds (by omega) (by omega)
  · rw [if_neg length, decide_eq_false length, Bool.false_and]

theorem NativelyStoredString.Valid.chars_of_null {s : NativelyStoredString} (h : s.Valid)
    (null : s.isNull = true) : s.chars = [] := by
  have capacity := h.null null
  have low := h.lower_nonneg
  have fits := h.fits
  have length := NativelyStoredString.length_chars s
  exact List.length_eq_zero_iff.mp (by omega)

/-- Two strings are equal when they have equal characters at equal places. -/
theorem NativelyStoredString.Readable.chars_eq_iff {s nss : NativelyStoredString} (h : s.Readable)
    (h' : nss.Readable) :
    s.chars = nss.chars ↔ s.count = nss.count ∧ ∀ i : ℕ, i < s.count →
      s.storage.cell (s.storageLower + i) = nss.storage.cell (nss.storageLower + i) := by
  have left := h.count_eq
  have right := h'.count_eq
  constructor
  · intro same
    have length : s.count = nss.count := by rw [left, right, same]
    refine ⟨length, fun i less => ?_⟩
    have found := getElem?_chars (s := s) (k := i) (by omega)
    rw [same, getElem?_chars (s := nss) (k := i) (by omega)] at found
    exact (Option.some.inj found).symm
  · intro agree
    obtain ⟨length, cells⟩ := agree
    refine List.ext_getElem? fun i => ?_
    by_cases less : i < s.count.toNat
    · rw [getElem?_chars less, getElem?_chars (show i < nss.count.toNat by omega)]
      exact congrArg some (cells i (by omega))
    · rw [List.getElem?_eq_none (by omega), List.getElem?_eq_none (by omega)]

end Loops

/-! ## Equality -/

namespace StringWorld

variable {w : StringWorld} {a b : Text}

/-- When `is_equal` can tell two strings apart: where two FIXED_STRINGs of one length share their
storage, it has the same characters at both places; a ROPE on the left is no proper prefix of the
other string, nor the other of it. -/
def Tells (w : StringWorld) : Text → Text → Prop
  | .fixed j, .fixed k => (w.fixed j).address = (w.fixed k).address → (w.fixed j).count = (w.fixed k).count →
      ∀ i : ℕ, i < (w.fixed j).count →
        (w.fixed j).storage.cell ((w.fixed j).storageLower + i) =
          (w.fixed j).storage.cell ((w.fixed k).storageLower + i)
  | .rope left right, b =>
    (w.chars (.rope left right) <+: w.chars b → w.chars (.rope left right) = w.chars b) ∧
      (w.chars b <+: w.chars (.rope left right) → w.chars (.rope left right) = w.chars b)
  | _, _ => True

/-- The strings are equal when their characters are, and then they have one hash code. -/
def SequenceEquality (w : StringWorld) (a b : Text) : Prop :=
  ∃ equal, w.isEqual a b = some equal ∧ (equal = true ↔ w.chars a = w.chars b) ∧
    (equal = true → (w.value a).hashCode = (w.value b).hashCode)

theorem Valid.hashCode_eq (h : w.Valid) (present : w.Exists a) :
    (w.value a).hashCode = some (hashOf (w.chars a)) := by
  have spells := (h.readable present).spells
  cases a with
  | string n => exact spells.computedHashCode_eq
  | fixed k => exact congrArg some (h.hash k present)
  | rope left right => exact spells.computedHashCode_eq

/-- With the answer at hand, equality of the characters is all there is to show. -/
theorem Valid.sequenceEquality_iff_directEqual (h : w.Valid) (presentA : w.Exists a) (presentB : w.Exists b)
    {equal : Bool} (run : w.isEqual a b = some equal) :
    w.SequenceEquality a b ↔ (equal = true ↔ w.chars a = w.chars b) := by
  constructor
  · intro h
    obtain ⟨equal', run', iff, -⟩ := h
    cases run.symm.trans run'
    exact iff
  · intro iff
    refine ⟨equal, run, iff, fun holds => ?_⟩
    rw [h.hashCode_eq presentA, h.hashCode_eq presentB, iff.mp holds]

theorem iff_of_same {equal : Bool} {P Q : Prop} (answer : equal = true ↔ P) (holds : Q) :
    (equal = true ↔ P) ↔ Q :=
  ⟨fun _ => holds, fun _ => answer⟩

theorem Valid.sequenceEquality_fixed (h : w.Valid) {j k : ℕ} (presentJ : j < w.fixedCount)
    (presentK : k < w.fixedCount) :
    w.SequenceEquality (.fixed j) (.fixed k) ↔ w.Tells (.fixed j) (.fixed k) := by
  have readJ := h.fixed j presentJ
  have readK := h.fixed k presentK
  have run := readJ.directEqual_eq readK (w.sameStorage (.fixed j) (.fixed k))
  rw [h.sequenceEquality_iff_directEqual (a := .fixed j) (b := .fixed k) presentJ presentK run]
  by_cases length : (w.fixed j).count = (w.fixed k).count
  · by_cases shared : (w.fixed j).address = (w.fixed k).address
    · -- the answer is True
      have same : w.sameStorage (.fixed j) (.fixed k) = true := decide_eq_true shared
      have cells := (readJ.chars_eq_iff readK).trans (and_iff_right length)
      rw [same, Bool.true_or, Bool.and_true, decide_eq_true length, eq_self_iff_true, true_iff]
      refine cells.trans ⟨fun repeats _ _ => ?_, fun repeats => ?_⟩
      · rw [h.shared j k presentJ presentK shared] at repeats ⊢
        exact repeats
      · have cells := repeats shared length
        rw [h.shared j k presentJ presentK shared] at cells ⊢
        exact cells
    · have other : w.sameStorage (.fixed j) (.fixed k) = false := decide_eq_false shared
      rw [other, Bool.false_or, decide_eq_true length, Bool.true_and]
      exact iff_of_same decide_eq_true_iff fun same => absurd same shared
  · rw [decide_eq_false length, Bool.false_and]
    refine iff_of_same ⟨(fun equal => nomatch equal), fun same => absurd ?_ length⟩ fun _ same =>
      absurd same length
    exact ((readJ.chars_eq_iff readK).mp same).1

theorem Valid.native_eq (h : w.Valid) (present : w.Exists a) {s : NativelyStoredString}
    (native : w.native a = some s) : s.Readable ∧ w.chars a = s.chars := by
  cases a with
  | string n =>
    cases native
    exact ⟨(h.strings n).readable, rfl⟩
  | fixed k =>
    cases native
    exact ⟨h.fixed k present, rfl⟩
  | rope left right => cases native

/-- Two natively stored strings, of which at least one is a STRING. -/
theorem Valid.sequenceEquality_native (h : w.Valid) (presentA : w.Exists a) (presentB : w.Exists b)
    {s nss : NativelyStoredString} (nativeA : w.native a = some s) (nativeB : w.native b = some nss)
    (same : w.sameStorage a b = true → s.count = nss.count → s.chars = nss.chars) :
    w.SequenceEquality a b := by
  obtain ⟨readA, charsA⟩ := h.native_eq presentA nativeA
  obtain ⟨readB, charsB⟩ := h.native_eq presentB nativeB
  have run : w.isEqual a b = s.directEqual (w.sameStorage a b) nss := by
    unfold isEqual
    rw [nativeA, nativeB]
  rw [h.sequenceEquality_iff_directEqual presentA presentB (run.trans (readA.directEqual_eq readB _)), charsA, charsB,
    Bool.and_eq_true, decide_eq_true_eq, Bool.or_eq_true, decide_eq_true_eq]
  constructor
  · intro answer
    obtain ⟨length, shared | equal⟩ := answer
    · exact same shared length
    · exact equal
  · intro equal
    exact ⟨((readA.chars_eq_iff readB).mp equal).1, .inr equal⟩

/-- A natively stored string against a ROPE. -/
theorem Valid.sequenceEquality_rope (h : w.Valid) (presentA : w.Exists a) (presentB : w.Exists b)
    {s : NativelyStoredString} (nativeA : w.native a = some s) (ropeB : w.native b = none) :
    w.SequenceEquality a b := by
  obtain ⟨readA, charsA⟩ := h.native_eq presentA nativeA
  have spellsB := (h.readable presentB).spells
  have run : w.isEqual a b = some (decide (s.chars.length = (w.chars b).length) &&
      (s.chars.zip (w.chars b)).all fun p => decide (p.1 = p.2)) := by
    unfold isEqual
    rw [nativeA, ropeB]
    exact readA.spells.allUp_eq spellsB fun c d => decide (c = d)
  rw [h.sequenceEquality_iff_directEqual presentA presentB run, charsA, Bool.and_eq_true, decide_eq_true_eq]
  constructor
  · intro answer
    exact (all_zip_iff_of_length answer.1).mp answer.2
  · intro same
    rw [same]
    exact ⟨rfl, (all_zip_iff_of_length rfl).mpr rfl⟩

theorem Valid.rope_sequenceEquality (h : w.Valid) {left right : Text} (presentA : w.Exists (.rope left right))
    (presentB : w.Exists b) :
    w.SequenceEquality (.rope left right) b ↔ w.Tells (.rope left right) b := by
  have run := (h.readable presentA).spells.allUp_min_eq (h.readable presentB).spells
    fun c d => decide (c = d)
  rw [h.sequenceEquality_iff_directEqual presentA presentB run]
  change ((((w.chars _).zip (w.chars b)).all _ = true) ↔ _) ↔ _
  rw [all_zip_iff]
  constructor
  · intro answer
    exact ⟨fun starts => answer.mp (.inl starts), fun starts => answer.mp (.inr starts)⟩
  · intro tells
    constructor
    · intro starts
      rcases starts with starts | starts
      · exact tells.1 starts
      · exact tells.2 starts
    · intro same
      rw [same]
      exact .inl (List.prefix_refl _)

/-- **Equality is sequence equality**, and equal strings have one hash code, for precisely the pairs
of strings that the comparison can tell apart, whatever the program did before. -/
theorem Reaches.sequenceEquality_iff {P : StringWorld → Request → Prop}
    {history : List (List Character × ℕ)} (reached : Reaches P w history) (presentA : w.Exists a)
    (presentB : w.Exists b) : w.SequenceEquality a b ↔ w.Tells a b := by
  have h := reached.valid
  cases a with
  | rope left right => exact h.rope_sequenceEquality presentA presentB
  | string m =>
    refine iff_of_true ?_ trivial
    cases b with
    | rope left right => exact h.sequenceEquality_rope presentA presentB rfl rfl
    | fixed k => exact h.sequenceEquality_native presentA presentB rfl rfl fun shared => nomatch shared
    | string n =>
      apply h.sequenceEquality_native presentA presentB rfl rfl
      intro shared length
      rcases (Bool.or_eq_true _ _).mp shared with same | null
      · rw [of_decide_eq_true same]
      · obtain ⟨nullM, nullN⟩ := (Bool.and_eq_true _ _).mp null
        rw [(h.strings m).chars_of_null nullM, (h.strings n).chars_of_null nullN]
  | fixed j =>
    cases b with
    | rope left right =>
      exact iff_of_true (h.sequenceEquality_rope presentA presentB rfl rfl) trivial
    | string n =>
      exact iff_of_true
        (h.sequenceEquality_native presentA presentB rfl rfl fun shared => nomatch shared) trivial
    | fixed k => exact h.sequenceEquality_fixed presentA presentB

/-- A program with the FIXED_STRING `AFBA` and two substrings of it that have one hash code. -/
theorem exists_substrings (P : StringWorld → Request → Prop) :
    ∃ w, Reaches P w [] ∧ w.fixedCount = 3 ∧ w.isEqual (.fixed 2) (.fixed 1) = some true ∧
      w.chars (.fixed 1) = [65, 70] ∧ w.chars (.fixed 2) = [66, 65] ∧
      (∀ hashCode, w.listOf hashCode = []) ∧ ∀ k, w.isInterned k = false := by
  have string := (Reaches.start (P := P)).operation
    (.createString 0 (.fromExternalSized
      ⟨4, fun i => if i = 0 ∨ i = 3 then 65 else if i = 1 then 70 else 66⟩ 4)) ⟨by decide, rfl⟩ rfl
  have whole := string.operation (.makeFromString 0) trivial rfl
  have left := whole.operation (.substring 0 1 2) ⟨by decide, by decide, by decide, by decide⟩ rfl
  have right := left.operation (.substring 0 3 4) ⟨by decide, by decide, by decide, by decide⟩ rfl
  exact ⟨_, right, rfl, rfl, rfl, rfl, fun _ => rfl, fun _ => rfl⟩

/-- A FIXED_STRING and a STRING. -/
theorem Reaches.sequenceEquality_iff_substring :
    ∃ w, Reaches (fun _ _ => True) w [] ∧ w.SequenceEquality (.fixed 1) (.string 0) := by
  obtain ⟨w, reached, count, -⟩ := exists_substrings fun _ _ => True
  have present : w.Exists (.fixed 1) := show 1 < w.fixedCount by omega
  exact ⟨w, reached, (Reaches.sequenceEquality_iff (b := .string 0) reached present trivial).mpr trivial⟩

/-- `AF` and `BA`, taken out of `AFBA`, are found to be equal. -/
theorem not_sequenceEquality :
    ¬∀ (w : StringWorld) (history : List (List Character × ℕ)) (a b : Text),
      Reaches (fun _ _ => True) w history → w.Exists a → w.Exists b → w.SequenceEquality a b := by
  intro claim
  obtain ⟨w, reached, count, run, left, right, -⟩ := exists_substrings fun _ _ => True
  obtain ⟨equal, run', iff, -⟩ := claim w [] (.fixed 2) (.fixed 1) reached
    (show 2 < w.fixedCount by omega) (show 1 < w.fixedCount by omega)
  cases run.symm.trans run'
  have same := iff.mp rfl
  rw [left, right] at same
  exact absurd same (by decide)

end StringWorld

end Liberty
