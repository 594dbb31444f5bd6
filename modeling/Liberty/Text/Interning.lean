import Liberty.Text.StringEquality

/-!
# Interned strings

One FIXED_STRING stands for all the strings with its characters.  The interned strings of one hash
code are in one list, which a STRING and a FIXED_STRING search in different ways.
-/

namespace Liberty

namespace StringWorld

/-! ## Requests -/

/-- The strings differ at most in the case of their letters. -/
def SameLetters (xs ys : List Character) : Prop :=
  xs.length = ys.length ∧ ((xs.zip ys).all fun p => Character.sameAs p.1 p.2) = true

instance (xs ys : List Character) : Decidable (SameLetters xs ys) :=
  inferInstanceAs (Decidable (_ ∧ _))

/-- The requests that the two searches answer faithfully: no interned string with the hash code of
a STRING differs from it in the case of letters only; a FIXED_STRING can be told from the interned
strings with its hash code. -/
def Faithful (w : StringWorld) : Request → Prop
  | .string n => ∀ j, j ∈ w.listOf (hashOf (w.strings n).chars) →
      SameLetters (w.fixed j).chars (w.strings n).chars → (w.fixed j).chars = (w.strings n).chars
  | .fixed k => w.isInterned k = true ∨
      ∀ j, j ∈ w.listOf (w.fixed k).hashCode → w.Tells (.fixed k) (.fixed j)

/-! ## The interned strings -/

/-- The lists hold precisely the interned strings, no two of which have the same characters. -/
structure Interned (w : StringWorld) : Prop where
  listed : ∀ hashCode j, j ∈ w.listOf hashCode →
    j < w.fixedCount ∧ (w.fixed j).hashCode = hashCode ∧ w.isInterned j = true
  interned : ∀ j, w.isInterned j = true → j ∈ w.listOf (w.fixed j).hashCode
  distinct : ∀ i j, w.isInterned i = true → w.isInterned j = true →
    (w.fixed i).chars = (w.fixed j).chars → i = j

/-- What becomes of the interned strings: they stay. -/
structure Later (w w' : StringWorld) : Prop where
  interned : ∀ j, w.isInterned j = true → w'.isInterned j = true
  fixed : ∀ j, w.isInterned j = true → w'.fixed j = w.fixed j

section Worlds

variable {w w' : StringWorld} {f : FixedString} {k n : ℕ}

theorem Interned.lt (h : w.Interned) (interned : w.isInterned k = true) : k < w.fixedCount :=
  (h.listed _ k (h.interned k interned)).1

theorem listOf_setList (hashCode : Int) : (w.setList hashCode (w.listOf hashCode)).listOf = w.listOf := by
  funext code
  unfold listOf setList
  dsimp only
  by_cases same : code = hashCode
  · rw [same, Function.update_self]
    rfl
  · rw [Function.update_of_ne same]

theorem Interned.setList (h : w.Interned) (hashCode : Int) :
    (w.setList hashCode (w.listOf hashCode)).Interned := by
  refine ⟨fun code j mem => ?_, fun j interned => ?_, h.distinct⟩
  · rw [listOf_setList] at mem
    exact h.listed code j mem
  · rw [listOf_setList]
    exact h.interned j interned

theorem Interned.addFixed (h : w.Interned) (f : FixedString) : (w.addFixed f).Interned := by
  have old : ∀ j, w.isInterned j = true → (w.addFixed f).fixed j = w.fixed j :=
    fun j interned => addFixed_of_lt (h.lt interned)
  refine ⟨fun code j mem => ?_, fun j interned => ?_, fun i j first second => ?_⟩
  · obtain ⟨less, hash, interned⟩ := h.listed code j mem
    exact ⟨Nat.lt_succ_of_lt less, by rw [addFixed_of_lt less]; exact hash, interned⟩
  · rw [old j interned]
    exact h.interned j interned
  · rw [old i first, old j second]
    exact h.distinct i j first second

theorem Interned.later_addFixed (h : w.Interned) (f : FixedString) : Later w (w.addFixed f) :=
  ⟨fun _ interned => interned, fun _ interned => addFixed_of_lt (h.lt interned)⟩

theorem listOf_doIntern (code : Int) : (w.doIntern k (w.listOf (w.fixed k).hashCode)).listOf code =
    w.listOf code ++ if code = (w.fixed k).hashCode then [k] else [] := by
  unfold listOf doIntern StringWorld.setList
  dsimp only
  by_cases same : code = (w.fixed k).hashCode
  · rw [same, Function.update_self, if_pos rfl]
    rfl
  · rw [Function.update_of_ne same, if_neg same, List.append_nil]

/-- A string with new characters is interned. -/
theorem Interned.doIntern (h : w.Interned) (present : k < w.fixedCount)
    (new : ∀ j, w.isInterned j = true → (w.fixed j).chars ≠ (w.fixed k).chars) :
    (w.doIntern k (w.listOf (w.fixed k).hashCode)).Interned := by
  have split : ∀ j, (w.doIntern k (w.listOf (w.fixed k).hashCode)).isInterned j = true →
      j = k ∨ w.isInterned j = true := fun j interned => by
    by_cases same : j = k
    · exact .inl same
    · have interned' : Function.update w.isInterned k true j = true := interned
      rw [Function.update_of_ne same] at interned'
      exact .inr interned'
  have self : (w.doIntern k (w.listOf (w.fixed k).hashCode)).isInterned k = true :=
    Function.update_self _ _ _
  have kept : ∀ j, w.isInterned j = true →
      (w.doIntern k (w.listOf (w.fixed k).hashCode)).isInterned j = true := fun j interned => by
    by_cases same : j = k
    · rw [same]
      exact self
    · exact (Function.update_of_ne same _ _).trans interned
  refine ⟨fun code j mem => ?_, fun j interned => ?_, fun i j first second equal => ?_⟩
  · rw [listOf_doIntern, List.mem_append] at mem
    rcases mem with old | new
    · obtain ⟨less, hash, interned⟩ := h.listed code j old
      exact ⟨less, hash, kept j interned⟩
    · split at new
      · rename_i same
        rw [List.mem_singleton] at new
        subst new
        exact ⟨present, same.symm, self⟩
      · cases new
  · rw [listOf_doIntern, List.mem_append]
    rcases split j interned with rfl | old
    · exact .inr (by
        change j ∈ if (w.fixed j).hashCode = (w.fixed j).hashCode then [j] else []
        rw [if_pos rfl]
        exact List.mem_singleton_self j)
    · exact .inl (h.interned j old)
  · rcases split i first with rfl | oldI
    · rcases split j second with rfl | oldJ
      · rfl
      · exact absurd equal.symm (new j oldJ)
    · rcases split j second with rfl | oldJ
      · exact absurd equal (new i oldI)
      · exact h.distinct i j oldI oldJ equal

theorem later_doIntern (strings : List ℕ) : Later w (w.doIntern k strings) := by
  refine ⟨fun j interned => ?_, fun j interned => rfl⟩
  by_cases same : j = k
  · rw [same]
    exact Function.update_self _ _ _
  · exact (Function.update_of_ne same _ _).trans interned

theorem later_setList (hashCode : Int) (strings : List ℕ) : Later w (w.setList hashCode strings) :=
  ⟨fun _ interned => interned, fun _ _ => rfl⟩

theorem Later.trans {w'' : StringWorld} (h : Later w w') (h' : Later w' w'') : Later w w'' :=
  ⟨fun j interned => h'.interned j (h.interned j interned),
    fun j interned => (h'.fixed j (h.interned j interned)).trans (h.fixed j interned)⟩

end Worlds

/-! ## Answers -/

/-- An interned string with the characters of the request. -/
structure Answered (w : StringWorld) (xs : List Character) (answer : ℕ) (w' : StringWorld) : Prop where
  invariant : w'.Interned
  interned : w'.isInterned answer = true
  chars : (w'.fixed answer).chars = xs
  later : Later w w'

section Answers

variable {w w' : StringWorld} {k n : ℕ} {xs : List Character}

theorem Interned.answered_setList (h : w.Interned) {j : ℕ} {hashCode : Int}
    (mem : j ∈ w.listOf hashCode) :
    Answered w (w.fixed j).chars j (w.setList hashCode (w.listOf hashCode)) :=
  ⟨h.setList hashCode, (h.listed _ j mem).2.2, rfl, later_setList _ _⟩

/-- The comparison with the interned strings, when they can be told apart. -/
theorem Valid.isEqual_fixed (h : w.Valid) {j k : ℕ} (presentJ : j < w.fixedCount)
    (presentK : k < w.fixedCount) (tells : w.Tells (.fixed k) (.fixed j)) :
    w.isEqual (.fixed k) (.fixed j) = some (decide ((w.fixed k).chars = (w.fixed j).chars)) := by
  obtain ⟨equal, run, iff, -⟩ := (h.sequenceEquality_fixed presentK presentJ).mpr tells
  rw [run]
  congr 1
  rw [Bool.eq_iff_iff, iff, decide_eq_true_eq]
  rfl

theorem Valid.firstIndexOf_eq (h : w.Valid) (present : k < w.fixedCount) {strings : List ℕ}
    (listed : ∀ j, j ∈ strings → j < w.fixedCount)
    (tells : ∀ j, j ∈ strings → w.Tells (.fixed k) (.fixed j)) :
    w.firstIndexOf k strings =
      some ((strings.findIdx fun j => decide ((w.fixed k).chars = (w.fixed j).chars) : ℕ) : Int) := by
  have tests : Tests (fun i => do
      let j ← strings[i.toNat]?
      if k = j then return true else w.isEqual (.fixed k) (.fixed j)) 0
      (fun j => decide ((w.fixed k).chars = (w.fixed j).chars)) strings := by
    intro i j found
    have mem := List.mem_of_getElem? found
    dsimp only
    rw [Int.zero_add, Int.toNat_natCast, found]
    change (if k = j then some true else w.isEqual (.fixed k) (.fixed j)) = _
    by_cases same : k = j
    · rw [if_pos same, same, decide_eq_true rfl]
    · rw [if_neg same]
      exact h.isEqual_fixed (listed j mem) present (tells j mem)
  unfold firstIndexOf
  rw [scanUp_eq tests (by omega), Int.zero_add]

theorem Valid.returns_internFixed (h : w.Valid) (interned : w.Interned) (present : k < w.fixedCount)
    (faithful : w.Faithful (.fixed k)) :
    Returns (w.internFixed k) fun r => Answered w (w.fixed k).chars r.1 r.2 := by
  unfold StringWorld.internFixed
  by_cases already : w.isInterned k = true
  · rw [if_pos already, Returns.some_iff]
    exact ⟨interned, already, rfl, ⟨fun _ interned => interned, fun _ _ => rfl⟩⟩
  · have tells := faithful.resolve_left already
    have search : (w.setList (w.fixed k).hashCode (w.listOf (w.fixed k).hashCode)).firstIndexOf k
        (w.listOf (w.fixed k).hashCode) = some (((w.listOf (w.fixed k).hashCode).findIdx
          fun j => decide ((w.fixed k).chars = (w.fixed j).chars) : ℕ) : Int) :=
      (h.setList _ _).firstIndexOf_eq present (fun j mem => (interned.listed _ j mem).1) tells
    rw [if_neg already]
    dsimp only
    rw [search, Returns.some_bind]
    by_cases found : (w.listOf (w.fixed k).hashCode).findIdx
        (fun j => decide ((w.fixed k).chars = (w.fixed j).chars)) < (w.listOf (w.fixed k).hashCode).length
    · have same := of_decide_eq_true (List.findIdx_getElem (w := found))
      have answered := interned.answered_setList (List.getElem_mem found)
      rw [← same] at answered
      rw [if_pos (by omega), Int.toNat_natCast, List.getElem?_eq_getElem found]
      exact Returns.some_iff.mpr answered
    · have length := Nat.le_antisymm List.findIdx_le_length (Nat.le_of_not_lt found)
      rw [List.findIdx_eq_length] at length
      rw [if_neg (by omega)]
      have new : ∀ j, w.isInterned j = true → (w.fixed j).chars ≠ (w.fixed k).chars := by
        intro j internedJ same
        have presentJ := interned.lt internedJ
        have mem := interned.interned j internedJ
        rw [h.hash j presentJ, same, ← h.hash k present] at mem
        exact absurd same.symm (of_decide_eq_false (length j mem))
      have again := listOf_setList (w := w) (w.fixed k).hashCode
      have result := (interned.setList (w.fixed k).hashCode).doIntern present new
      rw [again] at result
      exact Returns.pure_iff.mpr ⟨result, Function.update_self _ _ _, rfl,
        (later_setList _ _).trans (later_doIntern _)⟩

theorem sameAs_self (c : Character) : Character.sameAs c c = true :=
  if_pos rfl

theorem sameLetters_self (xs : List Character) : SameLetters xs xs := by
  refine ⟨rfl, List.all_eq_true.mpr fun p mem => ?_⟩
  obtain ⟨k, found⟩ := List.mem_iff_getElem?.mp mem
  obtain ⟨left, right⟩ := List.getElem?_zip_eq_some.mp found
  rw [left] at right
  rw [Option.some.inj right]
  exact sameAs_self _

/-- A comparison of two strings that do not share a storage. -/
theorem sameAs_eq {s nss : NativelyStoredString} (h : s.Readable) (h' : nss.Readable) :
    s.sameAs false nss = some (decide (SameLetters s.chars nss.chars)) := by
  have left := h.count_eq
  have right := h'.count_eq
  unfold NativelyStoredString.sameAs
  rw [h.directEqual_eq h', Bool.false_or, Returns.some_bind]
  by_cases equal : s.chars = nss.chars
  · rw [equal, if_pos, decide_eq_true (sameLetters_self _)]
    · rfl
    · rw [decide_eq_true (show s.count = nss.count by rw [left, right, equal]), decide_eq_true rfl]
      rfl
  · rw [decide_eq_false equal, Bool.and_false, if_neg Bool.false_ne_true,
      h.spells.allUp_eq h'.spells Character.sameAs]
    congr 1
    rw [Bool.eq_iff_iff, Bool.and_eq_true, decide_eq_true_eq, decide_eq_true_eq]
    rfl

theorem Valid.returns_internString (h : w.Valid) (interned : w.Interned)
    (faithful : w.Faithful (.string n)) :
    Returns (w.internString n) fun r => Answered w (w.strings n).chars r.1 r.2 := by
  have readable := (h.strings n).readable
  have search : ∀ strings : List ℕ, (∀ j, j ∈ strings → j < w.fixedCount) →
      findUp (fun i => do
        let j ← strings[i.toNat]?
        if ← (w.fixed j).sameAs false (w.strings n) then return some j else return none) 0
        (strings.length - 1) = some (strings.findSome? fun j =>
          if SameLetters (w.fixed j).chars (w.strings n).chars then some j else none) := by
    intro strings listed
    refine findUp_eq (fun i j found => ?_) (by omega)
    have present := listed j (List.mem_of_getElem? found)
    rw [Int.zero_add, Int.toNat_natCast, found, Returns.some_bind,
      sameAs_eq (h.fixed j present) readable, Returns.some_bind]
    by_cases same : SameLetters (w.fixed j).chars (w.strings n).chars
    · rw [if_pos (decide_eq_true same), if_pos same]
      rfl
    · rw [if_neg fun holds => same (of_decide_eq_true holds), if_neg same]
      rfl
  unfold StringWorld.internString
  dsimp only
  rw [readable.spells.computedHashCode_eq, Returns.some_bind]
  have run := search (w.listOf (hashOf (w.strings n).chars)) fun j mem => (interned.listed _ j mem).1
  refine Returns.bind ⟨_, run, (rfl : _ = _)⟩ fun result same => ?_
  cases result with
  | some j =>
    obtain ⟨j', mem, found⟩ := List.exists_of_findSome?_eq_some same
    split at found
    · rename_i letters
      cases found
      have answered := interned.answered_setList mem
      rw [faithful j mem letters] at answered
      exact Returns.some_iff.mpr answered
    · cases found
  | none =>
    have absent := List.findSome?_eq_none_iff.mp same
    refine (FixedString.returns_makeFromString readable w.fixedCount).bind
      fun f ⟨_, characters, _, hash⟩ => ?_
    rw [characters] at hash
    have new : ∀ j, w.isInterned j = true → (w.fixed j).chars ≠ f.chars := by
      intro j internedJ equal
      have mem := interned.interned j internedJ
      rw [characters] at equal
      rw [h.hash j (interned.lt internedJ), equal] at mem
      have differ := absent j mem
      rw [equal, if_pos (sameLetters_self _)] at differ
      cases differ
    have before := interned.setList (hashOf (w.strings n).chars)
    have self : ((w.setList (hashOf (w.strings n).chars)
        (w.listOf (hashOf (w.strings n).chars))).addFixed f).fixed w.fixedCount = f := addFixed_self
    have result := (before.addFixed f).doIntern (Nat.lt_succ_self w.fixedCount) fun j internedJ => by
      rw [self, (before.later_addFixed f).fixed j internedJ]
      exact new j internedJ
    rw [self, hash] at result
    change (StringWorld.doIntern _ _ (listOf (w.setList _ _) _)).Interned at result
    rw [listOf_setList] at result
    refine Returns.pure_iff.mpr ⟨result, Function.update_self _ _ _, ?_, ?_⟩
    · change (Function.update w.fixed w.fixedCount f w.fixedCount).chars = _
      rw [Function.update_self, characters]
    · exact ((later_setList _ _).trans (before.later_addFixed f)).trans (later_doIntern _)

theorem Valid.returns_intern (h : w.Valid) (interned : w.Interned) {request : Request}
    (allowed : request.Allowed w) (faithful : w.Faithful request) :
    Returns (w.intern request) fun r => Answered w (w.requested request) r.1 r.2 := by
  cases request with
  | string n => exact h.returns_internString interned faithful
  | fixed k => exact h.returns_internFixed interned allowed faithful

/-! ## Programs -/

theorem start_interned : start.Interned :=
  ⟨(fun _ _ mem => nomatch mem), (fun _ interned => nomatch interned),
    fun _ _ interned => nomatch interned⟩

theorem Interned.execute (h : w.Interned) {operation : Operation} (run : operation.execute w = some w') :
    w'.Interned ∧ Later w w' := by
  have strings : ∀ s, { w with strings := s : StringWorld }.Interned ∧
      Later w { w with strings := s } := fun s =>
    ⟨⟨h.listed, h.interned, h.distinct⟩, ⟨fun _ interned => interned, fun _ _ => rfl⟩⟩
  cases operation with
  | createString n creation =>
    obtain ⟨d, -, done⟩ := Option.bind_eq_some_iff.mp run
    cases done
    exact strings _
  | changeString n command =>
    obtain ⟨d, -, done⟩ := Option.bind_eq_some_iff.mp run
    cases done
    exact strings _
  | makeFromString n =>
    obtain ⟨f, -, done⟩ := Option.bind_eq_some_iff.mp run
    cases done
    exact ⟨h.addFixed f, h.later_addFixed f⟩
  | twin k =>
    cases run
    exact ⟨h.addFixed _, h.later_addFixed _⟩
  | substring k i j =>
    obtain ⟨f, -, done⟩ := Option.bind_eq_some_iff.mp run
    cases done
    exact ⟨h.addFixed f, h.later_addFixed f⟩

/-- Every answer so far is interned and has the characters of its request. -/
theorem Reaches.interned {history : List (List Character × ℕ)} (reached : Reaches Faithful w history) :
    w.Interned ∧ ∀ e, e ∈ history → w.isInterned e.2 = true ∧ (w.fixed e.2).chars = e.1 := by
  induction reached with
  | start => exact ⟨start_interned, fun _ mem => nomatch mem⟩
  | operation operation before allowed run ih =>
    obtain ⟨interned, later⟩ := ih.1.execute run
    refine ⟨interned, fun e mem => ?_⟩
    obtain ⟨is, characters⟩ := ih.2 e mem
    exact ⟨later.interned _ is, by rw [later.fixed _ is]; exact characters⟩
  | request request before allowed meets run ih =>
    have answered := (before.valid.returns_intern ih.1 allowed meets).unique run
    refine ⟨answered.invariant, fun e mem => ?_⟩
    rcases List.mem_cons.mp mem with rfl | old
    · exact ⟨answered.interned, answered.chars⟩
    · obtain ⟨is, characters⟩ := ih.2 e old
      exact ⟨answered.later.interned _ is, by rw [answered.later.fixed _ is]; exact characters⟩

/-- **Interning is faithful** in the programs that only make requests that the searches answer
faithfully: an interned string has the characters of the request, two requests have one answer
precisely when they have the same characters, and the next such request has an answer. -/
theorem Reaches.interning {history : List (List Character × ℕ)} (reached : Reaches Faithful w history) :
    (∀ xs answer, (xs, answer) ∈ history → w.chars (.fixed answer) = xs) ∧
    (∀ xs answer ys answer', (xs, answer) ∈ history → (ys, answer') ∈ history →
      (answer = answer' ↔ xs = ys)) ∧
    ∀ request, request.Allowed w → w.Faithful request →
      ∃ answer w', w.intern request = some (answer, w') := by
  obtain ⟨interned, answers⟩ := reached.interned
  refine ⟨fun xs answer mem => (answers _ mem).2, fun xs answer ys answer' first second => ?_,
    fun request allowed faithful => ?_⟩
  · obtain ⟨is, characters⟩ := answers _ first
    obtain ⟨is', characters'⟩ := answers _ second
    dsimp only at is is' characters characters'
    constructor
    · intro same
      rw [← characters, ← characters', same]
    · intro same
      exact interned.distinct _ _ is is' (by rw [characters, characters', same])
  · obtain ⟨r, run⟩ := (reached.valid.returns_intern interned allowed faithful).isSome
    exact ⟨r.1, r.2, run⟩

/-- One of two substrings of `AFBA` is interned. -/
theorem Reaches.interning_substring :
    ∃ w answer, Reaches Faithful w [([65, 70], answer)] ∧ w.chars (.fixed answer) = [65, 70] := by
  obtain ⟨w, reached, count, -, left, -, none, -⟩ := exists_substrings Faithful
  have faithful : w.Faithful (.fixed 1) := .inr fun j mem => by
    rw [none] at mem
    cases mem
  have present : (Request.fixed 1).Allowed w := show 1 < w.fixedCount by omega
  obtain ⟨answer, w', run⟩ := (Reaches.interning reached).2.2 (.fixed 1) present faithful
  have request := reached.request (.fixed 1) present faithful run
  rw [show w.requested (.fixed 1) = [65, 70] from left] at request
  exact ⟨w', answer, request, (Reaches.interning request).1 _ _ (List.mem_singleton_self _)⟩

theorem internFixed_of_empty (new : w.isInterned k = false) (empty : w.listOf (w.fixed k).hashCode = []) :
    w.internFixed k = some (k, (w.setList (w.fixed k).hashCode []).doIntern k []) := by
  unfold internFixed
  dsimp only
  rw [new, empty]
  rfl

theorem internFixed_of_single (new : w.isInterned k = false) {j : ℕ} (differ : k ≠ j)
    (single : w.listOf (w.fixed k).hashCode = [j]) (equal : w.isEqual (.fixed k) (.fixed j) = some true) :
    w.internFixed k = some (j, w.setList (w.fixed k).hashCode [j]) := by
  have search : (w.setList (w.fixed k).hashCode [j]).firstIndexOf k [j] = some 0 := by
    refine untilLoop_stopped ?_
    change (if k = j then some true else w.isEqual (.fixed k) (.fixed j)) = some true
    rw [if_neg differ, equal]
  unfold internFixed
  dsimp only
  rw [new, single, if_neg Bool.false_ne_true, search]
  rfl

/-- The two substrings of `AFBA` with one hash code are interned as one string. -/
theorem not_interning :
    ¬∀ (w : StringWorld) (history : List (List Character × ℕ)), Reaches (fun _ _ => True) w history →
      ∀ xs answer, (xs, answer) ∈ history → w.chars (.fixed answer) = xs := by
  intro claim
  obtain ⟨w, reached, count, equal, left, right, none, new⟩ := exists_substrings fun _ _ => True
  have hash : (w.fixed 1).hashCode = (w.fixed 2).hashCode := by
    have valid := reached.valid
    rw [valid.hash 1 (by omega), valid.hash 2 (by omega)]
    change hashOf (w.chars (.fixed 1)) = hashOf (w.chars (.fixed 2))
    rw [left, right]
    decide
  have first := reached.request (.fixed 1) (show 1 < w.fixedCount by omega) trivial
    (internFixed_of_empty (new 1) (none _))
  have new' : ((w.setList (w.fixed 1).hashCode []).doIntern 1 []).isInterned 2 = false := by
    change Function.update w.isInterned 1 true 2 = false
    rw [Function.update_of_ne (by decide), new 2]
  have single : ((w.setList (w.fixed 1).hashCode []).doIntern 1 []).listOf (w.fixed 2).hashCode = [1] := by
    unfold listOf doIntern StringWorld.setList
    dsimp only
    rw [← hash, Function.update_self]
    rfl
  have second := first.request (.fixed 2) (show 2 < w.fixedCount by omega) trivial
    (internFixed_of_single (j := 1) new' (by decide) single equal)
  have wrong := claim _ _ second _ _ List.mem_cons_self
  change w.chars (.fixed 1) = w.chars (.fixed 2) at wrong
  rw [left, right] at wrong
  exact absurd wrong (by decide)

end Answers

end StringWorld

end Liberty
