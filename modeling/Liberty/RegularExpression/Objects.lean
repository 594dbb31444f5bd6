import Liberty.RegularExpression.Substitution
import Mathlib.Logic.Function.Basic

/-!
# Several regular expressions

The attributes of the regular expressions of a system are their own; `substitution_pattern` is a once
function, so that the text compiled by the last `prepare_substitution` is the text of all of them.
-/

namespace Liberty

namespace RegularExpression

/-- The calls on a regular expression. -/
inductive Call
  | prepareSubstitution (p : Characters)
  | matchFrom (text : Characters) (firstIndex : Int)
  | substituteFor (text : Characters)
  | substituteAllFor (text : Characters)

/-- A call, with the text of `substitution_pattern` before and after it. -/
def perform (matcher : Matcher) (fuel : ℕ) (pattern : Characters) (r : RegularExpression) :
    Call → Option (Characters × RegularExpression)
  | .prepareSubstitution p => r.prepareSubstitution p
  | .matchFrom text firstIndex => do return (pattern, ← matchFrom matcher r text firstIndex)
  | .substituteFor text => do return (pattern, ← substituteFor pattern r text)
  | .substituteAllFor text => do return (pattern, ← substituteAllFor matcher fuel pattern r text)

/-- The call replaces matching parts. -/
def Call.Substitutes : Call → Prop
  | .substituteFor _ | .substituteAllFor _ => True
  | .prepareSubstitution _ | .matchFrom _ _ => False

/-- Each piece of the compiled pattern is the same in both texts. -/
def SamePieces (r : RegularExpression) (own shared : Characters) : Prop :=
  ∀ index, index ∈ r.compiledSubstitutionPattern → index < 0 → ∀ first last,
    r.substringsFirstIndexes.item index = some first → r.substringsLastIndexes.item index = some last →
      Characters.appendSubstring [] own first last = Characters.appendSubstring [] shared first last

/-- The regular expressions of a system, with their `substitution_pattern`. -/
structure System (ι : Type) where
  substitutionPattern : Characters
  objects : ι → RegularExpression

namespace System

variable {ι : Type} [DecidableEq ι]

def call (matchers : ι → Matcher) (fuel : ℕ) (w : System ι) (i : ι) (c : Call) :
    Option (System ι) := do
  let (pattern, r) ← perform (matchers i) fuel w.substitutionPattern (w.objects i) c
  return ⟨pattern, Function.update w.objects i r⟩

/-- The object `i` after each of its calls. -/
def results (matchers : ι → Matcher) (fuel : ℕ) (i : ι) :
    System ι → List (ι × Call) → Option (List RegularExpression)
  | _, [] => some []
  | w, (j, c) :: calls => do
      let w' ← w.call matchers fuel j c
      let rest ← results matchers fuel i w' calls
      return if j = i then w'.objects i :: rest else rest

/-- The text of the pattern that `i` has prepared itself. -/
def ownPattern (i j : ι) (c : Call) (own : Characters) (w' : System ι) : Characters :=
  match c with
  | .prepareSubstitution _ => if j = i then w'.substitutionPattern else own
  | .matchFrom _ _ | .substituteFor _ | .substituteAllFor _ => own

/-- Whenever `i` substitutes, the text in `substitution_pattern` has the pieces of the text that `i` has
prepared last. -/
def Undisturbed (matchers : ι → Matcher) (fuel : ℕ) (i : ι) :
    System ι → Characters → List (ι × Call) → Prop
  | _, _, [] => True
  | w, own, (j, c) :: calls =>
    (j = i → c.Substitutes → (w.objects i).SamePieces own w.substitutionPattern) ∧
      ∀ w', w.call matchers fuel j c = some w' →
        Undisturbed matchers fuel i w' (ownPattern i j c own w') calls

end System

/-! ## One call -/

section Pieces

variable {matcher : Matcher} {fuel : ℕ} {r : RegularExpression} {own shared text buffer : Characters}

theorem appendSubstring_eq (buffer s : Characters) (startIndex endIndex : Int) :
    buffer.appendSubstring s startIndex endIndex =
      (Characters.appendSubstring [] s startIndex endIndex).map (buffer ++ ·) := by
  unfold Characters.appendSubstring
  split
  · rfl
  · rfl

/-- A piece is the same from both texts, a group is one of the text of the match. -/
theorem SamePieces.appendSubstring {index first last : Int} (same : r.SamePieces own shared)
    (mem : index ∈ r.compiledSubstitutionPattern)
    (isFirst : r.substringsFirstIndexes.item index = some first)
    (isLast : r.substringsLastIndexes.item index = some last) :
    buffer.appendSubstring (source own text index) first last =
      buffer.appendSubstring (source shared text index) first last := by
  unfold source
  by_cases negative : index < 0
  · have piece := same index mem negative first last isFirst isLast
    rw [if_pos negative, if_pos negative, appendSubstring_eq, piece, ← appendSubstring_eq]
  · rw [if_neg negative, if_neg negative]

theorem foldlM_congr {indexes : List Int} {f g : Characters → Int → Option Characters}
    (same : ∀ index, index ∈ indexes → ∀ buffer, f buffer index = g buffer index)
    (buffer : Characters) : indexes.foldlM f buffer = indexes.foldlM g buffer := by
  induction indexes generalizing buffer with
  | nil => rfl
  | cons index indexes ih =>
    rw [List.foldlM_cons, List.foldlM_cons, same index List.mem_cons_self buffer]
    congr
    funext buffer
    exact ih (fun other mem => same other (List.mem_cons_of_mem index mem)) buffer

theorem samePieces_refl (pattern : Characters) : r.SamePieces pattern pattern :=
  fun _ _ _ _ _ _ _ => rfl

theorem SamePieces.appendMatched (same : r.SamePieces own shared) :
    r.appendMatched own text buffer = r.appendMatched shared text buffer := by
  refine foldlM_congr (fun index mem buffer => ?_) buffer
  cases isFirst : r.substringsFirstIndexes.item index with
  | none => rfl
  | some first =>
    cases isLast : r.substringsLastIndexes.item index with
    | none => rfl
    | some last =>
      simp only [Option.bind_eq_bind, Option.bind_some]
      rw [same.appendSubstring mem isFirst isLast]

theorem SamePieces.appendAll (same : r.SamePieces own shared) :
    r.appendAll own text buffer = r.appendAll shared text buffer := by
  refine foldlM_congr (fun index mem buffer => ?_) buffer
  cases isFirst : r.substringsFirstIndexes.item index with
  | none => rfl
  | some first =>
    cases isLast : r.substringsLastIndexes.item index with
    | none => rfl
    | some last => exact same.appendSubstring mem isFirst isLast

theorem SamePieces.substituteFor (same : r.SamePieces own shared) :
    substituteFor own r text = substituteFor shared r text := by
  unfold RegularExpression.substituteFor
  simp only [same.appendMatched]

/-- A match leaves the areas of the pieces alone. -/
theorem item_setGroups {a a' : IndexArray} {groups : List Int} {index : Int}
    (run : a.setGroups groups = some a') (negative : index < 0) : a'.item index = a.item index := by
  unfold IndexArray.setGroups at run
  split at run
  · rename_i fits
    cases run
    unfold IndexArray.item
    by_cases low : a.lower ≤ index
    · have bound : (index - a.lower).toNat < (-a.lower).toNat := by omega
      have inside : (index - a.lower).toNat < (a.items.take (-a.lower).toNat).length := by
        rw [List.length_take]
        omega
      rw [if_pos low, if_pos low, List.getElem?_append_left inside, List.getElem?_take, if_pos bound]
    · rw [if_neg low, if_neg low]
  · cases run

theorem SamePieces.of_matchFrom {r' : RegularExpression} {firstIndex : Int} (same : r.SamePieces own shared)
    (run : matchFrom matcher r text firstIndex = some r') : r'.SamePieces own shared := by
  unfold matchFrom at run
  split at run
  · cases firstsRun : r.substringsFirstIndexes.setGroups ((matcher text firstIndex).areas.map Prod.fst) with
    | none => simp [firstsRun] at run
    | some firsts =>
      cases lastsRun : r.substringsLastIndexes.setGroups ((matcher text firstIndex).areas.map Prod.snd) with
      | none => simp [firstsRun, lastsRun] at run
      | some lasts =>
        simp only [firstsRun, lastsRun, Option.bind_eq_bind, Option.bind_some, Option.pure_def,
          Option.some.injEq] at run
        subst run
        intro index mem negative first last isFirst isLast
        exact same index mem negative first last ((item_setGroups firstsRun negative).symm.trans isFirst)
          ((item_setGroups lastsRun negative).symm.trans isLast)
  · cases run

/-- What a round of `substitute_all_without_tail` leaves is told by a matching of the same object. -/
theorem substituteRound_eq {s s' : RegularExpression × Int}
    (run : substituteRound matcher own text s = some s') :
    ∃ buffer result, matchFrom matcher { s.1 with lastSubstitution := buffer } text result = some s'.1 := by
  unfold substituteRound at run
  simp only [Option.bind_eq_bind, Option.bind_eq_some_iff, Option.pure_def, Option.some.injEq] at run
  obtain ⟨-, -, -, -, buffer, -, last, -, r, matched, rfl⟩ := run
  exact ⟨buffer, last + 1, matched⟩

theorem SamePieces.substituteAllFor (same : r.SamePieces own shared) :
    substituteAllFor matcher fuel own r text = substituteAllFor matcher fuel shared r text := by
  unfold RegularExpression.substituteAllFor substituteAllWithoutTail
  by_cases ready : r.substitutionPatternReady = true
  · rw [if_pos ready, if_pos ready]
    cases run : RegularExpression.matchFrom matcher { r with lastSubstitution := [] } text 1 with
    | none => rfl
    | some r' =>
      have pieces : r'.SamePieces own shared :=
        SamePieces.of_matchFrom (r := { r with lastSubstitution := [] }) same run
      simp only [Option.bind_eq_bind, Option.bind_some]
      rw [untilLoop_congr (fun s => s.1.SamePieces own shared) (fun s pieces => ?_)
        (fun s s' pieces round => ?_) fuel (s := (r', (1 : Int))) pieces]
      · unfold substituteRound
        simp only [pieces.appendAll]
      · obtain ⟨buffer, result, matched⟩ := substituteRound_eq round
        exact SamePieces.of_matchFrom (r := { s.1 with lastSubstitution := buffer }) pieces matched
  · rw [if_neg ready, if_neg ready]

/-- The text that a call leaves in `substitution_pattern`. -/
def Call.after (c : Call) (before prepared : Characters) : Characters :=
  match c with
  | .prepareSubstitution _ => prepared
  | .matchFrom _ _ | .substituteFor _ | .substituteAllFor _ => before

/-- A call has the same result with both texts. -/
theorem perform_eq {c : Call} {pattern : Characters} {r' : RegularExpression}
    (same : c.Substitutes → r.SamePieces own shared)
    (run : perform matcher fuel shared r c = some (pattern, r')) :
    pattern = c.after shared pattern ∧
      perform matcher fuel own r c = some (c.after own pattern, r') := by
  cases c with
  | prepareSubstitution p => exact ⟨rfl, run⟩
  | matchFrom text firstIndex =>
    obtain ⟨r'', matched, equal⟩ := Option.bind_eq_some_iff.mp run
    cases equal
    exact ⟨rfl, Option.bind_eq_some_iff.mpr ⟨r', matched, rfl⟩⟩
  | substituteFor text =>
    obtain ⟨r'', done, equal⟩ := Option.bind_eq_some_iff.mp run
    cases equal
    rw [← (same trivial).substituteFor] at done
    exact ⟨rfl, Option.bind_eq_some_iff.mpr ⟨r', done, rfl⟩⟩
  | substituteAllFor text =>
    obtain ⟨r'', done, equal⟩ := Option.bind_eq_some_iff.mp run
    cases equal
    rw [← (same trivial).substituteAllFor] at done
    exact ⟨rfl, Option.bind_eq_some_iff.mpr ⟨r', done, rfl⟩⟩

end Pieces

/-! ## Runs -/

namespace System

variable {ι : Type} [DecidableEq ι] {matchers : ι → Matcher} {fuel : ℕ} {i : ι} {w w' v : System ι}
  {own : Characters} {c : Call}

theorem call_eq_some_iff {j : ι} : w.call matchers fuel j c = some w' ↔
    ∃ pattern r, perform (matchers j) fuel w.substitutionPattern (w.objects j) c = some (pattern, r) ∧
      w' = ⟨pattern, Function.update w.objects j r⟩ := by
  constructor
  · intro run
    obtain ⟨⟨pattern, r⟩, done, equal⟩ := Option.bind_eq_some_iff.mp run
    exact ⟨pattern, r, done, (Option.some.inj equal).symm⟩
  · rintro ⟨pattern, r, done, rfl⟩
    exact Option.bind_eq_some_iff.mpr ⟨(pattern, r), done, rfl⟩

/-- The object `i` of a system alone, where `substitution_pattern` is the text that `i` has prepared. -/
def Alone (i : ι) (w v : System ι) (own : Characters) : Prop :=
  v.substitutionPattern = own ∧ v.objects i = w.objects i

theorem Alone.of_other {j : ι} (alone : Alone i w v own) (other : j ≠ i)
    (run : w.call matchers fuel j c = some w') : Alone i w' v (ownPattern i j c own w') := by
  obtain ⟨pattern, r, -, rfl⟩ := call_eq_some_iff.mp run
  refine ⟨?_, ?_⟩
  · cases c with
    | prepareSubstitution p => exact alone.1.trans (if_neg other).symm
    | matchFrom text firstIndex => exact alone.1
    | substituteFor text => exact alone.1
    | substituteAllFor text => exact alone.1
  · rw [alone.2]
    exact (Function.update_of_ne (Ne.symm other) r w.objects).symm

/-- A call on `i` has the same result in both systems. -/
theorem Alone.of_call (alone : Alone i w v own)
    (same : c.Substitutes → (w.objects i).SamePieces own w.substitutionPattern)
    (run : w.call matchers fuel i c = some w') :
    ∃ v', v.call matchers fuel i c = some v' ∧ Alone i w' v' (ownPattern i i c own w') := by
  obtain ⟨isOwn, isSame⟩ := alone
  obtain ⟨pattern, r, done, rfl⟩ := call_eq_some_iff.mp run
  obtain ⟨-, doneAlone⟩ := perform_eq same done
  rw [← isOwn, ← isSame] at doneAlone
  refine ⟨_, call_eq_some_iff.mpr ⟨_, _, doneAlone, rfl⟩, ?_, ?_⟩
  · cases c with
    | prepareSubstitution p => exact (if_pos rfl).symm
    | matchFrom text firstIndex => exact isOwn
    | substituteFor text => exact isOwn
    | substituteAllFor text => exact isOwn
  · change Function.update v.objects i r i = Function.update w.objects i r i
    rw [Function.update_self, Function.update_self]

theorem Alone.results_eq (alone : Alone i w v own) {calls : List (ι × Call)}
    {found : List RegularExpression} (run : w.results matchers fuel i calls = some found)
    (undisturbed : w.Undisturbed matchers fuel i own calls) :
    v.results matchers fuel i (calls.filter fun jc => jc.1 = i) = some found := by
  induction calls generalizing w v own found with
  | nil => exact run
  | cons jc calls ih =>
    obtain ⟨j, c⟩ := jc
    obtain ⟨same, next⟩ := undisturbed
    obtain ⟨w', called, run⟩ := Option.bind_eq_some_iff.mp run
    obtain ⟨rest, later, equal⟩ := Option.bind_eq_some_iff.mp run
    have isFound := Option.some.inj equal
    by_cases isI : j = i
    · subst isI
      obtain ⟨v', calledAlone, alone'⟩ := alone.of_call (same rfl) called
      rw [List.filter_cons_of_pos (by simp)]
      unfold results
      rw [calledAlone]
      simp only [Option.bind_eq_bind, Option.bind_some]
      rw [ih alone' later (next w' called), ← isFound, ← alone'.2]
      simp
    · rw [if_neg isI] at isFound
      rw [List.filter_cons_of_neg (by simpa using isI), ← isFound]
      exact ih (alone.of_other isI called) later (next w' called)

/-- **A regular expression among others has the results of its own calls** in every run where, whenever
it substitutes, `substitution_pattern` has the pieces of the text that it has prepared itself. -/
theorem results_alone (w : System ι) (calls : List (ι × Call)) {found : List RegularExpression}
    (run : w.results matchers fuel i calls = some found)
    (undisturbed : w.Undisturbed matchers fuel i w.substitutionPattern calls) :
    w.results matchers fuel i (calls.filter fun jc => jc.1 = i) = some found :=
  Alone.results_eq ⟨rfl, rfl⟩ run undisturbed

/-- No other object disturbs `i` as long as `i` alone prepares patterns. -/
theorem undisturbed_of_one (w : System ι) (calls : List (ι × Call))
    (one : ∀ j p, (j, Call.prepareSubstitution p) ∈ calls → j = i) :
    w.Undisturbed matchers fuel i w.substitutionPattern calls := by
  induction calls generalizing w with
  | nil => exact trivial
  | cons jc calls ih =>
    obtain ⟨j, c⟩ := jc
    refine ⟨fun _ _ => samePieces_refl _, fun w' called => ?_⟩
    have kept : ownPattern i j c w.substitutionPattern w' = w'.substitutionPattern := by
      obtain ⟨pattern, r, done, rfl⟩ := call_eq_some_iff.mp called
      have after := (perform_eq (fun _ => samePieces_refl _) done).1
      cases c with
      | prepareSubstitution p => exact if_pos (one j p List.mem_cons_self)
      | matchFrom text firstIndex => exact after.symm
      | substituteFor text => exact after.symm
      | substituteAllFor text => exact after.symm
    rw [kept]
    exact ih w' fun k p mem => one k p (List.mem_cons_of_mem _ mem)

end System

/-! ## Two objects -/

/-- The whole of the text matches. -/
def matchAll : Matcher := fun text firstIndex => ⟨true, [(firstIndex, text.length)]⟩

/-- `x` becomes `a`, while the other object matches `y`. -/
theorem results_alone_two :
    ((System.mk [] fun _ : Bool => plain).results (fun _ => matchAll) 0 true
      [(true, .prepareSubstitution [97]), (true, .matchFrom [120] 1), (true, .substituteFor [120])]).map
        (·.map (·.lastSubstitution)) = some [[], [], [97]] := by
  obtain ⟨found, run, texts⟩ : ∃ found,
      (System.mk [] fun _ : Bool => plain).results (fun _ => matchAll) 0 true
      [(true, .prepareSubstitution [97]), (false, .matchFrom [121] 1), (true, .matchFrom [120] 1),
        (true, .substituteFor [120])] = some found ∧ found.map (·.lastSubstitution) = [[], [], [97]] :=
    ⟨_, rfl, by decide⟩
  have undisturbed : (System.mk [] fun _ : Bool => plain).Undisturbed (fun _ => matchAll) 0 true []
      [(true, .prepareSubstitution [97]), (false, .matchFrom [121] 1), (true, .matchFrom [120] 1),
        (true, .substituteFor [120])] := by
    refine System.undisturbed_of_one _ _ fun j p mem => ?_
    simp at mem
    exact mem.1
  have alone := System.results_alone _ _ run undisturbed
  have same := congrArg (Option.map (List.map RegularExpression.lastSubstitution)) alone
  exact same.trans (congrArg some texts)

/-- `x` becomes the `b` that the other object has prepared. -/
theorem not_results_alone :
    ¬∀ (matchers : Bool → Matcher) (fuel : ℕ) (w : System Bool) (calls : List (Bool × Call))
      (found : List RegularExpression), w.results matchers fuel true calls = some found →
        w.results matchers fuel true (calls.filter fun jc => jc.1 = true) = some found := by
  intro claim
  have alone := claim (fun _ => matchAll) 0 ⟨[], fun _ => plain⟩
    [(true, .prepareSubstitution [97]), (false, .prepareSubstitution [98]), (true, .matchFrom [120] 1),
      (true, .substituteFor [120])] _ rfl
  exact absurd (congrArg (Option.map (List.map RegularExpression.lastSubstitution)) alone) (by decide)

end RegularExpression

end Liberty
