import Liberty.Compiler.WhenValues
import Mathlib.Data.List.Pairwise
import Mathlib.Data.List.TakeWhile

/-!
# The validity checks of inspect statements

Each item of an inspect statement is compared with the items of all clauses, up to itself in its own
clause: the search of a clause does not say that it came to the item, so the clauses behind are searched
as well.
-/

namespace Liberty

/-! ## The source -/

/-- The fatal errors. -/
inductive InspectError
  | secondOccurrence
  | partOfSlice
  | sliceIncludesValue
  | overlappingSlices

namespace WhenItem

/-- `validity_check_continued_when_item_1` -/
def validityCheckContinuedWhenItem1 (occurrence2 : Int) : WhenItem → Except InspectError Unit
  | whenItem1 manifestExpression =>
    if manifestExpression.integerValue = occurrence2 then throw .secondOccurrence else pure ()
  | whenItem2 lower upper =>
    if lower.integerValue ≤ occurrence2 ∧ occurrence2 ≤ upper.integerValue then throw .partOfSlice
    else pure ()

/-- `validity_check_continued_when_item_2` -/
def validityCheckContinuedWhenItem2 (lowerValue upperValue : Int) : WhenItem → Except InspectError Unit
  | whenItem1 manifestExpression =>
    if lowerValue ≤ manifestExpression.integerValue ∧ manifestExpression.integerValue ≤ upperValue then
      throw .sliceIncludesValue
    else pure ()
  | whenItem2 lower upper =>
    if (lower.integerValue ≤ lowerValue ∧ lowerValue ≤ upper.integerValue) ∨
        (lower.integerValue ≤ upperValue ∧ upperValue ≤ upper.integerValue) then
      throw .overlappingSlices
    else pure ()

/-- `validity_check_continued_` -/
def validityCheckContinued (occurrence1 : WhenItem) : WhenItem → Except InspectError Unit
  | whenItem1 manifestExpression =>
    occurrence1.validityCheckContinuedWhenItem1 manifestExpression.integerValue
  | whenItem2 lower upper =>
    occurrence1.validityCheckContinuedWhenItem2 lower.integerValue upper.integerValue

end WhenItem

/-- A WHEN_ITEM, told by the identity of its object. -/
structure WhenItemObject where
  identity : ℕ
  item : WhenItem
deriving DecidableEq

/-- `validity_check_continued` of a WHEN_CLAUSE, whose Result stays False. -/
def clauseCheckContinued (occurrence1 : WhenItemObject) : List WhenItemObject → Except InspectError Bool
  | [] => return false
  | current :: list =>
    if current.identity = occurrence1.identity then
      return false
    else do
      occurrence1.item.validityCheckContinued current.item
      clauseCheckContinued occurrence1 list

/-- `validity_check_continued` of the INSPECT_STATEMENT. -/
def inspectCheckContinued (occurrence1 : WhenItemObject) :
    List (List WhenItemObject) → Except InspectError Unit
  | [] => return
  | whenClause :: whenList => do
      if ← clauseCheckContinued occurrence1 whenClause then return
      inspectCheckContinued occurrence1 whenList

/-- `validity_check` of an OTHER_INSPECT_STATEMENT. -/
def inspectCheck (whenList : List (List WhenItemObject)) : Except InspectError Unit :=
  whenList.forM fun whenClause => whenClause.forM fun item => inspectCheckContinued item whenList

/-- The clauses of an inspect statement: each item is an object of its own, and the bounds of the slices
were checked by `lower_upper_value_check`. -/
structure WhenList where
  clauses : List (List WhenItemObject)
  distinct : (clauses.flatten.map (·.identity)).Nodup
  ordered : ∀ clause ∈ clauses, ∀ object ∈ clause, object.item.lowerValue ≤ object.item.upperValue

/-! ## What is compared -/

section Traversal

variable {α ε : Type} {key : α → ℕ} {R : α → α → Prop} {list : List α} {lists : List (List α)}

theorem forM_eq_ok {f : α → Except ε Unit} : list.forM f = .ok () ↔ ∀ a ∈ list, f a = .ok () := by
  induction list with
  | nil => exact iff_of_true rfl nofun
  | cons a list ih =>
    rw [List.forall_mem_cons, ← ih]
    change (f a >>= fun _ => list.forM f) = _ ↔ _
    cases run : f a with
    | error e => exact iff_of_false nofun fun ok => nomatch ok.1
    | ok _ => exact (and_iff_right rfl).symm

/-- Each element is compared with those in front of it. -/
theorem forall_takeWhile_iff (distinct : (list.map key).Nodup) :
    (∀ x ∈ list, ∀ y ∈ list.takeWhile (key · ≠ key x), R y x) ↔ list.Pairwise R := by
  induction list with
  | nil => exact iff_of_true nofun .nil
  | cons a list ih =>
    rw [List.map_cons, List.nodup_cons] at distinct
    have other : ∀ x ∈ list, key a ≠ key x := fun x mem same =>
      distinct.1 (same ▸ List.mem_map_of_mem mem)
    rw [List.pairwise_cons, ← ih distinct.2, List.forall_mem_cons, ← forall₂_and,
      List.takeWhile_cons_of_neg (by simp)]
    refine (and_iff_right nofun).trans (forall₂_congr fun x mem => ?_)
    rw [List.takeWhile_cons_of_pos (by simpa using other x mem), List.forall_mem_cons]

/-- An element is compared with all elements of a list that it is not in. -/
theorem takeWhile_of_not_mem {x : α} (other : key x ∉ list.map key) :
    list.takeWhile (key · ≠ key x) = list :=
  List.takeWhile_eq_self_iff.mpr fun _ mem => decide_eq_true fun same =>
    other (same ▸ List.mem_map_of_mem mem)

/-- Elements of different lists are compared in both orders. -/
theorem forall_lists_iff (distinct : (lists.flatten.map key).Nodup) :
    (∀ xs ∈ lists, ∀ x ∈ xs, ∀ ys ∈ lists, ∀ y ∈ ys.takeWhile (key · ≠ key x), R y x) ↔
      (∀ xs ∈ lists, xs.Pairwise R) ∧
        lists.Pairwise fun ys xs => ∀ y ∈ ys, ∀ x ∈ xs, R y x ∧ R x y := by
  induction lists with
  | nil => exact iff_of_true nofun ⟨nofun, .nil⟩
  | cons first lists ih =>
    rw [List.flatten_cons, List.map_append, List.nodup_append'] at distinct
    obtain ⟨own, rest, apart⟩ := distinct
    have whole : ∀ xs ∈ lists, ∀ x ∈ xs, first.takeWhile (key · ≠ key x) = first := fun xs mem x mem' =>
      takeWhile_of_not_mem fun same =>
        apart same (List.mem_map_of_mem (List.mem_flatten.mpr ⟨xs, mem, mem'⟩))
    have whole' : ∀ x ∈ first, ∀ ys ∈ lists, ys.takeWhile (key · ≠ key x) = ys := fun x mem ys mem' =>
      takeWhile_of_not_mem fun same => by
        obtain ⟨y, inside, eq⟩ := List.mem_map.mp same
        exact apart (List.mem_map_of_mem mem) (eq ▸ List.mem_map_of_mem (List.mem_flatten.mpr ⟨ys, mem', inside⟩))
    rw [List.forall_mem_cons, List.forall_mem_cons, List.pairwise_cons, ← forall_takeWhile_iff own]
    constructor
    · intro ⟨head, tail⟩
      obtain ⟨inner, across⟩ := (ih rest).mp fun xs mem x mem' ys mem'' y =>
        tail xs mem x mem' ys (List.mem_cons_of_mem _ mem'') y
      refine ⟨⟨fun x mem => head x mem first List.mem_cons_self, inner⟩, fun xs mem y mem' x mem'' => ?_, across⟩
      refine ⟨tail xs mem x mem'' first List.mem_cons_self y ?_, head y mem' xs (List.mem_cons_of_mem _ mem) x ?_⟩
      · rwa [whole xs mem x mem'']
      · rwa [whole' y mem' xs mem]
    · intro ⟨⟨inner, innerRest⟩, across, acrossRest⟩
      have tail := (ih rest).mpr ⟨innerRest, acrossRest⟩
      refine ⟨fun x mem ys mem' y mem'' => ?_, fun xs mem x mem' ys mem'' y inside => ?_⟩
      · rcases List.mem_cons.mp mem' with rfl | behind
        · exact inner x mem y mem''
        · rw [whole' x mem ys behind] at mem''
          exact (across ys behind x mem y mem'').2
      · rcases List.mem_cons.mp mem'' with rfl | behind
        · rw [whole xs mem x mem'] at inside
          exact (across xs mem y inside x mem').1
        · exact tail xs mem x mem' ys behind y inside

end Traversal

namespace WhenItem

variable {x y : WhenItem}

/-- A slice lies strictly inside another one. -/
def LiesInside : WhenItem → WhenItem → Prop
  | whenItem2 lower upper, whenItem2 lower' upper' =>
    lower'.integerValue < lower.integerValue ∧ upper.integerValue < upper'.integerValue
  | _, _ => False

theorem apart_iff (ordered : x.lowerValue ≤ x.upperValue) (ordered' : y.lowerValue ≤ y.upperValue) :
    Apart y x ↔ x.upperValue < y.lowerValue ∨ y.upperValue < x.lowerValue := by
  unfold Apart
  simp only [matchValue_iff]
  constructor
  · intro none
    have first := none x.lowerValue
    have second := none y.lowerValue
    omega
  · omega

/-- An item is not found to share a value with an earlier one. -/
theorem validityCheckContinued_iff (ordered : x.lowerValue ≤ x.upperValue)
    (ordered' : y.lowerValue ≤ y.upperValue) :
    x.validityCheckContinued y = .ok () ↔ Apart y x ∨ LiesInside x y := by
  rw [apart_iff ordered ordered']
  cases x <;> cases y <;>
    simp only [validityCheckContinued, validityCheckContinuedWhenItem1, validityCheckContinuedWhenItem2,
      LiesInside, lowerValue, upperValue, or_false] at ordered ordered' ⊢ <;>
    split <;> simp only [throw, throwThe, MonadExceptOf.throw, pure, Except.pure, reduceCtorEq, false_iff,
      true_iff] <;> omega

theorem LiesInside.bounds (h : LiesInside x y) :
    y.lowerValue < x.lowerValue ∧ x.upperValue < y.upperValue := by
  cases x with
  | whenItem1 e => exact h.elim
  | whenItem2 lower upper =>
    cases y with
    | whenItem1 e => exact h.elim
    | whenItem2 lower' upper' => exact h

theorem Apart.symm (h : Apart x y) : Apart y x :=
  fun v => mt And.symm (h v)

theorem Apart.not_liesInside (h : Apart y x) (ordered : x.lowerValue ≤ x.upperValue)
    (ordered' : y.lowerValue ≤ y.upperValue) : ¬LiesInside x y := by
  intro inside
  have bounds := inside.bounds
  rw [apart_iff ordered ordered'] at h
  omega

end WhenItem

/-- What the search of a clause compares with an item. -/
theorem clauseCheckContinued_eq (x : WhenItemObject) (list : List WhenItemObject) :
    clauseCheckContinued x list = .ok false ∧
        (∀ y ∈ list.takeWhile (·.identity ≠ x.identity), x.item.validityCheckContinued y.item = .ok ()) ∨
      (∃ e, clauseCheckContinued x list = .error e) ∧
        ¬∀ y ∈ list.takeWhile (·.identity ≠ x.identity), x.item.validityCheckContinued y.item = .ok () := by
  induction list with
  | nil => exact .inl ⟨rfl, nofun⟩
  | cons y list ih =>
    unfold clauseCheckContinued
    split
    · rename_i same
      rw [List.takeWhile_cons_of_neg (by simpa using same)]
      exact .inl ⟨rfl, nofun⟩
    · rename_i other
      rw [List.takeWhile_cons_of_pos (by simpa using other), List.forall_mem_cons]
      cases run : x.item.validityCheckContinued y.item with
      | error e => exact .inr ⟨⟨e, rfl⟩, fun ok => nomatch ok.1⟩
      | ok _ =>
        rcases ih with ⟨run', all⟩ | ⟨⟨e, run'⟩, fails⟩
        · exact .inl ⟨run', rfl, all⟩
        · exact .inr ⟨⟨e, run'⟩, fun ok => fails ok.2⟩

theorem inspectCheckContinued_iff (x : WhenItemObject) (clauses : List (List WhenItemObject)) :
    inspectCheckContinued x clauses = .ok () ↔ ∀ clause ∈ clauses,
      ∀ y ∈ clause.takeWhile (·.identity ≠ x.identity), x.item.validityCheckContinued y.item = .ok () := by
  induction clauses with
  | nil => exact iff_of_true rfl nofun
  | cons clause clauses ih =>
    rw [List.forall_mem_cons, ← ih]
    rw [inspectCheckContinued]
    rcases clauseCheckContinued_eq x clause with ⟨run, all⟩ | ⟨⟨e, run⟩, fails⟩
    · rw [run]
      exact (and_iff_right all).symm
    · rw [run]
      exact iff_of_false nofun fun ok => fails ok.1

namespace WhenList

open WhenItem

variable {s : WhenList}

/-- Two different items have a value in common. -/
def Shares (s : WhenList) : Prop :=
  ∃ x ∈ s.clauses.flatten, ∃ y ∈ s.clauses.flatten, x ≠ y ∧
    ∃ v, x.item.matchValue v = true ∧ y.item.matchValue v = true

/-- A validity check reports an error. -/
def Reports (s : WhenList) : Prop :=
  ∃ e, inspectCheck s.clauses = .error e

/-- Items of different clauses have no value in common. -/
def ClausesApart (s : WhenList) : Prop :=
  s.clauses.Pairwise fun ys xs => ∀ y ∈ ys, ∀ x ∈ xs, Apart y.item x.item

/-- The only items with values in common are slices that lie inside an earlier slice of their clause. -/
def SharesInsideOnly (s : WhenList) : Prop :=
  (∀ clause ∈ s.clauses, clause.Pairwise fun y x => Apart y.item x.item ∨ LiesInside x.item y.item) ∧
    s.ClausesApart

theorem not_reports_iff : ¬s.Reports ↔ s.SharesInsideOnly := by
  have passes : ¬s.Reports ↔ inspectCheck s.clauses = .ok () := by
    unfold Reports
    cases inspectCheck s.clauses with
    | error e => exact iff_of_false (fun none => none ⟨e, rfl⟩) nofun
    | ok _ => exact iff_of_true nofun rfl
  have ordered := s.ordered
  rw [passes, inspectCheck, forM_eq_ok]
  simp only [forM_eq_ok, inspectCheckContinued_iff]
  rw [forall_lists_iff (R := fun y x => x.item.validityCheckContinued y.item = .ok ()) s.distinct]
  refine and_congr (forall₂_congr fun clause mem => ?_) ?_
  · refine List.Pairwise.iff_of_mem fun {y x} memY memX => ?_
    exact validityCheckContinued_iff (ordered clause mem x memX) (ordered clause mem y memY)
  · refine List.Pairwise.iff_of_mem fun {ys xs} memYs memXs => ?_
    refine forall₂_congr fun y memY => forall₂_congr fun x memX => ?_
    have first := ordered xs memXs x memX
    have second := ordered ys memYs y memY
    rw [validityCheckContinued_iff first second, validityCheckContinued_iff second first]
    constructor
    · intro ⟨earlier, later⟩
      rcases earlier with apart | inside
      · exact apart
      · rcases later with apart | inside'
        · exact apart.symm
        · have bounds := inside.bounds
          have bounds' := inside'.bounds
          omega
    · exact fun apart => ⟨.inl apart, .inl apart.symm⟩

theorem not_shares_iff : ¬s.Shares ↔
    (∀ clause ∈ s.clauses, clause.Pairwise fun y x => Apart y.item x.item) ∧ s.ClausesApart := by
  have objects : s.clauses.flatten.Nodup := .of_map _ s.distinct
  have pairs : ¬s.Shares ↔ s.clauses.flatten.Pairwise fun y x => Apart y.item x.item := by
    constructor
    · exact fun none => objects.pairwise_of_forall_ne fun y memY x memX ne v shared =>
        none ⟨y, memY, x, memX, ne, v, shared⟩
    · intro apart ⟨x, memX, y, memY, ne, v, shared⟩
      have symmetric : Std.Symm fun y x : WhenItemObject => Apart y.item x.item := ⟨fun _ _ => Apart.symm⟩
      exact apart.forall memX memY ne v shared
  rw [pairs, List.pairwise_flatten]
  rfl

/-- No slice lies inside an earlier slice of its clause, or two other items have a value in common. -/
def SeesSharing (s : WhenList) : Prop :=
  (∀ clause ∈ s.clauses, clause.Pairwise fun y x => ¬LiesInside x.item y.item) ∨ ¬s.SharesInsideOnly

theorem reports_iff : (s.Reports ↔ s.Shares) ↔ s.SeesSharing := by
  have ordered := s.ordered
  refine Iff.trans not_iff_not.symm ?_
  rw [not_reports_iff, not_shares_iff]
  constructor
  · intro same
    rcases Classical.em s.SharesInsideOnly with only | not_only
    · refine .inl fun clause mem => (same.mp only).1 clause mem |>.imp_of_mem fun {y x} memY memX apart => ?_
      exact apart.not_liesInside (ordered clause mem x memX) (ordered clause mem y memY)
    · exact .inr not_only
  · intro sees
    constructor
    · intro only
      refine ⟨fun clause mem => ?_, only.2⟩
      have none := sees.resolve_right (not_not_intro only) clause mem
      exact ((only.1 clause mem).and none).imp fun both => both.1.resolve_right both.2
    · exact fun apart => ⟨fun clause mem => (apart.1 clause mem).imp .inl, apart.2⟩

end WhenList

/-! ## The values -/

namespace WhenItem

open IntegerRanges

/-- If the items of a clause share no value, `compute_values` gives the canonical table of their values,
and `includes_integer` finds those that `match_value` does. -/
def TabulatesExactly (list : List WhenItem) : Prop :=
  list.Pairwise Apart → Returns (computeValuesOf list) fun values =>
    (∃ low ranges, values.Represents ⟨low, bounds ranges⟩ ∧ Canonical ranges ∧
      ∀ v, Covers ranges v ↔ ∃ item ∈ list, item.matchValue v = true) ∧
    ∀ v, includesInteger values v = some (list.any (matchValue v))

theorem tabulatesExactly_iff {list : List WhenItem}
    (ordered : ∀ item ∈ list, item.lowerValue ≤ item.upperValue) : TabulatesExactly list ↔ list ≠ [] := by
  constructor
  · intro exact nil
    subst nil
    obtain ⟨values, run, -, includes⟩ := exact .nil
    obtain rfl := Option.some.inj run
    exact nomatch includes 0
  · intro nonempty apart
    refine (returns_computeValuesOf nonempty ordered apart).mono
      fun values ⟨low, ranges, more, held, canonical, covers_iff⟩ => ⟨⟨low, ranges, held, canonical, covers_iff⟩,
        fun v => ?_⟩
    obtain ⟨found, run, found_iff⟩ := returns_includesInteger held canonical more v
    rw [run, Option.some_inj, Bool.eq_iff_iff, found_iff, covers_iff, List.any_eq_true]

end WhenItem

namespace WhenList

open WhenItem

/-- The validity checks report an error exactly if two items have a value in common, and the values of the
clauses are exact. -/
def ChecksAndTabulates (s : WhenList) : Prop :=
  (s.Reports ↔ s.Shares) ∧ ∀ clause ∈ s.clauses, TabulatesExactly (clause.map (·.item))

/-- A slice inside an earlier slice of its clause is not reported, and a clause without items has no values
to search. -/
theorem checksAndTabulates_iff (s : WhenList) :
    s.ChecksAndTabulates ↔ s.SeesSharing ∧ ∀ clause ∈ s.clauses, clause ≠ [] := by
  refine and_congr reports_iff (forall₂_congr fun clause mem => ?_)
  rw [tabulatesExactly_iff, ne_eq, List.map_eq_nil_iff]
  intro item inside
  obtain ⟨object, memObject, rfl⟩ := List.mem_map.mp inside
  exact s.ordered clause mem object memObject

/-- `when 1 .. 10, 3 .. 5` -/
def sliceInside : WhenList where
  clauses := [[⟨0, whenItem2 (.integerConstant 1) (.integerConstant 10)⟩,
    ⟨1, whenItem2 (.integerConstant 3) (.integerConstant 5)⟩]]
  distinct := by decide
  ordered := by decide

theorem sliceInside_not_checksAndTabulates : ¬∀ s : WhenList, s.ChecksAndTabulates := by
  intro claim
  have shared : sliceInside.Shares :=
    ⟨_, List.mem_cons_self, _, List.mem_cons_of_mem _ List.mem_cons_self, by decide, 3, by decide⟩
  obtain ⟨e, run⟩ := (claim sliceInside).1.mpr shared
  exact nomatch run

end WhenList

end Liberty
