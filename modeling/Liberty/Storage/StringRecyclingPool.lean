import Liberty.Sorting.SortedInsertion
import Liberty.Storage.FastArray

/-!
# STRING_RECYCLING_POOL

The pool keeps recycled strings in an array sorted by descending capacities.  A string that is
handed out leaves a hole in its place, where another one may be put later.  The collector clears
no weak reference, so that an item holds its string itself.
-/

namespace Liberty

/-! ## The source -/

namespace FastArray

variable {α : Type}

/-- The array as a sorter sees it. -/
def collection [Inhabited α] (a : List α) : Collection α where
  lower := 0
  upper := upper a
  cell i := a.getD i.toNat default
  valid_bounds := by
    unfold upper
    omega

end FastArray

/-- A string that its user gives back, with the capacity that it has then. -/
structure RecycledString where
  id : ℕ
  capacity : Int
deriving DecidableEq

structure StringRecyclingItem where
  capacity : Int
  item : Option RecycledString
deriving DecidableEq

/-- The default value of the expanded class. -/
instance : Inhabited StringRecyclingItem := ⟨⟨0, none⟩⟩

def StringRecyclingItem.setItem (x : StringRecyclingItem) :
    Option RecycledString → StringRecyclingItem
  | none => { x with item := none }
  | some s => ⟨s.capacity, some s⟩

namespace StringRecyclingPool

open FastArray

/-- `lt` of STRING_RECYCLING_ITEM_SORTER -/
def lt (x y : StringRecyclingItem) : Bool :=
  decide (x.capacity > y.capacity)

/-- `items_comparator.insert_index` -/
def insertIndex (strings : List StringRecyclingItem) (element : StringRecyclingItem) (fuel : ℕ) :
    Option Int :=
  AbstractSorter.insertIndex lt (collection strings) element fuel

/-- There is an item at `i`, without a string. -/
def isHole (strings : List StringRecyclingItem) (i : Int) : Bool :=
  match item strings i with
  | none => false
  | some x => decide (x.item = none)

def recycle (strings : List StringRecyclingItem) (string : RecycledString) (fuel : ℕ) :
    Option (List StringRecyclingItem) := do
  let recyclingItem := StringRecyclingItem.setItem default (some string)
  if strings = [] then
    return addLast strings recyclingItem
  else
    let i ← insertIndex strings recyclingItem fuel
    if isHole strings i then
      put strings ((← item strings i).setItem (some string)) i
    else
      -- the local `item` is added, which is a default value, and not `recycling_item`
      add strings default i

/-- The loop of `best_fit`, from the index `i` down to the lower one: the string where it stops, if
there is one, and its index. -/
def fitting (strings : List StringRecyclingItem) (capacity i : Int) :
    Option (Option RecycledString × Int) := do
  untilLoop
    (fun (result, i) => some (result.any (fun s => decide (s.capacity ≥ capacity)) || decide (i = 0)))
    (fun (_, i) => do return ((← item strings (i - 1)).item, i - 1)) i.toNat
    ((← item strings i).item, i)

/-- `best_fit`: the string of the pool that is handed out, if there is one; else a new string is
created.  A string that is too small is given the capacity that was asked for. -/
def bestFit (strings : List StringRecyclingItem) (capacity : Int) (fuel : ℕ) :
    Option (Option RecycledString × List StringRecyclingItem) := do
  if strings = [] then
    return (none, strings)
  else
    let i ← insertIndex strings ⟨capacity, none⟩ fuel
    if 0 ≤ i ∧ i ≤ upper strings then
      match ← fitting strings capacity i with
      | (none, _) => return (none, strings)
      | (some s, i) => return (some s, ← put strings ((← item strings i).setItem none) i)
    else
      return (none, strings)

/-- The pool after recycling and after requests (`new`, `best_fit` and `new_twin` all ask for a
capacity), with the strings that were recycled and those that were handed out.  Each recycling met
the condition `P`. -/
inductive Reaches (P : List StringRecyclingItem → RecycledString → Prop) :
    List StringRecyclingItem → List RecycledString → List RecycledString → Prop
  | make : Reaches P [] [] []
  | recycle {strings strings' : List StringRecyclingItem} {recycled served : List RecycledString}
      (before : Reaches P strings recycled served) (string : RecycledString)
      (condition : P strings string) (fuel : ℕ) (run : recycle strings string fuel = some strings') :
      Reaches P strings' (string :: recycled) served
  | request {strings strings' : List StringRecyclingItem} {recycled served : List RecycledString}
      {answer : Option RecycledString} (before : Reaches P strings recycled served)
      (capacity : Int) (fuel : ℕ) (run : bestFit strings capacity fuel = some (answer, strings')) :
      Reaches P strings' recycled (answer.toList ++ served)

/-- The strings that the pool keeps. -/
def kept (strings : List StringRecyclingItem) : List RecycledString :=
  strings.filterMap StringRecyclingItem.item

/-- Recycling finds an empty array, or a hole at the place of the string. -/
def FindsRoom (strings : List StringRecyclingItem) (string : RecycledString) : Prop :=
  strings = [] ∨ ∀ fuel i, insertIndex strings ⟨string.capacity, some string⟩ fuel = some i →
    isHole strings i = true

/-! ## Strings kept and handed out -/

section Kept

variable {strings strings' : List StringRecyclingItem} {x y : StringRecyclingItem} {i : Int}

theorem kept_cons (x : StringRecyclingItem) (strings : List StringRecyclingItem) :
    kept (x :: strings) = x.item.toList ++ kept strings := by
  unfold kept
  cases h : x.item <;> simp [h]

/-- Another item in one place: what it held goes, what it holds comes. -/
theorem count_kept_put (s : RecycledString) (read : item strings i = some x)
    (run : put strings y i = some strings') :
    (kept strings').count s + x.item.toList.count s =
      (kept strings).count s + y.item.toList.count s := by
  unfold put at run
  split at run
  · rename_i inside
    cases run
    obtain ⟨n, rfl⟩ : ∃ n : ℕ, i = n := ⟨i.toNat, by omega⟩
    rw [item_natCast] at read
    obtain ⟨less, here⟩ := List.getElem?_eq_some_iff.mp read
    have split : strings = strings.take n ++ x :: strings.drop (n + 1) := by
      rw [← here, ← List.drop_eq_getElem_cons less, List.take_append_drop]
    have append : ∀ xs ys, kept (xs ++ ys) = kept xs ++ kept ys := fun _ _ =>
      List.filterMap_append
    rw [Int.toNat_natCast, List.set_eq_take_append_cons_drop, if_pos less]
    conv_rhs => rw [split]
    rw [append, append, kept_cons, kept_cons]
    simp only [List.count_append]
    omega
  · cases run

theorem count_kept_add (s : RecycledString) (run : add strings y i = some strings') :
    (kept strings').count s = (kept strings).count s + y.item.toList.count s := by
  unfold add at run
  split at run
  · rename_i inside
    cases run
    have perm := (List.perm_insertIdx y strings (i := i.toNat) (by omega)).filterMap
      StringRecyclingItem.item
    change (kept _).count s = _
    rw [kept, perm.count_eq, ← kept, kept_cons, List.count_append, Nat.add_comm]
  · cases run

/-- One string more is kept, unless a default value was added. -/
theorem count_kept_recycle (s : RecycledString) {string : RecycledString} {fuel : ℕ}
    (run : recycle strings string fuel = some strings') :
    (kept strings').count s ≤ (kept strings).count s + [string].count s ∧
      (FindsRoom strings string →
        (kept strings').count s = (kept strings).count s + [string].count s) := by
  unfold recycle at run
  dsimp only at run
  split at run
  · rename_i none
    cases run
    subst none
    have once : kept (addLast [] (StringRecyclingItem.setItem default (some string))) = [string] := rfl
    rw [once]
    exact ⟨Nat.le_of_eq (Nat.zero_add _).symm, fun _ => (Nat.zero_add _).symm⟩
  · rename_i some
    obtain ⟨i, place, run⟩ := Option.bind_eq_some_iff.mp run
    split at run
    · rename_i hole
      obtain ⟨x, read, run⟩ := Option.bind_eq_some_iff.mp run
      have filled := count_kept_put s read run
      unfold isHole at hole
      rw [read] at hole
      rw [of_decide_eq_true hole] at filled
      have same : (kept strings').count s = (kept strings).count s + [string].count s := filled
      exact ⟨Nat.le_of_eq same, fun _ => same⟩
    · rename_i blocked
      have added := count_kept_add s run
      refine ⟨Nat.le_trans (Nat.le_of_eq added) (Nat.le_add_right _ _), fun room => ?_⟩
      rcases room with none | hole
      · exact absurd none some
      · exact absurd (hole fuel i place) blocked

theorem returns_fitting {capacity : Int} (low : 0 ≤ i) (high : i ≤ upper strings) :
    Returns (fitting strings capacity i) fun (answer, place) =>
      (∃ x, item strings place = some x ∧ x.item = answer) ∧
        ∀ s, answer = some s → capacity ≤ s.capacity ∨ place = 0 := by
  have read : ∀ k, 0 ≤ k → k ≤ upper strings → ∃ x, item strings k = some x := fun k low high =>
    ⟨_, item_of_lt low (by unfold upper at high; omega)⟩
  obtain ⟨x, here⟩ := read i low high
  unfold fitting
  rw [here]
  refine returns_untilLoop
    (fun s => (0 ≤ s.2 ∧ s.2 ≤ i) ∧ ∃ x, item strings s.2 = some x ∧ x.item = s.1)
    (fun s => s.2.toNat) ⟨⟨low, Int.le_refl i⟩, x, here, rfl⟩ (Nat.le_refl _) ?_
  intro (answer, place) ⟨⟨nonneg, le⟩, found⟩
  dsimp only at nonneg le found ⊢
  rw [Returns.some_iff]
  split
  · rename_i stopped
    refine ⟨found, fun s eq => ?_⟩
    subst eq
    rcases (Bool.or_eq_true _ _).mp stopped with fits | first
    · exact Or.inl (of_decide_eq_true fits)
    · exact Or.inr (of_decide_eq_true first)
  · rename_i going
    have positive : place ≠ 0 := by
      rintro rfl
      exact going (Bool.or_true _)
    obtain ⟨y, there⟩ := read (place - 1) (by omega) (by omega)
    rw [there]
    exact Returns.some_iff.mpr ⟨⟨by dsimp only; omega, y, there, rfl⟩, by dsimp only; omega⟩

/-- What a request hands out is not kept any longer; it is big enough, or the string of the first
item. -/
theorem bestFit_spec {capacity : Int} {fuel : ℕ} {answer : Option RecycledString}
    (run : bestFit strings capacity fuel = some (answer, strings')) :
    (∀ s, (kept strings').count s + answer.toList.count s = (kept strings).count s) ∧
      ∀ s, answer = some s → capacity ≤ s.capacity ∨
        ∃ x, item strings 0 = some x ∧ x.item = some s := by
  unfold bestFit at run
  split at run
  · cases run
    exact ⟨fun _ => rfl, fun _ eq => nomatch eq⟩
  · obtain ⟨i, -, run⟩ := Option.bind_eq_some_iff.mp run
    split at run
    · rename_i inside
      obtain ⟨⟨found, place⟩, search, run⟩ := Option.bind_eq_some_iff.mp run
      obtain ⟨⟨x, read, holds⟩, fits⟩ := (returns_fitting inside.1 inside.2).unique search
      cases found with
      | none =>
        cases run
        exact ⟨fun _ => rfl, fun _ eq => nomatch eq⟩
      | some t =>
        obtain ⟨y, read', run⟩ := Option.bind_eq_some_iff.mp run
        obtain ⟨rest, written, run⟩ := Option.bind_eq_some_iff.mp run
        cases run
        cases read.symm.trans read'
        refine ⟨fun s => ?_, fun s eq => (fits s eq).imp_right fun first => ?_⟩
        · have emptied := count_kept_put s read written
          rw [holds] at emptied
          exact emptied
        · subst first
          exact ⟨x, read, holds.trans eq⟩
    · cases run
      exact ⟨fun _ => rfl, fun _ eq => nomatch eq⟩

end Kept

/-! ## Runs -/

section Runs

variable {P : List StringRecyclingItem → RecycledString → Prop} {strings : List StringRecyclingItem}
  {recycled served : List RecycledString}

/-- A recycled string is kept or handed out at most once, and exactly once when there is room. -/
theorem Reaches.count_le (reached : Reaches P strings recycled served) (s : RecycledString) :
    (kept strings).count s + served.count s ≤ recycled.count s ∧
      ((∀ a string, P a string → FindsRoom a string) →
        (kept strings).count s + served.count s = recycled.count s) := by
  induction reached with
  | make => exact ⟨Nat.le_refl _, fun _ => rfl⟩
  | @recycle _ _ recycled _ _ string condition fuel run ih =>
    obtain ⟨le, eq⟩ := count_kept_recycle s run
    have split : (string :: recycled).count s = [string].count s + recycled.count s :=
      @List.count_append _ _ s [string] recycled
    rw [split]
    refine ⟨by omega, fun room => ?_⟩
    have all := ih.2 room
    have kept := eq (room _ _ condition)
    omega
  | request _ capacity fuel run ih =>
    have less := (bestFit_spec run).1 s
    rw [List.count_append]
    exact ⟨by omega, fun room => by have := ih.2 room; omega⟩

theorem Reaches.perm (reached : Reaches FindsRoom strings recycled served) :
    (kept strings ++ served).Perm recycled := by
  rw [List.perm_iff_count]
  intro s
  rw [List.count_append]
  exact (reached.count_le s).2 fun _ _ room => room

/-- When there is room for each string, no item is added to the first one. -/
theorem Reaches.length_le (reached : Reaches FindsRoom strings recycled served) :
    strings.length ≤ 1 := by
  have length : ∀ {a a' : List StringRecyclingItem} {y i}, put a y i = some a' →
      a'.length = a.length := by
    intro a a' y i run
    unfold put at run
    split at run
    · cases run
      exact List.length_set
    · cases run
  induction reached with
  | make => exact Nat.zero_le 1
  | @recycle strings _ _ _ _ string room fuel run ih =>
    unfold StringRecyclingPool.recycle at run
    dsimp only at run
    split at run
    · rename_i none
      cases run
      rw [none]
      exact Nat.le_refl 1
    · rename_i some
      obtain ⟨i, place, run⟩ := Option.bind_eq_some_iff.mp run
      rw [if_pos ((room.resolve_left some) fuel i place)] at run
      obtain ⟨x, -, run⟩ := Option.bind_eq_some_iff.mp run
      rw [length run]
      exact ih
  | request _ capacity fuel run ih =>
    unfold bestFit at run
    split at run
    · cases run
      exact ih
    · obtain ⟨i, -, run⟩ := Option.bind_eq_some_iff.mp run
      split at run
      · obtain ⟨⟨found, place⟩, -, run⟩ := Option.bind_eq_some_iff.mp run
        cases found with
        | none =>
          cases run
          exact ih
        | some t =>
          obtain ⟨y, -, run⟩ := Option.bind_eq_some_iff.mp run
          obtain ⟨rest, written, run⟩ := Option.bind_eq_some_iff.mp run
          cases run
          rw [length written]
          exact ih
      · cases run
        exact ih

end Runs

end StringRecyclingPool

end Liberty
