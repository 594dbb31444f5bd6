import Mathlib.Data.List.Basic

/-!
# Association lists kept in increasing key order

What a search tree means, whatever its shape: the list of its entries in key
order.  `insert` and `erase` are the list operations that the tree operations
refine; the append lemmas say on which side of a root they act.
-/

namespace SortedAssoc

variable {α β : Type} (lt : α → α → Bool)

/-- Entries in strictly increasing key order. -/
def Sorted (entries : List (α × β)) : Prop :=
  entries.Pairwise fun a b => lt a.1 b.1 = true

/-- Store `value` under `key`.  An entry whose key is neither below nor above
`key` keeps its own key. -/
def insert (key : α) (value : β) : List (α × β) → List (α × β)
  | [] => [(key, value)]
  | entry :: rest =>
    if lt key entry.1 then (key, value) :: entry :: rest
    else if lt entry.1 key then entry :: insert key value rest
    else (entry.1, value) :: rest

/-- Drop the entry of `key`, if there is one. -/
def erase (key : α) : List (α × β) → List (α × β)
  | [] => []
  | entry :: rest =>
    if lt key entry.1 then entry :: rest
    else if lt entry.1 key then entry :: erase key rest
    else rest

variable {lt}

/-- `key` lies above every key of `entries`. -/
def Above (lt : α → α → Bool) (key : α) (entries : List (α × β)) : Prop :=
  ∀ entry ∈ entries, lt key entry.1 = false ∧ lt entry.1 key = true

theorem insert_append_of_lt {key pivot : α} {value w : β}
    (below : lt key pivot = true) (left right : List (α × β)) :
    insert lt key value (left ++ (pivot, w) :: right) =
      insert lt key value left ++ (pivot, w) :: right := by
  induction left with
  | nil => simp [insert, below]
  | cons entry left ih =>
    simp only [List.cons_append, insert]
    split
    · rfl
    · split
      · rw [ih, List.cons_append]
      · rfl

theorem insert_append_of_above {key : α} {value : β} {left : List (α × β)}
    (above : Above lt key left) (right : List (α × β)) :
    insert lt key value (left ++ right) = left ++ insert lt key value right := by
  induction left with
  | nil => rfl
  | cons entry left ih =>
    obtain ⟨notBelow, isAbove⟩ := above entry (by simp)
    have tail : Above lt key left := fun e he => above e (by simp [he])
    simp only [List.cons_append, insert, notBelow, isAbove, ih tail,
      Bool.false_eq_true, if_false, if_true]

theorem erase_append_of_lt {key pivot : α} {w : β}
    (below : lt key pivot = true) (left right : List (α × β)) :
    erase lt key (left ++ (pivot, w) :: right) =
      erase lt key left ++ (pivot, w) :: right := by
  induction left with
  | nil => simp [erase, below]
  | cons entry left ih =>
    simp only [List.cons_append, erase]
    split
    · rfl
    · split
      · rw [ih, List.cons_append]
      · rfl

theorem erase_append_of_above {key : α} {left : List (α × β)}
    (above : Above lt key left) (right : List (α × β)) :
    erase lt key (left ++ right) = left ++ erase lt key right := by
  induction left with
  | nil => rfl
  | cons entry left ih =>
    obtain ⟨notBelow, isAbove⟩ := above entry (by simp)
    have tail : Above lt key left := fun e he => above e (by simp [he])
    simp only [List.cons_append, erase, notBelow, isAbove, ih tail,
      Bool.false_eq_true, if_false, if_true]

theorem mem_insert {key : α} {value : β} {entries : List (α × β)} {entry : α × β}
    (member : entry ∈ insert lt key value entries) :
    entry.1 = key ∨ ∃ old ∈ entries, old.1 = entry.1 := by
  induction entries with
  | nil =>
    simp only [insert, List.mem_singleton] at member
    exact Or.inl (by rw [member])
  | cons head rest ih =>
    simp only [insert] at member
    split at member
    · rcases List.mem_cons.mp member with rfl | old
      · exact Or.inl rfl
      · exact Or.inr ⟨entry, old, rfl⟩
    · split at member
      · rcases List.mem_cons.mp member with rfl | later
        · exact Or.inr ⟨entry, by simp, rfl⟩
        · rcases ih later with new | ⟨old, inRest, sameKey⟩
          · exact Or.inl new
          · exact Or.inr ⟨old, by simp [inRest], sameKey⟩
      · rcases List.mem_cons.mp member with rfl | old
        · exact Or.inr ⟨head, by simp, rfl⟩
        · exact Or.inr ⟨entry, by simp [old], rfl⟩

section Order

variable (irrefl : ∀ a, lt a a = false)
  (trans : ∀ a b c, lt a b = true → lt b c = true → lt a c = true)

include irrefl trans in
theorem asymm {a b : α} (h : lt a b = true) : lt b a = false := by
  cases back : lt b a with
  | false => rfl
  | true =>
    have loop := trans a b a h back
    rw [irrefl a] at loop
    exact absurd loop (by simp)

include irrefl trans in
/-- A key above the pivot of a sorted list is above everything left of the
pivot. -/
theorem Sorted.above_left {left right : List (α × β)} {pivot key : α} {w : β}
    (sorted : Sorted lt (left ++ (pivot, w) :: right))
    (above : lt pivot key = true) : Above lt key left := by
  intro entry member
  have belowPivot : lt entry.1 pivot = true :=
    (List.pairwise_append.mp sorted).2.2 entry member (pivot, w) (by simp)
  have belowKey := trans _ _ _ belowPivot above
  exact ⟨asymm irrefl trans belowKey, belowKey⟩

include trans in
theorem Sorted.insert {key : α} {value : β} {entries : List (α × β)}
    (sorted : Sorted lt entries) : Sorted lt (insert lt key value entries) := by
  induction entries with
  | nil => exact List.pairwise_singleton _ _
  | cons head rest ih =>
    obtain ⟨headBelow, restSorted⟩ := List.pairwise_cons.mp sorted
    simp only [SortedAssoc.insert]
    split
    next below =>
      refine List.pairwise_cons.mpr ⟨fun entry member => ?_, sorted⟩
      rcases List.mem_cons.mp member with rfl | later
      · exact below
      · exact trans _ _ _ below (headBelow entry later)
    next =>
      split
      next below =>
        refine List.pairwise_cons.mpr ⟨fun entry member => ?_, ih restSorted⟩
        rcases mem_insert member with new | ⟨old, inRest, sameKey⟩
        · rw [new]
          exact below
        · rw [← sameKey]
          exact headBelow old inRest
      next => exact List.pairwise_cons.mpr ⟨headBelow, restSorted⟩

omit irrefl trans in
theorem erase_sublist (key : α) (entries : List (α × β)) :
    (erase lt key entries).Sublist entries := by
  induction entries with
  | nil => exact List.Sublist.refl _
  | cons head rest ih =>
    simp only [erase]
    split
    · exact List.Sublist.refl _
    · split
      · exact ih.cons_cons head
      · exact List.sublist_cons_self head rest

theorem Sorted.erase {key : α} {entries : List (α × β)}
    (sorted : Sorted lt entries) : Sorted lt (erase lt key entries) :=
  List.Pairwise.sublist (erase_sublist key entries) sorted

end Order

/-! ## What the keys are bound to -/

/-- Neither key is before the other. -/
def Same (lt : α → α → Bool) (a b : α) : Prop :=
  lt a b = false ∧ lt b a = false

instance (a b : α) : Decidable (Same lt a b) :=
  inferInstanceAs (Decidable (_ ∧ _))

/-- An entry of the key of `k` holds `v`. -/
def Binds (lt : α → α → Bool) (entries : List (α × β)) (k : α) (v : β) : Prop :=
  ∃ entry ∈ entries, Same lt entry.1 k ∧ entry.2 = v

theorem Same.symm {a b : α} (h : Same lt a b) : Same lt b a :=
  ⟨h.2, h.1⟩

theorem binds_nil {k : α} {v : β} : ¬Binds lt [] k v := by
  rintro ⟨entry, member, -⟩
  exact absurd member List.not_mem_nil

theorem binds_cons {entry : α × β} {rest : List (α × β)} {k : α} {v : β} :
    Binds lt (entry :: rest) k v ↔ (Same lt entry.1 k ∧ entry.2 = v) ∨ Binds lt rest k v := by
  constructor
  · rintro ⟨e, member, found⟩
    rcases List.mem_cons.mp member with rfl | member
    · exact Or.inl found
    · exact Or.inr ⟨e, member, found⟩
  · rintro (found | ⟨e, member, found⟩)
    · exact ⟨entry, List.mem_cons_self, found⟩
    · exact ⟨e, List.mem_cons_of_mem entry member, found⟩

section WeakOrder

variable (irrefl : ∀ a, lt a a = false)
  (trans : ∀ a b c, lt a b = true → lt b c = true → lt a c = true)
  (same : ∀ a b c, lt a b = true → lt b c = false → lt c b = false → lt a c = true)

include same in
theorem lt_of_lt_of_same {a b c : α} (less : lt a b = true) (equal : Same lt b c) :
    lt a c = true :=
  same a b c less equal.1 equal.2

include trans same in
theorem lt_of_same_of_lt {a b c : α} (equal : Same lt a b) (less : lt b c = true) :
    lt a c = true := by
  cases below : lt a c with
  | true => rfl
  | false =>
    cases above : lt c a with
    | true =>
      have back := trans _ _ _ less above
      rw [equal.2] at back
      cases back
    | false =>
      have back := same b c a less above below
      rw [equal.2] at back
      cases back

include trans same in
theorem Same.chain {a b c : α} (h : Same lt a b) (h' : Same lt b c) : Same lt a c := by
  refine ⟨Bool.eq_false_iff.mpr fun less => ?_, Bool.eq_false_iff.mpr fun less => ?_⟩
  · have back := lt_of_lt_of_same same less h'.symm
    rw [h.1] at back
    cases back
  · have back := lt_of_same_of_lt trans same h' less
    rw [h.2] at back
    cases back

include same in
/-- A key before all entries is bound by none of them. -/
theorem not_binds_of_lt {entries : List (α × β)} {k l : α} {v : β}
    (below : ∀ entry ∈ entries, lt k entry.1 = true) (equal : Same lt k l) :
    ¬Binds lt entries l v := by
  rintro ⟨entry, member, found, -⟩
  have less := lt_of_lt_of_same same (below entry member) found
  rw [equal.1] at less
  cases less

include irrefl trans same

/-- The entry of `key` after an insertion, and the other entries as they were. -/
theorem binds_insert {entries : List (α × β)} (sorted : Sorted lt entries) (key : α) (value : β)
    (l : α) (w : β) :
    Binds lt (insert lt key value entries) l w ↔
      if Same lt key l then value = w else Binds lt entries l w := by
  induction entries with
  | nil =>
    rw [SortedAssoc.insert, binds_cons]
    split
    · rename_i equal
      exact ⟨fun h => h.elim And.right fun h => absurd h binds_nil, fun h => Or.inl ⟨equal, h⟩⟩
    · rename_i other
      exact ⟨fun h => h.elim (fun h => absurd h.1 other) id, fun h => absurd h binds_nil⟩
  | cons entry rest ih =>
    obtain ⟨head, tail⟩ := List.pairwise_cons.mp sorted
    rw [SortedAssoc.insert]
    split
    · rename_i below
      rw [binds_cons]
      split
      · rename_i equal
        refine ⟨fun h => h.elim And.right fun h => absurd h ?_, fun h => Or.inl ⟨equal, h⟩⟩
        refine not_binds_of_lt same (fun e member => ?_) equal
        rcases List.mem_cons.mp member with rfl | member
        · exact below
        · exact trans _ _ _ below (head e member)
      · rename_i other
        exact ⟨fun h => h.elim (fun h => absurd h.1 other) id, Or.inr⟩
    · split
      · rename_i above
        rw [binds_cons, binds_cons, ih tail]
        split
        · rename_i equal
          refine ⟨fun h => h.elim (fun h => ?_) id, Or.inr⟩
          have apart := lt_of_lt_of_same same above equal
          rw [h.1.1] at apart
          cases apart
        · exact Iff.rfl
      · rename_i notBelow notAbove
        have here : Same lt entry.1 key :=
          ⟨Bool.eq_false_iff.mpr notAbove, Bool.eq_false_iff.mpr notBelow⟩
        rw [binds_cons, binds_cons]
        split
        · rename_i equal
          refine ⟨fun h => h.elim And.right fun h => absurd h ?_, fun h =>
            Or.inl ⟨here.chain trans same equal, h⟩⟩
          exact not_binds_of_lt same head (here.chain trans same equal)
        · rename_i other
          have out : ¬Same lt entry.1 l := fun equal => other (here.symm.chain trans same equal)
          exact or_congr ⟨fun h => absurd h.1 out, fun h => absurd h.1 out⟩ Iff.rfl

theorem binds_erase {entries : List (α × β)} (sorted : Sorted lt entries) (key l : α) (w : β) :
    Binds lt (erase lt key entries) l w ↔ ¬Same lt key l ∧ Binds lt entries l w := by
  induction entries with
  | nil => exact ⟨fun h => absurd h binds_nil, And.right⟩
  | cons entry rest ih =>
    obtain ⟨head, tail⟩ := List.pairwise_cons.mp sorted
    rw [SortedAssoc.erase]
    split
    · rename_i below
      refine ⟨fun h => ⟨fun equal => absurd h ?_, h⟩, And.right⟩
      refine not_binds_of_lt same (fun e member => ?_) equal
      rcases List.mem_cons.mp member with rfl | member
      · exact below
      · exact trans _ _ _ below (head e member)
    · split
      · rename_i above
        rw [binds_cons, binds_cons, ih tail]
        constructor
        · rintro (found | ⟨other, found⟩)
          · refine ⟨fun equal => ?_, Or.inl found⟩
            have apart := lt_of_lt_of_same same above equal
            rw [found.1.1] at apart
            cases apart
          · exact ⟨other, Or.inr found⟩
        · rintro ⟨other, found | found⟩
          · exact Or.inl found
          · exact Or.inr ⟨other, found⟩
      · rename_i notBelow notAbove
        have here : Same lt entry.1 key :=
          ⟨Bool.eq_false_iff.mpr notAbove, Bool.eq_false_iff.mpr notBelow⟩
        rw [binds_cons]
        constructor
        · intro found
          refine ⟨fun equal => ?_, Or.inr found⟩
          exact not_binds_of_lt same head (here.chain trans same equal) found
        · rintro ⟨other, found | found⟩
          · exact absurd (here.symm.chain trans same found.1) other
          · exact found

end WeakOrder

end SortedAssoc
