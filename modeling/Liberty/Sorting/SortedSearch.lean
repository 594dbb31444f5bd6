import Liberty.Sorting.SortedInsertion

/-!
# Searches in a sorted collection

`index_of` and `has` of ABSTRACT_SORTER.  From the place where `insert_index` would put the
element, `index_of` goes back over the items that the order does not tell from it.  Nothing is
assumed of `is_equal`.
-/

namespace Liberty

namespace AbstractSorter

variable {α : Type} (lt equal : α → α → Bool)

/-! ## The source -/

def indexOf (c : Collection α) (element : α) (fuel : Nat) : Option Int := do
  let result ← insertIndex lt c element fuel
  untilLoop
    (fun result =>
      if result ≤ c.lower then some true
      else do return equal (← c.item result) element || lt (← c.item result) element)
    (fun result => some (result - 1))
    c.count.toNat (if result > c.lower then result - 1 else result)

def has (c : Collection α) (element : α) (fuel : Nat) : Option Bool :=
  if c.count = 0 then some false
  else do return equal (← c.item (← indexOf lt equal c element fuel)) element

/-! ## The items that are met -/

/-- Going back from the place of `element` comes to the index `k`: only items that are not less
than `element` are behind it. -/
structure Meets (c : Collection α) (element : α) (k : Int) : Prop where
  inside : k = c.lower ∨ k < place lt c element
  behind : ∀ j, k < j → j < place lt c element → lt (c.cell j) element = false

/-- The linear search. -/
def Holds (c : Collection α) (element : α) : Prop :=
  ∃ k, c.ValidIndex k ∧ equal (c.cell k) element = true

/-- An item that is equal is met, if there is any. -/
def MeetsEqual (c : Collection α) (element : α) : Prop :=
  Holds equal c element →
    ∃ k, c.ValidIndex k ∧ equal (c.cell k) element = true ∧ Meets lt c element k

section Search

variable {lt equal} {c : Collection α} {element : α}

/-- Where equal items are not told apart by the order, all of them are met. -/
theorem meetsEqual_of_equivalent (order : StrictWeakOrder lt) (sorted : IsSorted lt c)
    (equivalent : ∀ x y, equal x y = true → lt x y = false ∧ lt y x = false) :
    MeetsEqual lt equal c element := by
  intro ⟨k, valid, same⟩
  have pairs : Window.SortedOn (Lte lt) c.cell c.lower (c.upper + 1) :=
    order.sortedOn fun i low high => sorted i low (by omega)
  have neither := equivalent _ _ same
  have before := (lte_iff_lt_place order sorted element valid.1 valid.2).mp
    (lte_eq_true.mpr neither.2)
  refine ⟨k, valid, same, .inr before, fun j more less => ?_⟩
  have upper := (place_inside lt c element).2
  have low := valid.1
  exact order.lte_trans (show Lte lt element (c.cell k) from neither.1)
    (pairs k j low more (by omega))

/-- What going back from the place of `element` ends with. -/
theorem returns_goingBack (filled : c.count ≠ 0) :
    Returns (untilLoop
      (fun result =>
        if result ≤ c.lower then some true
        else do return equal (← c.item result) element || lt (← c.item result) element)
      (fun result => some (result - 1)) c.count.toNat
      (if place lt c element > c.lower then place lt c element - 1 else place lt c element))
      fun i => (c.ValidIndex i ∧ Meets lt c element i) ∧ ∀ k, c.ValidIndex k →
        Meets lt c element k → equal (c.cell k) element = true →
          equal (c.cell i) element = true := by
  have count : c.count = c.upper - c.lower + 1 := rfl
  have low := (place_inside lt c element).1
  have high := (place_inside lt c element).2
  refine returns_untilLoop
    (fun i => (c.lower ≤ i ∧ i ≤ c.upper) ∧ (i = c.lower ∨ i < place lt c element) ∧
      ∀ j, i < j → j < place lt c element →
        equal (c.cell j) element = false ∧ lt (c.cell j) element = false)
    (fun i => (i - c.lower).toNat) ?_ ?_ ?_
  · split
    · exact ⟨by omega, by omega, fun j more less => by omega⟩
    · exact ⟨by omega, by omega, fun j more less => by omega⟩
  · split <;> omega
  · intro i ⟨valid, inside, passed⟩
    have met : Meets lt c element i := ⟨inside, fun j more less => (passed j more less).2⟩
    by_cases first : i ≤ c.lower
    · rw [if_pos first, Returns.some_iff, if_pos rfl]
      refine ⟨⟨valid, met⟩, fun k validK meets same => ?_⟩
      have lowK := validK.1
      rcases Int.lt_or_le i k with more | less
      · have here := meets.inside
        rw [(passed k more (by omega)).1] at same
        cases same
      · obtain rfl : k = i := by omega
        exact same
    · have read : c.item i = some (c.cell i) := if_pos valid
      rw [if_neg first, read, Returns.some_bind, Returns.some_bind, Returns.pure_iff]
      split
      · rename_i stops
        refine ⟨⟨valid, met⟩, fun k validK meets same => ?_⟩
        rcases lt_trichotomy i k with more | rfl | less
        · have here := meets.inside
          rw [(passed k more (by omega)).1] at same
          cases same
        · exact same
        · rw [meets.behind i less (by omega), Bool.or_false] at stops
          exact stops
      · rename_i goes
        rw [Bool.or_eq_true, not_or, Bool.not_eq_true, Bool.not_eq_true] at goes
        rw [Returns.some_iff]
        refine ⟨⟨by omega, by omega, fun j more less => ?_⟩, by omega⟩
        by_cases here : j = i
        · rw [here]
          exact goes
        · exact passed j (by omega) less

/-- Both searches of an empty collection return at once. -/
theorem completes_searches_empty (index : Completes (insertIndex lt c element) (place lt c element))
    (empty : c.count = 0) :
    Completes (has lt equal c element) false ∧
      Completes (indexOf lt equal c element) (place lt c element) := by
  have count : c.count = c.upper - c.lower + 1 := rfl
  have inside := place_inside lt c element
  refine ⟨.of_eq fun fuel => if_pos empty, index.bind (.of_eq fun fuel => ?_)⟩
  rw [if_neg (by omega)]
  exact untilLoop_stopped (if_pos (by omega))

/-- The index that is found, and the test of `has` there. -/
theorem completes_searches (index : Completes (insertIndex lt c element) (place lt c element))
    (filled : c.count ≠ 0) :
    ∃ i, Completes (indexOf lt equal c element) i ∧ (c.ValidIndex i ∧ Meets lt c element i) ∧
      (∀ k, c.ValidIndex k → Meets lt c element k → equal (c.cell k) element = true →
        equal (c.cell i) element = true) ∧
      Completes (has lt equal c element) (equal (c.cell i) element) := by
  obtain ⟨i, run, met, found⟩ := @returns_goingBack _ lt equal c element filled
  have indexed : Completes (indexOf lt equal c element) i := index.bind (.of_eq fun fuel => run)
  have read : c.item i = some (c.cell i) := if_pos met.1
  have tested : Completes (fun fuel => do
      return equal (← c.item (← indexOf lt equal c element fuel)) element)
      (equal (c.cell i) element) := by
    refine indexed.bind (.of_eq fun fuel => ?_)
    rw [read]
    rfl
  exact ⟨i, indexed, met, found, tested.congr fun fuel => if_neg filled⟩

end Search

/-- **The searches in a sorted collection.**  `has` and `index_of` agree with the linear search
exactly when `insert_index` returns and, if some item is equal, one is met on the way back from the
place of the element. -/
theorem searches_iff (α : Type) (lt equal : α → α → Bool) (order : StrictWeakOrder lt)
    (c : Collection α) (sorted : IsSorted lt c) (bounds : c.HasIntegerBounds) (element : α) :
    (∃ b i, Completes (has lt equal c element) b ∧ (b = true ↔ Holds equal c element) ∧
        Completes (indexOf lt equal c element) i ∧
        (Holds equal c element → c.ValidIndex i ∧ equal (c.cell i) element = true)) ↔
      (c.upper + 1 ≤ maximumInteger ∧ Bisects (place lt c element) c.lower (c.upper + 1)) ∧
        MeetsEqual lt equal c element := by
  have count : c.count = c.upper - c.lower + 1 := rfl
  have nothing : c.count = 0 → ¬Holds equal c element := by
    intro empty ⟨k, valid, _⟩
    have low := valid.1
    have high := valid.2
    omega
  constructor
  · intro ⟨b, i, _, _, indexed, found⟩
    obtain ⟨fuel, run⟩ := indexed.returns
    obtain ⟨j, start, -⟩ := Option.bind_eq_some_iff.mp run
    have bisects := bisects_of_insertIndex order sorted bounds start
    refine ⟨bisects, fun holds => ?_⟩
    obtain ⟨i', indexed', met, -⟩ := @completes_searches _ lt equal _ _
      (completes_place order sorted bounds bisects.1 bisects.2) fun empty => nothing empty holds
    obtain rfl := indexed.unique indexed'
    exact ⟨i, met.1, (found holds).2, met.2⟩
  · intro ⟨⟨most, bisects⟩, meets⟩
    have index := completes_place order sorted bounds most bisects
    by_cases empty : c.count = 0
    · obtain ⟨tested, indexed⟩ := @completes_searches_empty _ lt equal _ _ index empty
      exact ⟨false, _, tested, iff_of_false Bool.false_ne_true (nothing empty), indexed,
        fun holds => absurd holds (nothing empty)⟩
    · obtain ⟨i, indexed, met, found, tested⟩ := @completes_searches _ lt equal _ _ index empty
      have equals : Holds equal c element → equal (c.cell i) element = true := by
        intro holds
        obtain ⟨k, valid, same, metK⟩ := meets holds
        exact found k valid metK same
      exact ⟨_, i, tested, ⟨fun same => ⟨i, met.1, same⟩, equals⟩, indexed,
        fun holds => ⟨met.1, equals holds⟩⟩

/-- Three items that the order does not tell apart, of which the first one is the element. -/
theorem searches_iff_block :
    let c : Collection (ℤ × ℤ) := ⟨4, 6, fun i => (7, i), by decide⟩
    ∃ b i, Completes (has (fun x y => decide (x.1 < y.1)) (fun x y => decide (x = y)) c (7, 4)) b ∧
      b = true ∧
      Completes (indexOf (fun x y => decide (x.1 < y.1)) (fun x y => decide (x = y)) c (7, 4)) i ∧
        c.cell i = (7, 4) := by
  intro c
  have order : StrictWeakOrder fun x y : ℤ × ℤ => decide (x.1 < y.1) :=
    ⟨fun x => by simp, fun x y z => by simp only [decide_eq_true_eq]; omega,
      fun x y z => by simp only [decide_eq_false_iff_not]; omega⟩
  have sorted : IsSorted (fun x y : ℤ × ℤ => decide (x.1 < y.1)) c := fun i low high =>
    decide_eq_false (lt_irrefl (7 : ℤ))
  have inside := place_inside (fun x y : ℤ × ℤ => decide (x.1 < y.1)) c (7, 4)
  have holds : Holds (fun x y : ℤ × ℤ => decide (x = y)) c (7, 4) :=
    ⟨4, by decide, by decide⟩
  have meets : MeetsEqual (fun x y : ℤ × ℤ => decide (x.1 < y.1)) (fun x y => decide (x = y)) c
      (7, 4) :=
    meetsEqual_of_equivalent order sorted fun x y same => by
      rw [decide_eq_true_eq] at same
      rw [same]
      exact ⟨order.irrefl y, order.irrefl y⟩
  obtain ⟨b, i, tested, right, indexed, found⟩ :=
    (searches_iff (ℤ × ℤ) (fun x y => decide (x.1 < y.1)) (fun x y => decide (x = y)) order c sorted
      ⟨by decide, by decide, by decide, by decide⟩ (7, 4)).mpr
      ⟨⟨by decide, bisects_of_nonneg (by decide) inside.1 inside.2 (by decide)⟩, meets⟩
  exact ⟨b, i, tested, right.mpr holds, indexed, of_decide_eq_true (found holds).2⟩

/-- The search for 1 before two items at -2 and -1 does not end. -/
theorem not_searches :
    ∃ c : Collection ℤ, IsSorted (fun x y : ℤ => decide (x < y)) c ∧ c.HasIntegerBounds ∧
      ¬(∃ b, Completes (has (fun x y : ℤ => decide (x < y)) (fun x y => decide (x = y)) c 1) b) ∧
      ¬∃ i, Completes (indexOf (fun x y : ℤ => decide (x < y)) (fun x y => decide (x = y)) c 1) i := by
  have order : StrictWeakOrder fun x y : ℤ => decide (x < y) :=
    ⟨fun x => by simp, fun x y z => by simp only [decide_eq_true_eq]; omega,
      fun x y z => by simp only [decide_eq_false_iff_not]; omega⟩
  have sorted : IsSorted (fun x y : ℤ => decide (x < y)) ⟨-2, -1, fun i => 7 + i, by decide⟩ := by
    intro i low high
    refine decide_eq_false ?_
    change ¬7 + (i + 1) < 7 + i
    omega
  have bounds : Collection.HasIntegerBounds (⟨-2, -1, fun i => 7 + i, by decide⟩ : Collection ℤ) :=
    ⟨by decide, by decide, by decide, by decide⟩
  have stuck : ∀ fuel i, insertIndex (fun x y : ℤ => decide (x < y))
      ⟨-2, -1, fun i => 7 + i, by decide⟩ 1 fuel ≠ some i := by
    intro fuel i run
    obtain ⟨-, bisects⟩ := bisects_of_insertIndex order sorted bounds run
    have stays : ¬Bisects (-2) (-2) (-1) := by
      intro bisects
      cases bisects with
      | right halves before rest => exact absurd (halves.2 (by decide)) (by decide)
      | left halves after rest => exact absurd (halves.2 (by decide)) (by decide)
    have first : ¬Bisects (-2) (-2) 0 := by
      intro bisects
      cases bisects with
      | right halves before rest => exact absurd before (by decide)
      | left halves after rest => exact stays rest
    exact first bisects
  refine ⟨_, sorted, bounds, fun returned => ?_, fun returned => ?_⟩
  · obtain ⟨b, completes⟩ := returned
    obtain ⟨fuel, run⟩ := completes.returns
    obtain ⟨i, indexed, -⟩ := Option.bind_eq_some_iff.mp run
    obtain ⟨j, start, -⟩ := Option.bind_eq_some_iff.mp indexed
    exact stuck fuel j start
  · obtain ⟨i, completes⟩ := returned
    obtain ⟨fuel, run⟩ := completes.returns
    obtain ⟨j, start, -⟩ := Option.bind_eq_some_iff.mp run
    exact stuck fuel j start

end AbstractSorter

end Liberty
