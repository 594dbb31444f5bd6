import Liberty.Sorting.AbstractSorter

/-!
# Bubble sort

Each round carries the least item of the region down to its first index, then the greatest
one up to its last index.  A pass that exchanges nothing has seen a sorted region.
-/

namespace Liberty

namespace AbstractSorter

variable {α : Type} (lt : α → α → Bool)

/-! ## The source -/

/-- One round of the pass down, on the collection, `i` and `modified`. -/
def bubbleDownRound (s : Collection α × Int × Bool) : Option (Collection α × Int × Bool) := do
  let (c, i, modified) := s
  if lt (← c.item i) (← c.item (i - 1)) then
    return (← c.swap i (i - 1), i - 1, true)
  else
    return (c, i - 1, modified)

/-- The pass down: the collection and `modified`. -/
def bubbleDown (c : Collection α) (imin imax : Int) : Option (Collection α × Bool) := do
  let (c, _, modified) ← untilLoop (fun s => some (decide (s.2.1 < imin)))
    (bubbleDownRound lt) (imax - imin + 1).toNat (c, imax, false)
  return (c, modified)

/-- One round of the pass up, on the collection, `i` and `modified`. -/
def bubbleUpRound (s : Collection α × Int × Bool) : Option (Collection α × Int × Bool) := do
  let (c, i, modified) := s
  if lt (← c.item (i + 1)) (← c.item i) then
    return (← c.swap i (i + 1), i + 1, true)
  else
    return (c, i + 1, modified)

/-- The pass up: the collection and `modified`. -/
def bubbleUp (c : Collection α) (imin imax : Int) : Option (Collection α × Bool) := do
  let (c, _, modified) ← untilLoop (fun s => some (decide (s.2.1 > imax)))
    (bubbleUpRound lt) (imax - imin + 1).toNat (c, imin, false)
  return (c, modified)

/-- A round of `bubble_sort`, on the collection, `imin`, `imax` and `modified`. -/
def bubbleRound (s : Collection α × Int × Int × Bool) :
    Option (Collection α × Int × Int × Bool) := do
  let (c, imin, imax, _) := s
  let imin := imin + 1
  let (c, modified) ← bubbleDown lt c imin imax
  if modified then
    let imax := imax - 1
    let (c, modified) ← bubbleUp lt c imin imax
    return (c, imin, imax, modified)
  else
    return (c, imin, imax, modified)

section BubbleSort

variable {lt} {c d e : Collection α} {a b : Int}

/-! ## The two passes -/

/-- The pass down has come to `i`: the item there is the least one from it on, and they
are sorted unless something was modified. -/
structure SunkTo (lt : α → α → Bool) (c : Collection α) (a b : Int)
    (d : Collection α) (i : Int) (modified : Bool) : Prop where
  rearranged : Collection.Rearranged a (b + 1) c d
  low : a ≤ i
  high : i ≤ b
  least : ∀ k, i < k → k ≤ b → Lte lt (d.cell i) (d.cell k)
  sorted : modified = false → Window.SortedOn (Lte lt) d.cell i (b + 1)

theorem SunkTo.returns_round (order : StrictWeakOrder lt) {i : Int} {modified : Bool}
    (inv : SunkTo lt c a b d i modified) (low : c.lower ≤ a) (high : b ≤ c.upper)
    (going : a < i) :
    Returns (bubbleDownRound lt (d, i, modified)) fun (e, i', modified) =>
      SunkTo lt c a b e i' modified ∧ i' = i - 1 := by
  have lower := inv.rearranged.lower_eq
  have upper := inv.rearranged.upper_eq
  have inside := inv.high
  unfold bubbleDownRound
  simp only [Returns.bind_iff, Collection.returns_item]
  refine ⟨by omega, by omega, ?_⟩
  split
  · rename_i smaller
    rw [Returns.bind_iff]
    apply Collection.returns_swap (show d.lower ≤ a by omega)
      (show b + 1 ≤ d.upper + 1 by omega) (by omega) (by omega)
    intro e swapped atI below elsewhere
    rw [Returns.pure_iff]
    dsimp only
    refine ⟨⟨inv.rearranged.trans swapped, by omega, by omega, ?_, fun unmodified => Bool.noConfusion unmodified⟩, rfl⟩
    intro k lowK highK
    rw [below]
    by_cases here : k = i
    · rw [here, atI]
      exact order.lte_of_lt smaller
    · rw [elsewhere k here (by omega)]
      exact inv.least k (by omega) highK
  · rename_i notSmaller
    have next := lte_of_not_lt notSmaller
    have least : ∀ k, i - 1 < k → k ≤ b → Lte lt (d.cell (i - 1)) (d.cell k) := by
      intro k lowK highK
      by_cases here : k = i
      · rw [here]
        exact next
      · exact order.lte_trans next (inv.least k (by omega) highK)
    rw [Returns.pure_iff]
    dsimp only
    refine ⟨⟨inv.rearranged, by omega, by omega, least, fun unmodified => ?_⟩, rfl⟩
    intro p q lowP less highQ
    by_cases first : p = i - 1
    · rw [first]
      exact least q (by omega) (by omega)
    · exact inv.sorted unmodified p q (by omega) less highQ

/-- The pass down leaves the least item first. -/
theorem returns_bubbleDown (order : StrictWeakOrder lt) (low : c.lower ≤ a)
    (high : b ≤ c.upper) (le : a ≤ b) :
    Returns (bubbleDown lt c (a + 1) b) fun (d, modified) => SunkTo lt c a b d a modified := by
  have start : SunkTo lt c a b c b false :=
    ⟨.refl a (b + 1) c, le, le_rfl, fun k _ _ => by omega,
      fun _ => Window.sortedOn_of_le c.cell le_rfl⟩
  unfold bubbleDown
  rw [Returns.bind_iff]
  refine returns_untilLoop (fun s => SunkTo lt c a b s.1 s.2.1 s.2.2)
    (fun s => (s.2.1 - a).toNat) start (by simp only; omega) ?_
  intro (d, i, modified) inv
  dsimp only at inv
  have least := inv.low
  rw [Returns.some_iff]
  split
  · rename_i stopped
    rw [decide_eq_true_eq] at stopped
    dsimp only at stopped
    rw [Returns.pure_iff]
    rwa [show i = a by omega] at inv
  · rename_i going
    rw [decide_eq_true_eq] at going
    dsimp only at going
    refine (inv.returns_round order low high (by omega)).mono ?_
    intro (e, i', modified') ⟨next, step⟩
    dsimp only at next step ⊢
    exact ⟨next, by omega⟩

/-- The pass up has come to `i`: the item there is the greatest one up to it, and they
are sorted unless something was modified. -/
structure RisenTo (lt : α → α → Bool) (c : Collection α) (a b : Int)
    (d : Collection α) (i : Int) (modified : Bool) : Prop where
  rearranged : Collection.Rearranged a (b + 1) c d
  low : a ≤ i
  high : i ≤ b
  greatest : ∀ k, a ≤ k → k < i → Lte lt (d.cell k) (d.cell i)
  sorted : modified = false → Window.SortedOn (Lte lt) d.cell a (i + 1)

theorem RisenTo.returns_round (order : StrictWeakOrder lt) {i : Int} {modified : Bool}
    (inv : RisenTo lt c a b d i modified) (low : c.lower ≤ a) (high : b ≤ c.upper)
    (going : i < b) :
    Returns (bubbleUpRound lt (d, i, modified)) fun (e, i', modified) =>
      RisenTo lt c a b e i' modified ∧ i' = i + 1 := by
  have lower := inv.rearranged.lower_eq
  have upper := inv.rearranged.upper_eq
  have inside := inv.low
  unfold bubbleUpRound
  simp only [Returns.bind_iff, Collection.returns_item]
  refine ⟨by omega, by omega, ?_⟩
  split
  · rename_i smaller
    rw [Returns.bind_iff]
    apply Collection.returns_swap (show d.lower ≤ a by omega)
      (show b + 1 ≤ d.upper + 1 by omega) (by omega) (by omega)
    intro e swapped atI above elsewhere
    rw [Returns.pure_iff]
    dsimp only
    refine ⟨⟨inv.rearranged.trans swapped, by omega, by omega, ?_, fun unmodified => Bool.noConfusion unmodified⟩, rfl⟩
    intro k lowK highK
    rw [above]
    by_cases here : k = i
    · rw [here, atI]
      exact order.lte_of_lt smaller
    · rw [elsewhere k here (by omega)]
      exact inv.greatest k lowK (by omega)
  · rename_i notSmaller
    have next := lte_of_not_lt notSmaller
    have greatest : ∀ k, a ≤ k → k < i + 1 → Lte lt (d.cell k) (d.cell (i + 1)) := by
      intro k lowK highK
      by_cases here : k = i
      · rw [here]
        exact next
      · exact order.lte_trans (inv.greatest k lowK (by omega)) next
    rw [Returns.pure_iff]
    dsimp only
    refine ⟨⟨inv.rearranged, by omega, by omega, greatest, fun unmodified => ?_⟩, rfl⟩
    intro p q lowP less highQ
    by_cases last : q = i + 1
    · rw [last]
      exact greatest p lowP (by omega)
    · exact inv.sorted unmodified p q lowP less (by omega)

/-- The pass up leaves the greatest item last. -/
theorem returns_bubbleUp (order : StrictWeakOrder lt) (low : c.lower ≤ a)
    (high : b ≤ c.upper) (le : a ≤ b) :
    Returns (bubbleUp lt c a (b - 1)) fun (d, modified) => RisenTo lt c a b d b modified := by
  have start : RisenTo lt c a b c a false :=
    ⟨.refl a (b + 1) c, le_rfl, le, fun k _ _ => by omega,
      fun _ => Window.sortedOn_of_le c.cell le_rfl⟩
  unfold bubbleUp
  rw [Returns.bind_iff]
  refine returns_untilLoop (fun s => RisenTo lt c a b s.1 s.2.1 s.2.2)
    (fun s => (b - s.2.1).toNat) start (by simp only; omega) ?_
  intro (d, i, modified) inv
  dsimp only at inv
  have greatest := inv.high
  rw [Returns.some_iff]
  split
  · rename_i stopped
    rw [decide_eq_true_eq] at stopped
    dsimp only at stopped
    rw [Returns.pure_iff]
    rwa [show i = b by omega] at inv
  · rename_i going
    rw [decide_eq_true_eq] at going
    dsimp only at going
    refine (inv.returns_round order low high (by omega)).mono ?_
    intro (e, i', modified') ⟨next, step⟩
    dsimp only at next step ⊢
    exact ⟨next, by omega⟩

/-! ## Rounds -/

/-- The items outside `[a, b]` are in their places: two items of which one is there are
in order. -/
def Settled (lt : α → α → Bool) (d : Collection α) (a b : Int) : Prop :=
  ∀ p q, d.lower ≤ p → p < q → q ≤ d.upper → p < a ∨ b < q → Lte lt (d.cell p) (d.cell q)

theorem Settled.rearranged (settled : Settled lt d a b)
    (r : Collection.Rearranged a (b + 1) d e) (low : d.lower ≤ a) (high : b ≤ d.upper) :
    Settled lt e a b := by
  have lower := r.lower_eq
  have upper := r.upper_eq
  intro p q lowP less highQ outside
  by_cases insideP : a ≤ p ∧ p < b + 1
  · -- `q` is above the window
    rw [r.frame q (by omega)]
    exact r.forall_of (P := fun x => Lte lt x (d.cell q))
      (fun k lowK highK => settled k q (by omega) (by omega) (by omega) (.inr (by omega)))
      p insideP.1 insideP.2
  · rw [r.frame p insideP]
    by_cases insideQ : a ≤ q ∧ q < b + 1
    · exact r.forall_of (P := fun x => Lte lt (d.cell p) x)
        (fun k lowK highK => settled p k (by omega) (by omega) (by omega) (.inl (by omega)))
        q insideQ.1 insideQ.2
    · rw [r.frame q insideQ]
      exact settled p q (by omega) less (by omega) outside

theorem Settled.above_least (settled : Settled lt d a b)
    (least : ∀ k, a < k → k ≤ b → Lte lt (d.cell a) (d.cell k)) : Settled lt d (a + 1) b := by
  intro p q low less high outside
  by_cases first : p = a ∧ q ≤ b
  · rw [first.1]
    exact least q (by omega) first.2
  · exact settled p q low less high (by omega)

theorem Settled.below_greatest (settled : Settled lt d a b)
    (greatest : ∀ k, a ≤ k → k < b → Lte lt (d.cell k) (d.cell b)) :
    Settled lt d a (b - 1) := by
  intro p q low less high outside
  by_cases last : a ≤ p ∧ q = b
  · rw [last.2]
    exact greatest p last.1 (by omega)
  · exact settled p q low less high (by omega)

/-- What holds before each round of `bubble_sort`. -/
structure Bubbled (lt : α → α → Bool) (c : Collection α)
    (s : Collection α × Int × Int × Bool) : Prop where
  rearranged : Collection.Rearranged c.lower (c.upper + 1) c s.1
  low : c.lower ≤ s.2.1
  high : s.2.2.1 ≤ c.upper
  settled : Settled lt s.1 s.2.1 s.2.2.1
  sorted : s.2.2.2 = false → Window.SortedOn (Lte lt) s.1.cell s.2.1 (s.2.2.1 + 1)

theorem Bubbled.returns_round (order : StrictWeakOrder lt) {imin imax : Int}
    {modified : Bool} (inv : Bubbled lt c (d, imin, imax, modified)) (going : imin < imax) :
    Returns (bubbleRound lt (d, imin, imax, modified)) fun s =>
      Bubbled lt c s ∧ s.2.1 = imin + 1 ∧ s.2.2.1 ≤ imax := by
  obtain ⟨r, low, high, settled, -⟩ := inv
  dsimp only at r low high settled
  have lower := r.lower_eq
  have upper := r.upper_eq
  refine (returns_bubbleDown order (show d.lower ≤ imin by omega)
    (show imax ≤ d.upper by omega) going.le).bind ?_
  intro (d₁, modified₁) down
  dsimp only at down ⊢
  have first := r.trans (down.rearranged.mono low (by omega))
  have lower₁ := first.lower_eq
  have upper₁ := first.upper_eq
  have settled₁ := (settled.rearranged down.rearranged (by omega) (by omega)).above_least
    down.least
  split
  · refine (returns_bubbleUp order (show d₁.lower ≤ imin + 1 by omega)
      (show imax ≤ d₁.upper by omega) (by omega)).bind ?_
    intro (d₂, modified₂) up
    rw [Returns.pure_iff]
    dsimp only
    refine ⟨⟨first.trans (up.rearranged.mono (by omega) (by omega)), by dsimp only; omega,
      by dsimp only; omega, ?_, fun unmodified => ?_⟩, rfl, by omega⟩
    · exact (settled₁.rearranged up.rearranged (by omega) (by omega)).below_greatest up.greatest
    · exact (up.sorted unmodified).mono le_rfl (by dsimp only; omega)
  · rename_i unmodified
    rw [Bool.not_eq_true] at unmodified
    rw [Returns.pure_iff]
    exact ⟨⟨first, by dsimp only; omega, high, settled₁,
      fun _ => (down.sorted unmodified).mono (by dsimp only; omega) le_rfl⟩, rfl, le_rfl⟩

end BubbleSort

end AbstractSorter

end Liberty
