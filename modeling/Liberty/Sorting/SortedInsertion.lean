import Liberty.Library.Loops
import Liberty.Numeric.Integer32
import Liberty.Sorting.AbstractSorter

/-!
# Insertion in a sorted collection

`insert_index` of ABSTRACT_SORTER bisects the indices of a sorted collection, and `add` puts an
item where it says.  The indices are INTEGERs, of either sign, and `#//` rounds toward zero.
-/

namespace Liberty

/-! ## COLLECTION -/

namespace Collection

variable {α : Type}

/-- The collection with one more item at `index`, the items from there on one place further. -/
def inserted (c : Collection α) (element : α) (index : Int) : Collection α where
  lower := c.lower
  upper := c.upper + 1
  cell i := if i < index then c.cell i else if i = index then element else c.cell (i - 1)
  valid_bounds := by
    have := c.valid_bounds
    omega

def add (c : Collection α) (element : α) (index : Int) : Option (Collection α) :=
  if c.lower ≤ index ∧ index ≤ c.upper + 1 then some (c.inserted element index) else none

/-- The bounds and the count of the collection are INTEGERs. -/
structure HasIntegerBounds (c : Collection α) : Prop where
  least : -2147483648 ≤ c.lower
  lower_le : c.lower ≤ maximumInteger
  upper_le : c.upper ≤ maximumInteger
  count_le : c.count ≤ maximumInteger

end Collection

namespace AbstractSorter

variable {α : Type} (lt : α → α → Bool)

/-! ## The source -/

/-- `(min + max) #// 2` -/
def middle (min max : Int) : Int :=
  (wrap32 (min + max)).tdiv 2

def insertIndex (c : Collection α) (element : α) (fuel : Nat) : Option Int := do
  let (min, _) ← untilLoop (fun s : Int × Int => some (decide (s.1 = s.2)))
    (fun (min, max) => do
      let result := middle min max
      if lte lt (← c.item result) element then
        return (wrap32 (result + 1), max)
      else
        return (min, result))
    fuel (c.lower, wrap32 (c.upper + 1))
  return min

/-- `add` of the sorter. -/
def add (c : Collection α) (element : α) (fuel : Nat) : Option (Collection α) := do
  c.add element (← insertIndex lt c element fuel)

/-! ## The place of an item -/

/-- Every item before `i` is at most `element`, every other one is at least `element`. -/
structure Divides (c : Collection α) (element : α) (i : Int) : Prop where
  low : c.lower ≤ i
  high : i ≤ c.upper + 1
  before : ∀ k, c.lower ≤ k → k < i → Lte lt (c.cell k) element
  after : ∀ k, i ≤ k → k ≤ c.upper → Lte lt element (c.cell k)

/-- The index behind the items that are at most `element`. -/
def place (c : Collection α) (element : α) : Int :=
  c.lower + (List.range c.count.toNat).countP fun n : ℕ => lte lt (c.cell (c.lower + n)) element

/-- The bounds can be halved: their sum is an INTEGER, and they are not neighbours at or below
zero. -/
def Halves (min max : Int) : Prop :=
  (-2147483648 ≤ min + max ∧ min + max ≤ maximumInteger) ∧ (max = min + 1 → 0 < max)

/-- Halving the bounds towards `i` meets only bounds that can be halved. -/
inductive Bisects (i : Int) : Int → Int → Prop
  | found : Bisects i i i
  | right {min max : Int} (halves : Halves min max) (before : (min + max).tdiv 2 < i)
      (rest : Bisects i ((min + max).tdiv 2 + 1) max) : Bisects i min max
  | left {min max : Int} (halves : Halves min max) (after : i ≤ (min + max).tdiv 2)
      (rest : Bisects i min ((min + max).tdiv 2)) : Bisects i min max

/-- A test that holds up to some number holds just below the count of its numbers. -/
theorem lt_countP_range_iff {p : ℕ → Bool} {n : ℕ}
    (closed : ∀ i j, i ≤ j → j < n → p j = true → p i = true) {k : ℕ} (inside : k < n) :
    k < (List.range n).countP p ↔ p k = true := by
  induction n with
  | zero => exact absurd inside (Nat.not_lt_zero k)
  | succ n ih =>
    have most : (List.range n).countP p ≤ n :=
      List.countP_le_length.trans (List.length_range).le
    rw [List.range_succ, List.countP_append, List.countP_singleton]
    cases last : p n with
    | true =>
      have all : (List.range n).countP p = (List.range n).length :=
        List.countP_eq_length.mpr fun i member =>
          closed i n (List.mem_range.mp member).le (Nat.lt_succ_self n) last
      rw [List.length_range] at all
      rw [if_pos rfl, all]
      exact iff_of_true inside (closed k n (Nat.le_of_lt_succ inside) (Nat.lt_succ_self n) last)
    | false =>
      by_cases here : k = n
      · rw [here, last]
        exact iff_of_false (Nat.not_lt.mpr most) Bool.false_ne_true
      · exact ih (fun i j le less => closed i j le (less.trans (Nat.lt_succ_self n))) (by omega)

section Search

variable {lt} {c : Collection α} {element : α}

theorem lte_eq_true {x y : α} : lte lt x y = true ↔ Lte lt x y := by
  rw [lte, Bool.not_eq_true']
  exact Iff.rfl

/-- In a sorted collection an item is at most `element` just before the place of `element`. -/
theorem lte_iff_lt_place (order : StrictWeakOrder lt) (sorted : IsSorted lt c) (element : α)
    {k : Int} (low : c.lower ≤ k) (high : k ≤ c.upper) :
    lte lt (c.cell k) element = true ↔ k < place lt c element := by
  have count : c.count = c.upper - c.lower + 1 := rfl
  have pairs : Window.SortedOn (Lte lt) c.cell c.lower (c.upper + 1) :=
    order.sortedOn fun i low high => sorted i low (by omega)
  have closed : ∀ i j : ℕ, i ≤ j → j < c.count.toNat →
      lte lt (c.cell (c.lower + j)) element = true →
        lte lt (c.cell (c.lower + i)) element = true := by
    intro i j le less holds
    rcases Nat.eq_or_lt_of_le le with rfl | less'
    · exact holds
    · have ordered := pairs (c.lower + i) (c.lower + j) (by omega) (by omega) (by omega)
      exact lte_eq_true.mpr (order.lte_trans ordered (lte_eq_true.mp holds))
  have counted := lt_countP_range_iff closed (show (k - c.lower).toNat < c.count.toNat by omega)
  rw [show c.lower + ((k - c.lower).toNat : Int) = k by omega] at counted
  rw [← counted, place]
  omega

theorem place_inside (lt : α → α → Bool) (c : Collection α) (element : α) :
    c.lower ≤ place lt c element ∧ place lt c element ≤ c.upper + 1 := by
  have count : c.count = c.upper - c.lower + 1 := rfl
  have bounds := c.valid_bounds
  have most : (List.range c.count.toNat).countP
      (fun n : ℕ => lte lt (c.cell (c.lower + n)) element) ≤ c.count.toNat :=
    List.countP_le_length.trans (List.length_range).le
  unfold place
  omega

theorem divides_place (order : StrictWeakOrder lt) (sorted : IsSorted lt c) (element : α) :
    Divides lt c element (place lt c element) where
  low := (place_inside lt c element).1
  high := (place_inside lt c element).2
  before k low less := by
    have inside := (place_inside lt c element).2
    exact lte_eq_true.mp ((lte_iff_lt_place order sorted element low (by omega)).mpr less)
  after k le high := by
    have inside := (place_inside lt c element).1
    have fails := mt (lte_iff_lt_place order sorted element (by omega) high).mp
      (Int.not_lt.mpr le)
    rw [lte, Bool.not_eq_true', Bool.not_eq_false] at fails
    exact order.lte_of_lt fails

/-- An item put in its place keeps the collection sorted. -/
theorem isSorted_inserted (sorted : IsSorted lt c) {i : Int} (divides : Divides lt c element i) :
    IsSorted lt (c.inserted element i) := by
  intro k low high
  have low' : c.lower ≤ k := low
  have high' : k < c.upper + 1 := high
  have lower := divides.low
  have upper := divides.high
  change Lte lt (if k < i then c.cell k else if k = i then element else c.cell (k - 1))
    (if k + 1 < i then c.cell (k + 1) else if k + 1 = i then element else c.cell (k + 1 - 1))
  rcases lt_trichotomy (k + 1) i with less | here | more
  · rw [if_pos (by omega), if_pos less]
    exact sorted k low' (by omega)
  · rw [if_pos (by omega), if_neg (by omega), if_pos here]
    exact divides.before k low' (by omega)
  · rw [if_neg (show ¬k < i by omega), if_neg (show ¬k + 1 < i by omega),
      if_neg (show k + 1 ≠ i by omega), show k + 1 - 1 = k by omega]
    by_cases same : k = i
    · rw [if_pos same]
      exact divides.after k (by omega) (by omega)
    · rw [if_neg same]
      have ordered := sorted (k - 1) (by omega) (by omega)
      rwa [show k - 1 + 1 = k by omega] at ordered

/-! ## The search -/

/-- One round of the search. -/
def bisection (lt : α → α → Bool) (c : Collection α) (element : α) (s : Int × Int) :
    Option (Int × Int) := do
  let result := middle s.1 s.2
  if lte lt (← c.item result) element then
    return (wrap32 (result + 1), s.2)
  else
    return (s.1, result)

theorem insertIndex_eq (c : Collection α) (element : α) (fuel : Nat) :
    insertIndex lt c element fuel = (untilLoop (fun s : Int × Int => some (decide (s.1 = s.2)))
      (bisection lt c element) fuel (c.lower, wrap32 (c.upper + 1))).map Prod.fst := by
  change (untilLoop (fun s : Int × Int => some (decide (s.1 = s.2)))
    (bisection lt c element) fuel _).bind _ = _
  cases untilLoop (fun s : Int × Int => some (decide (s.1 = s.2)))
    (bisection lt c element) fuel (c.lower, wrap32 (c.upper + 1)) <;> rfl

/-- The bounds of a search for the place `i`. -/
structure Searches (c : Collection α) (i min max : Int) : Prop where
  lower_le : c.lower ≤ min
  min_le : min ≤ i
  le_max : i ≤ max
  max_le : max ≤ c.upper + 1

variable {i min max : Int}

/-- Bounds that can be halved have their middle from `min` on, before `max`. -/
theorem middle_inside (halves : Halves min max) (less : min < max) :
    middle min max = (min + max).tdiv 2 ∧ min ≤ middle min max ∧ middle min max < max := by
  obtain ⟨⟨low, high⟩, apart⟩ := halves
  have same : middle min max = (min + max).tdiv 2 := by
    unfold middle
    rw [wrap32_of_inRange low high]
  refine ⟨same, ?_⟩
  rw [same]
  rcases Int.le_total 0 (min + max) with nonneg | neg
  · rw [Int.tdiv_eq_ediv_of_nonneg nonneg]
    omega
  · have negated : (min + max).tdiv 2 = -((-(min + max)) / 2) := by
      rw [← Int.tdiv_eq_ediv_of_nonneg (show 0 ≤ -(min + max) by omega), Int.neg_tdiv, Int.neg_neg]
    omega

/-- A sum that is not an INTEGER comes out at an index that no item has. -/
theorem middle_outside (bounds : c.HasIntegerBounds) (search : Searches c i min max)
    (less : min < max) (outside : ¬(-2147483648 ≤ min + max ∧ min + max ≤ maximumInteger)) :
    ¬(c.lower ≤ middle min max ∧ middle min max ≤ c.upper) := by
  obtain ⟨least, -, most, count⟩ := bounds
  have lower := search.lower_le
  have upper := search.max_le
  unfold Collection.count maximumInteger at count
  unfold maximumInteger at most outside
  unfold middle wrap32
  rw [Int.bmod_def]
  rcases Int.lt_or_le (min + max) (-2147483648) with low | high
  · -- the sum comes out positive
    have wrapped : (min + max) % ((2 : ℕ) ^ 32 : ℕ) = min + max + 4294967296 := by omega
    rw [if_pos (by omega), wrapped,
      Int.tdiv_eq_ediv_of_nonneg (show 0 ≤ min + max + 4294967296 by omega)]
    omega
  · -- the sum comes out negative
    have wrapped : (min + max) % ((2 : ℕ) ^ 32 : ℕ) = min + max := by omega
    have negated : (min + max - ((2 : ℕ) ^ 32 : ℕ)).tdiv 2 =
        -((4294967296 - (min + max)) / 2) := by
      rw [← Int.tdiv_eq_ediv_of_nonneg (show 0 ≤ 4294967296 - (min + max) by omega),
        ← Int.neg_tdiv]
      exact congrArg (Int.tdiv · 2) (by omega)
    rw [if_neg (by omega), wrapped, negated]
    omega

theorem bisection_of_halves (order : StrictWeakOrder lt) (sorted : IsSorted lt c)
    (bounds : c.upper + 1 ≤ maximumInteger) (least : -2147483648 ≤ c.lower)
    (search : Searches c (place lt c element) min max) (less : min < max)
    (halves : Halves min max) :
    bisection lt c element (min, max) =
      some (if (min + max).tdiv 2 < place lt c element then ((min + max).tdiv 2 + 1, max)
        else (min, (min + max).tdiv 2)) := by
  obtain ⟨same, low, high⟩ := middle_inside halves less
  have lower := search.lower_le
  have upper := search.max_le
  have read : c.item (middle min max) = some (c.cell (middle min max)) :=
    if_pos ⟨by omega, by omega⟩
  have test := lte_iff_lt_place order sorted element
    (show c.lower ≤ middle min max by omega) (by omega)
  change (do
    if lte lt (← c.item (middle min max)) element then
      return (wrap32 (middle min max + 1), max)
    else
      return (min, middle min max)) = _
  rw [read, Option.bind_eq_bind, Option.bind_some]
  rw [same] at low high test ⊢
  by_cases before : (min + max).tdiv 2 < place lt c element
  · unfold maximumInteger at bounds
    rw [if_pos before, if_pos (test.mpr before), wrap32_of_inRange (by omega) (by omega)]
    rfl
  · rw [if_neg before, if_neg (mt test.mp before)]
    rfl

/-- Bounds that are neighbours at or below zero have the greater one as their middle. -/
theorem middle_neighbours (least : -2147483648 ≤ min + max) (next : max = min + 1)
    (neg : max ≤ 0) : middle min max = max := by
  have same : middle min max = (min + max).tdiv 2 := by
    unfold middle
    rw [wrap32_of_inRange least (by omega)]
  have negated : (min + max).tdiv 2 = -((-(min + max)) / 2) := by
    rw [← Int.tdiv_eq_ediv_of_nonneg (show 0 ≤ -(min + max) by omega), Int.neg_tdiv, Int.neg_neg]
  omega

/-- Where the bounds cannot be halved, a round does not return or changes nothing. -/
theorem bisection_of_not_halves (order : StrictWeakOrder lt) (sorted : IsSorted lt c)
    (bounds : c.HasIntegerBounds) (search : Searches c (place lt c element) min max)
    (less : min < max) (unfit : ¬Halves min max) :
    bisection lt c element (min, max) = none ∨
      bisection lt c element (min, max) = some (min, max) := by
  change (do
    if lte lt (← c.item (middle min max)) element then
      return (wrap32 (middle min max + 1), max)
    else
      return (min, middle min max)) = none ∨ (do
    if lte lt (← c.item (middle min max)) element then
      return (wrap32 (middle min max + 1), max)
    else
      return (min, middle min max)) = _
  by_cases inside : c.lower ≤ middle min max ∧ middle min max ≤ c.upper
  · right
    have fits := mt (middle_outside bounds search less) (not_not.mpr inside)
    rw [not_not] at fits
    obtain ⟨next, neg⟩ := Classical.not_imp.mp fun apart => unfit ⟨fits, apart⟩
    have same := middle_neighbours fits.1 next (Int.not_lt.mp neg)
    have test := lte_iff_lt_place order sorted element inside.1 inside.2
    have le := search.le_max
    have fails := mt test.mp (by omega)
    rw [show c.item (middle min max) = some (c.cell (middle min max)) from if_pos inside,
      Option.bind_eq_bind, Option.bind_some, if_neg fails, same]
    rfl
  · left
    rw [show c.item (middle min max) = none from if_neg inside]
    rfl

theorem Searches.round (search : Searches c i min max) (less : min < max)
    (halves : Halves min max) :
    ((min + max).tdiv 2 < i → Searches c i ((min + max).tdiv 2 + 1) max) ∧
      (i ≤ (min + max).tdiv 2 → Searches c i min ((min + max).tdiv 2)) := by
  obtain ⟨same, low, high⟩ := middle_inside halves less
  obtain ⟨lower, min_le, le_max, upper⟩ := search
  exact ⟨fun before => ⟨by omega, by omega, le_max, upper⟩,
    fun after => ⟨lower, min_le, by omega, by omega⟩⟩

theorem bisects_of_eq (search : Searches c i min max) (ended : min = max) :
    Bisects i min max := by
  obtain ⟨lower, low, high, upper⟩ := search
  obtain rfl : min = i := by omega
  rw [← ended]
  exact .found

/-- A search that returns has only met bounds that can be halved. -/
theorem bisects_of_search (order : StrictWeakOrder lt) (sorted : IsSorted lt c)
    (bounds : c.HasIntegerBounds) (most : c.upper + 1 ≤ maximumInteger) (fuel : Nat)
    (search : Searches c (place lt c element) min max) {s : Int × Int}
    (run : untilLoop (fun s : Int × Int => some (decide (s.1 = s.2)))
      (bisection lt c element) fuel (min, max) = some s) :
    Bisects (place lt c element) min max := by
  induction fuel generalizing min max with
  | zero =>
    by_cases ended : min = max
    · exact bisects_of_eq search ended
    · simp [untilLoop, ended] at run
  | succ fuel ih =>
    by_cases ended : min = max
    · exact bisects_of_eq search ended
    · have less : min < max := by
        have := search.min_le
        have := search.le_max
        omega
      have run : (bisection lt c element (min, max)).bind (untilLoop
          (fun s : Int × Int => some (decide (s.1 = s.2))) (bisection lt c element) fuel) =
            some s := by
        simpa [untilLoop, ended] using run
      by_cases halves : Halves min max
      · rw [bisection_of_halves order sorted most bounds.least search less halves,
          Option.bind_some] at run
        by_cases before : (min + max).tdiv 2 < place lt c element
        · rw [if_pos before] at run
          exact .right halves before (ih ((search.round less halves).1 before) run)
        · rw [if_neg before] at run
          have after := Int.not_lt.mp before
          exact .left halves after (ih ((search.round less halves).2 after) run)
      · rcases bisection_of_not_halves order sorted bounds search less halves with
          fails | same
        · rw [fails] at run
          cases run
        · rw [same] at run
          exact ih search run

theorem completes_of_round {s s' : Int × Int} (going : min ≠ max)
    (round : bisection lt c element (min, max) = some s)
    (rest : Completes (fun fuel => untilLoop (fun s : Int × Int => some (decide (s.1 = s.2)))
      (bisection lt c element) fuel s) s') :
    Completes (fun fuel => untilLoop (fun s : Int × Int => some (decide (s.1 = s.2)))
      (bisection lt c element) fuel (min, max)) s' := by
  refine .of_succ (rest.congr fun fuel => ?_)
  simp [untilLoop, going, round]

/-- The search returns the place of the item when it only meets bounds that can be halved. -/
theorem completes_search (order : StrictWeakOrder lt) (sorted : IsSorted lt c)
    (bounds : c.HasIntegerBounds) (most : c.upper + 1 ≤ maximumInteger)
    (search : Searches c (place lt c element) min max)
    (bisects : Bisects (place lt c element) min max) :
    Completes (fun fuel => untilLoop (fun s : Int × Int => some (decide (s.1 = s.2)))
      (bisection lt c element) fuel (min, max)) (place lt c element, place lt c element) := by
  have stopped : ∀ {min max : Int}, Searches c (place lt c element) min max → min = max →
      Completes (fun fuel => untilLoop (fun s : Int × Int => some (decide (s.1 = s.2)))
        (bisection lt c element) fuel (min, max)) (place lt c element, place lt c element) := by
    intro min max search ended
    have low := search.min_le
    have high := search.le_max
    have here : min = place lt c element := by omega
    rw [← ended, ← here]
    exact .of_eq fun _ => untilLoop_stopped (congrArg some (decide_eq_true rfl))
  induction bisects with
  | found => exact stopped search rfl
  | @right min max halves before rest ih =>
    rcases lt_or_eq_of_le (search.min_le.trans search.le_max) with less | ended
    · have round := bisection_of_halves order sorted most bounds.least search less halves
      rw [if_pos before] at round
      exact completes_of_round less.ne round (ih ((search.round less halves).1 before))
    · exact stopped search ended
  | @left min max halves after rest ih =>
    rcases lt_or_eq_of_le (search.min_le.trans search.le_max) with less | ended
    · have round := bisection_of_halves order sorted most bounds.least search less halves
      rw [if_neg (Int.not_lt.mpr after)] at round
      exact completes_of_round less.ne round (ih ((search.round less halves).2 after))
    · exact stopped search ended

/-- Where `upper + 1` is not an INTEGER the first round does not return. -/
theorem insertIndex_overflow (bounds : c.HasIntegerBounds) (most : ¬c.upper + 1 ≤ maximumInteger)
    (fuel : Nat) : insertIndex lt c element fuel = none := by
  obtain ⟨least, lower, upper, count⟩ := bounds
  unfold Collection.count maximumInteger at count
  unfold maximumInteger at lower upper most
  have last : c.upper = 2147483647 := by omega
  have wrapped : wrap32 (c.upper + 1) = -2147483648 := by
    rw [last]
    rfl
  have negated : (c.lower + -2147483648).tdiv 2 = -((2147483648 - c.lower) / 2) := by
    rw [← Int.tdiv_eq_ediv_of_nonneg (show 0 ≤ 2147483648 - c.lower by omega), ← Int.neg_tdiv]
    exact congrArg (Int.tdiv · 2) (by omega)
  have outside : c.item (middle c.lower (-2147483648)) = none := by
    refine if_neg fun inside => ?_
    have low := inside.1
    unfold middle at low
    rw [wrap32_of_inRange (by omega) (by omega), negated] at low
    omega
  have fails : bisection lt c element (c.lower, -2147483648) = none := by
    unfold bisection
    dsimp only
    rw [outside]
    rfl
  have going : c.lower ≠ -2147483648 := by omega
  rw [insertIndex_eq, wrapped]
  cases fuel <;> simp [untilLoop, going, fails]

theorem searches_start (c : Collection α) (element : α) :
    Searches c (place lt c element) c.lower (c.upper + 1) :=
  ⟨Int.le_refl _, (place_inside lt c element).1, (place_inside lt c element).2, Int.le_refl _⟩

theorem insertIndex_eq_search (bounds : c.HasIntegerBounds) (most : c.upper + 1 ≤ maximumInteger)
    (fuel : Nat) :
    insertIndex lt c element fuel = (untilLoop (fun s : Int × Int => some (decide (s.1 = s.2)))
      (bisection lt c element) fuel (c.lower, c.upper + 1)).map Prod.fst := by
  have least := bounds.least
  have valid := c.valid_bounds
  rw [insertIndex_eq, wrap32_of_inRange (by omega) most]

theorem completes_place (order : StrictWeakOrder lt) (sorted : IsSorted lt c)
    (bounds : c.HasIntegerBounds) (most : c.upper + 1 ≤ maximumInteger)
    (bisects : Bisects (place lt c element) c.lower (c.upper + 1)) :
    Completes (insertIndex lt c element) (place lt c element) := by
  obtain ⟨enough, run⟩ :=
    completes_search order sorted bounds most (searches_start c element) bisects
  refine ⟨enough, fun fuel le => ?_⟩
  have found := run fuel le
  dsimp only at found
  rw [insertIndex_eq_search bounds most, found]
  rfl

/-- `insert_index` that returns has only met bounds that can be halved. -/
theorem bisects_of_insertIndex (order : StrictWeakOrder lt) (sorted : IsSorted lt c)
    (bounds : c.HasIntegerBounds) {fuel : Nat} (run : insertIndex lt c element fuel = some i) :
    c.upper + 1 ≤ maximumInteger ∧ Bisects (place lt c element) c.lower (c.upper + 1) := by
  by_cases most : c.upper + 1 ≤ maximumInteger
  · rw [insertIndex_eq_search bounds most] at run
    obtain ⟨s, run, -⟩ := Option.map_eq_some_iff.mp run
    exact ⟨most, bisects_of_search order sorted bounds most fuel (searches_start c element) run⟩
  · rw [insertIndex_overflow bounds most] at run
    cases run

/-- What `insert_index` and `add` do when the search only meets bounds that can be halved. -/
theorem completes_insertIndex (order : StrictWeakOrder lt) (sorted : IsSorted lt c)
    (bounds : c.HasIntegerBounds) (most : c.upper + 1 ≤ maximumInteger)
    (bisects : Bisects (place lt c element) c.lower (c.upper + 1)) :
    ∃ i d, Completes (insertIndex lt c element) i ∧ Divides lt c element i ∧
      Completes (add lt c element) d ∧ d = c.inserted element i ∧ IsSorted lt d := by
  have index := completes_place order sorted bounds most bisects
  have divides := divides_place order sorted element
  refine ⟨_, _, index, divides, index.bind (.of_eq fun fuel => ?_), rfl,
    isSorted_inserted sorted divides⟩
  exact if_pos ⟨divides.low, divides.high⟩

/-- Bounds that are not negative can be halved down to any place between them. -/
theorem bisects_of_nonneg (low : 0 ≤ min) (min_le : min ≤ i) (le_max : i ≤ max)
    (high : max + max ≤ maximumInteger) : Bisects i min max := by
  obtain ⟨width, total⟩ : ∃ n : ℕ, max - min = n := ⟨(max - min).toNat, by omega⟩
  induction width using Nat.strongRecOn generalizing min max with
  | ind width ih =>
    rcases lt_or_eq_of_le (min_le.trans le_max) with less | ended
    · have halved : (min + max).tdiv 2 = (min + max) / 2 :=
        Int.tdiv_eq_ediv_of_nonneg (by omega)
      have halves : Halves min max := ⟨⟨by omega, by omega⟩, fun _ => by omega⟩
      by_cases before : (min + max).tdiv 2 < i
      · refine .right halves before ?_
        exact ih (max - ((min + max) / 2 + 1)).toNat (by omega) (by omega) (by omega) le_max high
          (by omega)
      · have after := Int.not_lt.mp before
        refine .left halves after ?_
        exact ih ((min + max) / 2 - min).toNat (by omega) low min_le after (by omega) (by omega)
    · obtain rfl : min = i := by omega
      rw [← ended]
      exact .found

end Search

/-- **The bisection of a sorted collection.**  `insert_index` returns the place of the element,
where `add` keeps the collection sorted, exactly when halving the bounds of the collection towards
that place comes neither to neighbours at or below zero nor to a sum that is not an INTEGER. -/
theorem insertIndex_iff (α : Type) (lt : α → α → Bool) (order : StrictWeakOrder lt)
    (c : Collection α) (sorted : IsSorted lt c) (bounds : c.HasIntegerBounds) (element : α) :
    (∃ i d, Completes (insertIndex lt c element) i ∧ Divides lt c element i ∧
        Completes (add lt c element) d ∧ d = c.inserted element i ∧ IsSorted lt d) ↔
      c.upper + 1 ≤ maximumInteger ∧ Bisects (place lt c element) c.lower (c.upper + 1) := by
  refine ⟨fun returned => ?_, fun held => completes_insertIndex order sorted bounds held.1 held.2⟩
  obtain ⟨i, d, completes, -⟩ := returned
  obtain ⟨fuel, run⟩ := completes.returns
  exact bisects_of_insertIndex order sorted bounds run

/-- A collection before index 0, and an element that goes behind its items. -/
theorem insertIndex_iff_negative :
    let c : Collection ℤ := ⟨-4, -2, fun i => i, by decide⟩
    ∃ i d, Completes (insertIndex (fun x y : ℤ => decide (x < y)) c 0) i ∧
      Completes (add (fun x y : ℤ => decide (x < y)) c 0) d ∧ i = -1 := by
  intro c
  have order : StrictWeakOrder fun x y : ℤ => decide (x < y) :=
    ⟨fun x => by simp, fun x y z => by simp only [decide_eq_true_eq]; omega,
      fun x y z => by simp only [decide_eq_false_iff_not]; omega⟩
  have sorted : IsSorted (fun x y : ℤ => decide (x < y)) c := fun i low high => by
    refine decide_eq_false ?_
    change ¬i + 1 < i
    omega
  have bisects : Bisects (place (fun x y : ℤ => decide (x < y)) c 0) c.lower (c.upper + 1) :=
    .right ⟨by decide, by decide⟩ (by decide) .found
  obtain ⟨i, d, index, divides, added, -⟩ :=
    (insertIndex_iff ℤ _ order c sorted ⟨by decide, by decide, by decide, by decide⟩ 0).mpr
      ⟨by decide, bisects⟩
  refine ⟨i, d, index, added, ?_⟩
  have high := divides.high
  have behind := divides.after
  by_contra other
  have last := decide_eq_false_iff_not.mp (behind i (le_refl i) (by
    change i ≤ -2
    change i ≤ -2 + 1 at high
    omega))
  change ¬i < 0 at last
  change i ≤ -2 + 1 at high
  omega

/-- The search for the place of 1 before two items at -2 and -1 comes to the bounds -2 and -1, and
stays there. -/
theorem not_insertIndex_negative :
    ∃ c : Collection ℤ, IsSorted (fun x y : ℤ => decide (x < y)) c ∧ c.HasIntegerBounds ∧
      ¬∃ i, Completes (insertIndex (fun x y : ℤ => decide (x < y)) c 1) i := by
  refine ⟨⟨-2, -1, fun i => 7 + i, by decide⟩, fun i low high => ?_,
    ⟨by decide, by decide, by decide, by decide⟩, fun returned => ?_⟩
  · refine decide_eq_false ?_
    change ¬7 + (i + 1) < 7 + i
    omega
  · obtain ⟨i, completes⟩ := returned
    obtain ⟨fuel, run⟩ := completes.returns
    rw [insertIndex_eq] at run
    have stays := @untilLoop_eq_none _ (fun s : Int × Int => some (decide (s.1 = s.2)))
      (bisection (fun x y : ℤ => decide (x < y)) ⟨-2, -1, fun i => 7 + i, by decide⟩ 1)
      (fun s => s = (-2, 0) ∨ s = (-2, -1)) (-2, 0) (.inl rfl)
      (fun s inv => by rcases inv with rfl | rfl <;> decide)
      (fun s s' inv run => by
        rcases inv with rfl | rfl
        · exact .inr (Option.some.inj run).symm
        · exact .inr (Option.some.inj run).symm) fuel
    have none_run := congrArg (Option.map Prod.fst) stays
    cases run.symm.trans none_run

end AbstractSorter

end Liberty
