import Liberty.Sorting.AbstractSorter
import Mathlib.Tactic.Ring
import Mathlib.Tactic.NormNum
import Mathlib.Tactic.Positivity
import Mathlib.Algebra.Order.Ring.Int

/-!
# Von Neuman sort

Each line merges the sorted blocks of one collection, two by two, in the other one.  The
collection to sort and its twin take turns, and their first roles are chosen so that the
last line is written in the collection itself.
-/

namespace Liberty

namespace AbstractSorter

variable {α : Type} (lt : α → α → Bool)

/-! ## The source -/

/-- One comparison of a merge, on `i1`, `i2`, `i` and `dest`. -/
def mergeRound (src : Collection α) (s : Int × Int × Int × Collection α) :
    Option (Int × Int × Int × Collection α) := do
  let (i1, i2, i, dest) := s
  if lte lt (← src.item i1) (← src.item i2) then
    return (i1 + 1, i2, i + 1, ← dest.put (← src.item i1) i)
  else
    return (i1, i2 + 1, i + 1, ← dest.put (← src.item i2) i)

/-- The items of `src` from `j` on, before `jmax`, copied to `dest` from `i` on. -/
def copyRest (src : Collection α) (j jmax i : Int) (dest : Collection α) :
    Option (Collection α) := do
  let (_, _, dest) ← untilLoop (fun s => some (decide (s.1 ≥ jmax)))
    (fun (j, i, dest) => do return (j + 1, i + 1, ← dest.put (← src.item j) i))
    (jmax - j).toNat (j, i, dest)
  return dest

def vonNeumanInnerSort (src dest : Collection α) (sg1 count imax : Int) :
    Option (Collection α) := do
  let i2 := sg1 + count
  let i1max := min i2 imax
  let i2max := min (i2 + count) imax
  let (i1, i2, i, dest) ← untilLoop
    (fun s => some (decide (s.1 ≥ i1max) || decide (s.2.1 ≥ i2max)))
    (mergeRound lt src) (2 * count).toNat (sg1, i2, sg1, dest)
  if i1 ≥ i1max then
    copyRest src i2 i2max i dest
  else
    copyRest src i1 i1max i dest

def vonNeumanLine (src dest : Collection α) (count dCount lower imax : Int) :
    Option (Collection α) := do
  let (_, dest) ← untilLoop (fun s => some (decide (s.1 ≥ imax)))
    (fun (sg1, dest) => do
      return (sg1 + dCount, ← vonNeumanInnerSort lt src dest sg1 count imax))
    (imax - lower).toNat (lower, dest)
  return dest

/-- Both collections, by their roles, and whether `dest` is the one to sort. -/
structure Lines (α : Type) where
  src : Collection α
  dest : Collection α
  destIsC : Bool
  count : Int

/-- The roles are exchanged, and a line is written. -/
def linesRound (lower imax : Int) (s : Lines α) : Option (Lines α) := do
  let dCount := s.count * 2
  let dest ← vonNeumanLine lt s.dest s.src s.count dCount lower imax
  return ⟨s.dest, dest, !s.destIsC, dCount⟩

section VonNeumanSort

variable {lt} {src dest₀ dest c : Collection α} {a mid m e i1 i2 i lower imax count : ℤ}

/-! ## Merges -/

/-- The items of `src` from `a` before `i1` and from `mid` before `i2` are merged in
`dest`; those that remain, before `m` and before `e`, are not less. -/
structure Merged (lt : α → α → Bool) (src dest₀ : Collection α) (a mid m e i1 i2 i : ℤ)
    (dest : Collection α) : Prop where
  lower_eq : dest.lower = dest₀.lower
  upper_eq : dest.upper = dest₀.upper
  i_eq : i = i1 + i2 - mid
  low1 : a ≤ i1
  low2 : mid ≤ i2
  frame : ∀ k, ¬(a ≤ k ∧ k < i) → dest.cell k = dest₀.cell k
  window_eq : Window.window dest.cell a i =
    Window.window src.cell a i1 + Window.window src.cell mid i2
  sorted : Window.SortedOn (Lte lt) dest.cell a i
  left : ∀ k l, a ≤ k → k < i → i1 ≤ l → l < m → Lte lt (dest.cell k) (src.cell l)
  right : ∀ k l, a ≤ k → k < i → i2 ≤ l → l < e → Lte lt (dest.cell k) (src.cell l)

theorem Merged.start : Merged lt src dest a mid m e a mid a dest where
  lower_eq := rfl
  upper_eq := rfl
  i_eq := by omega
  low1 := le_rfl
  low2 := le_rfl
  frame _ _ := rfl
  window_eq := by
    rw [Window.window_of_le dest.cell le_rfl, Window.window_of_le src.cell le_rfl,
      Window.window_of_le src.cell le_rfl, add_zero]
  sorted := Window.sortedOn_of_le dest.cell (by omega)
  left k l _ _ := by omega
  right k l _ _ := by omega

theorem window_set (d : Collection α) (x : α) (le : a ≤ i) :
    Window.window (d.set x i).cell a (i + 1) = Window.window d.cell a i + {x} := by
  have same : Window.window (d.set x i).cell a i = Window.window d.cell a i := by
    apply Window.window_congr
    intro k _ high
    exact if_neg (by omega)
  rw [Window.window_succ _ le, same]
  exact congrArg _ (congrArg _ (if_pos rfl))

theorem cell_set_of_lt {d : Collection α} {x : α} {k : ℤ} (below : k < i) :
    (d.set x i).cell k = d.cell k :=
  if_neg (by omega)

theorem sortedOn_set {d : Collection α} {x : α}
    (sorted : Window.SortedOn (Lte lt) d.cell a i)
    (last : ∀ k, a ≤ k → k < i → Lte lt (d.cell k) x) :
    Window.SortedOn (Lte lt) (d.set x i).cell a (i + 1) := by
  intro p q low less high
  rw [cell_set_of_lt (show p < i by omega)]
  by_cases here : q = i
  · rw [here, show (d.set x i).cell i = x from if_pos rfl]
    exact last p low (by omega)
  · rw [cell_set_of_lt (show q < i by omega)]
    exact sorted p q low less (by omega)

theorem Merged.takeLeft (h : Merged lt src dest₀ a mid m e i1 i2 i dest)
    (inside : i1 < m) (sorted : Window.SortedOn (Lte lt) src.cell a m)
    (least : ∀ l, i2 ≤ l → l < e → Lte lt (src.cell i1) (src.cell l)) :
    Merged lt src dest₀ a mid m e (i1 + 1) i2 (i + 1) (dest.set (src.cell i1) i) := by
  obtain ⟨lower_eq, upper_eq, i_eq, low1, low2, frame, window_eq, order, left, right⟩ := h
  refine ⟨lower_eq, upper_eq, by omega, by omega, low2, fun k outside => ?_, ?_, ?_, ?_, ?_⟩
  · rw [← frame k (by omega)]
    exact if_neg (by omega)
  · rw [window_set dest _ (by omega), window_eq, Window.window_succ _ low1,
      add_right_comm]
  · exact sortedOn_set order fun k low high => left k i1 low high le_rfl inside
  · intro k l lowK highK lowL highL
    by_cases here : k = i
    · rw [here, show (dest.set (src.cell i1) i).cell i = src.cell i1 from if_pos rfl]
      exact sorted i1 l low1 (by omega) highL
    · rw [cell_set_of_lt (by omega)]
      exact left k l lowK (by omega) (by omega) highL
  · intro k l lowK highK lowL highL
    by_cases here : k = i
    · rw [here, show (dest.set (src.cell i1) i).cell i = src.cell i1 from if_pos rfl]
      exact least l lowL highL
    · rw [cell_set_of_lt (by omega)]
      exact right k l lowK (by omega) lowL highL

theorem Merged.takeRight (h : Merged lt src dest₀ a mid m e i1 i2 i dest)
    (inside : i2 < e) (sorted : Window.SortedOn (Lte lt) src.cell mid e)
    (least : ∀ l, i1 ≤ l → l < m → Lte lt (src.cell i2) (src.cell l)) :
    Merged lt src dest₀ a mid m e i1 (i2 + 1) (i + 1) (dest.set (src.cell i2) i) := by
  obtain ⟨lower_eq, upper_eq, i_eq, low1, low2, frame, window_eq, order, left, right⟩ := h
  refine ⟨lower_eq, upper_eq, by omega, low1, by omega, fun k outside => ?_, ?_, ?_, ?_, ?_⟩
  · rw [← frame k (by omega)]
    exact if_neg (by omega)
  · rw [window_set dest _ (by omega), window_eq, Window.window_succ src.cell low2, add_assoc]
  · exact sortedOn_set order fun k low high => right k i2 low high le_rfl inside
  · intro k l lowK highK lowL highL
    by_cases here : k = i
    · rw [here, show (dest.set (src.cell i2) i).cell i = src.cell i2 from if_pos rfl]
      exact least l lowL highL
    · rw [cell_set_of_lt (by omega)]
      exact left k l lowK (by omega) lowL highL
  · intro k l lowK highK lowL highL
    by_cases here : k = i
    · rw [here, show (dest.set (src.cell i2) i).cell i = src.cell i2 from if_pos rfl]
      exact sorted i2 l low2 (by omega) highL
    · rw [cell_set_of_lt (by omega)]
      exact right k l lowK (by omega) (by omega) highL

/-- The blocks that a merge reads and the one that it writes are inside. -/
structure Blocks (lt : α → α → Bool) (src dest₀ : Collection α) (a mid m e : ℤ) : Prop where
  lower_eq : dest₀.lower = src.lower
  upper_eq : dest₀.upper = src.upper
  low : src.lower ≤ a
  a_le : a ≤ m
  mid_le : m ≤ mid
  m_le : m ≤ src.upper + 1
  e_le : e ≤ src.upper + 1
  left : Window.SortedOn (Lte lt) src.cell a m
  right : Window.SortedOn (Lte lt) src.cell mid e

theorem Merged.returns_copyLeft (h : Merged lt src dest₀ a mid m e i1 i2 i dest)
    (blocks : Blocks lt src dest₀ a mid m e) (le : i1 ≤ m) (ended : e ≤ i2)
    (high : i2 ≤ max e mid) :
    Returns (copyRest src i1 m i dest) fun dest =>
      Merged lt src dest₀ a mid m e m i2 (m + i2 - mid) dest := by
  obtain ⟨hl, hu, low, -, mid_le, m_le, e_le, left, right⟩ := blocks
  unfold copyRest
  rw [Returns.bind_iff]
  refine returns_untilLoop
    (fun s => s.1 ≤ m ∧ Merged lt src dest₀ a mid m e s.1 i2 s.2.1 s.2.2)
    (fun s => (m - s.1).toNat) ⟨le, h⟩ le_rfl ?_
  intro (j, i, d) ⟨inside, inv⟩
  dsimp only at inside inv ⊢
  have index := inv.i_eq
  have low1 := inv.low1
  have low2 := inv.low2
  have lower := inv.lower_eq
  have upper := inv.upper_eq
  rw [Returns.some_iff]
  split
  · rename_i stopped
    rw [decide_eq_true_eq] at stopped
    obtain rfl : j = m := by omega
    rw [Returns.pure_iff, ← index]
    exact inv
  · rename_i going
    rw [decide_eq_true_eq] at going
    simp only [Returns.bind_iff, Collection.returns_item, Collection.returns_put,
      Returns.pure_iff]
    refine ⟨by omega, by omega, ⟨by omega, ?_⟩, by omega⟩
    exact inv.takeLeft (by omega) left fun l _ _ => by omega

theorem Merged.returns_copyRight (h : Merged lt src dest₀ a mid m e i1 i2 i dest)
    (blocks : Blocks lt src dest₀ a mid m e) (ended : i1 = m) (high : i2 ≤ max e mid) :
    Returns (copyRest src i2 e i dest) fun dest =>
      Merged lt src dest₀ a mid m e m (max e mid) (m + max e mid - mid) dest := by
  obtain ⟨hl, hu, low, a_le, mid_le, m_le, e_le, left, right⟩ := blocks
  subst ended
  unfold copyRest
  rw [Returns.bind_iff]
  refine returns_untilLoop
    (fun s => s.1 ≤ max e mid ∧ Merged lt src dest₀ a mid i1 e i1 s.1 s.2.1 s.2.2)
    (fun s => (e - s.1).toNat) ⟨high, h⟩ le_rfl ?_
  intro (j, i, d) ⟨inside, inv⟩
  dsimp only at inside inv ⊢
  have index := inv.i_eq
  have low2 := inv.low2
  have lower := inv.lower_eq
  have upper := inv.upper_eq
  rw [Returns.some_iff]
  split
  · rename_i stopped
    rw [decide_eq_true_eq] at stopped
    obtain rfl : j = max e mid := by omega
    rw [Returns.pure_iff, ← index]
    exact inv
  · rename_i going
    rw [decide_eq_true_eq] at going
    simp only [Returns.bind_iff, Collection.returns_item, Collection.returns_put,
      Returns.pure_iff]
    refine ⟨by omega, by omega, ⟨by omega, ?_⟩, by omega⟩
    exact inv.takeRight (by omega) right fun l _ _ => by omega

theorem Merged.returns_round (order : StrictWeakOrder lt)
    (h : Merged lt src dest₀ a mid m e i1 i2 i dest)
    (blocks : Blocks lt src dest₀ a mid m e) (inside1 : i1 < m) (inside2 : i2 < e) :
    Returns (mergeRound lt src (i1, i2, i, dest)) fun (j1, j2, j, dest) =>
      Merged lt src dest₀ a mid m e j1 j2 j dest ∧ j1 ≤ m ∧ j2 ≤ e ∧
        j1 + j2 = i1 + i2 + 1 := by
  obtain ⟨hl, hu, low, a_le, mid_le, m_le, e_le, left, right⟩ := blocks
  have index := h.i_eq
  have low1 := h.low1
  have low2 := h.low2
  have lower := h.lower_eq
  have upper := h.upper_eq
  unfold mergeRound
  simp only [Returns.bind_iff, Collection.returns_item]
  refine ⟨by omega, by omega, ?_⟩
  split
  · rename_i first
    rw [lte, Bool.not_eq_true'] at first
    simp only [Returns.bind_iff, Collection.returns_item, Collection.returns_put,
      Returns.pure_iff]
    refine ⟨by omega, by omega, h.takeLeft inside1 left ?_, by omega, by omega, by omega⟩
    intro l lowL highL
    by_cases here : l = i2
    · rw [here]
      exact first
    · exact order.lte_trans first (right i2 l low2 (by omega) highL)
  · rename_i second
    rw [lte, Bool.not_eq_true', Bool.not_eq_false] at second
    simp only [Returns.bind_iff, Collection.returns_item, Collection.returns_put,
      Returns.pure_iff]
    refine ⟨by omega, by omega, h.takeRight inside2 right ?_, by omega, by omega, by omega⟩
    intro l lowL highL
    have less := order.lte_of_lt second
    by_cases here : l = i1
    · rw [here]
      exact less
    · exact order.lte_trans less (left i1 l low1 (by omega) highL)

/-- What a merge leaves: the block from `a` on, before `e`, is sorted and rearranged. -/
structure Merge (lt : α → α → Bool) (src dest₀ : Collection α) (a e : ℤ)
    (dest : Collection α) : Prop where
  lower_eq : dest.lower = dest₀.lower
  upper_eq : dest.upper = dest₀.upper
  frame : ∀ k, ¬(a ≤ k ∧ k < e) → dest.cell k = dest₀.cell k
  window_eq : Window.window dest.cell a e = Window.window src.cell a e
  sorted : Window.SortedOn (Lte lt) dest.cell a e

theorem returns_vonNeumanInnerSort (order : StrictWeakOrder lt)
    (lower_eq : dest₀.lower = src.lower) (upper_eq : dest₀.upper = src.upper)
    (low : src.lower ≤ a) (inside : a < src.upper + 1) (positive : 1 ≤ count)
    (left : Window.SortedOn (Lte lt) src.cell a (min (a + count) (src.upper + 1)))
    (right : Window.SortedOn (Lte lt) src.cell (a + count)
      (min (a + count + count) (src.upper + 1))) :
    Returns (vonNeumanInnerSort lt src dest₀ a count (src.upper + 1))
      (Merge lt src dest₀ a (min (a + count + count) (src.upper + 1))) := by
  have blocks : Blocks lt src dest₀ a (a + count) (min (a + count) (src.upper + 1))
      (min (a + count + count) (src.upper + 1)) :=
    ⟨lower_eq, upper_eq, low, by omega, by omega, by omega, by omega, left, right⟩
  unfold vonNeumanInnerSort
  rw [Returns.bind_iff]
  -- the rest of the merge, whichever block it comes from
  have finish : ∀ d, Merged lt src dest₀ a (a + count) (min (a + count) (src.upper + 1))
      (min (a + count + count) (src.upper + 1)) (min (a + count) (src.upper + 1))
      (max (min (a + count + count) (src.upper + 1)) (a + count))
      (min (a + count) (src.upper + 1) +
        max (min (a + count + count) (src.upper + 1)) (a + count) - (a + count)) d →
      Merge lt src dest₀ a (min (a + count + count) (src.upper + 1)) d := by
    intro d merged
    rw [show min (a + count) (src.upper + 1) +
      max (min (a + count + count) (src.upper + 1)) (a + count) - (a + count) =
        min (a + count + count) (src.upper + 1) by omega] at merged
    refine ⟨merged.lower_eq, merged.upper_eq, merged.frame, ?_, merged.sorted⟩
    rw [merged.window_eq]
    by_cases short : src.upper + 1 ≤ a + count
    · rw [Window.window_of_le src.cell (show max (min (a + count + count) (src.upper + 1))
        (a + count) ≤ a + count by omega), add_zero]
      congr 1
      omega
    · rw [show max (min (a + count + count) (src.upper + 1)) (a + count) =
        min (a + count + count) (src.upper + 1) by omega,
        show min (a + count) (src.upper + 1) = a + count by omega]
      exact Window.window_add src.cell (by omega) (by omega)
  refine returns_untilLoop
    (fun s => Merged lt src dest₀ a (a + count) (min (a + count) (src.upper + 1))
      (min (a + count + count) (src.upper + 1)) s.1 s.2.1 s.2.2.1 s.2.2.2 ∧
      s.1 ≤ min (a + count) (src.upper + 1) ∧
      s.2.1 ≤ max (min (a + count + count) (src.upper + 1)) (a + count))
    (fun s => (min (a + count) (src.upper + 1) - s.1).toNat +
      (min (a + count + count) (src.upper + 1) - s.2.1).toNat)
    ⟨Merged.start, by dsimp only; omega, by dsimp only; omega⟩ (by dsimp only; omega) ?_
  intro (i1, i2, i, d) ⟨inv, le1, le2⟩
  dsimp only at inv le1 le2 ⊢
  rw [Returns.some_iff]
  split
  · rename_i stopped
    rw [Bool.or_eq_true, decide_eq_true_eq, decide_eq_true_eq] at stopped
    split
    · rename_i ended
      exact (inv.returns_copyRight blocks (by omega) le2).mono finish
    · rename_i notEnded
      have low2 := inv.low2
      refine (inv.returns_copyLeft blocks le1 (by omega) le2).mono fun d merged => finish d ?_
      rwa [show i2 = max (min (a + count + count) (src.upper + 1)) (a + count) by omega]
        at merged
  · rename_i going
    rw [Bool.or_eq_true, decide_eq_true_eq, decide_eq_true_eq, not_or, not_le,
      not_le] at going
    refine (inv.returns_round order blocks going.1 going.2).mono ?_
    intro (j1, j2, j, d') ⟨next, high1, high2, step⟩
    dsimp only at next high1 high2 step ⊢
    exact ⟨⟨next, high1, by omega⟩, by omega⟩

/-! ## Lines -/

/-- `b` is the first index of a block of `count` items. -/
def IsStart (lower count b : ℤ) : Prop :=
  ∃ k : ℕ, b = lower + k * count

theorem IsStart.next {b : ℤ} (h : IsStart lower count b) : IsStart lower count (b + count) := by
  obtain ⟨k, rfl⟩ := h
  exact ⟨k + 1, by push_cast; ring⟩

theorem IsStart.half {b : ℤ} (h : IsStart lower (count * 2) b) :
    IsStart lower count b ∧ IsStart lower count (b + count) := by
  obtain ⟨k, rfl⟩ := h
  refine ⟨⟨2 * k, by push_cast; ring⟩, ⟨2 * k + 1, by push_cast; ring⟩⟩

theorem IsStart.low {b : ℤ} (h : IsStart lower count b) (positive : 1 ≤ count) :
    lower ≤ b := by
  obtain ⟨k, rfl⟩ := h
  have : 0 ≤ (k : ℤ) * count := by positivity
  omega

theorem IsStart.apart {b b' : ℤ} (h : IsStart lower count b) (h' : IsStart lower count b')
    (positive : 1 ≤ count) (less : b < b') : b + count ≤ b' := by
  obtain ⟨k, rfl⟩ := h
  obtain ⟨k', rfl⟩ := h'
  have before : (k : ℤ) < k' := by
    by_contra ge
    have := mul_le_mul_of_nonneg_right (not_lt.mp ge) (show 0 ≤ count by omega)
    omega
  have := mul_le_mul_of_nonneg_right (show (k : ℤ) + 1 ≤ k' from before)
    (show 0 ≤ count by omega)
  rw [add_mul, one_mul] at this
  omega

/-- Every block of `count` items is sorted. -/
def LineSorted (lt : α → α → Bool) (c : Collection α) (count : ℤ) : Prop :=
  ∀ b, IsStart c.lower count b →
    Window.SortedOn (Lte lt) c.cell b (min (b + count) (c.upper + 1))

/-- A line has been written in `dest`. -/
structure LineOf (lt : α → α → Bool) (src : Collection α) (count : ℤ) (dest : Collection α) :
    Prop where
  lower_eq : dest.lower = src.lower
  upper_eq : dest.upper = src.upper
  contents_eq : dest.contents = src.contents
  sorted : LineSorted lt dest count

/-- The blocks before `sg1` have been merged. -/
structure LineTo (lt : α → α → Bool) (src : Collection α) (dCount sg1 : ℤ)
    (dest : Collection α) : Prop where
  start : IsStart src.lower dCount sg1
  lower_eq : dest.lower = src.lower
  upper_eq : dest.upper = src.upper
  window_eq : Window.window dest.cell src.lower (min sg1 (src.upper + 1)) =
    Window.window src.cell src.lower (min sg1 (src.upper + 1))
  sorted : ∀ b, IsStart src.lower dCount b → b < sg1 →
    Window.SortedOn (Lte lt) dest.cell b (min (b + dCount) (src.upper + 1))

theorem LineTo.next {sg1 : ℤ} {d : Collection α} (h : LineTo lt src (count * 2) sg1 dest)
    (positive : 1 ≤ count) (inside : sg1 < src.upper + 1)
    (merge : Merge lt src dest sg1 (min (sg1 + count + count) (src.upper + 1)) d) :
    LineTo lt src (count * 2) (sg1 + count * 2) d := by
  have low := h.start.low (by omega)
  refine ⟨h.start.next, merge.lower_eq.trans h.lower_eq, merge.upper_eq.trans h.upper_eq,
    ?_, ?_⟩
  · have before : Window.window d.cell src.lower sg1 = Window.window src.cell src.lower sg1 := by
      have same := h.window_eq
      rw [show min sg1 (src.upper + 1) = sg1 by omega] at same
      rw [← same]
      exact Window.window_congr fun k _ high => merge.frame k (by omega)
    rw [show min (sg1 + count * 2) (src.upper + 1) =
      min (sg1 + count + count) (src.upper + 1) by omega,
      ← Window.window_add d.cell low (show sg1 ≤ min (sg1 + count + count) (src.upper + 1) by
        omega),
      ← Window.window_add src.cell low
        (show sg1 ≤ min (sg1 + count + count) (src.upper + 1) by omega),
      before, merge.window_eq]
  · intro b isStart less
    by_cases here : b = sg1
    · rw [here, show sg1 + count * 2 = sg1 + count + count by omega]
      exact merge.sorted
    · have below : b < sg1 := by
        by_contra ge
        have := h.start.apart isStart (by omega) (by omega)
        omega
      have apart := isStart.apart h.start (by omega) below
      exact (h.sorted b isStart below).congr fun k _ high => merge.frame k (by omega)

theorem returns_vonNeumanLine (order : StrictWeakOrder lt)
    (lower_eq : dest.lower = src.lower) (upper_eq : dest.upper = src.upper)
    (positive : 1 ≤ count) (sorted : LineSorted lt src count) :
    Returns (vonNeumanLine lt src dest count (count * 2) src.lower (src.upper + 1))
      (LineOf lt src (count * 2)) := by
  have start : LineTo lt src (count * 2) src.lower dest := by
    refine ⟨⟨0, by simp⟩, lower_eq, upper_eq, ?_, fun b isStart less => ?_⟩
    · rw [Window.window_of_le _ (by omega), Window.window_of_le _ (by omega)]
    · have := isStart.low (by omega)
      omega
  unfold vonNeumanLine
  rw [Returns.bind_iff]
  refine returns_untilLoop (fun s => LineTo lt src (count * 2) s.1 s.2)
    (fun s => (src.upper + 1 - s.1).toNat) start le_rfl ?_
  intro (sg1, d) inv
  rw [Returns.some_iff]
  split
  · rename_i stopped
    rw [decide_eq_true_eq] at stopped
    refine Returns.pure_iff.mpr ⟨inv.lower_eq, inv.upper_eq, ?_, fun b isStart => ?_⟩
    · have window := inv.window_eq
      rw [show min sg1 (src.upper + 1) = src.upper + 1 by omega] at window
      unfold Collection.contents
      rw [inv.lower_eq, inv.upper_eq, window]
    · rw [inv.lower_eq] at isStart
      rw [inv.upper_eq]
      by_cases before : b < sg1
      · exact inv.sorted b isStart before
      · exact Window.sortedOn_of_le d.cell (by omega)
  · rename_i going
    rw [decide_eq_true_eq] at going
    obtain ⟨first, second⟩ := inv.start.half
    refine (returns_vonNeumanInnerSort order inv.lower_eq inv.upper_eq
      (inv.start.low (by omega)) (by omega) positive (sorted sg1 first)
      (sorted (sg1 + count) second)).bind ?_
    intro d' merge
    exact Returns.pure_iff.mpr ⟨inv.next positive (by omega) merge, by dsimp only; omega⟩

/-- After `k` lines, `dest` is made of sorted blocks of `2 ^ k` items; it is the collection
to sort when the number of lines that remain is even. -/
structure LinesDone (lt : α → α → Bool) (c : Collection α) (nb : ℕ) (s : Lines α) (k : ℕ) :
    Prop where
  le : k ≤ nb
  count_eq : s.count = 2 ^ k
  destIsC_iff : s.destIsC = true ↔ (nb - k) % 2 = 0
  src_lower : s.src.lower = c.lower
  src_upper : s.src.upper = c.upper
  dest_lower : s.dest.lower = c.lower
  dest_upper : s.dest.upper = c.upper
  contents_eq : s.dest.contents = c.contents
  sorted : LineSorted lt s.dest s.count

theorem LinesDone.returns_round (order : StrictWeakOrder lt) {nb k : ℕ} {s : Lines α}
    (h : LinesDone lt c nb s k) (more : k < nb) :
    Returns (linesRound lt c.lower (c.upper + 1) s) fun s' => LinesDone lt c nb s' (k + 1) := by
  obtain ⟨-, count_eq, destIsC_iff, src_lower, src_upper, dest_lower, dest_upper, contents_eq,
    sorted⟩ := h
  have positive : (1 : ℤ) ≤ 2 ^ k := one_le_pow₀ (by norm_num)
  have line := @returns_vonNeumanLine α lt s.dest s.src s.count order (src_lower.trans dest_lower.symm)
    (src_upper.trans dest_upper.symm) (by omega) sorted
  rw [dest_lower, dest_upper] at line
  refine line.bind ?_
  intro d written
  refine Returns.pure_iff.mpr ⟨more, ?_, ?_, dest_lower, dest_upper,
    written.lower_eq.trans dest_lower, written.upper_eq.trans dest_upper,
    written.contents_eq.trans contents_eq, written.sorted⟩
  · dsimp only
    rw [count_eq, pow_succ]
  · dsimp only
    rw [Bool.not_eq_true', ← Bool.not_eq_true, destIsC_iff]
    omega

end VonNeumanSort

end AbstractSorter

end Liberty
