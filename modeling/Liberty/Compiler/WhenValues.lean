import Liberty.Compiler.InspectStatement
import Liberty.Library.IntegerRanges
import Liberty.Storage.RingArrayResizing

/-!
# The values of a when clause

`compute_values` keeps the values of a clause as a sorted array of bounds, two for each range.
-/

namespace Liberty

open IntegerRanges

/-! ## The source -/

namespace WhenItem

/-- `expression_value` and `lower_value` -/
def lowerValue : WhenItem → Int
  | whenItem1 manifestExpression => manifestExpression.integerValue
  | whenItem2 lower _ => lower.integerValue

/-- `expression_value` and `upper_value` -/
def upperValue : WhenItem → Int
  | whenItem1 manifestExpression => manifestExpression.integerValue
  | whenItem2 _ upper => upper.integerValue

def locateInValues (values : RingArray Int) (v : Int) : Option Int :=
  untilLoop
    (fun i => if i > values.upper then some true else do return decide (v < (← values.item i)))
    (fun i => some (i + 2)) values.count.toNat values.lower

/-- One round of the loop that closes a gap. -/
def closeRound (t : Int × RingArray Int) : Option (Int × RingArray Int) := do
  let (i, values) := t
  let values ← values.put (← values.item (i + 2)) i
  let values ← values.put (← values.item (i + 3)) (i + 1)
  return (i + 2, values)

/-- The range at `i - 1` gets the upper bound of the one at `i`, which is removed. -/
def bridge (values : RingArray Int) (i : Int) : Option (RingArray Int) := do
  let values ← values.put (← values.item (i + 1)) (i - 1)
  let (_, values) ← untilLoop (fun (i, values) => some (decide (i > values.upper - 2))) closeRound
    values.count.toNat (i, values)
  values.resize values.lower (values.upper - 2)

/-- One round of the loop that opens a gap. -/
def openRound (t : Int × RingArray Int) : Option (Int × RingArray Int) := do
  let (i, values) := t
  let values ← values.put (← values.item (i - 2)) i
  let values ← values.put (← values.item (i - 1)) (i + 1)
  return (i - 2, values)

def insertRange (values : RingArray Int) (l u : Int) : Option (RingArray Int) := do
  let values ← values.resize values.lower (values.upper + 2)
  let (i, values) ← untilLoop (fun (i, values) => do return decide (l > (← values.item (i - 1))))
    openRound values.count.toNat (values.upper - 1, values)
  let values ← values.put l i
  values.put u (i + 1)

/-- The range is lower than the lowest value. -/
def addBelow (values : RingArray Int) (l u i : Int) : Option (RingArray Int) := do
  if u = (← values.item i) - 1 then
    values.put l i
  else
    let values ← values.resize (values.lower - 2) values.upper
    let values ← values.put l values.lower
    values.put u (values.lower + 1)

/-- The range is higher than the highest value. -/
def addAbove (values : RingArray Int) (l u i : Int) : Option (RingArray Int) := do
  if l = (← values.item (i - 1)) + 1 then
    values.put u (i - 1)
  else
    let values ← values.resize values.lower (values.upper + 2)
    let values ← values.put l (values.upper - 1)
    values.put u values.upper

def addBetween (values : RingArray Int) (l u i : Int) : Option (RingArray Int) := do
  let before ← values.item (i - 1)
  let behind ← values.item i
  if l = before + 1 ∧ u = behind - 1 then
    bridge values i
  else if l = before + 1 then
    values.put u (i - 1)
  else if u = behind - 1 then
    values.put l i
  else
    insertRange values l u

/-- `compute_values`, of a table that exists. -/
def addRange (values : RingArray Int) (l u : Int) : Option (RingArray Int) := do
  let i ← locateInValues values l
  if i = values.lower then
    addBelow values l u i
  else if i > values.upper then
    addAbove values l u i
  else
    addBetween values l u i

/-- `compute_values`: WHEN_ITEM_1 and WHEN_ITEM_2 have the same body, with one value or two bounds. -/
def computeValues (item : WhenItem) : Option (RingArray Int) → Option (RingArray Int)
  | none => do
      let values : RingArray Int := .make 501 502
      let values ← values.put item.lowerValue values.lower
      values.put item.upperValue values.upper
  | some values => addRange values item.lowerValue item.upperValue

end WhenItem

/-- `compute_values` of a WHEN_CLAUSE whose values are not yet computed. -/
def computeValuesOf : List WhenItem → Option (RingArray Int)
  | [] => some (.make 1 0)
  | item :: list => do
      list.foldlM (fun values item => item.computeValues (some values)) (← item.computeValues none)

/-- One round of the search of `includes_integer`. -/
def includesRound (values : RingArray Int) (v : Int) (t : Bool × Int) : Option (Bool × Int) := do
  if (← values.item t.2) ≤ v then
    return (decide (v ≤ (← values.item (t.2 + 1))), t.2 + 2)
  else
    return (false, t.2 + 2)

/-- `includes_integer`, where there are values. -/
def includesInteger (values : RingArray Int) (v : Int) : Option Bool := do
  if v ≥ (← values.item values.lower) then
    if v ≤ (← values.item values.upper) then
      let (result, _) ← untilLoop (fun t => some (t.1 || decide (t.2 > values.upper)))
        (includesRound values v) values.count.toNat (false, values.lower)
      return result
    else
      return false
  else
    return false

/-! ## Bounds in the array -/

namespace RingArray

variable {r : RingArray Int} {low : Int} {xs pre post : List Int} {x y : Int}

theorem Represents.item_append (h : Represents r ⟨low, pre ++ x :: post⟩) :
    r.item (low + pre.length) = some x := by
  have upper := h.upper_eq
  have lower : r.lower = low := h.lower_eq
  have found := h.view_eq pre.length (by simp)
  unfold Sequence.upper at upper
  dsimp only at upper
  rw [List.length_append, List.length_cons] at upper
  rw [List.getElem?_append_right (Nat.le_refl _), Nat.sub_self] at found
  rw [item_of_valid h.valid (by omega) (by omega), lower, show low + pre.length - low = pre.length by omega]
  exact found.symm

theorem Represents.returns_put_append (h : Represents r ⟨low, pre ++ x :: post⟩) (y : Int) :
    Returns (r.put y (low + pre.length)) (Represents · ⟨low, pre ++ y :: post⟩) := by
  have valid : Sequence.ValidIndex ⟨low, pre ++ x :: post⟩ (low + pre.length) := by
    unfold Sequence.ValidIndex Sequence.upper
    dsimp only
    rw [List.length_append, List.length_cons]
    omega
  have position : Sequence.position ⟨low, pre ++ x :: post⟩ (low + pre.length) = pre.length := by
    unfold Sequence.position
    dsimp only
    omega
  have written := returns_put_of_represents h y valid
  rwa [position, List.set_append_right _ _ (Nat.le_refl _), Nat.sub_self] at written

theorem Represents.returns_resize {minIndex maxIndex : Int} (h : Represents r ⟨low, xs⟩)
    (nonempty : xs ≠ []) (le : minIndex ≤ low) (bounds : minIndex ≤ maxIndex + 1) :
    Returns (r.resize minIndex maxIndex) fun r' => Valid r' ∧ r'.lower = minIndex ∧ r'.upper = maxIndex ∧
      ∀ k : ℕ, minIndex + k ≤ maxIndex → r'.view k =
        if low ≤ minIndex + k ∧ minIndex + k < low + xs.length then r.view (minIndex + k - low) else 0 := by
  have count := h.count_eq
  have lower : r.lower = low := h.lower_eq
  have upper := h.upper_eq
  have counted := h.valid.count_le
  have length := List.length_pos_iff.mpr nonempty
  have room : r.capacity ≠ 0 := by
    dsimp only at count
    omega
  have less := h.valid.storageLower_lt room
  have ahead : ¬r.Behind minIndex maxIndex := by
    intro behind
    have wrap : r.wrapPoint = r.capacity + r.lower - r.storageLower := rfl
    have last := behind.2
    omega
  refine (RingArray.returns_resize h.valid room bounds).mono fun r' ⟨valid, lower', upper', views⟩ =>
    ⟨valid, lower', upper', fun k inside => ?_⟩
  have view := views (minIndex + k) (by omega) inside
  unfold keptItem Sequence.upper at *
  rw [if_neg ahead, show minIndex + (k : Int) - minIndex = k by omega, lower, upper] at view
  rw [view]
  dsimp only
  split <;> split <;> first | rfl | omega

theorem Represents.returns_resize_grown (h : Represents r ⟨low, xs⟩) (nonempty : xs ≠ []) (a b : ℕ) :
    Returns (r.resize (low - a) (r.upper + b))
      (Represents · ⟨low - a, .replicate a 0 ++ (xs ++ .replicate b 0)⟩) := by
  have upper := h.upper_eq
  unfold Sequence.upper at upper
  dsimp only at upper
  refine (h.returns_resize nonempty (by omega) (by omega)).mono fun r' ⟨valid, lower', upper', views⟩ =>
    ⟨valid, lower', ?_, fun k inside => ?_⟩
  · rw [RingArray.count_eq, lower', upper', upper]
    simp only [List.length_append, List.length_replicate]
    omega
  · simp only [List.length_append, List.length_replicate] at inside
    rw [views k (by omega)]
    rcases Nat.lt_or_ge k a with below | from_a
    · rw [List.getElem?_append_left (by rwa [List.length_replicate]), List.getElem?_replicate, if_pos below,
        if_neg (by omega)]
    · rw [List.getElem?_append_right (by rwa [List.length_replicate]), List.length_replicate]
      rcases Nat.lt_or_ge (k - a) xs.length with inside' | above
      · rw [List.getElem?_append_left inside', if_pos (by omega), h.view_eq _ inside']
        exact congrArg (fun i => some (r.view i)) (by omega)
      · rw [List.getElem?_append_right above, List.getElem?_replicate, if_pos (by omega), if_neg (by omega)]

theorem Represents.returns_resize_cut {ys : List Int} (h : Represents r ⟨low, xs ++ ys⟩)
    (nonempty : xs ≠ []) : Returns (r.resize low (r.upper - ys.length)) (Represents · ⟨low, xs⟩) := by
  have upper := h.upper_eq
  unfold Sequence.upper at upper
  dsimp only at upper
  rw [List.length_append] at upper
  refine (h.returns_resize (List.append_ne_nil_of_left_ne_nil nonempty ys) (Int.le_refl _) (by omega)).mono
    fun r' ⟨valid, lower', upper', views⟩ => ⟨valid, lower', ?_, fun k inside => ?_⟩
  · rw [RingArray.count_eq, lower', upper', upper]
    dsimp only
    omega
  · dsimp only at inside ⊢
    have found := h.view_eq k (by dsimp only; rw [List.length_append]; omega)
    rw [List.getElem?_append_left inside] at found
    rw [views k (by omega), if_pos (by rw [List.length_append]; omega), found]
    exact congrArg (fun i => some (r.view i)) (by omega)

end RingArray

/-! ## Ranges in the array -/

section Ranges

open RingArray

variable {values : RingArray Int} {low l u v a b c d : Int} {ranges front back : List (Int × Int)}

theorem RingArray.Represents.upper_bounds (h : Represents values ⟨low, bounds ranges⟩) :
    values.upper = low + 2 * ranges.length - 1 := by
  have upper := h.upper_eq
  unfold Sequence.upper at upper
  dsimp only at upper
  rw [length_bounds] at upper
  omega

variable {i : Int}

theorem RingArray.Represents.item_lower (h : Represents values ⟨low, bounds (front ++ (a, b) :: back)⟩)
    (position : i = low + 2 * front.length) : values.item i = some a := by
  rw [bounds_append, bounds_cons] at h
  rw [position, ← h.item_append, length_bounds]
  rfl

theorem RingArray.Represents.item_upper (h : Represents values ⟨low, bounds (front ++ (a, b) :: back)⟩)
    (position : i = low + 2 * front.length + 1) : values.item i = some b := by
  rw [bounds_append, bounds_cons, List.append_cons] at h
  rw [position, ← h.item_append, List.length_append, length_bounds, List.length_singleton]
  exact congrArg values.item (by omega)

theorem RingArray.Represents.returns_put_lower (h : Represents values ⟨low, bounds (front ++ (a, b) :: back)⟩)
    (position : i = low + 2 * front.length) (l : Int) :
    Returns (values.put l i) (Represents · ⟨low, bounds (front ++ (l, b) :: back)⟩) := by
  rw [bounds_append, bounds_cons] at h ⊢
  have written := h.returns_put_append l
  rw [length_bounds] at written
  rwa [position]

theorem RingArray.Represents.returns_put_upper (h : Represents values ⟨low, bounds (front ++ (a, b) :: back)⟩)
    (position : i = low + 2 * front.length + 1) (u : Int) :
    Returns (values.put u i) (Represents · ⟨low, bounds (front ++ (a, u) :: back)⟩) := by
  rw [bounds_append, bounds_cons, List.append_cons] at h ⊢
  have written := h.returns_put_append u
  have index : i = low + (bounds front ++ [(a, b).1]).length := by
    rw [List.length_append, length_bounds, List.length_singleton]
    omega
  rwa [index]

theorem RingArray.Represents.returns_puts (h : Represents values ⟨low, bounds (front ++ (a, b) :: back)⟩)
    (position : i = low + 2 * front.length) {l u j : Int} (next : j = i + 1) :
    Returns (do (← values.put l i).put u j) (Represents · ⟨low, bounds (front ++ (l, u) :: back)⟩) :=
  (h.returns_put_lower position l).bind fun _ written => written.returns_put_upper (by omega) u

namespace WhenItem

/-- The gap of the table where `v` belongs. -/
theorem returns_locateInValues (h : Represents values ⟨low, bounds ranges⟩) (v : Int) :
    Returns (locateInValues values v) fun i => ∃ front back, ranges = front ++ back ∧
      i = low + 2 * front.length ∧ (∀ p ∈ front, p.1 ≤ v) ∧ ∀ q ∈ back.head?, v < q.1 := by
  have upper := h.upper_bounds
  have lower : values.lower = low := h.lower_eq
  have count : values.count = values.upper - values.lower + 1 := rfl
  unfold locateInValues
  refine returns_untilLoop (fun i => ∃ front back, ranges = front ++ back ∧
    i = low + 2 * front.length ∧ ∀ p ∈ front, p.1 ≤ v) (fun i => (values.upper - i + 1).toNat)
    ⟨[], ranges, rfl, by rw [lower, List.length_nil]; omega, nofun⟩ (by omega) ?_
  intro i ⟨front, back, split, position, before⟩
  subst split position
  rw [List.length_append] at upper
  cases back with
  | nil =>
    rw [if_pos (by rw [upper, List.length_nil]; omega), Returns.some_iff, if_pos rfl]
    exact ⟨front, [], rfl, rfl, before, nofun⟩
  | cons q back =>
    rw [List.length_cons] at upper
    rw [if_neg (by omega), h.item_lower rfl, Returns.some_bind, Returns.pure_iff]
    rcases Int.lt_or_le v q.1 with less | le
    · rw [if_pos (decide_eq_true less)]
      refine ⟨front, q :: back, rfl, rfl, before, fun q' first => ?_⟩
      rwa [← Option.some.inj first]
    · rw [if_neg (by simpa using le), Returns.some_iff]
      refine ⟨⟨front ++ [q], back, List.append_cons _ _ _, ?_, fun p mem => ?_⟩, by omega⟩
      · rw [List.length_append, List.length_singleton]
        omega
      · rcases List.mem_append.mp mem with earlier | last
        · exact before p earlier
        · rwa [List.mem_singleton.mp last]

/-- A round of the loop that closes a gap moves one range down. -/
theorem returns_closeRound {x q : Int × Int} (h : Represents values ⟨low, bounds (front ++ x :: q :: back)⟩)
    (position : i = low + 2 * front.length) :
    Returns (closeRound (i, values)) fun t => t.1 = i + 2 ∧
      Represents t.2 ⟨low, bounds (front ++ q :: q :: back)⟩ := by
  have next := h
  rw [List.append_cons] at next
  unfold closeRound
  dsimp only
  rw [next.item_lower (i := i + 2) (by rw [List.length_append, List.length_singleton]; omega),
    Returns.some_bind]
  refine (h.returns_put_lower position q.1).bind fun values written => ?_
  have next := written
  rw [List.append_cons] at next
  rw [next.item_upper (i := i + 3) (by rw [List.length_append, List.length_singleton]; omega),
    Returns.some_bind]
  exact (written.returns_put_upper (by omega) q.2).bind fun values written => Returns.pure_iff.mpr ⟨rfl, written⟩

theorem returns_bridge (h : Represents values ⟨low, bounds (front ++ (a, b) :: (c, d) :: back)⟩)
    (position : i = low + 2 * front.length + 2) :
    Returns (bridge values i) (Represents · ⟨low, bounds (front ++ (a, d) :: back)⟩) := by
  have next := h
  rw [List.append_cons] at next
  unfold bridge
  rw [next.item_upper (i := i + 1) (by rw [List.length_append, List.length_singleton]; omega),
    Returns.some_bind]
  refine (h.returns_put_upper (i := i - 1) (by omega) d).bind fun values written => ?_
  have count : values.count = values.upper - values.lower + 1 := rfl
  have lower : values.lower = low := written.lower_eq
  have first := written.upper_bounds
  rw [List.length_append] at first
  refine Returns.bind (P := fun t => ∃ x, Represents t.2 ⟨low, bounds (front ++ (a, d) :: back ++ [x])⟩)
    (returns_untilLoop (fun t => ∃ moved rest x, back = moved ++ rest ∧
        t.1 = low + 2 * (front ++ (a, d) :: moved).length ∧
        Represents t.2 ⟨low, bounds (front ++ (a, d) :: moved ++ x :: rest)⟩)
      (fun t => (t.2.upper - t.1).toNat) ⟨[], back, (c, d), rfl, ?_, ?_⟩ (by dsimp only; omega) ?_) ?_
  · rw [List.length_append, List.length_singleton]
    omega
  · rwa [List.append_assoc]
  · intro (i, values) ⟨moved, rest, x, split, position, held⟩
    have upper := held.upper_bounds
    rw [List.length_append, List.length_cons] at upper
    dsimp only at position upper ⊢
    rw [Returns.some_iff]
    cases rest with
    | nil =>
      rw [if_pos (decide_eq_true (by rw [upper, List.length_nil]; omega)), split, List.append_nil]
      exact ⟨x, held⟩
    | cons q rest =>
      rw [List.length_cons] at upper
      rw [if_neg (by rw [decide_eq_true_eq]; omega)]
      refine (returns_closeRound held position).mono fun (j, values') ⟨moves, held'⟩ => ?_
      have upper' := held'.upper_bounds
      rw [List.length_append, List.length_cons, List.length_cons] at upper'
      dsimp only at moves upper' ⊢
      refine ⟨⟨moved ++ [q], rest, q, by rw [split, ← List.append_cons], ?_, ?_⟩, by omega⟩
      · rw [moves, position]
        simp only [List.length_append, List.length_cons, List.length_nil]
        omega
      · rwa [← List.cons_append, ← List.append_assoc, ← List.append_cons]
  · intro (j, values) ⟨x, held⟩
    have lower : values.lower = low := held.lower_eq
    rw [bounds_append] at held
    have cut := held.returns_resize_cut (by simp)
    rw [← lower] at cut ⊢
    exact cut

/-- A round of the loop that opens a gap moves one range up. -/
theorem returns_openRound {x q : Int × Int} (h : Represents values ⟨low, bounds (front ++ q :: x :: back)⟩)
    (position : i = low + 2 * front.length + 2) :
    Returns (openRound (i, values)) fun t => t.1 = i - 2 ∧
      Represents t.2 ⟨low, bounds (front ++ q :: q :: back)⟩ := by
  have next := h
  rw [List.append_cons] at next
  unfold openRound
  dsimp only
  rw [h.item_lower (i := i - 2) (by omega), Returns.some_bind]
  refine (next.returns_put_lower (by rw [List.length_append, List.length_singleton]; omega) q.1).bind
    fun values written => ?_
  have before := written
  rw [← List.append_cons] at before
  rw [before.item_upper (i := i - 1) (by omega), Returns.some_bind]
  refine (written.returns_put_upper (by rw [List.length_append, List.length_singleton]; omega) q.2).bind
    fun values written => Returns.pure_iff.mpr ⟨rfl, ?_⟩
  rwa [← List.append_cons] at written

theorem returns_insertRange (h : Represents values ⟨low, bounds (front ++ (a, b) :: back)⟩) (less : b < l)
    (behind : ∀ q ∈ back, l ≤ q.2) (u : Int) : Returns (insertRange values l u)
      (Represents · ⟨low, bounds (front ++ (a, b) :: (l, u) :: back)⟩) := by
  have lower : values.lower = low := h.lower_eq
  have grown := h.returns_resize_grown (by simp) 0 2
  rw [Int.natCast_zero, Int.sub_zero, ← lower] at grown
  unfold insertRange
  refine grown.bind fun values' held => ?_
  rw [lower, List.replicate_zero, List.nil_append] at held
  have more : Represents values' ⟨low, bounds (front ++ (a, b) :: back ++ [(0, 0)])⟩ := by
    rw [bounds_append]
    exact held
  have count : values'.count = values'.upper - values'.lower + 1 := rfl
  have lower' : values'.lower = low := held.lower_eq
  have upper := more.upper_bounds
  refine Returns.bind (P := fun t => t.1 = low + 2 * (front ++ [(a, b)]).length ∧
      ∃ x, Represents t.2 ⟨low, bounds (front ++ [(a, b)] ++ x :: back)⟩)
    (returns_untilLoop (fun t => ∃ rest moved x, back = rest ++ moved ∧
        t.1 = low + 2 * (front ++ (a, b) :: rest).length ∧
        Represents t.2 ⟨low, bounds (front ++ (a, b) :: rest ++ x :: moved)⟩)
      (fun t => (t.1 - low).toNat) ⟨back, [], (0, 0), (List.append_nil _).symm, ?_, more⟩
      (by dsimp only; omega) ?_) ?_
  · rw [upper, @List.length_append _ _ [_], List.length_singleton]
    omega
  · intro (i, values) ⟨rest, moved, x, split, position, held⟩
    dsimp only at position ⊢
    rw [List.length_append, List.length_cons] at position
    rcases List.eq_nil_or_concat rest with rfl | ⟨rest, q, rfl⟩
    · have found := held
      rw [List.append_assoc] at found
      rw [found.item_upper (i := i - 1) (by rw [position, List.length_nil]; omega), Returns.some_bind,
        Returns.pure_iff, if_pos (decide_eq_true less), split]
      exact ⟨by rw [position, List.length_append]; rfl, x, by rwa [List.append_assoc] at held ⊢⟩
    · rw [List.concat_eq_append] at *
      rw [List.length_append, List.length_singleton] at position
      have le := behind q (by rw [split]; simp)
      have found : Represents values ⟨low, bounds (front ++ (a, b) :: rest ++ q :: x :: moved)⟩ := by
        rwa [List.append_cons (front ++ (a, b) :: rest), List.append_assoc front, List.cons_append]
      have length : (front ++ (a, b) :: rest).length = front.length + (rest.length + 1) := by
        rw [List.length_append, List.length_cons]
      rw [found.item_upper (i := i - 1) (by omega), Returns.some_bind, Returns.pure_iff,
        if_neg (by rw [decide_eq_true_eq]; omega)]
      refine (returns_openRound found (by omega)).mono fun (j, values') ⟨moves, held'⟩ => ?_
      dsimp only at moves ⊢
      exact ⟨⟨rest, q :: moved, q, by rw [split, List.append_assoc]; rfl, by omega, held'⟩, by omega⟩
  · intro (i, values) ⟨position, x, held⟩
    have written := held.returns_puts position (l := l) (u := u) rfl
    rwa [List.append_assoc] at written

/-- The table is the one of the ranges and of the range from `l` to `u`. -/
def Adds (ranges : List (Int × Int)) (l u : Int) (values : RingArray Int) : Prop :=
  ∃ low ranges', ranges' ≠ [] ∧ Represents values ⟨low, bounds ranges'⟩ ∧ Inserts ranges l u ranges'

theorem returns_addBelow (h : Represents values ⟨low, bounds ((c, d) :: back)⟩)
    (canonical : Canonical ((c, d) :: back)) (le : l ≤ u) (behind : u < c) (position : i = low) :
    Returns (addBelow values l u i) (Adds ((c, d) :: back) l u) := by
  have lower : values.lower = low := h.lower_eq
  have first : i = low + 2 * ([] : List (Int × Int)).length := by
    rw [List.length_nil]
    omega
  unfold addBelow
  have whole : Represents values ⟨low, bounds ([] ++ (c, d) :: back)⟩ := h
  have ranges : Canonical ([] ++ (c, d) :: back) := canonical
  rw [whole.item_lower first, Returns.some_bind]
  split
  · rename_i touches
    refine (whole.returns_put_lower first l).mono fun values' written => ?_
    exact ⟨low, _, List.cons_ne_nil _ _, written, ranges.inserts_right touches le nofun⟩
  · rename_i apart
    have grown := h.returns_resize_grown (by simp) 2 0
    rw [Int.natCast_zero, Int.add_zero, ← lower] at grown
    refine grown.bind fun values' held => ?_
    rw [List.replicate_zero, List.append_nil] at held
    have more : Represents values' ⟨values.lower - 2, bounds ([] ++ (0, 0) :: (c, d) :: back)⟩ := held
    refine (more.returns_put_lower (i := values'.lower) (by
      rw [more.lower_eq, List.length_nil]
      dsimp only
      omega) l).bind fun values₁ written => ?_
    refine (written.returns_put_upper (by
      rw [written.lower_eq, List.length_nil]
      dsimp only
      omega) u).mono fun values₂ written => ?_
    exact ⟨_, _, List.cons_ne_nil _ _, written, ranges.inserts_new le nofun
      (ranges.after_of_first (by omega))⟩

theorem returns_addAbove (h : Represents values ⟨low, bounds (front ++ [(a, b)])⟩)
    (canonical : Canonical (front ++ [(a, b)])) (le : l ≤ u) (less : b < l)
    (position : i = low + 2 * front.length + 2) :
    Returns (addAbove values l u i) (Adds (front ++ [(a, b)]) l u) := by
  have lower : values.lower = low := h.lower_eq
  unfold addAbove
  rw [h.item_upper (i := i - 1) (by omega), Returns.some_bind]
  split
  · rename_i touches
    refine (h.returns_put_upper (by omega) u).mono fun values' written => ?_
    exact ⟨low, _, by simp, written, canonical.inserts_left touches le nofun⟩
  · rename_i apart
    have grown := h.returns_resize_grown (by simp) 0 2
    rw [Int.natCast_zero, Int.sub_zero, ← lower] at grown
    refine grown.bind fun values' held => ?_
    rw [List.replicate_zero, List.nil_append] at held
    have more : Represents values' ⟨values.lower, bounds (front ++ [(a, b)] ++ [(0, 0)])⟩ := by
      rw [bounds_append]
      exact held
    have upper := more.upper_bounds
    rw [List.length_append, List.length_singleton] at upper
    refine (more.returns_put_lower (i := values'.upper - 1) (by omega) l).bind fun values₁ written => ?_
    have upper := written.upper_bounds
    rw [List.length_append, List.length_singleton] at upper
    refine (written.returns_put_upper (by omega) u).mono fun values₂ written => ?_
    have whole : Canonical (front ++ [(a, b)] ++ []) := by rwa [List.append_nil]
    have inserted := whole.inserts_new le (canonical.before_of_last (by omega)) nofun
    rw [List.append_nil] at inserted
    exact ⟨_, _, by simp, written, inserted⟩

theorem returns_addBetween (h : Represents values ⟨low, bounds (front ++ (a, b) :: (c, d) :: back)⟩)
    (canonical : Canonical (front ++ (a, b) :: (c, d) :: back)) (le : l ≤ u) (less : b < l) (behind : u < c)
    (position : i = low + 2 * front.length + 2) :
    Returns (addBetween values l u i) (Adds (front ++ (a, b) :: (c, d) :: back) l u) := by
  have next := h
  have whole := canonical
  rw [List.append_cons] at next whole
  have second : i = low + 2 * (front ++ [(a, b)]).length := by
    rw [List.length_append, List.length_singleton]
    omega
  unfold addBetween
  rw [h.item_upper (i := i - 1) (by omega), Returns.some_bind, next.item_lower second, Returns.some_bind]
  split
  · rename_i touches
    refine (returns_bridge h position).mono fun values' written => ?_
    exact ⟨low, _, by simp, written, canonical.inserts_both touches.1 touches.2 le⟩
  · rename_i none
    split
    · rename_i touches
      refine (h.returns_put_upper (by omega) u).mono fun values' written => ?_
      exact ⟨low, _, by simp, written, canonical.inserts_left touches le (whole.after_of_first (by omega))⟩
    · rename_i apart
      have before := canonical.before_of_last (l := l) (by omega)
      rw [List.append_cons]
      split
      · rename_i touches
        refine (next.returns_put_lower second l).mono fun values' written => ?_
        exact ⟨low, _, by simp, written, whole.inserts_right touches le before⟩
      · rename_i apart'
        have after := whole.after_of_first (u := u) (by omega)
        refine (returns_insertRange h less (fun q mem => ?_) u).mono fun values' written => ?_
        · have first := whole.nonempty q (List.mem_append_right _ mem)
          have less := after q mem
          omega
        · rw [List.append_cons] at written
          exact ⟨low, _, by simp, written, whole.inserts_new le before after⟩

/-- What `compute_values` does to the table of a canonical list. -/
theorem returns_addRange (h : Represents values ⟨low, bounds ranges⟩) (canonical : Canonical ranges)
    (nonempty : ranges ≠ []) (le : l ≤ u) (disjoint : ∀ v, Covers ranges v → ¬(l ≤ v ∧ v ≤ u)) :
    Returns (addRange values l u) (Adds ranges l u) := by
  have lower : values.lower = low := h.lower_eq
  have upper := h.upper_bounds
  unfold addRange
  refine (returns_locateInValues h l).bind fun i ⟨front, back, split, position, before, after⟩ => ?_
  subst split
  have ends : ∀ p ∈ front, p.2 < l := fun p mem => Int.not_le.mp fun high =>
    disjoint l ⟨p, List.mem_append_left _ mem, before p mem, high⟩ ⟨Int.le_refl _, le⟩
  have starts : ∀ q ∈ back.head?, u < q.1 := fun q first => Int.not_le.mp fun low => by
    have inside : q ∈ front ++ back := List.mem_append_right _ (List.mem_of_mem_head? first)
    have less := after q first
    exact disjoint q.1 ⟨q, inside, Int.le_refl _, canonical.nonempty q inside⟩ ⟨by omega, low⟩
  rcases List.eq_nil_or_concat front with rfl | ⟨front, ⟨a, b⟩, rfl⟩
  · rw [List.length_nil] at position
    rw [if_pos (by omega)]
    rw [List.nil_append] at *
    obtain ⟨q, back, rfl⟩ := List.exists_cons_of_ne_nil nonempty
    exact returns_addBelow h canonical le (starts q rfl) (by omega)
  · rw [List.concat_eq_append] at *
    have less : b < l := ends (a, b) (by simp)
    rw [List.length_append, List.length_singleton] at position
    rw [List.length_append, List.length_append, List.length_singleton] at upper
    rw [if_neg (by omega)]
    cases back with
    | nil =>
      rw [List.length_nil] at upper
      rw [List.append_nil] at *
      rw [if_pos (by omega)]
      exact returns_addAbove h canonical le less (by omega)
    | cons q back =>
      rw [List.length_cons] at upper
      rw [if_neg (by omega)]
      rw [← List.append_cons] at *
      exact returns_addBetween h canonical le less (starts q rfl) (by omega)

/-- Two items share no value. -/
def Apart (item other : WhenItem) : Prop :=
  ∀ v, ¬(item.matchValue v = true ∧ other.matchValue v = true)

theorem matchValue_iff (item : WhenItem) (v : Int) :
    item.matchValue v = true ↔ item.lowerValue ≤ v ∧ v ≤ item.upperValue := by
  cases item with
  | whenItem1 e =>
    refine decide_eq_true_iff.trans ⟨fun same => ?_, fun between => ?_⟩
    · exact ⟨Int.le_of_eq same, Int.le_of_eq same.symm⟩
    · exact Int.le_antisymm between.1 between.2
  | whenItem2 lower upper => exact decide_eq_true_iff

/-- The array holds the canonical list of the ranges that the items of a list have together. -/
def Tabulates (list : List WhenItem) (values : RingArray Int) : Prop :=
  ∃ low ranges, ranges ≠ [] ∧ Represents values ⟨low, bounds ranges⟩ ∧ Canonical ranges ∧
    ∀ v, Covers ranges v ↔ ∃ item ∈ list, item.matchValue v = true

variable {item : WhenItem} {list : List WhenItem}

theorem returns_computeValues_first (ordered : item.lowerValue ≤ item.upperValue) :
    Returns (item.computeValues none) (Tabulates [item]) := by
  have made : Represents (RingArray.make 501 502 : RingArray Int) ⟨501, bounds ([] ++ [(0, 0)])⟩ :=
    represents_make (by decide)
  refine (made.returns_put_lower rfl item.lowerValue).bind fun values written => ?_
  have upper := written.upper_bounds
  refine (written.returns_put_upper upper item.upperValue).mono fun values written => ?_
  have inserted := inserts_nil ordered
  refine ⟨_, _, List.cons_ne_nil _ _, written, inserted.canonical, fun v => ?_⟩
  rw [covers_cons, or_iff_left not_covers_nil, ← matchValue_iff]
  simp only [List.mem_singleton, exists_eq_left]

theorem Tabulates.returns_computeValues (h : Tabulates list values)
    (ordered : item.lowerValue ≤ item.upperValue) (disjoint : ∀ other ∈ list, Apart other item) :
    Returns (item.computeValues (some values)) (Tabulates (list ++ [item])) := by
  obtain ⟨low, ranges, nonempty, held, canonical, covers_iff⟩ := h
  have apart : ∀ v, Covers ranges v → ¬(item.lowerValue ≤ v ∧ v ≤ item.upperValue) := by
    intro v covers inside
    obtain ⟨other, mem, found⟩ := (covers_iff v).mp covers
    exact disjoint other mem v ⟨found, (matchValue_iff item v).mpr inside⟩
  refine (returns_addRange held canonical nonempty ordered apart).mono
    fun values' ⟨low', ranges', more, held', inserted⟩ => ⟨low', ranges', more, held', inserted.canonical,
      fun v => ?_⟩
  rw [inserted.covers_iff, covers_iff, ← matchValue_iff]
  simp only [List.mem_append, List.mem_singleton, or_and_right, exists_or, exists_eq_left]

theorem returns_foldlM {rest : List WhenItem} (h : Tabulates list values)
    (ordered : ∀ item ∈ rest, item.lowerValue ≤ item.upperValue)
    (disjoint : (list ++ rest).Pairwise Apart) :
    Returns (rest.foldlM (fun values item => item.computeValues (some values)) values)
      (Tabulates (list ++ rest)) := by
  induction rest generalizing list values with
  | nil =>
    rw [List.append_nil]
    exact Returns.pure_iff.mpr h
  | cons item rest ih =>
    have across := (List.pairwise_append.mp disjoint).2.2
    rw [List.foldlM_cons]
    refine (h.returns_computeValues (ordered item List.mem_cons_self)
      fun other mem => across other mem item List.mem_cons_self).bind fun values' h' => ?_
    rw [List.append_cons] at disjoint ⊢
    exact ih h' (fun other mem => ordered other (List.mem_cons_of_mem _ mem)) disjoint

/-- **`compute_values` gives the canonical table of a clause whose items share no value.** -/
theorem returns_computeValuesOf (nonempty : list ≠ [])
    (ordered : ∀ item ∈ list, item.lowerValue ≤ item.upperValue) (disjoint : list.Pairwise Apart) :
    Returns (computeValuesOf list) (Tabulates list) := by
  obtain ⟨item, rest, rfl⟩ := List.exists_cons_of_ne_nil nonempty
  refine (returns_computeValues_first (ordered item List.mem_cons_self)).bind fun values h => ?_
  exact returns_foldlM h (fun other mem => ordered other (List.mem_cons_of_mem _ mem)) disjoint

theorem returns_includesRound (h : Represents values ⟨low, bounds (front ++ (a, b) :: back)⟩)
    (position : i = low + 2 * front.length) (v : Int) :
    includesRound values v (false, i) = some (decide (a ≤ v ∧ v ≤ b), i + 2) := by
  unfold includesRound
  rw [h.item_lower position, Returns.some_bind, h.item_upper (i := i + 1) (by omega), Returns.some_bind]
  rcases Int.lt_or_le v a with less | le
  · rw [if_neg (by omega), decide_eq_false (by omega)]
    rfl
  · rw [if_pos le]
    simp only [le, true_and]
    rfl

theorem returns_search (h : Represents values ⟨low, bounds ranges⟩) (v : Int) :
    Returns (untilLoop (fun t => some (t.1 || decide (t.2 > values.upper))) (includesRound values v)
      values.count.toNat (false, values.lower)) fun t => t.1 = true ↔ Covers ranges v := by
  have upper := h.upper_bounds
  have lower : values.lower = low := h.lower_eq
  have count : values.count = values.upper - values.lower + 1 := rfl
  refine returns_untilLoop (fun t => ∃ front back, ranges = front ++ back ∧
      t.2 = low + 2 * front.length ∧ (t.1 = true ↔ Covers front v))
    (fun t => (values.upper - t.2 + 1).toNat)
    ⟨[], ranges, rfl, by rw [List.length_nil]; dsimp only; omega, iff_of_false nofun not_covers_nil⟩
    (by dsimp only; omega) ?_
  intro (found, i) ⟨front, back, split, position, found_iff⟩
  subst split
  dsimp only at position found_iff ⊢
  rw [List.length_append] at upper
  rw [Returns.some_iff]
  cases found with
  | true =>
    rw [if_pos (Bool.true_or _)]
    exact iff_of_true rfl (covers_append.mpr (.inl (found_iff.mp rfl)))
  | false =>
    rw [Bool.false_or]
    cases back with
    | nil =>
      rw [if_pos (decide_eq_true (by rw [upper, List.length_nil]; omega)), List.append_nil]
      exact found_iff
    | cons q back =>
      rw [List.length_cons] at upper
      rw [if_neg (by rw [decide_eq_true_eq]; omega), returns_includesRound h position, Returns.some_iff]
      refine ⟨⟨front ++ [q], back, List.append_cons _ _ _, ?_, ?_⟩, by dsimp only; omega⟩
      · rw [List.length_append, List.length_singleton]
        dsimp only
        omega
      · rw [decide_eq_true_eq, covers_append, ← found_iff, covers_cons, or_iff_left not_covers_nil]
        exact (or_iff_right nofun).symm

/-- `includes_integer` finds exactly what the ranges of a canonical table cover. -/
theorem returns_includesInteger (h : Represents values ⟨low, bounds ranges⟩) (canonical : Canonical ranges)
    (nonempty : ranges ≠ []) (v : Int) :
    Returns (includesInteger values v) fun found => found = true ↔ Covers ranges v := by
  have search := returns_search h v
  have lower : values.lower = low := h.lower_eq
  have upper := h.upper_bounds
  have lowest : Returns (values.item values.lower) fun x => v < x → ¬Covers ranges v := by
    obtain ⟨q, back, rfl⟩ := List.exists_cons_of_ne_nil nonempty
    have whole : Represents values ⟨low, bounds ([] ++ q :: back)⟩ := h
    have first := whole.item_lower (i := values.lower) (by rw [List.length_nil]; omega)
    rw [first, Returns.some_iff]
    intro less ⟨p, mem, low, high⟩
    have bounds := canonical.nonempty q List.mem_cons_self
    rcases List.mem_cons.mp mem with rfl | behind
    · omega
    · have apart := (List.pairwise_cons.mp canonical.apart).1 p behind
      omega
  have highest : Returns (values.item values.upper) fun x => x < v → ¬Covers ranges v := by
    obtain ⟨front, q, rfl⟩ := (List.eq_nil_or_concat ranges).resolve_left nonempty
    rw [List.concat_eq_append] at *
    rw [List.length_append, List.length_singleton] at upper
    rw [h.item_upper (i := values.upper) (by omega), Returns.some_iff]
    intro less ⟨p, mem, low, high⟩
    rcases List.mem_append.mp mem with before | last
    · have bounds := canonical.nonempty q (by simp)
      have apart := (List.pairwise_append.mp canonical.apart).2.2 p before q List.mem_cons_self
      omega
    · rw [List.mem_singleton.mp last] at high
      omega
  unfold includesInteger
  refine lowest.bind fun x below => ?_
  split
  · refine highest.bind fun y above => ?_
    split
    · exact search.bind fun t found => Returns.pure_iff.mpr found
    · exact Returns.pure_iff.mpr (iff_of_false nofun (above (by omega)))
  · exact Returns.pure_iff.mpr (iff_of_false nofun (below (by omega)))

end WhenItem

end Ranges

end Liberty
