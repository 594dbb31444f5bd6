import Liberty.Kernel.SafeEqual
import Liberty.Storage.NativeArray
import Liberty.Storage.RingArrayResizing

/-!
# Searching a RING_ARRAY

The searches go through one or two segments of the storage.  They are compared with a scan of the
items from the lower index to the upper one.
-/

namespace Liberty

/-! ## NATIVE_ARRAY -/

namespace NativeArray

variable {α : Type}

/-- `index_of`, `fast_index_of` -/
def indexWhere (same : α → Bool) (s : NativeArray α) (startIndex upper : Int) : Option Int :=
  scanUp (fun i => do return same (← s.item i)) startIndex upper

/-- `first_index_of`, `fast_first_index_of` -/
def firstIndexWhere (same : α → Bool) (s : NativeArray α) (upper : Int) : Option Int :=
  scanUp (fun i => do return same (← s.item i)) 0 upper

/-- `occurrences`, `fast_occurrences` -/
def occurrencesWhere (same : α → Bool) (s : NativeArray α) (upper : Int) : Option Int :=
  countDown (fun i => do return same (← s.item i)) upper 0

/-- `slice_occurrences`, `slice_fast_occurrences` -/
def sliceOccurrencesWhere (same : α → Bool) (s : NativeArray α) (lower upper : Int) : Option Int :=
  countUp (fun i => do return same (← s.item i)) lower upper

/-- `replace_all`, `fast_replace_all` -/
def replaceWhere (same : α → Bool) (s : NativeArray α) (newValue : α) (upper : Int) :
    Option (NativeArray α) := do
  let (s, _) ← untilLoop (fun s : NativeArray α × Int => some (decide (s.2 < 0)))
    (fun (s, i) => do
      if same (← s.item i) then
        return (← s.put newValue i, i - 1)
      else
        return (s, i - 1))
    (upper + 1).toNat (s, upper)
  return s

variable {s : NativeArray α} {same : α → Bool} {start upper : Int} {xs : List α}

theorem Holds.testsWhere (h : Holds s start xs) (same : α → Bool) :
    Tests (fun i => do return same (← s.item i)) start same xs := by
  intro k x found
  dsimp only
  rw [h.item_eq found]
  rfl

theorem Holds.indexWhere_eq (h : Holds s start xs) (same : α → Bool)
    (length : upper + 1 = start + xs.length) :
    s.indexWhere same start upper = some (start + xs.findIdx same) :=
  scanUp_eq (h.testsWhere same) length

theorem Holds.firstIndexWhere_eq (h : Holds s 0 xs) (same : α → Bool)
    (length : upper + 1 = xs.length) : s.firstIndexWhere same upper = some (xs.findIdx same : Int) := by
  have found := scanUp_eq (h.testsWhere same) (show upper + 1 = 0 + (xs.length : Int) by omega)
  rwa [Int.zero_add] at found

theorem Holds.occurrencesWhere_eq (h : Holds s 0 xs) (same : α → Bool)
    (length : upper + 1 = xs.length) : s.occurrencesWhere same upper = some (xs.countP same : Int) :=
  countDown_eq (h.testsWhere same) (by omega)

theorem Holds.sliceOccurrencesWhere_eq (h : Holds s start xs) (same : α → Bool)
    (length : upper + 1 = start + xs.length) :
    s.sliceOccurrencesWhere same start upper = some (xs.countP same : Int) :=
  countUp_eq (h.testsWhere same) length

/-- `replace_all` replaces in the cells up to `upper` only. -/
theorem returns_replaceWhere (same : α → Bool) (newValue : α) (low : -1 ≤ upper)
    (high : upper < s.size) :
    Returns (s.replaceWhere same newValue upper) fun s' => s'.size = s.size ∧ ∀ k, s'.cell k =
      if (0 ≤ k ∧ k ≤ upper) ∧ same (s.cell k) = true then newValue else s.cell k := by
  unfold replaceWhere
  rw [Returns.bind_iff]
  refine returns_untilLoop (fun t : NativeArray α × Int =>
      (t.1.size = s.size ∧ -1 ≤ t.2 ∧ t.2 ≤ upper) ∧ ∀ k, t.1.cell k =
        if (t.2 < k ∧ k ≤ upper) ∧ same (s.cell k) = true then newValue else s.cell k)
    (fun t => (t.2 + 1).toNat) ⟨⟨rfl, low, Int.le_refl _⟩, fun k => ?_⟩ (Int.toNat_le_toNat (Int.le_refl _))
    ?_
  · rw [if_neg (fun both => by dsimp only at both; omega)]
  · intro t inv
    obtain ⟨t, i⟩ := t
    obtain ⟨⟨size, least, most⟩, cells⟩ := inv
    dsimp only at size least most cells ⊢
    rw [Returns.some_iff]
    split
    · rename_i stopped
      rw [decide_eq_true_eq] at stopped
      rw [Returns.pure_iff]
      refine ⟨size, fun k => ?_⟩
      rw [cells k]
      congr 1
      rw [eq_iff_iff]
      constructor <;> intro both <;> exact ⟨by omega, both.2⟩
    · rename_i going
      rw [decide_eq_true_eq] at going
      rw [Returns.bind_iff, returns_item]
      refine ⟨by omega, ?_⟩
      have here : t.cell i = s.cell i := by
        rw [cells i, if_neg (by omega)]
      rw [here]
      cases hit : same (s.cell i) with
      | true =>
        rw [if_pos rfl, Returns.bind_iff, returns_put, Returns.pure_iff]
        refine ⟨by omega, ⟨⟨size, by omega, by omega⟩, fun k => ?_⟩, by omega⟩
        rw [cell_set]
        by_cases now : k = i
        · rw [if_pos now, now, if_pos ⟨by omega, hit⟩]
        · rw [if_neg now, cells k]
          congr 1
          rw [eq_iff_iff]
          constructor <;> intro both <;> exact ⟨by omega, both.2⟩
      | false =>
        rw [if_neg Bool.false_ne_true, Returns.pure_iff]
        refine ⟨⟨⟨size, by omega, by omega⟩, fun k => ?_⟩, by omega⟩
        rw [cells k]
        congr 1
        rw [eq_iff_iff]
        constructor
        · intro both
          exact ⟨by omega, both.2⟩
        · intro both
          have now : k ≠ i := by
            intro now
            rw [now, hit] at both
            cases both.2
          exact ⟨by omega, both.2⟩

end NativeArray

/-! ## The source -/

namespace RingArray

variable {α : Type}

/-- `first_index_of`, `fast_first_index_of` -/
def firstIndexWhere (same : α → Bool) (r : RingArray α) : Option Int :=
  if r.upper < r.lower then
    some (r.upper + 1)
  else
    let sU := r.storageUpper
    if r.storageLower ≤ sU then do
      return (← r.storage.indexWhere same r.storageLower sU) + r.lower - r.storageLower
    else do
      let result ← r.storage.indexWhere same r.storageLower (r.capacity - 1)
      if result = r.capacity then
        return (← r.storage.firstIndexWhere same sU) + r.upper - sU
      else
        return result + r.lower - r.storageLower

/-- `index_of`, `fast_index_of` -/
def indexWhere (same : α → Bool) (r : RingArray α) (startIndex : Int) : Option Int :=
  if r.upper < r.lower then
    some (r.upper + 1)
  else
    let sU := r.storageUpper
    let sStartIndex := r.storageIndex startIndex
    if sStartIndex ≤ sU then do
      return (← r.storage.indexWhere same sStartIndex sU) + r.lower - r.storageLower
    else do
      let result ← r.storage.indexWhere same sStartIndex (r.capacity - 1)
      if result = r.capacity then
        return (← r.storage.firstIndexWhere same sU) + r.upper - sU
      else
        return result + r.lower - r.storageLower

/-- `reverse_index_of`, `fast_reverse_index_of` -/
def reverseIndexWhere (same : α → Bool) (r : RingArray α) (startIndex : Int) : Option Int :=
  scanDown (fun i => do return same (← r.item i)) startIndex r.lower

/-- `occurrences`, `fast_occurrences` -/
def occurrencesWhere (same : α → Bool) (r : RingArray α) : Option Int :=
  if r.upper < r.lower then
    some 0
  else
    let sU := r.storageUpper
    if r.storageLower ≤ sU then
      r.storage.sliceOccurrencesWhere same r.storageLower sU
    else do
      return (← r.storage.occurrencesWhere same sU) +
        (← r.storage.sliceOccurrencesWhere same r.storageLower (r.capacity - 1))

/-- `replace_all`, `fast_replace_all` of ARRAYED_COLLECTION -/
def replaceWhere (same : α → Bool) (r : RingArray α) (newValue : α) : Option (RingArray α) := do
  return { r with storage := ← r.storage.replaceWhere same newValue (r.count - 1) }

def firstIndexOf (E : SafeEqual α) (r : RingArray α) (element : α) : Option Int :=
  r.firstIndexWhere (E.test element)

def indexOf (E : SafeEqual α) (r : RingArray α) (element : α) (startIndex : Int) : Option Int :=
  r.indexWhere (E.test element) startIndex

def reverseIndexOf (E : SafeEqual α) (r : RingArray α) (element : α) (startIndex : Int) :
    Option Int :=
  r.reverseIndexWhere (fun x => E.test x element) startIndex

def fastFirstIndexOf (E : SafeEqual α) (r : RingArray α) (element : α) : Option Int :=
  r.firstIndexWhere (E.identical element)

def fastIndexOf (E : SafeEqual α) (r : RingArray α) (element : α) (startIndex : Int) : Option Int :=
  r.indexWhere (E.identical element) startIndex

def fastReverseIndexOf (E : SafeEqual α) (r : RingArray α) (element : α) (startIndex : Int) :
    Option Int :=
  r.reverseIndexWhere (fun x => E.identical x element) startIndex

def occurrences (E : SafeEqual α) (r : RingArray α) (element : α) : Option Int :=
  r.occurrencesWhere (E.test element)

def fastOccurrences (E : SafeEqual α) (r : RingArray α) (element : α) : Option Int :=
  r.occurrencesWhere (E.identical element)

def replaceAll (E : SafeEqual α) (r : RingArray α) (oldValue newValue : α) :
    Option (RingArray α) :=
  r.replaceWhere (E.test oldValue) newValue

end RingArray

/-! ## A scan of the items -/

namespace Sequence

variable {α : Type}

/-- The index of the first item from `start` on that passes the test, the index behind the last one
where none does. -/
def indexFrom (same : α → Bool) (s : Sequence α) (start : Int) : Int :=
  s.lower + (min (s.position start + (s.items.drop (s.position start)).findIdx same) s.items.length : ℕ)

def occurrencesWhere (same : α → Bool) (s : Sequence α) : Int :=
  s.items.countP same

def replaced (same : α → Bool) (s : Sequence α) (newValue : α) : Sequence α :=
  { s with items := s.items.map fun x => if same x then newValue else x }

theorem indexFrom_of_nil {s : Sequence α} (nil : s.items = []) (same : α → Bool) (start : Int) :
    s.indexFrom same start = s.upper + 1 := by
  unfold indexFrom upper
  rw [nil, List.length_nil, Nat.min_zero]
  omega

theorem indexFrom_of_valid {s : Sequence α} (same : α → Bool) {start : Int}
    (valid : s.ValidIndex start) :
    s.indexFrom same start = start + (s.items.drop (s.position start)).findIdx same := by
  have bound := (s.items.drop (s.position start)).findIdx_le_length (p := same)
  rw [List.length_drop] at bound
  unfold ValidIndex upper at valid
  unfold indexFrom
  unfold position at bound ⊢
  omega

end Sequence

/-! ## What the searches answer -/

namespace RingArray

variable {α : Type} [Inhabited α] {r : RingArray α}

omit [Inhabited α] in
theorem getElem?_items (h : Valid r) {k : ℕ} {x : α} (found : r.sequence.items[k]? = some x) :
    r.view k = x ∧ (k : Int) < r.count := by
  have length := length_sequence h
  have inside := (List.getElem?_eq_some_iff.mp found).1
  have same := (represents_sequence h).view_eq k inside
  exact ⟨Option.some.inj (same.symm.trans found), by omega⟩

theorem holds_row (h : Valid r) (nonempty : 0 < r.count)
    (row : r.storageLower ≤ r.slot (r.count - 1)) :
    NativeArray.Holds r.storage r.storageLower r.sequence.items := by
  have length := length_sequence h
  have last := slot_inside h (show 0 ≤ r.count - 1 by omega) (by have := h.count_le; omega)
  have there := slot_eq_of_not_wrapped h row (show 0 ≤ r.count - 1 by omega) (by omega)
  have size := h.size_eq
  refine ⟨h.storageLower_nonneg, by omega, fun k x found => ?_⟩
  obtain ⟨rfl, inside⟩ := getElem?_items h found
  rw [Int.add_comm, ← slot_eq_of_not_wrapped h row (Int.natCast_nonneg k) inside]
  rfl

/-- The number of items before the wrap point. -/
def ahead (r : RingArray α) : ℕ :=
  (r.capacity - r.storageLower).toNat

omit [Inhabited α] in
/-- The items before the wrap point, and those behind it. -/
theorem holds_wrapped (h : Valid r) (nonempty : 0 < r.count)
    (wrapped : r.slot (r.count - 1) < r.storageLower) :
    NativeArray.Holds r.storage r.storageLower (r.sequence.items.take r.ahead) ∧
      NativeArray.Holds r.storage 0 (r.sequence.items.drop r.ahead) ∧
        (r.ahead : Int) = r.capacity - r.storageLower ∧
          r.slot (r.count - 1) + 1 + r.ahead = r.sequence.items.length := by
  have length := length_sequence h
  have le := h.count_le
  have nonneg := h.storageLower_nonneg
  have less := h.storageLower_lt (by omega)
  have size := h.size_eq
  have ahead_eq : (r.ahead : Int) = r.capacity - r.storageLower := by
    unfold ahead
    omega
  have last : r.slot (r.count - 1) + 1 + r.ahead = r.sequence.items.length := by
    unfold slot at wrapped ⊢
    split at wrapped <;> omega
  have inside := slot_inside h (show 0 ≤ r.count - 1 by omega) (by omega)
  refine ⟨⟨nonneg, ?_, fun k x found => ?_⟩, ⟨Int.le_refl 0, ?_, fun k x found => ?_⟩, ahead_eq, last⟩
  · rw [List.length_take]
    omega
  · have within := (List.getElem?_eq_some_iff.mp found).1
    rw [List.length_take] at within
    rw [List.getElem?_take_of_lt (by omega)] at found
    obtain ⟨rfl, inside⟩ := getElem?_items h found
    change _ = r.storage.cell (r.slot k)
    unfold slot
    rw [if_neg (by omega), Int.add_comm]
  · rw [List.length_drop]
    omega
  · rw [List.getElem?_drop] at found
    obtain ⟨rfl, inside⟩ := getElem?_items h found
    change _ = r.storage.cell (r.slot _)
    unfold slot
    rw [if_pos (by omega)]
    congr 1
    omega

section Searches

variable {same : α → Bool} {start : Int}

/-- A search that starts before the wrap point. -/
theorem indexWhere_ahead (h : Valid r) (same : α → Bool) {p : ℕ} (position : start = r.lower + p)
    (high : start ≤ r.upper) (wrapped : r.slot (r.count - 1) < r.storageLower)
    (inFirst : r.storageLower + p < r.capacity) :
    r.indexWhere same start = some (start + (r.sequence.items.drop p).findIdx same) := by
  have countEq := count_eq r
  have le := h.count_le
  have upper := slot_inside h (show 0 ≤ r.count - 1 by omega) (by omega)
  have length := length_sequence h
  obtain ⟨first, second, ahead, last⟩ := holds_wrapped h (by omega) wrapped
  have here : r.slot (start - r.lower) = r.storageLower + p := by
    unfold slot
    omega
  have halves : r.sequence.items.drop p =
      (r.sequence.items.take r.ahead).drop p ++ r.sequence.items.drop r.ahead := by
    rw [← List.drop_append_of_le_length, List.take_append_drop]
    rw [List.length_take]
    omega
  have lengthTake : (r.sequence.items.take r.ahead).length = r.ahead := by
    rw [List.length_take]
    omega
  have rest := first.drop (n := p) (by omega)
  have lengthRest : ((r.sequence.items.take r.ahead).drop p).length = r.ahead - p := by
    rw [List.length_drop, lengthTake]
  have lengthBehind : ((r.sequence.items.drop r.ahead).length : Int) = r.slot (r.count - 1) + 1 := by
    rw [List.length_drop]
    omega
  have found : ((r.sequence.items.take r.ahead).drop p).findIdx same ≤
      ((r.sequence.items.take r.ahead).drop p).length := List.findIdx_le_length
  unfold indexWhere
  rw [if_neg (by omega)]
  rw [storageUpper_eq, storageIndex_eq, here, if_neg (by omega),
    rest.indexWhere_eq same (show r.capacity - 1 + 1 = _ by omega), Returns.some_bind, halves,
    List.findIdx_append]
  by_cases missing : ((r.sequence.items.take r.ahead).drop p).findIdx same = r.ahead - p
  · rw [if_pos (by omega), second.firstIndexWhere_eq same (by omega), if_neg (by omega)]
    change some _ = some _
    congr 1
    omega
  · rw [if_neg (by omega), if_pos (by omega)]
    congr 1
    omega

/-- A search that starts behind the wrap point. -/
theorem indexWhere_behind (h : Valid r) (same : α → Bool) {p : ℕ} (position : start = r.lower + p)
    (high : start ≤ r.upper) (wrapped : r.slot (r.count - 1) < r.storageLower)
    (inSecond : r.capacity ≤ r.storageLower + p) :
    r.indexWhere same start =
      some (start + (r.sequence.items.drop p).findIdx same - r.capacity) := by
  have countEq := count_eq r
  have length := length_sequence h
  obtain ⟨first, second, ahead, last⟩ := holds_wrapped h (by omega) wrapped
  have here : r.slot (start - r.lower) = p - r.ahead := by
    unfold slot
    omega
  have rest := second.drop (n := p - r.ahead) (by rw [List.length_drop]; omega)
  rw [List.drop_drop, show r.ahead + (p - r.ahead) = p by omega,
    show 0 + ((p - r.ahead : ℕ) : Int) = p - r.ahead by omega] at rest
  have lengthRest : ((r.sequence.items.drop p).length : Int) = r.count - p := by
    rw [List.length_drop]
    omega
  unfold indexWhere
  rw [if_neg (by omega)]
  rw [storageUpper_eq, storageIndex_eq, here, if_pos (by omega),
    rest.indexWhere_eq same (by omega), Returns.some_bind]
  congr 1
  omega

/-- A search among items that are not wrapped. -/
theorem indexWhere_row (h : Valid r) (same : α → Bool) {p : ℕ} (position : start = r.lower + p)
    (high : start ≤ r.upper) (row : r.storageLower ≤ r.slot (r.count - 1)) :
    r.indexWhere same start = some (start + (r.sequence.items.drop p).findIdx same) := by
  have countEq := count_eq r
  have length := length_sequence h
  have here := slot_eq_of_not_wrapped h row (show 0 ≤ start - r.lower by omega) (by omega)
  have there := slot_eq_of_not_wrapped h row (show 0 ≤ r.count - 1 by omega) (by omega)
  have rest := (holds_row h (by omega) row).drop (n := p) (by omega)
  have lengthRest : ((r.sequence.items.drop p).length : Int) = r.count - p := by
    rw [List.length_drop]
    omega
  unfold indexWhere
  rw [if_neg (by omega)]
  rw [storageUpper_eq, storageIndex_eq, here, there, if_pos (by omega),
    show start - r.lower + r.storageLower = r.storageLower + p by omega,
    rest.indexWhere_eq same (by omega), Returns.some_bind]
  congr 1
  omega

/-- `index_of` takes the distance to the lower index from the beginning of the first segment, also
when it starts in the second one. -/
theorem indexWhere_eq (h : Valid r) (same : α → Bool) (valid : r.ValidIndex start) :
    r.indexWhere same start = some (r.sequence.indexFrom same start -
      if r.storageLower ≤ r.storageIndex start then 0 else r.capacity) := by
  have le := h.count_le
  have countEq := count_eq r
  have validS : r.sequence.ValidIndex start := ⟨valid.1, (represents_sequence h).upper_eq ▸ valid.2⟩
  obtain ⟨low, high⟩ := valid
  have position : start = r.lower + (r.sequence.position start : Int) := by
    change _ = r.lower + ((start - r.lower).toNat : Int)
    omega
  have slot_eq : r.storageIndex start = if start - r.lower + r.storageLower ≥ r.capacity
      then start - r.lower + r.storageLower - r.capacity else start - r.lower + r.storageLower := rfl
  rw [Sequence.indexFrom_of_valid same validS]
  rcases Int.lt_or_le (r.slot (r.count - 1)) r.storageLower with wrapped | row
  · rcases Int.lt_or_le (start - r.lower + r.storageLower) r.capacity with inFirst | inSecond
    · have here := slot_eq.trans (if_neg (by omega))
      rw [indexWhere_ahead h same position high wrapped (by omega), if_pos (by omega), Int.sub_zero]
    · have here := slot_eq.trans (if_pos (by omega))
      rw [indexWhere_behind h same position high wrapped (by omega), if_neg (by omega)]
  · have here := slot_eq_of_not_wrapped h row (show 0 ≤ start - r.lower by omega) (by omega)
    rw [indexWhere_row h same position high row, storageIndex_eq, if_pos (by omega), Int.sub_zero]

/-- `first_index_of` is `index_of` from the lower index on. -/
theorem firstIndexWhere_eq (h : Valid r) (same : α → Bool) :
    r.firstIndexWhere same = some (r.sequence.indexFrom same r.lower) := by
  have countEq := count_eq r
  by_cases empty : r.upper < r.lower
  · have nil : r.sequence.items = [] := by
      have length := length_sequence h
      rw [← List.length_eq_zero_iff]
      omega
    unfold firstIndexWhere
    rw [if_pos empty, Sequence.indexFrom_of_nil nil, (represents_sequence h).upper_eq]
  · have le := h.count_le
    have less := h.storageLower_lt (by omega)
    have here : r.storageIndex r.lower = r.storageLower := by
      unfold storageIndex
      dsimp only
      omega
    have general := indexWhere_eq h same (show r.ValidIndex r.lower from ⟨Int.le_refl _, by omega⟩)
    rw [here, if_pos (Int.le_refl _), Int.sub_zero] at general
    rw [← general]
    unfold firstIndexWhere indexWhere
    rw [here]

theorem occurrencesWhere_eq (h : Valid r) (same : α → Bool) :
    r.occurrencesWhere same = some (r.sequence.occurrencesWhere same) := by
  have countEq := count_eq r
  have length := length_sequence h
  unfold occurrencesWhere
  by_cases empty : r.upper < r.lower
  · have nil : r.sequence.items = [] := by
      rw [← List.length_eq_zero_iff]
      omega
    rw [if_pos empty]
    unfold Sequence.occurrencesWhere
    rw [nil]
    rfl
  · rw [if_neg empty]
    rw [storageUpper_eq]
    rcases Int.lt_or_le (r.slot (r.count - 1)) r.storageLower with wrapped | row
    · obtain ⟨first, second, ahead, last⟩ := holds_wrapped h (by omega) wrapped
      have inside := slot_inside h (show 0 ≤ r.count - 1 by omega) (by omega)
      rw [if_neg (by omega), second.occurrencesWhere_eq same (by rw [List.length_drop]; omega),
        Returns.some_bind, first.sliceOccurrencesWhere_eq same (by rw [List.length_take]; omega)]
      have total : r.sequence.items.countP same = (r.sequence.items.take r.ahead).countP same +
          (r.sequence.items.drop r.ahead).countP same := by
        rw [← List.countP_append, List.take_append_drop]
      unfold Sequence.occurrencesWhere
      rw [total, Int.natCast_add, Int.add_comm]
      rfl
    · have there := slot_eq_of_not_wrapped h row (show 0 ≤ r.count - 1 by omega) (by omega)
      rw [if_pos row, (holds_row h (by omega) row).sliceOccurrencesWhere_eq same (by omega)]
      rfl

omit [Inhabited α] in
theorem returns_replaceWhere (h : Valid r) (same : α → Bool) (newValue : α) :
    Returns (r.replaceWhere same newValue) fun r' => SameShape r r' ∧
      ∀ k, 0 ≤ k → k < r.count → r'.view k =
        if r.slot k < r.count ∧ same (r.view k) = true then newValue else r.view k := by
  have nonneg := h.count_nonneg
  have le := h.count_le
  have size := h.size_eq
  unfold replaceWhere
  refine (NativeArray.returns_replaceWhere same newValue (show -1 ≤ r.count - 1 by omega)
    (by omega)).bind fun s replaced => ?_
  rw [Returns.pure_iff]
  refine ⟨⟨⟨replaced.1.trans size, nonneg, le, h.storageLower_nonneg, h.storageLower_lt,
    h.storageLower_small⟩, rfl, rfl, rfl, rfl⟩, fun k low high => ?_⟩
  have inside := slot_inside h low (by omega)
  change s.cell (r.slot k) = _
  rw [replaced.2]
  unfold view
  congr 1
  rw [eq_iff_iff]
  constructor <;> intro both <;> exact ⟨by omega, both.2⟩

end Searches

/-! ## The agreement -/

end RingArray

/-!
## Runs of RING_ARRAY

The arrays that a program comes to with every command, and what `resize`, `force`, the searches and
`replace_all` do with them.
-/

namespace RingArray

variable {α : Type} [Inhabited α]

/-! ## Runs -/

/-- The arrays that a program comes to.  Along the run, `clear_count_and_capacity` leaves
`storageLower` in the first storage that the array gets afterwards. -/
inductive Arrives : RingArray α → Prop
  | creation {r : RingArray α} (c : Creation α) (allowed : c.Allowed) (run : c.run = some r) :
      Arrives r
  | command {r r' : RingArray α} (command : Command α) (before : Arrives r)
      (allowed : r.sequence.Allowed command) (inside : ClearsInside r command)
      (run : r.execute command = some r') : Arrives r'
  | resize {r r' : RingArray α} (minIndex maxIndex : Int) (before : Arrives r)
      (bounds : minIndex ≤ maxIndex + 1)
      (inside : r.capacity = 0 → minIndex ≤ maxIndex → r.storageLower ≤ maxIndex - minIndex)
      (run : r.resize minIndex maxIndex = some r') : Arrives r'
  | force {r r' : RingArray α} (element : α) (index : Int) (before : Arrives r)
      (inside : r.capacity = 0 → index < r.lower - 1 ∨ r.upper + 1 < index →
        r.storageLower ≤ max index r.upper - min index r.lower)
      (run : r.force element index = some r') : Arrives r'
  | setAllWith {r r' : RingArray α} (v : α) (before : Arrives r)
      (run : r.setAllWith v = some r') : Arrives r'
  | replaceWhere {r r' : RingArray α} (same : α → Bool) (newValue : α) (before : Arrives r)
      (run : r.replaceWhere same newValue = some r') : Arrives r'

section Runs

variable {r r' : RingArray α} {minIndex maxIndex : Int}

theorem valid_resize (h : Valid r) (bounds : minIndex ≤ maxIndex + 1)
    (inside : r.capacity = 0 → minIndex ≤ maxIndex → r.storageLower ≤ maxIndex - minIndex)
    (run : r.resize minIndex maxIndex = some r') : Valid r' := by
  by_cases none : r.capacity = 0
  · have nonneg := h.storageLower_nonneg
    rcases Int.lt_or_le maxIndex minIndex with empty | positive
    · have same : r.resize minIndex maxIndex =
          some { r with lower := minIndex, upper := maxIndex } := if_neg (by omega)
      cases same.symm.trans run
      refine ⟨h.size_eq, ?_, ?_, nonneg, h.storageLower_lt, h.storageLower_small⟩
      · change 0 ≤ maxIndex - minIndex + 1
        omega
      · change maxIndex - minIndex + 1 ≤ r.capacity
        omega
    · have fits := inside none positive
      obtain ⟨lower, upper, capacity, size, origin, -⟩ :=
        (returns_resize_blank h none positive (by omega)).unique run
      refine ⟨size, ?_, ?_, by omega, fun _ => by omega, fun zero => by omega⟩
      · rw [count_eq]
        omega
      · rw [count_eq]
        omega
  · exact ((returns_resize h none bounds).unique run).1

omit [Inhabited α] in
theorem valid_put (h : Valid r) {element : α} {i : Int} (run : r.put element i = some r') :
    Valid r' := by
  obtain ⟨s, written, run⟩ := Option.bind_eq_some_iff.mp run
  cases run
  have size : s.size = r.storage.size := by
    unfold NativeArray.put at written
    split at written
    · cases written
      rfl
    · cases written
  exact ⟨size.trans h.size_eq, h.count_nonneg, h.count_le, h.storageLower_nonneg,
    h.storageLower_lt, h.storageLower_small⟩

theorem valid_force (h : Valid r) {element : α} {index : Int}
    (inside : r.capacity = 0 → index < r.lower - 1 ∨ r.upper + 1 < index →
      r.storageLower ≤ max index r.upper - min index r.lower)
    (run : r.force element index = some r') : Valid r' := by
  have nonneg := h.count_nonneg
  rw [count_eq] at nonneg
  unfold force at run
  split at run
  · split at run
    · exact ((view_addLast h element).unique run).1
    · obtain ⟨s, resized, run⟩ := Option.bind_eq_some_iff.mp run
      refine valid_put (valid_resize h (by omega) (fun none _ => ?_) resized) run
      omega
  · split at run
    · split at run
      · obtain ⟨s, added, run⟩ := Option.bind_eq_some_iff.mp run
        cases run
        have valid := ((view_addFirst h element).unique added).1
        have total : (s.reindex (s.lower - 1)).count = s.count := by
          change s.upper + (s.lower - 1) - s.lower - (s.lower - 1) + 1 = s.upper - s.lower + 1
          omega
        exact ⟨valid.size_eq, total ▸ valid.count_nonneg, total ▸ valid.count_le,
          valid.storageLower_nonneg, valid.storageLower_lt, valid.storageLower_small⟩
      · obtain ⟨s, resized, run⟩ := Option.bind_eq_some_iff.mp run
        refine valid_put (valid_resize h (by omega) (fun none _ => ?_) resized) run
        omega
    · exact valid_put h run

theorem Arrives.valid (arrived : Arrives r) : Valid r := by
  induction arrived with
  | creation c allowed run => exact ((c.returns_run allowed).unique run).valid
  | command command _ allowed inside run ih =>
    exact (((represents_sequence ih).execute allowed inside).unique run).valid
  | resize minIndex maxIndex _ bounds inside run ih => exact valid_resize ih bounds inside run
  | force element index _ inside run ih => exact valid_force ih inside run
  | setAllWith v _ run ih => exact ((returns_setAllWith ih v).unique run).1.valid
  | replaceWhere same newValue _ run ih =>
    exact ((returns_replaceWhere ih same newValue).unique run).1.valid

end Runs

end RingArray

end Liberty
