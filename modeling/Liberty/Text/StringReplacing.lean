import Liberty.Library.Loops
import Liberty.Library.Segment
import Liberty.Text.AbstractString
import Liberty.Text.StringCommands

/-!
# substring_index and replacing_in

The slices between the occurrences and the replacements go to the end of a buffer.  `append_substring` counts
the cells before the first character of the buffer as characters, where `append` does not.
-/

namespace Liberty

/-! ## The source -/

namespace AbstractString

/-- `copy_slice_to_native` -/
def copySliceToNative (a : AbstractString) (startIndex endIndex : Int) (target : NativeArray Character)
    (targetOffset : Int) : Option (NativeArray Character) :=
  match a with
  | string s => target.sliceCopy targetOffset s.storage (s.storageLower + startIndex - 1) (s.storageLower + endIndex - 1)
  | fixed s => target.sliceCopy targetOffset s.storage (s.storageLower + startIndex - 1) (s.storageLower + endIndex - 1)
  | rope _ _ => do
      let (target, _) ← untilLoop (fun s => some (decide (s.2.1 > endIndex)))
        (fun s => do return (← s.1.put (← a.item s.2.1) (targetOffset + s.2.2), s.2.1 + 1, s.2.2 + 1))
        (endIndex + 1 - startIndex).toNat (target, startIndex, (0 : Int))
      return target

/-- The inner loop of `substring_index`, which stops where the characters differ. -/
def matchIndex (a other : AbstractString) (s : Int) : Option Int :=
  untilLoop
    (fun i => if i > other.count then some true else do return (← a.item (s + i - 1)) != (← other.item i))
    (fun i => some (i + 1)) other.count.toNat 1

def substringIndex (a other : AbstractString) (startIndex : Int) : Option Int := do
  let (result, _) ← untilLoop (fun t => some (decide (t.1 ≠ 0 ∨ t.2 - 1 + other.count > a.count)))
    (fun (result, s) => do
      let i ← a.matchIndex other s
      return if i > other.count then (s, s) else (result, s + 1))
    (a.count + 1 - startIndex).toNat ((0 : Int), startIndex)
  return result

def firstSubstringIndex (a other : AbstractString) : Option Int :=
  a.substringIndex other 1

end AbstractString

namespace NativelyStoredString

/-- `slice_copy` of a string of any kind -/
def sliceCopyAny (d : NativelyStoredString) (at' : Int) (source : AbstractString) (startIndex endIndex : Int) :
    Option NativelyStoredString :=
  if endIndex ≥ startIndex then do
    return { d with
      storage := ← source.copySliceToNative startIndex endIndex d.storage (at' + d.storageLower) }
  else some d

/-- `append` of a string of any kind -/
def appendAny (d : NativelyStoredString) (s : AbstractString) : Option NativelyStoredString := do
  let neededCapacity := d.count + s.count + d.storageLower
  let d := d.ensureCapacity neededCapacity
  let d ← d.sliceCopyAny d.count s 1 s.count
  return { d with count := neededCapacity - d.storageLower }

/-- `append_substring` of a string of any kind -/
def appendSubstringAny (d : NativelyStoredString) (s : AbstractString) (startIndex endIndex : Int) :
    Option NativelyStoredString := do
  let neededCapacity := d.count + d.storageLower + endIndex - startIndex + 1
  let d := d.ensureCapacity neededCapacity
  let d ← d.sliceCopyAny d.count s startIndex endIndex
  return { d with count := neededCapacity }

end NativelyStoredString

namespace AbstractString

/-- A round of `replacing_in`, with `cut_from`, `i` and the buffer. -/
def replaceNext (a anOld aNew : AbstractString) (s : Int × Int × NativelyStoredString) :
    Option (Int × Int × NativelyStoredString) := do
  let buffer ← s.2.2.appendSubstringAny a s.1 (s.2.1 - 1)
  let buffer ← buffer.appendAny aNew
  return (s.2.1 + anOld.count, ← a.substringIndex anOld (s.2.1 + anOld.count), buffer)

def replacingIn (a anOld aNew : AbstractString) (buffer : NativelyStoredString) : Option NativelyStoredString := do
  let i ← a.firstSubstringIndex anOld
  let (cutFrom, _, buffer) ← untilLoop (fun s => some !(a.validIndex s.2.1)) (a.replaceNext anOld aNew)
    a.count.toNat (1, i, buffer)
  buffer.appendSubstringAny a cutFrom a.count

end AbstractString

/-! ## The search -/

namespace AbstractString

variable {a other : AbstractString} {i s start : Int}

/-- The inner loop ends behind `other` exactly where it occurs. -/
theorem Readable.returns_matchIndex (h : a.Readable) (h' : other.Readable) (low : 1 ≤ s)
    (high : s - 1 + other.count ≤ a.count) : Returns (a.matchIndex other s) fun i =>
      i > other.count ↔ OccursAt other.chars a.chars (s - 1).toNat := by
  have count := h.spells.count_eq
  have count' := h'.spells.count_eq
  refine returns_untilLoop
    (fun i => 1 ≤ i ∧ i ≤ other.count + 1 ∧
      ∀ k : ℕ, (k : Int) < i - 1 → other.chars[k]? = a.chars[(s - 1).toNat + k]?)
    (fun i => (other.count + 1 - i).toNat) ⟨Int.le_refl 1, by omega, fun k less => by omega⟩ (by omega) ?_
  intro i ⟨first, last, same⟩
  by_cases ended : i > other.count
  · rw [if_pos ended, Returns.some_iff, if_pos rfl]
    exact iff_of_true ended (occursAt_iff.mpr fun k less => same k (by omega))
  · have less : (i - 1).toNat < other.chars.length := by omega
    have less' : (s - 1).toNat + (i - 1).toNat < a.chars.length := by omega
    have found := h.spells.item_eq _ _ (List.getElem?_eq_getElem less')
    have found' := h'.spells.item_eq _ _ (List.getElem?_eq_getElem less)
    rw [show (((s - 1).toNat + (i - 1).toNat : ℕ) : Int) + 1 = s + i - 1 by omega] at found
    rw [show ((i - 1).toNat : Int) + 1 = i by omega] at found'
    rw [if_neg ended, found, Returns.some_bind, found', Returns.some_bind, Returns.pure_iff]
    split
    · rename_i different
      refine iff_of_false ended fun occurs => ?_
      have equal := occursAt_iff.mp occurs _ less
      rw [List.getElem?_eq_getElem less, List.getElem?_eq_getElem less', Option.some_inj] at equal
      rw [equal] at different
      exact absurd different (by rw [bne_self_eq_false]; exact Bool.false_ne_true)
    · rename_i equal
      rw [Returns.some_iff]
      refine ⟨⟨by omega, by omega, fun k before => ?_⟩, by omega⟩
      by_cases here : k = (i - 1).toNat
      · rw [here, List.getElem?_eq_getElem less, List.getElem?_eq_getElem less']
        refine congrArg some ?_
        by_contra different
        exact equal (bne_iff_ne.mpr fun e => different e.symm)
      · exact same k (by omega)

/-- The first place from `start` on where `p` occurs, or the invalid index 0. -/
def FirstFrom (p xs : List Character) (start i : Int) : Prop :=
  (start ≤ i ∧ OccursAt p xs (i - 1).toNat ∧ ∀ j, start ≤ j → j < i → ¬OccursAt p xs (j - 1).toNat) ∨
    (i = 0 ∧ ∀ j, start ≤ j → ¬OccursAt p xs (j - 1).toNat)

/-- **`substring_index` finds the first place** from the start on. -/
theorem Readable.returns_substringIndex (h : a.Readable) (h' : other.Readable) (nonempty : other.chars ≠ [])
    (low : 1 ≤ start) : Returns (a.substringIndex other start) (FirstFrom other.chars a.chars start) := by
  have count := h.spells.count_eq
  have count' := h'.spells.count_eq
  have positive := List.length_pos_iff.mpr nonempty
  unfold substringIndex
  rw [Returns.bind_iff]
  refine returns_untilLoop
    (fun t => start ≤ t.2 ∧ (∀ j, start ≤ j → j < t.2 → ¬OccursAt other.chars a.chars (j - 1).toNat) ∧
      (t.1 ≠ 0 → t.1 = t.2 ∧ OccursAt other.chars a.chars (t.2 - 1).toNat))
    (fun t => if t.1 ≠ 0 then 0 else (a.count + 1 - t.2).toNat)
    ⟨Int.le_refl _, fun j from_start less => by omega, fun found => absurd rfl found⟩ (Nat.le_refl _) ?_
  rintro ⟨result, s⟩ ⟨first, absent, found⟩
  rw [Returns.some_iff]
  dsimp only at first absent found ⊢
  split
  · rename_i stopped
    rw [Returns.pure_iff]
    rcases of_decide_eq_true stopped with here | short
    · obtain ⟨same, occurs⟩ := found here
      rw [same]
      exact .inl ⟨first, occurs, absent⟩
    · by_cases zero : result = 0
      · refine .inr ⟨zero, fun j from_start occurs => ?_⟩
        have fits := occurs.add_length_le nonempty
        by_cases before : j < s
        · exact absent j from_start before occurs
        · omega
      · obtain ⟨same, occurs⟩ := found zero
        rw [same]
        exact .inl ⟨first, occurs, absent⟩
  · rename_i goes
    have going := fun stopped => goes (decide_eq_true stopped)
    have zero : result = 0 := by
      by_contra here
      exact going (.inl here)
    have fits : s - 1 + other.count ≤ a.count := by
      by_contra short
      exact going (.inr (by omega))
    rw [zero, Returns.bind_iff, if_neg (fun different => different rfl)]
    refine (h.returns_matchIndex h' (by omega) fits).mono fun i matched => ?_
    rw [Returns.pure_iff]
    by_cases here : i > other.count
    · rw [if_pos here]
      have place : s ≠ 0 := by omega
      refine ⟨⟨first, absent, fun _ => ⟨rfl, matched.mp here⟩⟩, ?_⟩
      rw [if_pos place]
      omega
    · rw [if_neg here]
      refine ⟨⟨by dsimp only; omega, fun j from_start less => ?_, fun different => absurd rfl different⟩, ?_⟩
      · by_cases last : j = s
        · rw [last]
          exact fun occurs => here (matched.mpr occurs)
        · exact absent j from_start (by dsimp only at less; omega)
      · rw [if_neg (fun different => different rfl)]
        omega

end AbstractString

/-! ## The copies -/

/-- The characters from `startIndex` to `endIndex`. -/
def sliceOf (xs : List Character) (startIndex endIndex : Int) : List Character :=
  (xs.drop (startIndex - 1).toNat).take (endIndex - startIndex + 1).toNat

section Slices

variable {xs : List Character} {startIndex endIndex : Int}

theorem length_sliceOf (low : 1 ≤ startIndex) (high : endIndex ≤ xs.length) (interval : startIndex ≤ endIndex + 1) :
    ((sliceOf xs startIndex endIndex).length : Int) = endIndex - startIndex + 1 := by
  unfold sliceOf
  rw [List.length_take, List.length_drop]
  omega

theorem getElem?_sliceOf {k : ℕ} {x : Character} (found : (sliceOf xs startIndex endIndex)[k]? = some x) :
    xs[(startIndex - 1).toNat + k]? = some x ∧ startIndex + k ≤ endIndex := by
  have bound := (List.getElem?_eq_some_iff.mp found).1
  unfold sliceOf at found bound
  rw [List.length_take] at bound
  rw [List.getElem?_take_of_lt (by omega), List.getElem?_drop] at found
  exact ⟨found, by omega⟩

end Slices

section Copies

variable {startIndex endIndex targetOffset : Int} {target : NativeArray Character}

/-- The slice is in the target from the offset on, and the other cells are the same. -/
structure Copies (target : NativeArray Character) (targetOffset : Int) (xs : List Character)
    (result : NativeArray Character) : Prop where
  size_eq : result.size = target.size
  segment : Segment result.cell targetOffset xs
  kept : ∀ i, ¬(targetOffset ≤ i ∧ i < targetOffset + xs.length) → result.cell i = target.cell i

theorem NativelyStoredString.Readable.returns_copySlice {s : NativelyStoredString} (h : s.Readable)
    (low : 1 ≤ startIndex) (high : endIndex ≤ s.count) (interval : startIndex ≤ endIndex + 1)
    (first : 0 ≤ targetOffset) (last : targetOffset + (endIndex - startIndex + 1) ≤ target.size) :
    Returns (target.sliceCopy targetOffset s.storage (s.storageLower + startIndex - 1)
      (s.storageLower + endIndex - 1)) (Copies target targetOffset (sliceOf s.chars startIndex endIndex)) := by
  have count := h.count_eq
  have lowest := h.lower_nonneg
  have fits := h.fits
  have length : ((sliceOf s.chars startIndex endIndex).length : Int) = _ :=
    length_sliceOf low (by omega) interval
  refine NativeArray.returns_sliceCopy (fun _ => by omega) fun result size copied kept => ?_
  refine ⟨size, fun k x found => ?_, ?_⟩
  · obtain ⟨found', inside⟩ := getElem?_sliceOf found
    rw [copied _ (by omega) (by omega), ← h.holds.segment _ x found']
    congr 1
    omega
  · intro i outside
    exact kept i (by omega)

end Copies

namespace AbstractString

variable {a : AbstractString} {startIndex endIndex targetOffset : Int} {target : NativeArray Character}

/-- **`copy_slice_to_native`** of a string of any kind. -/
theorem Readable.returns_copySliceToNative (h : a.Readable) (low : 1 ≤ startIndex) (high : endIndex ≤ a.count)
    (interval : startIndex ≤ endIndex + 1) (first : 0 ≤ targetOffset)
    (last : targetOffset + (endIndex - startIndex + 1) ≤ target.size) :
    Returns (a.copySliceToNative startIndex endIndex target targetOffset)
      (Copies target targetOffset (sliceOf a.chars startIndex endIndex)) := by
  cases a with
  | string s => exact NativelyStoredString.Readable.returns_copySlice h low high interval first last
  | fixed s => exact NativelyStoredString.Readable.returns_copySlice h low high interval first last
  | rope left right =>
    have count := h.spells.count_eq
    have length : ((sliceOf (rope left right).chars startIndex endIndex).length : Int) = _ :=
      length_sliceOf low (by omega) interval
    unfold copySliceToNative
    rw [Returns.bind_iff]
    refine returns_untilLoop
      (fun s : NativeArray Character × Int × Int => ∃ k ≤ (sliceOf (rope left right).chars startIndex endIndex).length,
        s.2.1 = startIndex + k ∧ s.2.2 = k ∧
        Copies target targetOffset ((sliceOf (rope left right).chars startIndex endIndex).take k) s.1)
      (fun s => (endIndex + 1 - s.2.1).toNat)
      ⟨0, Nat.zero_le _, (Int.add_zero _).symm, rfl, rfl, segment_nil, fun _ _ => rfl⟩ (Nat.le_refl _) ?_
    rintro ⟨t, i, j⟩ ⟨k, le, rfl, rfl, copies⟩
    rw [Returns.some_iff]
    dsimp only at copies ⊢
    split
    · rename_i stopped
      have past := of_decide_eq_true stopped
      rw [Returns.pure_iff]
      rw [List.take_of_length_le (by omega)] at copies
      exact copies
    · rename_i goes
      have going : ¬startIndex + k > endIndex := fun past => goes (decide_eq_true past)
      have less : k < (sliceOf (rope left right).chars startIndex endIndex).length := by omega
      have found := List.getElem?_eq_getElem less
      obtain ⟨found', inside⟩ := getElem?_sliceOf found
      have item := h.spells.item_eq _ _ found'
      rw [show (((startIndex - 1).toNat + k : ℕ) : Int) + 1 = startIndex + k by omega] at item
      have size := copies.size_eq
      rw [item, Returns.some_bind, Returns.bind_iff, NativeArray.returns_put]
      refine ⟨by omega, ?_⟩
      rw [Returns.pure_iff]
      refine ⟨⟨k + 1, less, by dsimp only; omega, by dsimp only; omega, size, ?_, fun m outside => ?_⟩,
        by dsimp only; omega⟩
      · rw [← List.take_append_getElem less, segment_append, segment_singleton, List.length_take]
        refine ⟨copies.segment.congr fun m low' high' => ?_, ?_⟩
        · rw [List.length_take] at high'
          exact NativeArray.cell_set_of_ne _ _ (by omega)
        · rw [Nat.min_eq_left le]
          exact NativeArray.cell_set_self _ _ _
      · rw [List.length_take] at outside
        have more := copies.kept m (by rw [List.length_take]; omega)
        rw [NativeArray.cell_set_of_ne _ _ (by omega), more]

end AbstractString

namespace NativelyStoredString

section Appending

variable {d d' : NativelyStoredString} {a : AbstractString} {xs : List Character} {neededCapacity startIndex endIndex : Int}

/-- A slice behind the characters of a string whose capacity is enough. -/
theorem Represents.returns_appendSlice (h : Represents d xs) (readable : a.Readable) (low : 1 ≤ startIndex)
    (high : endIndex ≤ a.count) (interval : startIndex ≤ endIndex + 1)
    (needed : neededCapacity = d.count + d.storageLower + (endIndex - startIndex + 1)) :
    Returns ((d.ensureCapacity neededCapacity).sliceCopyAny (d.ensureCapacity neededCapacity).count a startIndex
      endIndex) fun d' => d'.storageLower = d.storageLower ∧
        Represents { d' with count := d.count + (endIndex - startIndex + 1) }
          (xs ++ sliceOf a.chars startIndex endIndex) := by
  have count := h.count_eq
  have lowest := h.valid.lower_nonneg
  have total := readable.spells.count_eq
  have length : ((sliceOf a.chars startIndex endIndex).length : Int) = _ :=
    length_sliceOf low (by omega) interval
  have grown := h.grown neededCapacity (by omega)
  revert grown
  generalize d.ensureCapacity neededCapacity = e
  intro grown
  have h' := h.of_grown grown
  have size := grown.size_eq
  have enough := grown.needed_le
  have lower := grown.lower_eq
  have count' := grown.count_eq
  unfold sliceCopyAny
  split
  · rw [Returns.bind_iff]
    refine (readable.returns_copySliceToNative low high interval (by omega) (by omega)).mono
      fun storage copies => ?_
    rw [Returns.pure_iff]
    refine ⟨lower, ⟨copies.size_eq.trans size, grown.null, ?_, ?_, ?_⟩, ?_, segment_append.mpr ⟨?_, ?_⟩⟩
    · dsimp only
      omega
    · dsimp only
      omega
    · dsimp only
      omega
    · dsimp only
      rw [List.length_append]
      omega
    · exact h'.segment.congr fun i _ _ => copies.kept i (by omega)
    · have segment := copies.segment
      rwa [count', count, Int.add_comm] at segment
  · have empty : sliceOf a.chars startIndex endIndex = [] := List.length_eq_zero_iff.mp (by omega)
    rw [Returns.some_iff, empty, List.append_nil, show d.count + (endIndex - startIndex + 1) = e.count by omega]
    exact ⟨lower, h'⟩

theorem Represents.returns_appendAny (h : Represents d xs) (readable : a.Readable) :
    Returns (d.appendAny a) fun d' => d'.storageLower = d.storageLower ∧ Represents d' (xs ++ a.chars) := by
  have total := readable.spells.count_eq
  have all : sliceOf a.chars 1 a.count = a.chars := by
    unfold sliceOf
    rw [show (a.count - 1 + 1).toNat = a.chars.length by omega, Int.sub_self, Int.toNat_zero, List.drop_zero,
      List.take_length]
  unfold appendAny
  rw [Returns.bind_iff]
  refine (h.returns_appendSlice readable (Int.le_refl 1) (Int.le_refl _) (by omega) (by omega)).mono
    fun e ⟨lower, appended⟩ => ?_
  rw [all] at appended
  rw [Returns.pure_iff, show d.count + a.count + d.storageLower - e.storageLower = d.count + (a.count - 1 + 1)
    by omega]
  exact ⟨lower, appended⟩

/-- `append_substring`, where nothing was removed from the beginning of the string. -/
theorem Represents.returns_appendSubstringAny (h : Represents d xs) (readable : a.Readable) (low : 1 ≤ startIndex)
    (high : endIndex ≤ a.count) (interval : startIndex ≤ endIndex + 1) (zero : d.storageLower = 0) :
    Returns (d.appendSubstringAny a startIndex endIndex) fun d' =>
      d'.storageLower = 0 ∧ Represents d' (xs ++ sliceOf a.chars startIndex endIndex) := by
  unfold appendSubstringAny
  rw [Returns.bind_iff]
  refine (h.returns_appendSlice readable low high interval (by omega)).mono fun e ⟨lower, appended⟩ => ?_
  rw [Returns.pure_iff, show d.count + d.storageLower + endIndex - startIndex + 1 =
    d.count + (endIndex - startIndex + 1) by omega]
  exact ⟨lower.trans zero, appended⟩

/-! ## Counts -/

theorem ensureCapacity_keeps (d : NativelyStoredString) (neededCapacity : Int) :
    (d.ensureCapacity neededCapacity).storageLower = d.storageLower ∧
      (d.ensureCapacity neededCapacity).count = d.count := by
  unfold ensureCapacity
  split
  · exact ⟨rfl, rfl⟩
  · split <;> exact ⟨rfl, rfl⟩

theorem sliceCopyAny_keeps {at' : Int} (run : d.sliceCopyAny at' a startIndex endIndex = some d') :
    d'.storageLower = d.storageLower ∧ d'.count = d.count := by
  unfold sliceCopyAny at run
  split at run
  · obtain ⟨storage, -, same⟩ := Option.bind_eq_some_iff.mp run
    cases same
    exact ⟨rfl, rfl⟩
  · cases run
    exact ⟨rfl, rfl⟩

theorem appendAny_keeps (run : d.appendAny a = some d') :
    d'.storageLower = d.storageLower ∧ d'.count = d.count + a.count := by
  obtain ⟨e, copied, same⟩ := Option.bind_eq_some_iff.mp run
  obtain ⟨lower, count⟩ := sliceCopyAny_keeps copied
  obtain ⟨lower', count'⟩ := ensureCapacity_keeps d (d.count + a.count + d.storageLower)
  cases same
  refine ⟨lower.trans lower', ?_⟩
  dsimp only
  omega

/-- `append_substring` counts the cells before the first character too. -/
theorem appendSubstringAny_keeps (run : d.appendSubstringAny a startIndex endIndex = some d') :
    d'.storageLower = d.storageLower ∧
      d'.count = d.count + d.storageLower + (endIndex - startIndex + 1) := by
  obtain ⟨e, copied, same⟩ := Option.bind_eq_some_iff.mp run
  obtain ⟨lower, count⟩ := sliceCopyAny_keeps copied
  obtain ⟨lower', count'⟩ := ensureCapacity_keeps d (d.count + d.storageLower + endIndex - startIndex + 1)
  cases same
  refine ⟨lower.trans lower', ?_⟩
  dsimp only
  omega

end Appending

end NativelyStoredString

/-! ## The replacement -/

namespace AbstractString

section Replacing

variable {a anOld aNew : AbstractString} {buffer : NativelyStoredString} {b : List Character}

/-- How far the replacement has come: `out` is done, and the next occurrence is at `i`. -/
structure Replacing (a anOld aNew : AbstractString) (cutFrom i : Int) (out : List Character) : Prop where
  low : 1 ≤ cutFrom
  high : cutFrom ≤ a.count + 1
  next : FirstFrom anOld.chars a.chars cutFrom i
  done : out ++ replaced anOld.chars aNew.chars (a.chars.drop (cutFrom - 1).toNat) =
    replaced anOld.chars aNew.chars a.chars

variable {cutFrom i i' : Int} {out : List Character}

/-- The next occurrence stands behind the cut and in the text. -/
theorem Replacing.bounds (h : Replacing a anOld aNew cutFrom i out) (readable : a.Readable)
    (nonempty : anOld.chars ≠ []) (oldSize : anOld.count = anOld.chars.length) (valid : i ≠ 0) :
    cutFrom ≤ i ∧ i + anOld.count ≤ a.count + 1 := by
  have count := readable.spells.count_eq
  rcases h.next with ⟨from_start, occurs, -⟩ | ⟨zero, -⟩
  · have fits := occurs.add_length_le nonempty
    exact ⟨from_start, by omega⟩
  · exact absurd zero valid

theorem Replacing.round (h : Replacing a anOld aNew cutFrom i out) (readable : a.Readable)
    (nonempty : anOld.chars ≠ []) (oldSize : anOld.count = anOld.chars.length) (valid : i ≠ 0)
    (next : FirstFrom anOld.chars a.chars (i + anOld.count) i') :
    Replacing a anOld aNew (i + anOld.count) i' (out ++ sliceOf a.chars cutFrom (i - 1) ++ aNew.chars) := by
  have low := h.low
  obtain ⟨from_start, fits⟩ := h.bounds readable nonempty oldSize valid
  rcases h.next with ⟨-, occurs, absent⟩ | ⟨zero, -⟩
  · refine ⟨by omega, by omega, next, ?_⟩
    have parts : replaced anOld.chars aNew.chars (a.chars.drop (cutFrom - 1).toNat) =
        sliceOf a.chars cutFrom (i - 1) ++ (aNew.chars ++
          replaced anOld.chars aNew.chars (a.chars.drop (i + anOld.count - 1).toNat)) := by
      have split := @replaced_drop _ _ anOld.chars aNew.chars a.chars (cutFrom - 1).toNat (i - 1).toNat nonempty
        (by omega) occurs fun k le less here => ?_
      · rw [split]
        unfold sliceOf
        rw [show (i - 1 - cutFrom + 1).toNat = (i - 1).toNat - (cutFrom - 1).toNat by omega,
          show (i + anOld.count - 1).toNat = (i - 1).toNat + anOld.chars.length by omega]
      · refine absent (k + 1) (by omega) (by omega) ?_
        rwa [Int.add_sub_cancel, Int.toNat_natCast]
    rw [← h.done, parts, List.append_assoc, List.append_assoc]
  · exact absurd zero valid

/-- What is left after the last occurrence. -/
theorem Replacing.rest (h : Replacing a anOld aNew cutFrom 0 out) (readable : a.Readable) :
    out ++ sliceOf a.chars cutFrom a.count = replaced anOld.chars aNew.chars a.chars := by
  have count := readable.spells.count_eq
  have low := h.low
  have absent : ∀ k, (cutFrom - 1).toNat ≤ k → ¬OccursAt anOld.chars a.chars k := by
    intro k le here
    rcases h.next with ⟨from_start, -⟩ | ⟨-, none⟩
    · omega
    · refine none (k + 1) (by omega) ?_
      rwa [Int.add_sub_cancel, Int.toNat_natCast]
  have last : sliceOf a.chars cutFrom a.count = a.chars.drop (cutFrom - 1).toNat := by
    unfold sliceOf
    rw [List.take_of_length_le]
    rw [List.length_drop]
    omega
  rw [last, ← h.done, replaced_drop_of_absent absent]

theorem validIndex_iff : a.validIndex i = true ↔ 1 ≤ i ∧ i ≤ a.count := by
  unfold validIndex
  rw [Bool.and_eq_true, decide_eq_true_iff, decide_eq_true_iff]

/-- The loop ends where there is no occurrence any more. -/
theorem Replacing.eq_zero (h : Replacing a anOld aNew cutFrom i out) (readable : a.Readable)
    (nonempty : anOld.chars ≠ []) (oldSize : anOld.count = anOld.chars.length)
    (stopped : ¬a.validIndex i = true) : i = 0 := by
  have positive := List.length_pos_iff.mpr nonempty
  have low := h.low
  by_contra valid
  obtain ⟨from_start, fits⟩ := h.bounds readable nonempty oldSize valid
  exact stopped (validIndex_iff.mpr ⟨by omega, by omega⟩)

/-- A round of `replacing_in`, where nothing was removed from the beginning of the buffer. -/
theorem Replacing.returns_replaceNext (h : Replacing a anOld aNew cutFrom i out) (readable : a.Readable)
    (readable' : anOld.Readable) (readable'' : aNew.Readable) (nonempty : anOld.chars ≠ [])
    (valid : a.validIndex i = true) (holds : NativelyStoredString.Represents buffer (b ++ out))
    (zero : buffer.storageLower = 0) :
    Returns (a.replaceNext anOld aNew (cutFrom, i, buffer)) fun s => i < s.1 ∧
      ∃ out, Replacing a anOld aNew s.1 s.2.1 out ∧
        NativelyStoredString.Represents s.2.2 (b ++ out) ∧ s.2.2.storageLower = 0 := by
  have oldSize := readable'.spells.count_eq
  have positive := List.length_pos_iff.mpr nonempty
  have inside := validIndex_iff.mp valid
  have low := h.low
  have valid : i ≠ 0 := by omega
  obtain ⟨from_start, fits⟩ := h.bounds readable nonempty oldSize valid
  unfold replaceNext
  rw [Returns.bind_iff]
  refine (holds.returns_appendSubstringAny readable low (by dsimp only; omega) (by dsimp only; omega) zero).mono
    fun first ⟨lower, sliced⟩ => ?_
  rw [Returns.bind_iff]
  refine (sliced.returns_appendAny readable'').mono fun second ⟨lower', added⟩ => ?_
  rw [Returns.bind_iff]
  refine (readable.returns_substringIndex readable' nonempty (by dsimp only; omega)).mono fun i' next => ?_
  rw [Returns.pure_iff]
  refine ⟨by dsimp only; omega, _, h.round readable nonempty oldSize valid next, ?_, lower'.trans lower⟩
  rw [← List.append_assoc, ← List.append_assoc]
  exact added

/-- **`replacing_in`** into a buffer from which nothing was removed at the beginning. -/
theorem Readable.returns_replacingIn (readable : a.Readable) (readable' : anOld.Readable)
    (readable'' : aNew.Readable) (nonempty : anOld.chars ≠ [])
    (holds : NativelyStoredString.Represents buffer b) (zero : buffer.storageLower = 0) :
    Returns (a.replacingIn anOld aNew buffer) fun d =>
      NativelyStoredString.Represents d (b ++ replaced anOld.chars aNew.chars a.chars) := by
  have count := readable.spells.count_eq
  have oldSize := readable'.spells.count_eq
  unfold replacingIn firstSubstringIndex
  rw [Returns.bind_iff]
  refine (readable.returns_substringIndex readable' nonempty (Int.le_refl 1)).mono fun i first => ?_
  rw [Returns.bind_iff]
  refine returns_untilLoop
    (fun s : Int × Int × NativelyStoredString => ∃ out, Replacing a anOld aNew s.1 s.2.1 out ∧
      NativelyStoredString.Represents s.2.2 (b ++ out) ∧ s.2.2.storageLower = 0)
    (fun s => (a.count + 1 - s.1).toNat)
    ⟨[], ⟨Int.le_refl 1, by dsimp only; omega, first, rfl⟩, by rw [List.append_nil]; exact holds, zero⟩ (by dsimp only; omega) ?_
  rintro ⟨cutFrom, i, d⟩ ⟨out, progress, sofar, lower⟩
  rw [Returns.some_iff]
  have low := progress.low
  have high := progress.high
  dsimp only at progress sofar lower low high ⊢
  cases valid : a.validIndex i with
  | false =>
    have last := progress.eq_zero readable nonempty oldSize (by rw [valid]; exact Bool.false_ne_true)
    rw [last] at progress
    refine (sofar.returns_appendSubstringAny readable low (Int.le_refl _) (by omega) lower).mono
      fun e ⟨_, appended⟩ => ?_
    rw [List.append_assoc, progress.rest readable] at appended
    exact appended
  | true =>
    refine (progress.returns_replaceNext readable readable' readable'' nonempty valid sofar lower).mono
      fun s ⟨less, more⟩ => ⟨more, ?_⟩
    have inside := validIndex_iff.mp valid
    have from_start := (progress.bounds readable nonempty oldSize (by omega)).1
    omega

/-- Each `append_substring` counts the cells before the first character of the buffer again. -/
theorem Readable.lt_count_of_replacingIn (readable : a.Readable) (readable' : anOld.Readable)
    (readable'' : aNew.Readable) (nonempty : anOld.chars ≠ [])
    (holds : NativelyStoredString.Represents buffer b) (positive : 0 < buffer.storageLower)
    {d : NativelyStoredString} (run : a.replacingIn anOld aNew buffer = some d) :
    ((b ++ replaced anOld.chars aNew.chars a.chars).length : Int) < d.count := by
  have count := readable.spells.count_eq
  have oldSize := readable'.spells.count_eq
  have newSize := readable''.spells.count_eq
  obtain ⟨i, found, run⟩ := Option.bind_eq_some_iff.mp run
  obtain ⟨⟨cutFrom, last, filled⟩, loop, run⟩ := Option.bind_eq_some_iff.mp run
  have first := (readable.returns_substringIndex readable' nonempty (Int.le_refl 1)).unique found
  have ended := holds_of_untilLoop
    (fun s : Int × Int × NativelyStoredString => ∃ out, Replacing a anOld aNew s.1 s.2.1 out ∧
      s.2.2.storageLower = buffer.storageLower ∧ (b.length + out.length : Int) ≤ s.2.2.count)
    (fun s s' inv goes round => ?_)
    ⟨[], ⟨Int.le_refl 1, by dsimp only; omega, first, rfl⟩, rfl, by rw [holds.count_eq]; exact Int.le_refl _⟩ loop
  · obtain ⟨⟨out, progress, lower, le⟩, stopped⟩ := ended
    dsimp only at progress lower le stopped run
    have zero := progress.eq_zero readable nonempty oldSize fun valid => by
      rw [valid] at stopped
      cases stopped
    rw [zero] at progress
    have low := progress.low
    have high := progress.high
    have more := (NativelyStoredString.appendSubstringAny_keeps run).2
    rw [← progress.rest readable, List.length_append, List.length_append]
    have length : ((sliceOf a.chars cutFrom a.count).length : Int) = _ :=
      length_sliceOf low (by omega) (by omega)
    omega
  · obtain ⟨out, progress, lower, le⟩ := inv
    obtain ⟨sliced, run1, round⟩ := Option.bind_eq_some_iff.mp round
    obtain ⟨added, run2, round⟩ := Option.bind_eq_some_iff.mp round
    obtain ⟨i', run3, round⟩ := Option.bind_eq_some_iff.mp round
    cases round
    obtain ⟨lower1, count1⟩ := NativelyStoredString.appendSubstringAny_keeps run1
    obtain ⟨lower2, count2⟩ := NativelyStoredString.appendAny_keeps run2
    have valid : a.validIndex s.2.1 = true := by
      have not := Option.some.inj goes
      rwa [Bool.not_eq_false'] at not
    have inside := validIndex_iff.mp valid
    have low := progress.low
    obtain ⟨from_start, fits⟩ := progress.bounds readable nonempty oldSize (by omega)
    have next := (readable.returns_substringIndex readable' nonempty (by omega)).unique run3
    refine ⟨_, progress.round readable nonempty oldSize (by omega) next, by dsimp only; omega, ?_⟩
    have length : ((sliceOf a.chars s.1 (s.2.1 - 1)).length : Int) = _ :=
      length_sliceOf low (by omega) (by omega)
    rw [List.length_append, List.length_append]
    dsimp only
    omega

/-- **Search and replacement.**  `substring_index` finds the first place from the start on, and `replacing_in`
puts the text with its occurrences replaced behind what the buffer holds, exactly where no leading character was
removed from the buffer. -/
theorem replacingIn_iff (readable : a.Readable) (readable' : anOld.Readable) (readable'' : aNew.Readable)
    (nonempty : anOld.chars ≠ []) (holds : NativelyStoredString.Represents buffer b) :
    ((∀ start, 1 ≤ start → start ≤ a.count + 1 →
        Returns (a.substringIndex anOld start) (FirstFrom anOld.chars a.chars start)) ∧
      Returns (a.replacingIn anOld aNew buffer) fun d =>
        NativelyStoredString.Represents d (b ++ replaced anOld.chars aNew.chars a.chars)) ↔
    buffer.storageLower = 0 := by
  have lower := holds.valid.lower_nonneg
  constructor
  · rintro ⟨-, d, run, written⟩
    by_contra removed
    have less := readable.lt_count_of_replacingIn readable' readable'' nonempty holds (by omega) run
    have count := written.count_eq
    omega
  · intro zero
    exact ⟨fun start low _ => readable.returns_substringIndex readable' nonempty low,
      readable.returns_replacingIn readable' readable'' nonempty holds zero⟩

/-- `c` for `aa` in `aaab`, behind `x`. -/
theorem replacingIn_overlaps : Returns (replacingIn (.string (.spelling [97, 97, 97, 98]))
    (.string (.spelling [97, 97])) (.string (.spelling [99])) (.spelling [120])) fun d =>
      NativelyStoredString.Represents d [120, 99, 97, 98] := by
  have text : Readable (.string (.spelling [97, 97, 97, 98])) := NativelyStoredString.readable_spelling _
  have old : Readable (.string (.spelling [97, 97])) := NativelyStoredString.readable_spelling _
  have new : Readable (.string (.spelling [99])) := NativelyStoredString.readable_spelling _
  have nonempty : chars (.string (.spelling [97, 97])) ≠ [] := by
    exact List.cons_ne_nil _ _
  have run := ((replacingIn_iff text old new nonempty (NativelyStoredString.represents_spelling [120])).mpr rfl).2
  exact run

/-- An empty text behind a character that was removed from the buffer. -/
theorem not_replacingIn_exact :
    ¬∀ (a anOld aNew : AbstractString) (buffer : NativelyStoredString) (b : List Character), a.Readable →
      anOld.Readable → aNew.Readable → anOld.chars ≠ [] → NativelyStoredString.Represents buffer b →
      Returns (a.replacingIn anOld aNew buffer) fun d =>
        NativelyStoredString.Represents d (b ++ replaced anOld.chars aNew.chars a.chars) := by
  intro claim
  have text : Readable (.string (.spelling [])) := NativelyStoredString.readable_spelling _
  have old : Readable (.string (.spelling [97])) := NativelyStoredString.readable_spelling _
  have nonempty : chars (.string (.spelling [97])) ≠ [] := by
    exact List.cons_ne_nil _ _
  have removed := (NativelyStoredString.represents_spelling [120]).removeFirst (List.cons_ne_nil _ _)
  obtain ⟨d, run, written⟩ := claim _ _ _ _ _ text old text nonempty removed
  have less := text.lt_count_of_replacingIn old text nonempty removed (by decide) run
  rw [written.count_eq] at less
  exact Int.lt_irrefl _ less

end Replacing

end AbstractString

end Liberty
