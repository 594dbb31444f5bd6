import Liberty.Numeric.Integer32
import Liberty.Storage.NativeArray
import Liberty.Text.NativelyStoredString

/-!
# ABSTRACT_STRING

A STRING, a FIXED_STRING or a ROPE: the queries that a ROPE splits between its two parts, and the
loops that only use `item` and `count`.
-/

namespace Liberty

/-! ## The source -/

namespace NativelyStoredString

def first (s : NativelyStoredString) : Option Character :=
  s.storage.item s.storageLower

def last (s : NativelyStoredString) : Option Character :=
  s.storage.item (s.storageLower + s.count - 1)

def indexOf (s : NativelyStoredString) (c : Character) (startIndex : Int) : Option Int :=
  if startIndex ≤ s.count then do
    let index ← s.storage.fastIndexOf c (startIndex + s.storageLower - 1) (s.storageLower + s.count - 1)
    return 1 + index - s.storageLower
  else some (s.count + 1)

def reverseIndexOf (s : NativelyStoredString) (c : Character) (startIndex : Int) : Option Int :=
  if s.count > 0 then do
    let index ← s.storage.fastReverseIndexOf c (startIndex + s.storageLower - 1)
    let result := index - s.storageLower + 1
    return if result ≤ 0 then 0 else result
  else some 0

def occurrences (s : NativelyStoredString) (c : Character) : Option Int :=
  s.storage.sliceFastOccurrences c s.storageLower (s.storageLower + s.count - 1)

/-- `substring` of STRING -/
def substring (s : NativelyStoredString) (startIndex endIndex : Int) : Option NativelyStoredString := do
  let newCount := endIndex - startIndex + 1
  let newStore ← (NativeArray.calloc (newCount + 1)).sliceCopy 0 s.storage
    (s.storageLower + startIndex - 1) (s.storageLower + endIndex - 1)
  return { storage := newStore, isNull := false, storageLower := 0, count := newCount, capacity := newCount }

end NativelyStoredString

/-- One more character in a hash code. -/
def hashStep (result : Int) (c : Character) : Int :=
  wrap32 (wrap32 (5 * result) + c.code)

/-- `if Result < 0 then Result := ~Result end` -/
def hashEnd (result : Int) : Int :=
  if result < 0 then ~~~result else result

def computedHashCode (item : Int → Option Character) (upper : Int) : Option Int := do
  let s ← untilLoop (fun s => some (decide (s.1 > upper)))
    (fun s => do return (s.1 + 1, hashStep s.2 (← item s.1))) upper.toNat (1, (0 : Int))
  return hashEnd s.2

/-- The attributes of a FIXED_STRING; `address` tells its storage from the others. -/
structure FixedString extends NativelyStoredString where
  address : ℕ
  hashCode : Int

/-- `make_from_fixed_string` -/
def FixedString.substring (s : FixedString) (startIndex endIndex : Int) : Option FixedString := do
  let result := { s with
    storageLower := startIndex - 1 + s.storageLower
    count := endIndex - startIndex + 1 }
  return { result with hashCode := ← computedHashCode result.item result.count }

inductive AbstractString
  | string (s : NativelyStoredString)
  | fixed (s : FixedString)
  | rope (left right : AbstractString)

namespace AbstractString

def count : AbstractString → Int
  | string s => s.count
  | fixed s => s.count
  | rope left right => left.count + right.count

def item : AbstractString → Int → Option Character
  | string s, i => s.item i
  | fixed s, i => s.item i
  | rope left right, i =>
    if i ≤ left.count then left.item i else right.item (i - left.count)

def validIndex (a : AbstractString) (i : Int) : Bool :=
  decide (1 ≤ i) && decide (i ≤ a.count)

def first : AbstractString → Option Character
  | string s => s.first
  | fixed s => s.first
  | rope left _ => left.first

def last : AbstractString → Option Character
  | string s => s.last
  | fixed s => s.last
  | rope _ right => right.last

def occurrences (c : Character) : AbstractString → Option Int
  | string s => s.occurrences c
  | fixed s => s.occurrences c
  | rope left right => do return (← left.occurrences c) + (← right.occurrences c)

def indexOf (c : Character) : AbstractString → Int → Option Int
  | string s, startIndex => s.indexOf c startIndex
  | fixed s, startIndex => s.indexOf c startIndex
  | rope left right, startIndex =>
    if startIndex > left.count then do
      return (← right.indexOf c (startIndex - left.count)) + left.count
    else do
      let result ← left.indexOf c startIndex
      if left.validIndex result then return result
      else return (← right.indexOf c 1) + left.count

def reverseIndexOf (c : Character) : AbstractString → Int → Option Int
  | string s, startIndex => s.reverseIndexOf c startIndex
  | fixed s, startIndex => s.reverseIndexOf c startIndex
  | rope left right, startIndex =>
    if startIndex ≤ left.count then left.reverseIndexOf c startIndex
    else do
      let result ← right.reverseIndexOf c (startIndex - left.count)
      if right.validIndex result then return result + left.count
      else left.reverseIndexOf c left.count

/-- An empty part of a substring is the manifest string `""`. -/
def substring : AbstractString → Int → Int → Option AbstractString
  | string s, startIndex, endIndex => do return string (← s.substring startIndex endIndex)
  | fixed s, startIndex, endIndex => do return fixed (← s.substring startIndex endIndex)
  | rope left right, startIndex, endIndex =>
    if endIndex ≤ left.count then do
      return rope (← left.substring startIndex endIndex) (string .blank)
    else if startIndex > left.count then do
      return rope (string .blank)
        (← right.substring (startIndex - left.count) (endIndex - left.count))
    else do
      return rope (← left.substring startIndex left.count)
        (← right.substring 1 (endIndex - left.count))

def hashCode : AbstractString → Option Int
  | string s => computedHashCode s.item s.count
  | fixed s => some s.hashCode
  | rope left right => computedHashCode (rope left right).item (rope left right).count

/-- The characters, in their order. -/
def chars : AbstractString → List Character
  | string s => s.chars
  | fixed s => s.chars
  | rope left right => left.chars ++ right.chars

end AbstractString

/-! ## Reading -/

/-- The characters are in the storage. -/
structure NativelyStoredString.Readable (s : NativelyStoredString) : Prop where
  lower_nonneg : 0 ≤ s.storageLower
  count_nonneg : 0 ≤ s.count
  fits : s.storageLower + s.count ≤ s.storage.size

/-- A string gives the characters of the list at its indexes. -/
structure Spells (item : Int → Option Character) (count : Int) (xs : List Character) : Prop where
  count_eq : count = xs.length
  item_eq : ∀ (k : ℕ) (x : Character), xs[k]? = some x → item (k + 1) = some x

/-- The first of the characters `c` from `start` on, or the place after the end. -/
def placeFrom (c : Character) (start : Int) (xs : List Character) : Int :=
  if start ≤ xs.length then start + (xs.drop (start - 1).toNat).idxOf c else xs.length + 1

/-- The last of the characters `c` down from `start`, or 0. -/
def placeBefore (c : Character) (start : Int) (xs : List Character) : Int :=
  start - (xs.take start.toNat).reverse.idxOf c

/-- The hash code of a list of characters. -/
def hashOf (xs : List Character) : Int :=
  hashEnd (xs.foldl hashStep 0)

theorem Spells.append {item item' : Int → Option Character} {count count' : Int} {xs ys : List Character}
    (h : Spells item count xs) (h' : Spells item' count' ys) :
    Spells (fun i => if i ≤ count then item i else item' (i - count)) (count + count') (xs ++ ys) := by
  have left := h.count_eq
  have right := h'.count_eq
  refine ⟨by rw [List.length_append]; omega, fun k x found => ?_⟩
  by_cases here : k < xs.length
  · rw [List.getElem?_append_left here] at found
    rw [if_pos (by omega)]
    exact h.item_eq k x found
  · rw [List.getElem?_append_right (by omega)] at found
    have item := h'.item_eq _ x found
    rw [if_neg (by omega), show (k : Int) + 1 - count = ((k - xs.length : ℕ) : Int) + 1 by omega]
    exact item

theorem Spells.computedHashCode_eq {item : Int → Option Character} {count : Int} {xs : List Character}
    (h : Spells item count xs) : computedHashCode item count = some (hashOf xs) := by
  have general : ∀ (ys : List Character) (i result : Int), 1 ≤ i → count + 1 = i + ys.length →
      (∀ (k : ℕ) (y : Character), ys[k]? = some y → item (i + k) = some y) →
      untilLoop (fun s => some (decide (s.1 > count)))
        (fun s => do return (s.1 + 1, hashStep s.2 (← item s.1))) ys.length (i, result) =
      some (count + 1, ys.foldl hashStep result) := by
    intro ys
    induction ys with
    | nil =>
      intro i result low length read
      rw [List.length_nil] at length
      rw [untilLoop_stopped]
      · rw [length, Int.natCast_zero, Int.add_zero]
        rfl
      · rw [decide_eq_true (show i > count by omega)]
    | cons y ys ih =>
      intro i result low length read
      rw [List.length_cons] at length
      have first := read 0 y rfl
      rw [Int.natCast_zero, Int.add_zero] at first
      have rest := ih (i + 1) (hashStep result y) (by omega) (by omega) fun k z found => by
        rw [Int.add_assoc, Int.add_comm 1]
        exact read (k + 1) z found
      rw [List.length_cons, untilLoop, decide_eq_false (show ¬i > count by omega)]
      rw [first]
      exact rest
  have count_eq := h.count_eq
  unfold computedHashCode
  rw [show count.toNat = xs.length by omega,
    general xs 1 0 (Int.le_refl 1) (by omega) fun k x found => by
      rw [Int.add_comm]
      exact h.item_eq k x found]
  rfl

namespace NativelyStoredString

variable {s : NativelyStoredString}

theorem Valid.readable (valid : s.Valid) : s.Readable :=
  ⟨valid.lower_nonneg, valid.count_nonneg, by rw [valid.size_eq]; exact valid.fits⟩

theorem Readable.holds (h : s.Readable) : s.storage.Holds s.storageLower s.chars := by
  have count := h.count_nonneg
  have fits := h.fits
  have length := length_chars s
  refine ⟨h.lower_nonneg, by omega, fun k x found => ?_⟩
  have bound := (List.getElem?_eq_some_iff.mp found).1
  rw [getElem?_chars (by omega)] at found
  exact Option.some.inj found

theorem Readable.count_eq (h : s.Readable) : s.count = s.chars.length := by
  have count := h.count_nonneg
  rw [length_chars]
  omega

/-- A string is told by the characters that its storage holds. -/
theorem readable_of_holds {xs : List Character} (count : s.count = xs.length)
    (holds : s.storage.Holds s.storageLower xs) : s.Readable ∧ s.chars = xs := by
  have readable : s.Readable := ⟨holds.low, by omega, by rw [count]; exact holds.high⟩
  have length := readable.count_eq
  exact ⟨readable, readable.holds.segment.unique holds.segment (by omega)⟩

theorem Readable.spells (h : s.Readable) : Spells s.item s.count s.chars := by
  refine ⟨h.count_eq, fun k x found => ?_⟩
  unfold item
  rw [show (k : Int) + 1 - 1 + s.storageLower = s.storageLower + k by omega]
  exact h.holds.item_eq found

end NativelyStoredString

/-! ## Leaves -/

namespace NativelyStoredString

variable {s : NativelyStoredString} {i j : Int}

theorem Readable.exists_first (h : s.Readable) (nonempty : s.count > 0) :
    ∃ c, s.first = some c ∧ s.chars.head? = some c := by
  have count := h.count_eq
  cases characters : s.chars with
  | nil =>
    rw [characters, List.length_nil] at count
    omega
  | cons x xs =>
    have holds := h.holds
    rw [characters] at holds
    have first := holds.item_eq (k := 0) rfl
    rw [Int.natCast_zero, Int.add_zero] at first
    exact ⟨x, first, rfl⟩

theorem Readable.exists_last (h : s.Readable) (nonempty : s.count > 0) :
    ∃ c, s.last = some c ∧ s.chars.getLast? = some c := by
  have count := h.count_eq
  cases characters : s.chars.getLast? with
  | none =>
    rw [List.getLast?_eq_none_iff.mp characters, List.length_nil] at count
    omega
  | some x =>
    have last := h.holds.item_eq (List.getLast?_eq_getElem?.symm.trans characters)
    refine ⟨x, ?_, rfl⟩
    unfold NativelyStoredString.last
    rwa [show s.storageLower + s.count - 1 = s.storageLower + (s.chars.length - 1 : ℕ) by omega]

theorem Readable.occurrences_eq (h : s.Readable) (c : Character) :
    s.occurrences c = some (s.chars.count c) :=
  h.holds.sliceFastOccurrences_eq c (by have := h.count_eq; omega)

theorem Readable.indexOf_eq (h : s.Readable) (c : Character) (low : 1 ≤ i) :
    s.indexOf c i = some (placeFrom c i s.chars) := by
  have count := h.count_eq
  unfold NativelyStoredString.indexOf placeFrom
  by_cases inside : i ≤ s.count
  · have holds := h.holds.drop (n := (i - 1).toNat) (by omega)
    rw [show s.storageLower + ((i - 1).toNat : Int) = i + s.storageLower - 1 by omega] at holds
    rw [if_pos inside, if_pos (by omega), holds.fastIndexOf_eq c (by rw [List.length_drop]; omega)]
    change some _ = some _
    congr 1
    omega
  · rw [if_neg inside, if_neg (by omega), count]

/-- A search down from an index; what stands in the storage before the string is passed over. -/
theorem Readable.reverseIndexOf_eq (h : s.Readable) (c : Character) (low : 0 ≤ i) (high : i ≤ s.count) :
    s.reverseIndexOf c i = some (placeBefore c i s.chars) := by
  have count := h.count_eq
  have lower := h.lower_nonneg
  have fits := h.fits
  unfold NativelyStoredString.reverseIndexOf placeBefore
  have length : ((s.chars.take i.toNat).length : Int) = i := by
    rw [List.length_take]
    omega
  by_cases nonempty : s.count > 0
  · have before := NativeArray.holds_cells (s := s.storage) s.storageLower.toNat (by omega)
    have beforeLength : ((List.range s.storageLower.toNat).map fun k : ℕ => s.storage.cell k).length =
        s.storageLower.toNat := by rw [List.length_map, List.length_range]
    have after := h.holds.take i.toNat
    rw [show s.storageLower = 0 + (s.storageLower.toNat : Int) by omega, ← beforeLength] at after
    have holds := before.append after
    rw [if_pos nonempty, holds.fastReverseIndexOf_eq c (by
      rw [List.length_append, beforeLength]
      omega), List.reverse_append, List.idxOf_append]
    change some _ = some _
    congr 1
    by_cases mem : c ∈ (s.chars.take i.toNat).reverse
    · have less := List.idxOf_lt_length_of_mem mem
      rw [List.length_reverse] at less
      rw [if_pos mem, if_neg (by omega)]
      omega
    · have none := List.idxOf_eq_length mem
      rw [List.length_reverse] at none
      rw [if_neg mem, List.length_reverse, if_pos (by omega), none]
      omega
  · have zero : i = 0 := by omega
    rw [if_neg nonempty, zero]
    rfl

/-- The characters from the index `i` to the index `j`. -/
theorem Readable.slice (h : s.Readable) (low : 1 ≤ i) (high : j ≤ s.count) (interval : i ≤ j + 1) :
    s.storage.Holds (s.storageLower + i - 1) ((s.chars.drop (i - 1).toNat).take (j - i + 1).toNat) ∧
      (((s.chars.drop (i - 1).toNat).take (j - i + 1).toNat).length : Int) = j - i + 1 := by
  have count := h.count_eq
  have holds := (h.holds.drop (n := (i - 1).toNat) (by omega)).take (j - i + 1).toNat
  rw [show s.storageLower + ((i - 1).toNat : Int) = s.storageLower + i - 1 by omega] at holds
  refine ⟨holds, ?_⟩
  rw [List.length_take, List.length_drop]
  omega

theorem Readable.returns_substring (h : s.Readable) (low : 1 ≤ i) (high : j ≤ s.count)
    (interval : i ≤ j + 1) :
    Returns (s.substring i j) fun r =>
      r.Readable ∧ r.chars = (s.chars.drop (i - 1).toNat).take (j - i + 1).toNat := by
  have lower := h.lower_nonneg
  have fits := h.fits
  obtain ⟨holds, length⟩ := h.slice low high interval
  unfold NativelyStoredString.substring
  rw [Returns.bind_iff]
  refine NativeArray.returns_sliceCopy (fun inside => ?_) fun store size copied kept => ?_
  · rw [NativeArray.size_calloc]
    omega
  · rw [NativeArray.size_calloc] at size
    rw [Returns.pure_iff]
    apply readable_of_holds
    · exact length.symm
    · refine ⟨Int.le_refl 0, ?_, holds.segment.copied fun k from_zero less => ?_⟩
      · dsimp only
        omega
      · dsimp only
        rw [copied _ (by omega) (by omega)]
        congr 1
        omega

end NativelyStoredString

theorem FixedString.returns_substring {s : FixedString} {i j : Int} (h : s.Readable) (low : 1 ≤ i)
    (high : j ≤ s.count) (interval : i ≤ j + 1) :
    Returns (s.substring i j) fun r =>
      r.Readable ∧ r.chars = (s.chars.drop (i - 1).toNat).take (j - i + 1).toNat ∧
        r.address = s.address ∧ r.storage = s.storage ∧ r.hashCode = hashOf r.chars := by
  obtain ⟨holds, length⟩ := h.slice low high interval
  rw [show s.storageLower + i - 1 = i - 1 + s.storageLower by omega] at holds
  obtain ⟨readable, characters⟩ := NativelyStoredString.readable_of_holds
    (s := { s.toNativelyStoredString with
      storageLower := i - 1 + s.storageLower
      count := j - i + 1 }) length.symm holds
  have hash := readable.spells.computedHashCode_eq
  unfold FixedString.substring
  dsimp only
  rw [hash, Returns.some_bind, Returns.pure_iff]
  exact ⟨readable, characters, rfl, rfl, rfl⟩

/-! ## Trees -/

namespace AbstractString

def Readable : AbstractString → Prop
  | string s => s.Readable
  | fixed s => s.Readable
  | rope left right => left.Readable ∧ right.Readable

theorem Readable.spells {a : AbstractString} (h : a.Readable) : Spells a.item a.count a.chars := by
  induction a with
  | string s => exact NativelyStoredString.Readable.spells h
  | fixed s => exact NativelyStoredString.Readable.spells h
  | rope left right leftIh rightIh => exact (leftIh h.1).append (rightIh h.2)

end AbstractString

/-! ## The string of a list -/

/-- A STRING with the characters of a list. -/
def NativelyStoredString.spelling (xs : List Character) : NativelyStoredString where
  storage := ⟨xs.length, fun i => xs.getD i.toNat 0⟩
  isNull := false
  storageLower := 0
  count := xs.length
  capacity := xs.length

theorem NativelyStoredString.readable_spelling (xs : List Character) : (spelling xs).Readable :=
  ⟨Int.le_refl _, Int.natCast_nonneg _, Int.le_of_eq (Int.zero_add _)⟩

theorem NativelyStoredString.chars_spelling (xs : List Character) : (spelling xs).chars = xs := by
  refine List.ext_getElem? fun k => ?_
  have count : (spelling xs).count.toNat = xs.length := Int.toNat_natCast _
  by_cases less : k < xs.length
  · rw [getElem?_chars (by omega), List.getElem?_eq_getElem less]
    unfold charAt spelling
    dsimp only
    rw [Int.zero_add, Int.toNat_natCast, List.getD_eq_getElem?_getD, List.getElem?_eq_getElem less, Option.getD_some]
  · rw [List.getElem?_eq_none (by rw [length_chars]; omega), List.getElem?_eq_none (Nat.le_of_not_lt less)]

theorem NativelyStoredString.represents_spelling (xs : List Character) : Represents (spelling xs) xs := by
  have valid : (spelling xs).Valid := by
    refine ⟨rfl, fun null => (nomatch null), Int.le_refl _, Int.natCast_nonneg _, ?_⟩
    exact Int.le_of_eq (Int.zero_add _)
  have holds := represents_chars valid
  rwa [chars_spelling] at holds

end Liberty
