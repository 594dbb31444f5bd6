import Liberty.Library.Positional
import Liberty.Library.Segment
import Liberty.Numeric.MutableBigInteger.Division

/-!
# Printing

`append_in` divides a copy of the number by `10 ^ 9` until nothing is left.  Each remainder is
written with nine digits, lowest first, but for the last one, and the characters are then read
backwards.
-/

namespace Liberty

/-! ## The characters of a number -/

/-- `char_buffer`, a FAST_ARRAY that every object shares. -/
structure CharBuffer where
  storage : NativeArray Char
  capacity : Int
  upper : Int

namespace CharBuffer

def calloc (n : Int) : NativeArray Char where
  size := n
  cell _ := Char.ofNat 0

def make (newCount : Int) : CharBuffer :=
  ⟨calloc newCount, newCount, newCount - 1⟩

def resize (b : CharBuffer) (newCount : Int) : Option CharBuffer :=
  let oldCount := b.upper + 1
  if newCount > oldCount then
    if b.capacity = 0 then
      return ⟨calloc newCount, newCount, newCount - 1⟩
    else if b.capacity < newCount then do
      let storage ← b.storage.setSliceWith (Char.ofNat 0) oldCount (b.capacity - 1)
      let newCapacity ← untilLoop (fun c => some (decide (c ≥ newCount))) (fun c => some (c * 2))
        newCount.toNat (b.capacity * 2)
      return ⟨storage.realloc b.capacity newCapacity, newCapacity, newCount - 1⟩
    else do
      let storage ← b.storage.setSliceWith (Char.ofNat 0) oldCount (newCount - 1)
      return { b with storage, upper := newCount - 1 }
  else
    return { b with upper := newCount - 1 }

def put (b : CharBuffer) (element : Char) (i : Int) : Option CharBuffer := do
  return { b with storage := ← b.storage.put element i }

def item (b : CharBuffer) (i : Int) : Option Char :=
  b.storage.item i

/-- The storage has the size that is recorded. -/
structure Valid (b : CharBuffer) : Prop where
  size_eq : b.storage.size = b.capacity
  capacity_pos : 0 < b.capacity
  upper_low : -1 ≤ b.upper
  upper_high : b.upper < b.capacity

theorem make_valid {n : Int} (pos : 0 < n) : Valid (make n) :=
  ⟨rfl, pos, by dsimp only [make]; omega, by dsimp only [make]; omega⟩

/-- `resize` of a buffer that is too small. -/
theorem Valid.returns_resize {b : CharBuffer} (h : Valid b) {newCount : Int}
    (small : b.capacity < newCount) :
    Returns (b.resize newCount) fun b' => Valid b' ∧ newCount ≤ b'.capacity := by
  obtain ⟨size, pos, low, high⟩ := h
  unfold resize
  rw [if_pos (by omega), if_neg (by omega), if_pos small, Returns.bind_iff]
  refine NativeArray.returns_setSliceWith (fun _ => ⟨by omega, by omega⟩) ?_
  rw [Returns.bind_iff]
  refine returns_untilLoop (fun c => 0 < c) (fun c => (newCount - c).toNat) (by omega) (by omega) ?_
  intro c positive
  rw [Returns.some_iff]
  split
  · rename_i enough
    have enough : c ≥ newCount := of_decide_eq_true enough
    rw [Returns.pure_iff]
    exact ⟨⟨rfl, positive, by dsimp only; omega, by dsimp only; omega⟩, enough⟩
  · rename_i short
    have short : ¬c ≥ newCount := fun enough => short (decide_eq_true enough)
    rw [Returns.some_iff]
    exact ⟨by omega, by omega⟩

end CharBuffer

namespace MutableBigInteger

/-! ## The source -/

/-- `decimal_digit` -/
def decimalDigit (r : Word) : Char :=
  Char.ofNat (48 + r.toNat)

/-- The digits of `r`, with the characters that are left for them to fill. -/
def appendDigits (b : CharBuffer) (r : Word) (result i : Int) :
    Option (CharBuffer × Word × Int × Int) :=
  untilLoop (fun s => some (decide (s.2.1 = 0)))
    (fun (b, r, result, i) => do
      return (← b.put (decimalDigit (r.srem 10)) result, r.sdiv 10, result + 1, i - 1))
    10 (b, r, result, i)

/-- The zeros before the digits. -/
def appendZeros (b : CharBuffer) (result i : Int) : Option (CharBuffer × Int × Int) :=
  untilLoop (fun s => some (decide (s.2.2 = 0)))
    (fun (b, result, i) => do return (← b.put '0' result, result + 1, i - 1))
    i.toNat (b, result, i)

/-- `append_in_char_buffer`: the number of characters, `register1` and the buffer. -/
def appendInCharBuffer (m register1 : MutableBigInteger) (b : CharBuffer) :
    Option (Int × MutableBigInteger × CharBuffer) := do
  let maxChar := m.integerLength * 9 + (2 * m.integerLength + 2).tdiv 3
  let b ← (if b.capacity < maxChar then b.resize maxChar else return b)
  let register1 ← register1.copy m
  let base : Word := 1000000000
  let (register1, r) ← register1.divideOneWord base
  let (b, result, register1, r) ← untilLoop
    (fun s : CharBuffer × Int × MutableBigInteger × Word => some s.2.2.1.isZero)
    (fun (b, result, register1, r) => do
      let (b, _, result, i) ← appendDigits b r result 9
      let (b, result, _) ← appendZeros b result i
      let (register1, r) ← register1.divideOneWord base
      return (b, result, register1, r))
    maxChar.toNat (b, 0, register1, r)
  -- the digits that come last are not filled with zeros
  let (b, _, result, _) ← appendDigits b r result 0
  return (result, register1, b)

/-- `append_in`: the text, `register1` and the buffer. -/
def appendIn (m register1 : MutableBigInteger) (b : CharBuffer) (buffer : List Char) :
    Option (List Char × MutableBigInteger × CharBuffer) :=
  if m.isZero then
    return (buffer ++ ['0'], register1, b)
  else do
    let buffer := if m.negative then buffer ++ ['-'] else buffer
    let (k, register1, b) ← m.appendInCharBuffer register1 b
    let (_, buffer) ← untilLoop (fun s => some (decide (s.1 = 0)))
      (fun (k, buffer) => do return (k - 1, buffer ++ [← b.item (k - 1)])) k.toNat (k, buffer)
    return (buffer, register1, b)

/-- `is_printable` -/
def IsPrintable (m : MutableBigInteger) : Prop :=
  m.integerLength ≤ 2 ^ 27

/-! ## Groups of digits -/

open DecimalNumeral

/-- The characters that are written so far, in a buffer of at least `size` cells. -/
structure Written (b : CharBuffer) (size : Int) (xs : List Char) (result : Int) : Prop where
  valid : b.Valid
  size_le : size ≤ b.capacity
  result_eq : result = xs.length
  segment : Segment b.storage.cell 0 xs

section Groups

variable {b : CharBuffer} {size result i : Int} {xs : List Char}

theorem Written.returns_put (h : Written b size xs result) (c : Char) (room : result < size) :
    Returns (b.put c result) fun b' => Written b' size (xs ++ [c]) (result + 1) := by
  obtain ⟨⟨size_eq, pos, low, high⟩, size_le, result_eq, segment⟩ := h
  unfold CharBuffer.put
  rw [Returns.bind_iff, NativeArray.returns_put]
  refine ⟨by omega, Returns.pure_iff.mpr ⟨⟨size_eq, pos, low, high⟩, size_le, ?_, ?_⟩⟩
  · rw [List.length_append, List.length_singleton]
    omega
  · rw [segment_append, segment_singleton]
    refine ⟨segment.congr fun j _ less => NativeArray.cell_set_of_ne _ _ (by omega), ?_⟩
    rw [show 0 + (xs.length : Int) = result by omega]
    exact NativeArray.cell_set_self _ _ _

/-- The digits of a number, lowest first. -/
def digitChars (n : ℕ) : List Char :=
  (Nat.digits 10 n).map digit

theorem digitChars_of_ne_zero {n : ℕ} (nonzero : n ≠ 0) :
    digitChars n = digit (n % 10) :: digitChars (n / 10) := by
  unfold digitChars
  rw [Nat.digits_def' (by decide) (Nat.pos_of_ne_zero nonzero), List.map_cons]

theorem length_digitChars_le_iff {n k : ℕ} : (digitChars n).length ≤ k ↔ n < 10 ^ k := by
  unfold digitChars
  rw [List.length_map, Nat.digits_length_le_iff (by decide)]

theorem length_digitChars_mono {n n' : ℕ} (le : n ≤ n') :
    (digitChars n).length ≤ (digitChars n').length :=
  length_digitChars_le_iff.mpr (Nat.lt_of_le_of_lt le (length_digitChars_le_iff.mp (Nat.le_refl _)))

theorem toNat_srem {r : Word} (small : r.toNat < 2 ^ 31) : (r.srem 10).toNat = r.toNat % 10 := by
  have positive : r.msb = false := by
    rw [BitVec.msb_eq_false_iff_two_mul_lt]
    omega
  rw [BitVec.srem_eq, positive]
  exact BitVec.toNat_umod

theorem toNat_sdiv {r : Word} (small : r.toNat < 2 ^ 31) : (r.sdiv 10).toNat = r.toNat / 10 := by
  have positive : r.msb = false := by
    rw [BitVec.msb_eq_false_iff_two_mul_lt]
    omega
  rw [BitVec.sdiv_eq, positive]
  exact BitVec.toNat_udiv

theorem Written.returns_appendDigits (h : Written b size xs result) {r : Word}
    (small : r.toNat < 1000000000) (room : result + (digitChars r.toNat).length ≤ size) :
    Returns (appendDigits b r result i) fun (b', _, result', i') =>
      Written b' size (xs ++ digitChars r.toNat) result' ∧
        i' = i - (digitChars r.toNat).length := by
  have short : (digitChars r.toNat).length ≤ 10 := length_digitChars_le_iff.mpr (by omega)
  refine returns_untilLoop
    (fun s : CharBuffer × Word × Int × Int => s.2.1.toNat < 1000000000 ∧ ∃ ys,
      Written s.1 size ys s.2.2.1 ∧ ys ++ digitChars s.2.1.toNat = xs ++ digitChars r.toNat ∧
      s.2.2.2 - (digitChars s.2.1.toNat).length = i - (digitChars r.toNat).length)
    (fun s => (digitChars s.2.1.toNat).length) ⟨small, xs, h, rfl, rfl⟩ short ?_
  rintro ⟨b, q, result', j⟩ ⟨smallQ, ys, written, texts, places⟩
  dsimp only at smallQ written texts places ⊢
  have lengths := congrArg List.length texts
  rw [List.length_append, List.length_append] at lengths
  have result_eq := written.result_eq
  have result_eq' := h.result_eq
  rw [Returns.some_iff]
  split
  · rename_i stop
    have zero : q = 0 := of_decide_eq_true stop
    rw [zero, show digitChars (0 : Word).toNat = [] from rfl] at texts places
    rw [List.append_nil] at texts
    rw [List.length_nil] at places
    rw [← texts]
    exact ⟨written, by omega⟩
  · rename_i goes
    have nonzero : q.toNat ≠ 0 := fun zero =>
      goes (decide_eq_true (BitVec.eq_of_toNat_eq zero))
    rw [digitChars_of_ne_zero nonzero] at texts places lengths ⊢
    rw [List.length_cons] at places lengths ⊢
    rw [Returns.bind_iff]
    refine (written.returns_put _ (by omega)).mono fun b' more => Returns.pure_iff.mpr ?_
    dsimp only
    rw [toNat_sdiv (by omega)]
    refine ⟨⟨by omega, ys ++ [digit (q.toNat % 10)], ?_, ?_, by omega⟩, by omega⟩
    · have char : decimalDigit (q.srem 10) = digit (q.toNat % 10) := by
        unfold decimalDigit digit
        rw [toNat_srem (by omega)]
      rwa [char] at more
    · rw [List.append_assoc, List.singleton_append]
      exact texts

theorem Written.returns_appendZeros (h : Written b size xs result) {n : ℕ} (i_eq : i = n)
    (room : result + n ≤ size) :
    Returns (appendZeros b result i) fun (b', result', _) =>
      Written b' size (xs ++ List.replicate n '0') result' := by
  subst i_eq
  refine returns_untilLoop
    (fun s : CharBuffer × Int × Int => ∃ k ys : ℕ, s.2.2 = k ∧ ys + k = n ∧
      Written s.1 size (xs ++ List.replicate ys '0') s.2.1)
    (fun s => s.2.2.toNat) ⟨n, 0, rfl, by omega, by rwa [List.replicate_zero, List.append_nil]⟩
    (le_refl _) ?_
  rintro ⟨b, result', j⟩ ⟨k, ys, j_eq, sum, written⟩
  dsimp only at j_eq written ⊢
  have result_eq := written.result_eq
  have result_eq' := h.result_eq
  rw [List.length_append, List.length_replicate] at result_eq
  rw [Returns.some_iff]
  split
  · rename_i stop
    have zero : j = 0 := of_decide_eq_true stop
    obtain rfl : ys = n := by omega
    exact written
  · rename_i goes
    have nonzero : ¬j = 0 := fun zero => goes (decide_eq_true zero)
    rw [Returns.bind_iff]
    refine (written.returns_put '0' (by omega)).mono fun b' more => Returns.pure_iff.mpr ?_
    dsimp only
    refine ⟨⟨k - 1, ys + 1, by omega, by omega, ?_⟩, by omega⟩
    rwa [List.replicate_succ', ← List.append_assoc]

theorem digitChars_group {q r : ℕ} (less : r < 1000000000) (nonzero : q ≠ 0) :
    digitChars (q * 1000000000 + r) =
      digitChars r ++ List.replicate (9 - (digitChars r).length) '0' ++ digitChars q := by
  have group := digits_group (k := 9) less nonzero
  unfold digitChars
  rw [show q * 1000000000 + r = q * 10 ^ 9 + r from rfl, group, List.map_append, List.map_append,
    List.map_replicate, List.length_map]
  rfl

end Groups

/-! ## Numbers -/

/-- The characters that are reserved for `n` words are enough. -/
theorem wordBase_pow_le (n : ℕ) : 4294967296 ^ n ≤ 10 ^ (9 * n + (2 * n + 2) / 3) := by
  induction n using Nat.strong_induction_on with
  | _ n ih =>
    rcases n with - | - | - | n
    · decide
    · decide
    · decide
    · have least := ih n (by omega)
      have three : 4294967296 ^ 3 ≤ 10 ^ 29 := by decide
      rw [show n + 1 + 1 + 1 = n + 3 by omega, pow_add,
        show 9 * (n + 3) + (2 * (n + 3) + 2) / 3 = 9 * n + (2 * n + 2) / 3 + 29 by omega, pow_add]
      exact Nat.mul_le_mul least three

section Numbers

variable {m register1 : MutableBigInteger} {b : CharBuffer}

theorem Valid.length_digitChars_le (hm : Valid m) : ((digitChars m.magnitude.toNat).length : Int) ≤
    m.integerLength * 9 + (2 * m.integerLength + 2).tdiv 3 := by
  obtain ⟨n, length⟩ := hm.length_eq
  have less := magnitude_lt length
  have bound : m.magnitude.toNat < 10 ^ (9 * n + (2 * n + 2) / 3) := by
    refine Nat.lt_of_lt_of_le ?_ (wordBase_pow_le n)
    rw [Int.toNat_lt m.magnitude_nonneg]
    exact less
  have le := length_digitChars_le_iff.mpr bound
  rw [length, Int.tdiv_eq_ediv_of_nonneg (by omega)]
  omega

theorem Valid.returns_divideGroup (h : Valid register1) (nonzero : register1.magnitude.toNat ≠ 0) :
    Returns (register1.divideOneWord 1000000000) fun (q, r) => Valid q ∧
      q.magnitude.toNat = register1.magnitude.toNat / 1000000000 ∧
      r.toNat = register1.magnitude.toNat % 1000000000 := by
  have some : register1.integerLength ≠ 0 := fun zero =>
    nonzero (by rw [magnitude_of_zero zero]; rfl)
  refine (returns_divideOneWord h some (by decide)).mono fun (q, r) ⟨holds, rest⟩ => ?_
  have quotient := abs_value q
  rw [holds.value_eq] at quotient
  have base : unsigned (1000000000 : Word) = 1000000000 := rfl
  rw [base] at quotient rest
  unfold unsigned at rest
  have positive : (0 : ℤ) ≤ register1.magnitude / 1000000000 := by omega
  have magnitude : q.magnitude = register1.magnitude / 1000000000 := by
    rw [← quotient]
    cases register1.negative
    · exact abs_of_nonneg positive
    · rw [signed_true, abs_neg, abs_of_nonneg positive]
  exact ⟨holds.toValid, by omega, by omega⟩

theorem Valid.isZero_iff (h : Valid m) : m.isZero = true ↔ m.magnitude.toNat = 0 := by
  have pos : m.integerLength ≠ 0 → 0 < m.magnitude := h.magnitude_pos
  unfold isZero
  rw [decide_eq_true_iff]
  constructor
  · intro zero
    rw [magnitude_of_zero zero]
    rfl
  · intro zero
    by_contra nonzero
    omega

/-- The buffer holds the digits of the number, lowest first. -/
theorem Valid.returns_appendInCharBuffer (hm : Valid m) (nonzero : m.integerLength ≠ 0)
    (h₁ : Valid register1) (hb : b.Valid) :
    Returns (m.appendInCharBuffer register1 b) fun (k, register1, b) => Valid register1 ∧
      Written b k (digitChars m.magnitude.toNat) k := by
  have enough := hm.length_digitChars_le
  have positive := hm.magnitude_pos nonzero
  unfold appendInCharBuffer
  dsimp only
  generalize m.integerLength * 9 + (2 * m.integerLength + 2).tdiv 3 = maxChar at enough ⊢
  have buffered : Returns (if b.capacity < maxChar then b.resize maxChar else pure b) fun b =>
      b.Valid ∧ maxChar ≤ b.capacity := by
    split
    · exact hb.returns_resize ‹_›
    · exact Returns.pure_iff.mpr ⟨hb, by omega⟩
  refine buffered.bind fun b ⟨hb, room⟩ => ?_
  refine (returns_copy h₁.fits hm).bind fun copied ⟨copy, _⟩ => ?_
  have magnitude := copy.magnitude_eq'
  refine (copy.toHolds.toValid.returns_divideGroup (by omega)).bind fun (q, r) ⟨hq, high, low⟩ => ?_
  rw [magnitude] at high low
  generalize m.magnitude.toNat = number at *
  rw [Returns.bind_iff]
  refine returns_untilLoop
    (fun s : CharBuffer × Int × MutableBigInteger × Word => ∃ xs, Written s.1 maxChar xs s.2.1 ∧
      Valid s.2.2.1 ∧ s.2.2.2.toNat < 1000000000 ∧
      s.2.2.1.magnitude.toNat * 1000000000 + s.2.2.2.toNat ≠ 0 ∧
      xs ++ digitChars (s.2.2.1.magnitude.toNat * 1000000000 + s.2.2.2.toNat) = digitChars number)
    (fun s => (digitChars s.2.2.1.magnitude.toNat).length)
    ⟨[], ⟨hb, room, rfl, segment_nil⟩, hq, by dsimp only; omega, by dsimp only; omega, ?_⟩ ?_ ?_
  · dsimp only
    rw [high, low, Nat.div_add_mod', List.nil_append]
  · have fewer := length_digitChars_mono (Nat.div_le_self number 1000000000)
    rw [high]
    omega
  rintro ⟨b, result, register1, r⟩ ⟨xs, written, h₁, less, some, texts⟩
  have result_eq := written.result_eq
  have lengths := congrArg List.length texts
  rw [List.length_append] at lengths
  rw [Returns.some_iff]
  split
  · rename_i zero
    rw [h₁.isZero_iff.mp zero, Nat.zero_mul, Nat.zero_add] at texts lengths
    refine (written.returns_appendDigits less (by omega)).bind ?_
    rintro ⟨b', r', result', i'⟩ ⟨written', -⟩
    rw [texts] at written'
    obtain ⟨valid, size_le, result_eq', segment⟩ := written'
    rw [Returns.pure_iff]
    exact ⟨h₁, valid, by dsimp only; omega, result_eq', segment⟩
  · rename_i goes
    have nonzero : register1.magnitude.toNat ≠ 0 := fun zero => goes (h₁.isZero_iff.mpr zero)
    have group := digitChars_group less nonzero
    have digits := length_digitChars_le_iff.mpr (show r.toNat < 10 ^ 9 from less)
    rw [group] at texts lengths
    rw [List.length_append, List.length_append, List.length_replicate] at lengths
    refine (written.returns_appendDigits less (by omega)).bind ?_
    rintro ⟨b₁, r₁, result₁, i₁⟩ ⟨written₁, places⟩
    have result_eq₁ := written₁.result_eq
    rw [List.length_append] at result_eq₁
    dsimp only at places result_eq₁ ⊢
    refine (written₁.returns_appendZeros (n := 9 - (digitChars r.toNat).length) (by omega)
      (by omega)).bind ?_
    rintro ⟨b₂, result₂, i₂⟩ written₂
    refine (h₁.returns_divideGroup nonzero).bind fun (q', r') ⟨hq', high', low'⟩ => ?_
    rw [Returns.pure_iff]
    have whole := Nat.div_add_mod' register1.magnitude.toNat 1000000000
    rw [high', low', whole]
    refine ⟨⟨_, written₂, hq', by omega, nonzero, ?_⟩, ?_⟩
    · rw [← texts]
      simp only [List.append_assoc]
    · rw [digitChars_of_ne_zero nonzero, List.length_cons]
      have fewer : register1.magnitude.toNat / 1000000000 ≤ register1.magnitude.toNat / 10 :=
        Nat.div_le_div_left (by decide) (by decide)
      exact Nat.lt_succ_of_le (length_digitChars_mono fewer)

/-- The characters of the buffer, backwards. -/
theorem Written.returns_reverse {xs : List Char} {k : Int} (h : Written b k xs k)
    (buffer : List Char) :
    Returns (untilLoop (fun s => some (decide (s.1 = 0)))
      (fun (k, buffer) => do return (k - 1, buffer ++ [← b.item (k - 1)])) k.toNat (k, buffer))
      fun s => s.2 = buffer ++ xs.reverse := by
  obtain ⟨⟨size_eq, -, -, -⟩, size_le, length, segment⟩ := h
  refine returns_untilLoop
    (fun s : Int × List Char => ∃ n ≤ xs.length, s.1 = n ∧ s.2 = buffer ++ (xs.drop n).reverse)
    (fun s => s.1.toNat)
    ⟨xs.length, le_refl _, length, by rw [List.drop_length, List.reverse_nil, List.append_nil]⟩
    (le_refl _) ?_
  rintro ⟨j, text⟩ ⟨n, le, rfl, rfl⟩
  rw [Returns.some_iff]
  split
  · rename_i stop
    obtain rfl : n = 0 := Int.natCast_eq_zero.mp (of_decide_eq_true stop)
    rw [List.drop_zero]
  · rename_i goes
    have nonzero : n ≠ 0 := fun zero => goes (decide_eq_true (Int.natCast_eq_zero.mpr zero))
    obtain ⟨n, rfl⟩ := Nat.exists_eq_succ_of_ne_zero nonzero
    have inside : xs[n]? = some (xs.get ⟨n, le⟩) := List.getElem?_eq_getElem le
    have read := segment n _ inside
    rw [show (0 : Int) + n = ((n + 1 : ℕ) : Int) - 1 by omega] at read
    unfold CharBuffer.item
    rw [Returns.bind_iff, NativeArray.returns_item, Returns.pure_iff]
    refine ⟨by omega, ⟨n, by omega, by omega, ?_⟩, by omega⟩
    rw [read, List.append_assoc, List.drop_eq_getElem_cons le, List.reverse_cons]
    rfl

/-- `append_in` appends the numeral of the number. -/
theorem Valid.returns_appendIn (hm : Valid m) (h₁ : Valid register1) (hb : b.Valid)
    (buffer : List Char) :
    Returns (m.appendIn register1 b buffer) fun (text, register1, b) =>
      text = buffer ++ ofInt m.value ∧ Valid register1 ∧ b.Valid := by
  have natAbs : m.value.natAbs = m.magnitude.toNat := by
    rw [← abs_value, Int.abs_eq_natAbs, Int.toNat_natCast]
  have sign : (if m.negative = true then buffer ++ ['-'] else buffer) ++ ofNat m.magnitude.toNat =
      buffer ++ ofInt m.value := by
    unfold ofInt
    rw [natAbs]
    by_cases negative : m.negative = true
    · rw [if_pos negative, if_pos (hm.value_neg_iff.mpr negative), List.append_assoc]
      rfl
    · rw [if_neg negative, if_neg fun below => negative (hm.value_neg_iff.mp below)]
  unfold appendIn
  split
  · rename_i zero
    have length : m.integerLength = 0 := of_decide_eq_true zero
    rw [Returns.pure_iff]
    refine ⟨?_, h₁, hb⟩
    rw [value_of_zero length]
    rfl
  · rename_i some
    have nonzero : m.integerLength ≠ 0 := fun zero => some (decide_eq_true zero)
    have positive := hm.magnitude_pos nonzero
    rw [ofNat_of_ne_zero (by omega)] at sign
    refine (hm.returns_appendInCharBuffer nonzero h₁ hb).bind ?_
    rintro ⟨k, register1', b'⟩ ⟨valid, written⟩
    refine (written.returns_reverse _).bind fun (j, text) read => ?_
    rw [Returns.pure_iff]
    exact ⟨read.trans sign, valid, written.valid⟩

end Numbers

end MutableBigInteger

end Liberty
