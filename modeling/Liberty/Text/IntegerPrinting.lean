import Liberty.Text.IntegerLiteral
import Liberty.Text.StringInsertions
import Mathlib.Data.Nat.Digits.Lemmas

/-!
# append_in

An integer is written digit by digit from the lowest one on, and then the order of the digits is changed.
The minimum has no opposite, so the last digit of a negative integer is written before the sign changes.
-/

namespace Liberty

open Character

/-! ## The source -/

namespace NativelyStoredString

def swap (d : NativelyStoredString) (i1 i2 : Int) : Option NativelyStoredString := do
  let tmp ← d.item i1
  (← d.put (← d.item i2) i1).put tmp i2

end NativelyStoredString

def Character.digitZero : Character :=
  48

def decimalDigit (n : Int) : Character :=
  UInt8.ofNat (n + digitZero.code).toNat

/-- A negative integer but its last digit, which is in the buffer now. -/
def appendLastDigit (width : ℕ) (x : Int) (buffer : NativelyStoredString) : Option (Int × NativelyStoredString) := do
  let val := x.tmod 10
  if val ≤ 0 then
    let digit ← checked width (-val)
    let buffer ← buffer.addLast (decimalDigit digit)
    return (← checked width (-x.tdiv 10), buffer)
  else
    let digit ← checked width ((← checked width (-val)) + 10)
    let buffer ← buffer.addLast (decimalDigit digit)
    return (← checked width ((← checked width (-x.tdiv 10)) - 1), buffer)

/-- The loop over the digits, from the lowest one on. -/
def appendDigits (val : Int) (buffer : NativelyStoredString) : Option (Int × NativelyStoredString) :=
  untilLoop (fun s => some (s.1 == 0))
    (fun s => do return (s.1.tdiv 10, ← s.2.addLast (decimalDigit (s.1.tmod 10)))) val.toNat (val, buffer)

/-- The loop that changes the order of the characters from `i` to `idx`. -/
def changeOrder (i idx : Int) (buffer : NativelyStoredString) : Option (Int × Int × NativelyStoredString) :=
  untilLoop (fun s => some (decide (s.1 ≥ s.2.1)))
    (fun s => do return (s.1 + 1, s.2.1 - 1, ← s.2.2.swap s.1 s.2.1)) (idx - i).toNat (i, idx, buffer)

def appendIn (width : ℕ) (x : Int) (buffer : NativelyStoredString) : Option NativelyStoredString := do
  if x = 0 then buffer.addLast digitZero
  else if x > 0 then
    let (_, filled) ← appendDigits x buffer
    let (_, _, result) ← changeOrder (buffer.count + 1) filled.count filled
    return result
  else
    let signed ← buffer.addLast minus
    let (val, started) ← appendLastDigit width x signed
    let (_, filled) ← appendDigits val started
    let (_, _, result) ← changeOrder (signed.count + 1) filled.count filled
    return result

/-! ## Digits -/

/-- The digits of a natural number, from the lowest one on. -/
def digitsOf (n : ℕ) : List Character :=
  (Nat.digits 10 n).map fun d : ℕ => decimalDigit d

/-- What `append_in` writes. -/
def spelled (x : Int) : List Character :=
  if x = 0 then [digitZero] else (if x > 0 then [] else [minus]) ++ (digitsOf x.natAbs).reverse

section Digits

variable {n : ℕ}

theorem decimalDigit_of_lt (less : n < 10) :
    (decimalDigit n).isDecimalDigit = true ∧ (decimalDigit n).decimalValue = n := by
  have all : ∀ d : Fin 10, (decimalDigit d).isDecimalDigit = true ∧
      (decimalDigit d).decimalValue = (d : Int) := by decide
  exact all ⟨n, less⟩

theorem digitsOf_zero : digitsOf 0 = [] := by
  unfold digitsOf
  rw [Nat.digits_zero, List.map_nil]

theorem digitsOf_of_pos (positive : 0 < n) : digitsOf n = decimalDigit (n % 10 : ℕ) :: digitsOf (n / 10) := by
  unfold digitsOf
  rw [Nat.digits_def' (by decide) positive, List.map_cons]

theorem digitsOf_ne_nil (positive : 0 < n) : digitsOf n ≠ [] := by
  rw [digitsOf_of_pos positive]
  exact List.cons_ne_nil _ _

theorem areDigits_digitsOf (n : ℕ) : ∀ c ∈ digitsOf n, c.isDecimalDigit = true := by
  intro c mem
  obtain ⟨d, found, rfl⟩ := List.mem_map.mp mem
  exact (decimalDigit_of_lt (Nat.digits_lt_base (by decide) found)).1

theorem numeralFrom_append (v : Int) (digits : List Character) (d : Character) :
    numeralFrom v (digits ++ [d]) = 10 * numeralFrom v digits + d.decimalValue :=
  List.foldl_append

/-- The digits denote the number that they are made of. -/
theorem numeralFrom_digitsOf (n : ℕ) : numeralFrom 0 (digitsOf n).reverse = n := by
  induction n using Nat.strongRecOn with
  | ind n ih =>
    rcases Nat.eq_zero_or_pos n with rfl | positive
    · rw [digitsOf_zero]
      rfl
    · have rest := ih (n / 10) (Nat.div_lt_self positive (by decide))
      have digit := (decimalDigit_of_lt (Nat.mod_lt n (by decide : 0 < 10))).2
      rw [digitsOf_of_pos positive, List.reverse_cons, numeralFrom_append, rest, digit]
      omega

/-- What `append_in` writes denotes the integer. -/
theorem denotes_spelled (x : Int) : Denotes (spelled x) x := by
  have none : ∀ c ∈ ([] : List Character), c.isSeparator = true := fun _ mem => nomatch mem
  unfold spelled
  by_cases zero : x = 0
  · rw [if_pos zero]
    refine ⟨⟨[], [], [digitZero], [], rfl, none, none, .inl rfl, List.cons_ne_nil _ _, ?_, zero⟩⟩
    exact List.forall_mem_singleton.mpr (by decide)
  · have nonempty : (digitsOf x.natAbs).reverse ≠ [] :=
      List.reverse_ne_nil_iff.mpr (digitsOf_ne_nil (Int.natAbs_pos.mpr zero))
    have areDigits : ∀ c ∈ (digitsOf x.natAbs).reverse, c.isDecimalDigit = true := fun c mem =>
      areDigits_digitsOf _ c (List.mem_reverse.mp mem)
    rw [if_neg zero]
    by_cases positive : x > 0
    · rw [if_pos positive]
      refine ⟨⟨[], [], _, [], (List.append_nil _).symm, none, none, .inl rfl, nonempty, areDigits, ?_⟩⟩
      rw [if_neg (List.cons_ne_nil _ _).symm, List.nil_append, numeralFrom_digitsOf]
      omega
    · rw [if_neg positive]
      refine ⟨⟨[], [minus], _, [], ?_, none, none, .inr (.inr rfl), nonempty, areDigits, ?_⟩⟩
      · rw [List.append_nil, List.nil_append]
      · rw [if_pos rfl, numeralFrom_digitsOf]
        omega

end Digits

/-! ## The loops -/

namespace NativelyStoredString

section Loops

variable {width : ℕ} {d buffer : NativelyStoredString} {xs front mid back : List Character} {a b : Character}

theorem set_middle (front back : List Character) (a b : Character) {k : ℕ} (place : k = front.length) :
    (front ++ a :: back).set k b = front ++ b :: back := by
  rw [place, List.set_append_right _ _ (Nat.le_refl _), Nat.sub_self, List.set_cons_zero]

theorem Represents.returns_swap (h : Represents d (front ++ a :: (mid ++ b :: back))) :
    Returns (d.swap (front.length + 1) (front.length + mid.length + 2)) fun d' =>
      Represents d' (front ++ b :: (mid ++ a :: back)) := by
  have length : (front ++ a :: mid).length = front.length + mid.length + 1 := by
    rw [List.length_append, List.length_cons, Nat.add_assoc]
  have split (x y : Character) : front ++ x :: (mid ++ y :: back) = (front ++ x :: mid) ++ y :: back := by
    rw [List.append_assoc, List.cons_append]
  have total : (front ++ a :: (mid ++ b :: back)).length = front.length + mid.length + back.length + 2 := by
    rw [split, List.length_append, length, List.length_cons]
    omega
  have first : d.item (front.length + 1) = some a := by
    apply h.item_eq
    rw [List.getElem?_append_right (Nat.le_refl _), Nat.sub_self, List.getElem?_cons_zero]
  have second : d.item (front.length + mid.length + 2) = some b := by
    have found : (front ++ a :: (mid ++ b :: back))[front.length + mid.length + 1]? = some b := by
      rw [split, List.getElem?_append_right (by omega), length, Nat.sub_self, List.getElem?_cons_zero]
    exact h.item_eq found
  unfold NativelyStoredString.swap
  rw [first, Returns.some_bind, second, Returns.some_bind, Returns.bind_iff]
  refine (h.returns_put (by omega) (by omega)).mono fun d' replaced => ?_
  rw [set_middle front _ a b (by omega)] at replaced
  have total' : (front ++ b :: (mid ++ b :: back)).length = front.length + mid.length + back.length + 2 := by
    rw [split, List.length_append, List.length_append, List.length_cons, List.length_cons]
    omega
  refine (replaced.returns_put (by omega) (by omega)).mono fun d'' replaced' => ?_
  have place : (front.length + mid.length + 2 - 1 : Int).toNat = (front ++ b :: mid).length := by
    rw [List.length_append, List.length_cons]
    omega
  rw [split, set_middle _ back b a place, ← split] at replaced'
  exact replaced'

/-- The loop puts the digits of the number behind what the buffer holds. -/
theorem Represents.returns_appendDigits (h : Represents buffer xs) (n : ℕ) :
    Returns (appendDigits n buffer) fun s => Represents s.2 (xs ++ digitsOf n) := by
  refine returns_untilLoop
    (fun s : Int × NativelyStoredString => ∃ (m : ℕ) (ys : List Character), s.1 = m ∧
      Represents s.2 ys ∧ ys ++ digitsOf m = xs ++ digitsOf n)
    (fun s => s.1.toNat) ⟨n, xs, rfl, h, rfl⟩ (Nat.le_refl _) ?_
  rintro ⟨val, d⟩ ⟨m, ys, rfl, holds, same⟩
  rw [Returns.some_iff]
  split
  · rename_i zero
    obtain rfl : m = 0 := by simpa using zero
    rw [← same, digitsOf_zero, List.append_nil]
    exact holds
  · rename_i going
    have positive : 0 < m := by
      rcases Nat.eq_zero_or_pos m with rfl | positive
      · exact absurd rfl going
      · exact positive
    rw [Returns.bind_iff]
    refine holds.returns_addLast.mono fun d' added => ?_
    rw [Returns.pure_iff]
    refine ⟨⟨m / 10, _, rfl, added.1, ?_⟩, ?_⟩
    · rw [List.append_assoc, ← same, digitsOf_of_pos positive]
      rfl
    · have less := Nat.div_lt_self positive (by decide : 1 < 10)
      exact less

/-- The loop reverses what stands between the two indices. -/
theorem Represents.returns_changeOrder (h : Represents buffer (front ++ (mid ++ back))) :
    Returns (changeOrder (front.length + 1) (front.length + mid.length) buffer) fun s =>
      Represents s.2.2 (front ++ (mid.reverse ++ back)) := by
  refine returns_untilLoop
    (fun s => ∃ left middle right, s.1 = (left.length + 1 : Int) ∧ s.2.1 = (left.length + middle.length : Int) ∧
      Represents s.2.2 (left ++ (middle ++ right)) ∧
      left ++ (middle.reverse ++ right) = front ++ (mid.reverse ++ back))
    (fun s => (s.2.1 - s.1).toNat) ⟨front, mid, back, rfl, rfl, h, rfl⟩ (Nat.le_refl _) ?_
  rintro ⟨i, idx, d⟩ ⟨left, middle, right, rfl, rfl, holds, same⟩
  rw [Returns.some_iff]
  dsimp only
  split
  · rename_i stopped
    have short : middle.length ≤ 1 := by
      have le := of_decide_eq_true stopped
      omega
    rw [← same]
    rcases middle with _ | ⟨c, _ | ⟨c', rest⟩⟩
    · exact holds
    · exact holds
    · rw [List.length_cons, List.length_cons] at short
      omega
  · rename_i going
    have long : 1 < middle.length := by
      by_contra short
      exact going (decide_eq_true (by omega))
    obtain ⟨c, rest, rfl⟩ := List.exists_cons_of_length_pos (Nat.lt_of_succ_lt long)
    rcases List.eq_nil_or_concat' rest with rfl | ⟨inner, e, rfl⟩
    · exact absurd long (Nat.lt_irrefl 1)
    · have lengths : (c :: (inner ++ [e])).length = inner.length + 2 := by
        rw [List.length_cons, List.length_append, List.length_singleton]
      have holds' : Represents d (left ++ c :: (inner ++ e :: right)) := by
        rw [List.cons_append, List.append_assoc] at holds
        exact holds
      rw [Returns.bind_iff, lengths]
      refine (returns_swap holds').mono fun d' swapped => ?_
      rw [Returns.pure_iff]
      refine ⟨⟨left ++ [e], inner, c :: right, ?_, ?_, ?_, ?_⟩, ?_⟩
      · rw [List.length_append, List.length_singleton]
        rfl
      · rw [List.length_append, List.length_singleton]
        dsimp only
        omega
      · rw [List.append_assoc]
        exact swapped
      · rw [← same, List.reverse_cons, List.reverse_append, List.append_assoc, List.append_assoc]
        rfl
      · dsimp only
        omega

/-- The last digit of a negative integer, where its opposite may not be one of the width. -/
theorem Represents.returns_appendLastDigit (h : Represents buffer xs) {n : ℕ}
    (wide : 9 ≤ maximumOf width) (inside : InWidth width (-n)) :
    Returns (appendLastDigit width (-n) buffer) fun s =>
      s.1 = (n / 10 : ℕ) ∧ Represents s.2 (xs ++ [decimalDigit (n % 10 : ℕ)]) := by
  have remainder : (-(n : Int)).tmod 10 = -((n % 10 : ℕ) : Int) := Int.neg_tmod _ _
  have quotient : (-(n : Int)).tdiv 10 = -((n / 10 : ℕ) : Int) := Int.neg_tdiv _ _
  have low := inside.1
  rw [minimumOf_eq] at low
  have digit : checked width ((n % 10 : ℕ) : Int) = some ((n % 10 : ℕ) : Int) :=
    checked_eq (inWidth_of_nonneg (by omega) (by omega))
  have value : checked width ((n / 10 : ℕ) : Int) = some ((n / 10 : ℕ) : Int) :=
    checked_eq (inWidth_of_nonneg (by omega) (by omega))
  have negative : -((n % 10 : ℕ) : Int) ≤ 0 := by omega
  unfold appendLastDigit
  rw [remainder, quotient]
  rw [if_pos negative, Int.neg_neg, Int.neg_neg, digit, Returns.some_bind, Returns.bind_iff]
  refine h.returns_addLast.mono fun d added => ?_
  rw [value, Returns.some_bind, Returns.pure_iff]
  exact ⟨rfl, added.1⟩

/-- The digits behind the others, and the change of their order. -/
theorem Represents.returns_appendRest {n : ℕ} (h : Represents buffer (xs ++ front)) :
    Returns (do
      let (_, filled) ← appendDigits n buffer
      let (_, _, result) ← changeOrder (xs.length + 1) filled.count filled
      return result) fun d => Represents d (xs ++ (front ++ digitsOf n).reverse) := by
  rw [Returns.bind_iff]
  refine (h.returns_appendDigits n).mono fun s filled => ?_
  rw [List.append_assoc, ← List.append_nil (front ++ digitsOf n)] at filled
  have count : s.2.count = (xs.length + (front ++ digitsOf n).length : Int) := by
    rw [filled.count_eq, List.length_append, List.append_nil, Int.natCast_add]
  dsimp only
  rw [count, Returns.bind_iff]
  refine filled.returns_changeOrder.mono fun t reversed => ?_
  rw [List.append_nil] at reversed
  rw [Returns.pure_iff]
  exact reversed

/-- **`append_in` writes the text of the integer, without an overflow.** -/
theorem Represents.returns_appendIn (h : Represents buffer xs) {x : Int} (wide : 9 ≤ maximumOf width)
    (inside : InWidth width x) :
    Returns (appendIn width x buffer) fun d => Represents d (xs ++ spelled x) := by
  have count := h.count_eq
  unfold appendIn spelled
  by_cases zero : x = 0
  · rw [if_pos zero, if_pos zero]
    exact h.returns_addLast.mono fun d added => added.1
  · rw [if_neg zero, if_neg zero]
    by_cases positive : x > 0
    · have value : x = (x.natAbs : Int) := by omega
      rw [if_pos positive, if_pos positive, count]
      rw [← List.append_nil xs] at h
      have written := h.returns_appendRest (n := x.natAbs)
      rw [← value] at written
      exact written
    · have value : x = -(x.natAbs : Int) := by omega
      have size : 0 < x.natAbs := Int.natAbs_pos.mpr zero
      rw [if_neg positive, if_neg positive, Returns.bind_iff]
      refine h.returns_addLast.mono fun signed added => ?_
      rw [Returns.bind_iff]
      have last := added.1.returns_appendLastDigit wide (value ▸ inside)
      rw [← value] at last
      refine last.mono fun s ⟨val, started⟩ => ?_
      have length : (signed.count + 1 : Int) = ((xs ++ [minus]).length + 1 : Int) := by
        rw [added.1.count_eq]
      have written := started.returns_appendRest (n := x.natAbs / 10)
      rw [← val, ← length, List.singleton_append, ← digitsOf_of_pos size, List.append_assoc] at written
      exact written

end Loops

end NativelyStoredString

/-! ## There and back -/

theorem AbstractString.Readable.accepts {a : AbstractString} {width : ℕ} {x : Int} (h : a.Readable)
    (wide : 100 ≤ maximumOf width) (text : a.chars = spelled x) (inside : InWidth width x) :
    a.isIntegerOf width = some true ∧ a.toIntegerOf width = some x := by
  have denotes : Denotes a.chars x := text ▸ denotes_spelled x
  obtain ⟨b, run, accepts⟩ := h.isIntegerOf_iff wide
  rw [accepts.mpr ⟨x, denotes, inside⟩] at run
  exact ⟨run, h.toIntegerOf_eq denotes inside⟩

/-- **Integer texts.**  `is_integer` accepts the texts of the integers of 32 bits, and only them, `to_integer`
returns what they denote without an overflow, and so do the features for 64 bits; what `append_in` writes for
an integer of any width is accepted and converted back. -/
theorem integer_texts :
    (∀ a : AbstractString, a.Readable →
      (∃ b, a.isInteger = some b ∧ (b = true ↔ ∃ v, Denotes a.chars v ∧ InWidth 32 v)) ∧
      (∀ v, Denotes a.chars v → InWidth 32 v → a.toInteger = some v) ∧
      (∃ b, a.isInteger64 = some b ∧ (b = true ↔ ∃ v, Denotes a.chars v ∧ InWidth 64 v)) ∧
      ∀ v, Denotes a.chars v → InWidth 64 v → a.toInteger64 = some v) ∧
    ∀ width ∈ [8, 16, 32, 64], ∀ x, InWidth width x → ∀ buffer xs, NativelyStoredString.Represents buffer xs →
      Returns (appendIn width x buffer) fun d => ∃ text, NativelyStoredString.Represents d (xs ++ text) ∧
        ∀ a : AbstractString, a.Readable → a.chars = text →
          (a.isInteger64 = some true ∧ a.toInteger64 = some x) ∧
          (width ≤ 32 → a.isInteger = some true ∧ a.toInteger = some x) := by
  have wide : 100 ≤ maximumOf 32 := by decide
  have wide' : 100 ≤ maximumOf 64 := by decide
  constructor
  · intro a readable
    exact ⟨readable.isIntegerOf_iff wide, fun v => readable.toIntegerOf_eq, readable.isIntegerOf_iff wide',
      fun v => readable.toIntegerOf_eq⟩
  · intro width listed x inside buffer xs holds
    have enough : 9 ≤ maximumOf width ∧ width ≤ 64 := by
      have all : ∀ w ∈ [8, 16, 32, 64], 9 ≤ maximumOf w ∧ w ≤ 64 := by decide
      exact all width listed
    refine (holds.returns_appendIn enough.1 inside).mono fun d written => ⟨spelled x, written, ?_⟩
    intro a readable text
    exact ⟨readable.accepts wide' text (inside.mono enough.2), fun le => readable.accepts wide text (inside.mono le)⟩

end Liberty
