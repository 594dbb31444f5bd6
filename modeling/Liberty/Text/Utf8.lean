import Liberty.Text.UnicodeStringCommands

/-!
# UTF-8

`utf8_encode_in` and `utf8_decode_from`.  A STRING is the list of the codes of its
characters.  Decoding what was encoded extends the string by the code points one by one, and
gives them back when none of them is supplementary.
-/

namespace Liberty

namespace UnicodeString

open Stored

/-! ## The source -/

/-- `utf8_character_in`: the codes appended to `s`. -/
def utf8CharacterIn (character : Int) (s : List Int) : List Int :=
  let v := character
  if v < 128 then s ++ [v]
  else if v < 2048 then s ++ [v / 64 + 192, v % 64 + 128]
  else if v < 65536 then
    let w := v % 4096
    s ++ [v / 4096 + 224, w / 64 + 128, w % 64 + 128]
  else
    let w := v % 0x40000
    let x := w % 0x1000
    s ++ [v / 0x40000 + 240, w / 0x1000 + 128, x / 64 + 128, x % 64 + 128]

def utf8EncodeIn (u : UnicodeString) (s : List Int) : Option (List Int) := do
  let (s, _) ← untilLoop (fun (_, i) => some (decide (i > u.count)))
    (fun (s, i) => do return (utf8CharacterIn (← u.item i) s, i + 1))
    u.count.toNat (s, 1)
  return s

/-- The item at the index `i` of a STRING, the first index being 1. -/
def charAt (s : List Int) (i : Int) : Option Int :=
  FastArray.item s (i - 1)

/-- The loop of `utf8_decode_from` over the continuation bytes: the string, the Boolean
result, the value, the index and the number of bytes left. -/
def utf8Continuation (s : List Int) (start : UnicodeString × Bool × Int × Int × Int) :
    Option (UnicodeString × Bool × Int × Int × Int) :=
  untilLoop (fun (_, _, _, _, k) => some (decide (k ≤ 1)))
    (fun (u, result, v, i, k) => do
      let continues ←
        (if i ≤ s.length then do
          let code ← charAt s i
          return decide (128 ≤ code ∧ code ≤ 191)
        else some false)
      if continues then
        return (u, result, v * 64 + (← charAt s i) - 128, i + 1, k - 1)
      else
        return (← u.extend 65533, false, v, i, 0))
    3 start

/-- The end of a round of the main loop, where `k` is 1 after a whole sequence. -/
def utf8DecodeEnd (seqLength : Int) :
    UnicodeString × Bool × Int × Int × Int → Option (UnicodeString × Bool × Int)
  | (u, result, v, i, k) => do
    if k = 1 then
      -- an overlong sequence, or not a valid code point
      if v < 128 ∨ v < 2048 ∧ seqLength > 2 ∨ v < 65536 ∧ seqLength > 3 then
        return (← u.extend 65533, false, i)
      else if ¬ValidUnicode v then
        return (← u.extend 65533, false, i)
      else
        return (← u.extend v, result, i)
    else
      return (u, result, i)

/-- One round of the main loop of `utf8_decode_from`. -/
def utf8DecodeStep (s : List Int) :
    UnicodeString × Bool × Int → Option (UnicodeString × Bool × Int)
  | (u, result, i) => do
    let v ← charAt s i
    let i := i + 1
    let (u, result, v, k) ←
      (if 0 ≤ v ∧ v ≤ 127 then do return (← u.extend v, result, v, 0)
      else if 192 ≤ v ∧ v ≤ 223 then some (u, result, v - 192, 2)
      else if 224 ≤ v ∧ v ≤ 239 then some (u, result, v - 224, 3)
      else if 240 ≤ v ∧ v ≤ 247 then some (u, result, v - 240, 4)
      else do return (← u.extend 65533, false, v, 0))
    utf8DecodeEnd k (← utf8Continuation s (u, result, v, i, k))

def utf8DecodeFrom (u : UnicodeString) (s : List Int) : Option (UnicodeString × Bool) := do
  let (u, result, _) ← untilLoop (fun (_, _, i) => some (decide (i > s.length)))
    (utf8DecodeStep s) s.length (u, true, (1 : Int))
  return (u, result)

/-- `from_utf8` on a new object. -/
def fromUtf8 (s : List Int) : Option UnicodeString := do
  let (u, _) ← (blank.make s.length).utf8DecodeFrom s
  return u

/-! ## Encoding -/

/-- The first byte of a character and the six bits of each of the next ones. -/
def lead (c : Int) : Int × List Int :=
  if c < 128 then (c, [])
  else if c < 2048 then (c / 64 + 192, [c % 64])
  else if c < 65536 then (c / 4096 + 224, [c % 4096 / 64, c % 4096 % 64])
  else (c / 262144 + 240, [c % 262144 / 4096, c % 262144 % 4096 / 64, c % 262144 % 4096 % 64])

/-- The bytes of one character. -/
def bytesOf (c : Int) : List Int :=
  (lead c).1 :: (lead c).2.map (· + 128)

theorem utf8CharacterIn_eq (c : Int) (s : List Int) : utf8CharacterIn c s = s ++ bytesOf c := by
  unfold utf8CharacterIn bytesOf lead
  dsimp only
  split
  · rfl
  · split
    · rfl
    · split <;> rfl

theorem returns_utf8EncodeIn {u : UnicodeString} {cs : List Stored} (h : Represents u cs)
    (s : List Int) :
    u.utf8EncodeIn s = some (s ++ (cs.map Stored.unicode).flatMap bytesOf) := by
  have count := h.count_eq
  have run : Returns (u.utf8EncodeIn s) fun s' =>
      s' = s ++ (cs.map Stored.unicode).flatMap bytesOf := by
    unfold utf8EncodeIn
    rw [Returns.bind_iff]
    refine returns_untilLoop
      (fun t : List Int × Int => ∃ done rest, cs = done ++ rest ∧
        t = (s ++ (done.map Stored.unicode).flatMap bytesOf, (done.length + 1 : Int)))
      (fun t => cs.length + 1 - t.2.toNat)
      ⟨[], cs, rfl, by simp⟩ (by dsimp only; omega) ?_
    intro (t, i) ⟨done, rest, split, same⟩
    cases same
    rw [Returns.some_iff]
    dsimp only
    cases rest with
    | nil =>
      rw [split, List.append_nil] at count
      rw [if_pos (by rw [decide_eq_true_eq]; omega), Returns.pure_iff, split, List.append_nil]
    | cons c rest =>
      rw [split] at h count
      rw [List.length_append, List.length_cons] at count
      rw [if_neg (by rw [decide_eq_true_eq]; omega), returns_item h rfl, Returns.bind_iff,
        Returns.some_iff, Returns.pure_iff, utf8CharacterIn_eq]
      refine ⟨⟨done ++ [c], rest, by rw [split]; simp, ?_⟩, ?_⟩
      · simp
      · rw [split, List.length_append, List.length_cons]
        omega
  rcases run with ⟨s', run, rfl⟩
  exact run

/-! ## Decoding -/

/-- The byte at the index `i`, after the bytes `before`. -/
theorem charAt_append {before after : List Int} {byte i : Int}
    (position : i = before.length + 1) : charAt (before ++ byte :: after) i = some byte := by
  have same : i - 1 = before.length := by omega
  unfold charAt
  rw [same, FastArray.item_natCast, List.getElem?_append_right (Nat.le_refl _), Nat.sub_self]
  rfl

/-- The value of six bits after six bits. -/
def sixBits (v : Int) (digits : List Int) : Int :=
  digits.foldl (fun v digit => v * 64 + digit) v

/-- The continuation bytes of a character, all of them there. -/
theorem returns_utf8Continuation {before after digits : List Int} {u : UnicodeString}
    {result : Bool} {v i k : Int} (position : i = before.length + 1)
    (number : k = digits.length + 1) (short : digits.length ≤ 3)
    (six : ∀ digit ∈ digits, 0 ≤ digit ∧ digit < 64) :
    utf8Continuation (before ++ (digits.map (· + 128) ++ after)) (u, result, v, i, k) =
      some (u, result, sixBits v digits, i + digits.length, 1) := by
  have run : Returns
      (utf8Continuation (before ++ (digits.map (· + 128) ++ after)) (u, result, v, i, k))
      fun t => t = (u, result, sixBits v digits, i + digits.length, 1) := by
    refine returns_untilLoop
      (fun t : UnicodeString × Bool × Int × Int × Int => ∃ done rest, digits = done ++ rest ∧
        t = (u, result, sixBits v done, i + done.length, (rest.length + 1 : Int)))
      (fun t => (t.2.2.2.2 - 1).toNat) ⟨[], digits, rfl, by simp [number, sixBits]⟩
      (by dsimp only; omega) ?_
    intro (u', result', v', i', k') ⟨done, rest, split, same⟩
    cases same
    rw [Returns.some_iff]
    dsimp only
    cases rest with
    | nil =>
      rw [List.append_nil] at split
      rw [if_pos (by rw [decide_eq_true_eq]; simp), split]
      rfl
    | cons digit rest =>
      have range := six digit (by rw [split]; simp)
      have arranged : before ++ (digits.map (· + 128) ++ after) =
          (before ++ done.map (· + 128)) ++
            (digit + 128) :: (rest.map (· + 128) ++ after) := by
        rw [split]
        simp
      have read : charAt (before ++ (digits.map (· + 128) ++ after)) (i + done.length) =
          some (digit + 128) := by
        rw [arranged]
        apply charAt_append
        rw [List.length_append, List.length_map]
        omega
      have inside : i + done.length ≤
          ((before ++ (digits.map (· + 128) ++ after)).length : ℕ) := by
        rw [arranged, List.length_append, List.length_append, List.length_cons,
          List.length_map]
        omega
      rw [List.length_cons, if_neg (by rw [decide_eq_true_eq]; omega), if_pos inside, read,
        Returns.bind_iff, Returns.bind_iff, Returns.some_iff, Returns.pure_iff,
        if_pos (by rw [decide_eq_true_eq]; omega), Returns.bind_iff, Returns.some_iff,
        Returns.pure_iff]
      refine ⟨⟨done ++ [digit], rest, by rw [split]; simp, ?_⟩, by dsimp only; omega⟩
      have value : sixBits v done * 64 + (digit + 128) - 128 = sixBits v (done ++ [digit]) := by
        unfold sixBits
        rw [List.foldl_append]
        change _ = sixBits v done * 64 + digit
        unfold sixBits
        omega
      have index : i + done.length + 1 = i + ((done ++ [digit]).length : ℕ) := by
        rw [List.length_append, List.length_singleton]
        omega
      have left : ((rest.length + 1 : ℕ) : Int) + 1 - 1 = rest.length + 1 := by omega
      rw [value, index, left]
  rcases run with ⟨t, run, rfl⟩
  exact run

theorem utf8Continuation_zero (s : List Int) (u : UnicodeString) (result : Bool) (v i : Int) :
    utf8Continuation s (u, result, v, i, 0) = some (u, result, v, i, 0) := rfl

/-- The end of a round, when the value of a sequence of bytes is a valid code point. -/
theorem utf8DecodeEnd_valid {u : UnicodeString} {result : Bool} {c i seqLength : Int}
    (valid : ValidUnicode c) (long : ¬(c < 128 ∨ c < 2048 ∧ seqLength > 2 ∨
      c < 65536 ∧ seqLength > 3)) :
    utf8DecodeEnd seqLength (u, result, c, i, 1) =
      (u.extend c).map fun u' => (u', result, i) := by
  unfold utf8DecodeEnd
  dsimp only
  rw [if_pos rfl, if_neg long, if_neg (not_not.mpr valid)]
  cases u.extend c <;> rfl

theorem lead_digits (c : Int) : ∀ digit ∈ (lead c).2, 0 ≤ digit ∧ digit < 64 ∨ 0x110000 ≤ c := by
  intro digit mem
  unfold lead at mem
  split at mem
  · cases mem
  · split at mem
    · simp only [List.mem_singleton] at mem
      omega
    · split at mem
      · simp only [List.mem_cons, List.not_mem_nil, or_false] at mem
        omega
      · simp only [List.mem_cons, List.not_mem_nil, or_false] at mem
        omega

/-- The first byte of a sequence tells its length, and `c` is what its bits make. -/
theorem lead_cases {c : Int} (low : 128 ≤ c) (high : c ≤ 0x10FFFF) :
    ((192 ≤ (lead c).1 ∧ (lead c).1 ≤ 223) ∧ (lead c).2.length = 1 ∧
      sixBits ((lead c).1 - 192) (lead c).2 = c) ∨
    ((224 ≤ (lead c).1 ∧ (lead c).1 ≤ 239) ∧ (lead c).2.length = 2 ∧
      sixBits ((lead c).1 - 224) (lead c).2 = c ∧ 2048 ≤ c) ∨
    ((240 ≤ (lead c).1 ∧ (lead c).1 ≤ 247) ∧ (lead c).2.length = 3 ∧
      sixBits ((lead c).1 - 240) (lead c).2 = c ∧ 65536 ≤ c) := by
  unfold lead sixBits
  rw [if_neg (by omega)]
  split
  · left
    refine ⟨by dsimp only; omega, rfl, ?_⟩
    simp only [List.foldl_cons, List.foldl_nil]
    omega
  · right
    split
    · left
      refine ⟨by dsimp only; omega, rfl, ?_, by omega⟩
      simp only [List.foldl_cons, List.foldl_nil]
      omega
    · right
      refine ⟨by dsimp only; omega, rfl, ?_, by omega⟩
      simp only [List.foldl_cons, List.foldl_nil]
      omega

/-- The bytes of a valid code point extend the string by it. -/
theorem utf8DecodeStep_bytesOf {before after : List Int} {u : UnicodeString} {result : Bool}
    {c i : Int} (valid : ValidUnicode c) (position : i = before.length + 1) :
    utf8DecodeStep (before ++ (bytesOf c ++ after)) (u, result, i) =
      (u.extend c).map fun u' => (u', result, i + (bytesOf c).length) := by
  have low := valid.1.1
  have high := valid.1.2
  have arranged : before ++ (bytesOf c ++ after) =
      (before ++ [(lead c).1]) ++ ((lead c).2.map (· + 128) ++ after) := by
    unfold bytesOf
    simp
  have length : ((bytesOf c).length : Int) = (lead c).2.length + 1 := by
    unfold bytesOf
    rw [List.length_cons, List.length_map]
    omega
  have next : i + 1 = ((before ++ [(lead c).1]).length : ℕ) + 1 := by
    rw [List.length_append, List.length_singleton]
    omega
  have first : charAt (before ++ (bytesOf c ++ after)) i = some (lead c).1 :=
    charAt_append position
  have six : ∀ digit ∈ (lead c).2, 0 ≤ digit ∧ digit < 64 := fun digit mem =>
    (lead_digits c digit mem).resolve_right (by omega)
  have shortTail : (lead c).2.length ≤ 3 := by
    unfold lead
    split
    · exact Nat.zero_le _
    · split
      · exact Nat.le_of_ble_eq_true rfl
      · split <;> exact Nat.le_of_ble_eq_true rfl
  unfold utf8DecodeStep
  dsimp only
  rw [first, Option.bind_eq_bind, Option.bind_some, length]
  by_cases one : c < 128
  · have byte : lead c = (c, []) := if_pos one
    rw [byte, if_pos (by dsimp only; omega)]
    cases u.extend c <;> rfl
  · have tail : ∀ v k : Int, k = (lead c).2.length + 1 → sixBits v (lead c).2 = c →
        ¬(c < 128 ∨ c < 2048 ∧ k > 2 ∨ c < 65536 ∧ k > 3) →
        (do utf8DecodeEnd k (← utf8Continuation (before ++ (bytesOf c ++ after))
          (u, result, v, i + 1, k))) =
          (u.extend c).map fun u' => (u', result, i + ((lead c).2.length + 1)) := by
      intro v k number value long
      rw [arranged, returns_utf8Continuation next number shortTail six, Option.bind_eq_bind,
        Option.bind_some, value, utf8DecodeEnd_valid valid long]
      have index : i + 1 + (lead c).2.length = i + ((lead c).2.length + 1) := by omega
      rw [index]
    rcases lead_cases (by omega) high with ⟨range, number, value⟩ | ⟨range, number, value, least⟩ |
      ⟨range, number, value, least⟩
    · rw [if_neg (by omega), if_pos range]
      exact tail _ 2 (by omega) value (by omega)
    · rw [if_neg (by omega), if_neg (by omega), if_pos range]
      exact tail _ 3 (by omega) value (by omega)
    · rw [if_neg (by omega), if_neg (by omega), if_neg (by omega), if_pos range]
      exact tail _ 4 (by omega) value (by omega)

/-! ## Extensions -/

/-- What `extend` writes in the cell. -/
def cellOf (unicode : Int) : BitVec 16 :=
  low16 (if unicode ≥ 65536 then highSurrogate unicode else unicode)

/-- The cells of a new string that was extended by `points`. -/
structure Cells (u : UnicodeString) (points : List Int) : Prop where
  size_eq : u.storage.size = u.capacity
  count_eq : u.count = points.length
  count_le : u.count ≤ u.capacity
  cell_eq : ∀ (k : ℕ) (c : Int), points[k]? = some c → u.storage.cell k = cellOf c

section Extensions

variable {u e : UnicodeString} {points : List Int}

theorem Cells.snoc (h : Cells u points) {w : UnicodeString} (c : Int)
    (size : w.storage.size = w.capacity) (count : w.count = u.count + 1)
    (room : u.count + 1 ≤ w.capacity)
    (kept : ∀ i, 0 ≤ i → i < u.count → w.storage.cell i = u.storage.cell i)
    (new : w.storage.cell u.count = cellOf c) : Cells w (points ++ [c]) := by
  have before := h.count_eq
  refine ⟨size, ?_, by omega, fun k d at' => ?_⟩
  · rw [List.length_append, List.length_singleton]
    omega
  · by_cases here : k < points.length
    · rw [List.getElem?_append_left here] at at'
      rw [kept k (by omega) (by omega)]
      exact h.cell_eq k d at'
    · have bound := (List.getElem?_eq_some_iff.mp at').choose
      rw [List.length_append, List.length_singleton] at bound
      have last : k - points.length = 0 := by omega
      have same : (k : Int) = u.count := by omega
      rw [List.getElem?_append_right (by omega), last] at at'
      cases at'
      rw [same]
      exact new

/-- The reserve of `extend` keeps the cells. -/
theorem Cells.reserve (h : Cells u points) :
    u.reserve.storage.size = u.reserve.capacity ∧ u.reserve.count = u.count ∧
      u.count + 1 ≤ u.reserve.capacity ∧
      ∀ i, 0 ≤ i → i < u.count → u.reserve.storage.cell i = u.storage.cell i := by
  have size := h.size_eq
  have count := h.count_eq
  have le := h.count_le
  unfold UnicodeString.reserve
  split
  · exact ⟨size, rfl, by omega, fun _ _ _ => rfl⟩
  · split
    · exact ⟨rfl, rfl, by dsimp only; omega, fun i _ _ => by omega⟩
    · exact ⟨rfl, rfl, by dsimp only; omega, fun i _ _ => if_pos (by omega)⟩

theorem Cells.extend (h : Cells u points) (c : Int) :
    Returns (u.extend c) fun u' => Cells u' (points ++ [c]) := by
  obtain ⟨size, count, room, kept⟩ := h.reserve
  have nonneg : 0 ≤ u.count := by
    rw [h.count_eq]
    omega
  have written : ∀ cell : BitVec 16, cell = cellOf c →
      ∀ w : UnicodeString, w.storage = u.reserve.storage.set cell u.reserve.count →
        w.count = u.reserve.count + 1 → w.capacity = u.reserve.capacity →
        Cells w (points ++ [c]) := by
    intro cell same w storage countW capacityW
    apply h.snoc c
    · rw [storage, capacityW]
      exact size
    · omega
    · omega
    · intro i low high
      rw [storage, NativeArray.cell_set_of_ne _ _ (by omega)]
      exact kept i low high
    · rw [storage, count, NativeArray.cell_set_self]
      exact same
  unfold UnicodeString.extend
  split
  · rename_i supplementary
    rw [Returns.bind_iff, NativeArray.returns_put, Returns.pure_iff]
    refine ⟨by omega, written _ ?_ _ rfl rfl rfl⟩
    unfold cellOf
    rw [if_pos supplementary]
  · rename_i plain
    rw [Returns.bind_iff, NativeArray.returns_put, Returns.pure_iff]
    refine ⟨by omega, written _ ?_ _ rfl rfl rfl⟩
    unfold cellOf
    rw [if_neg plain]

/-- Decoding the bytes of valid code points extends the string by each of them. -/
theorem returns_utf8DecodeFrom (h : Cells e []) (valid : ∀ c ∈ points, ValidUnicode c) :
    Returns (e.utf8DecodeFrom (points.flatMap bytesOf)) fun t => t.2 = true ∧
      points.foldlM UnicodeString.extend e = some t.1 ∧ Cells t.1 points := by
  unfold utf8DecodeFrom
  rw [Returns.bind_iff]
  refine returns_untilLoop
    (fun t : UnicodeString × Bool × Int => ∃ done rest, points = done ++ rest ∧
      t.2 = (true, (((done.flatMap bytesOf).length : ℕ) + 1 : Int)) ∧
      done.foldlM UnicodeString.extend e = some t.1 ∧ Cells t.1 done)
    (fun t => (points.flatMap bytesOf).length + 1 - t.2.2.toNat)
    ⟨[], points, rfl, rfl, rfl, h⟩ (by dsimp only; omega) ?_
  intro (u, result, i) ⟨done, rest, split, same, folded, cells⟩
  cases same
  rw [Returns.some_iff]
  have bytes : points.flatMap bytesOf = done.flatMap bytesOf ++ rest.flatMap bytesOf := by
    rw [split, List.flatMap_append]
  cases rest with
  | nil =>
    rw [List.append_nil] at split
    rw [if_pos (by rw [decide_eq_true_eq, split]; omega), Returns.pure_iff, split]
    exact ⟨rfl, folded, cells⟩
  | cons c rest =>
    have validC := valid c (by rw [split]; simp)
    rw [List.flatMap_cons] at bytes
    have longer : (bytesOf c).length ≠ 0 := Nat.succ_ne_zero _
    have total : (points.flatMap bytesOf).length = (done.flatMap bytesOf).length +
        ((bytesOf c).length + (rest.flatMap bytesOf).length) := by
      rw [bytes, List.length_append, List.length_append]
    rw [if_neg (by rw [decide_eq_true_eq]; omega), bytes,
      utf8DecodeStep_bytesOf validC rfl, ← bytes]
    rcases cells.extend c with ⟨u', run, cells'⟩
    rw [run, Option.map_some, Returns.some_iff]
    refine ⟨⟨done ++ [c], rest, by rw [split]; simp, ?_, ?_, cells'⟩, by dsimp only; omega⟩
    · have length : ((done ++ [c]).flatMap bytesOf).length =
          (done.flatMap bytesOf).length + (bytesOf c).length := by
        simp
      dsimp only
      congr 1
      omega
    · rw [List.foldlM_append, folded, Option.bind_eq_bind, Option.bind_some, List.foldlM_cons,
        run]
      rfl

/-- Code points that one cell holds, one after the other. -/
theorem Holds.foldlM_extend {done : List Int} (h : Holds u done)
    (valid : ∀ c ∈ points, ValidUnicode c) (short : ∀ c ∈ points, c < 65536) :
    Returns (points.foldlM UnicodeString.extend u) fun u' => Holds u' (done ++ points) := by
  induction points generalizing u done with
  | nil =>
    rw [List.append_nil]
    exact Returns.some_iff.mpr h
  | cons c points ih =>
    have allowed : (Command.extend c).Allowed u.count := ⟨valid c (by simp), trivial⟩
    refine (h.execute allowed (.inl (short c (by simp)))).bind ?_
    intro u' held
    have rest := ih held (fun d mem => valid d (by simp [mem])) fun d mem => short d (by simp [mem])
    change Returns _ fun u'' => Holds u'' ((done ++ [c]) ++ points) at rest
    rwa [List.append_assoc] at rest

/-- A supplementary code point that was decoded is not what `item` reads. -/
theorem Cells.item_ne (h : Cells u points) {k : ℕ} {c : Int} (at' : points[k]? = some c)
    (valid : ValidUnicode c) (supplementary : 65536 ≤ c) : u.item (k + 1) ≠ some c := by
  apply item_ne_of_highSurrogate valid supplementary
  rw [show (k : Int) + 1 - 1 = k by omega, h.cell_eq k c at', cellOf, if_pos supplementary]

end Extensions

/-! ## Round trip -/

/-- **UTF-8 round trip.**  The bytes that encode a string of valid code points are decoded,
into any empty string, to a string with the same code points if and only if none of them is
supplementary. -/
theorem utf8_round_trip {u : UnicodeString} (invariant : Valid u)
    (valid : ∀ i, 1 ≤ i → i ≤ u.count → Returns (u.item i) ValidUnicode) :
    ∃ bytes, u.utf8EncodeIn [] = some bytes ∧
      ∀ e, Valid e → e.count = 0 →
        (Returns (e.utf8DecodeFrom bytes) (fun t => t.2 = true ∧ t.1.count = u.count ∧
            ∀ i, 1 ≤ i → i ≤ u.count → t.1.item i = u.item i) ↔
          ∀ i, 1 ≤ i → i ≤ u.count → Returns (u.item i) (· < 65536)) := by
  rcases valid_iff.mp invariant with ⟨cs, held⟩
  have count := held.count_eq
  have reads : ∀ (k : ℕ) (c : Stored), cs[k]? = some c → u.item (k + 1) = some c.unicode := by
    intro k c at'
    rcases List.getElem?_eq_some_iff.mp at' with ⟨bound, here⟩
    have split : cs = cs.take k ++ c :: cs.drop (k + 1) := by
      rw [← here, List.getElem_cons_drop, List.take_append_drop]
    rw [split] at held
    apply returns_item held
    rw [List.length_take]
    omega
  have points : ∀ x ∈ cs.map Stored.unicode, ∃ k : ℕ, k < cs.length ∧
      (cs.map Stored.unicode)[k]? = some x ∧ u.item (k + 1) = some x := by
    intro x mem
    rcases List.mem_map.mp mem with ⟨c, memC, rfl⟩
    rcases List.mem_iff_getElem?.mp memC with ⟨k, at'⟩
    refine ⟨k, (List.getElem?_eq_some_iff.mp at').choose, ?_, reads k c at'⟩
    rw [List.getElem?_map, at']
    rfl
  have validPoints : ∀ x ∈ cs.map Stored.unicode, ValidUnicode x := by
    intro x mem
    rcases points x mem with ⟨k, bound, -, read⟩
    exact (valid (k + 1) (by omega) (by omega)).unique read
  refine ⟨_, returns_utf8EncodeIn held [], fun e validE emptyE => ?_⟩
  have cellsE : Cells e [] := ⟨validE.size_eq, emptyE, validE.count_le, nofun⟩
  have decoded := returns_utf8DecodeFrom cellsE validPoints
  constructor
  · intro same i low high
    by_contra long
    rcases decoded with ⟨t, run, ok, -, cells⟩
    have equal := (same.unique run).2.2 i low high
    rcases valid i low high with ⟨x, read, validX⟩
    have supplementary : 65536 ≤ x := by
      by_contra short
      exact long ⟨x, read, by omega⟩
    have place : i = ((i - 1).toNat : ℕ) + 1 := by omega
    have at' : (cs.map Stored.unicode)[(i - 1).toNat]? = some x := by
      have inside : (i - 1).toNat < cs.length := by omega
      have readC := reads _ _ (List.getElem?_eq_getElem inside)
      rw [← place, read] at readC
      rw [List.getElem?_map, List.getElem?_eq_getElem inside, Option.map_some, readC]
    apply cells.item_ne at' validX supplementary
    rw [← place, equal, read]
  · intro short
    have shortPoints : ∀ x ∈ cs.map Stored.unicode, x < 65536 := by
      intro x mem
      rcases points x mem with ⟨k, bound, -, read⟩
      exact (short (k + 1) (by omega) (by omega)).unique read
    have heldE : Holds e [] := by
      rcases valid_iff.mp validE with ⟨es, heldE⟩
      have countE := heldE.count_eq
      have none : es = [] := List.length_eq_zero_iff.mp (by omega)
      rw [none] at heldE
      exact ⟨[], heldE, rfl, nofun⟩
    rcases decoded with ⟨t, run, ok, folded, -⟩
    have heldT := (heldE.foldlM_extend validPoints shortPoints).unique folded
    rw [List.nil_append] at heldT
    have countT := heldT.count_eq
    rw [List.length_map] at countT
    refine ⟨t, run, ok, by omega, fun i low high => ?_⟩
    have inside : (i - 1).toNat < cs.length := by omega
    have place : i = ((i - 1).toNat : ℕ) + 1 := by omega
    have read := reads _ _ (List.getElem?_eq_getElem inside)
    rw [← place] at read
    rw [(heldT.item_eq low (by omega)).1, List.getElem?_map, List.getElem?_eq_getElem inside,
      Option.map_some, read]

/-- The euro sign, of three bytes. -/
theorem utf8_round_trip_euro :
    ∃ bytes, (single 0x20AC 0).utf8EncodeIn [] = some bytes ∧
      Returns ((blank.make 3).utf8DecodeFrom bytes) (fun t => t.2 = true ∧ t.1.count = 1 ∧
        ∀ i, 1 ≤ i → i ≤ (1 : Int) → t.1.item i = (single 0x20AC 0).item i) := by
  have only : ∀ (Q : Int → Prop), Q 0x20AC → ∀ i, 1 ≤ i → i ≤ (single 0x20AC 0).count →
      Returns ((single 0x20AC 0).item i) Q := by
    intro Q holds i low high
    have first : i = 1 := Int.le_antisymm high low
    subst first
    exact ⟨0x20AC, rfl, holds⟩
  have trip := utf8_round_trip (single_valid 0x20AC 0) (only ValidUnicode (by decide))
  rcases trip with ⟨bytes, encoded, decoded⟩
  have empty := valid_iff.mpr ⟨[], represents_make (show (0 : Int) ≤ 3 by decide)⟩
  exact ⟨bytes, encoded, (decoded _ empty rfl).mpr (only (· < 65536) (by decide))⟩

/-- U+1F600 is encoded in its four bytes, and they are decoded to U+003D. -/
theorem not_utf8_round_trip :
    ∃ bytes t, Valid (single 0xD83D 0x200) ∧ (single 0xD83D 0x200).item 1 = some 0x1F600 ∧
      ValidUnicode 0x1F600 ∧ (single 0xD83D 0x200).utf8EncodeIn [] = some bytes ∧
      (blank.make 4).utf8DecodeFrom bytes = some t ∧ t.2 = true ∧ t.1.item 1 = some 0x3D :=
  ⟨_, _, single_valid _ _, rfl, by decide, rfl, rfl, rfl, rfl⟩

end UnicodeString

end Liberty
