import Liberty.Text.Utf8

/-!
# Decoding any bytes

What `utf8_decode_from` does with bytes that need not encode anything: each round extends the
string by one character, and the result tells whether the bytes are an encoding.  The string
that was extended tells which code points it was extended by.
-/

namespace Liberty

namespace UnicodeString

open Stored

/-! ## Extensions of any string -/

/-- The storage has room for the characters. -/
structure Room (u : UnicodeString) : Prop where
  size_eq : u.storage.size = u.capacity
  count_nonneg : 0 ≤ u.count
  count_le : u.count ≤ u.capacity

/-- What the tables of the low surrogates get for the code points that are put from the index
`n` on. -/
def lowIndexes : Int → List Int → List Int
  | _, [] => []
  | n, c :: points => if c ≥ 65536 then n :: lowIndexes (n + 1) points else lowIndexes (n + 1) points

def lowValues (points : List Int) : List (BitVec 16) :=
  (points.filter fun c => decide (c ≥ 65536)).map lowSurrogate

/-- The string `w` is `u` extended by `points`. -/
structure Extended (u : UnicodeString) (points : List Int) (w : UnicodeString) : Prop where
  room : w.Room
  count_eq : w.count = u.count + points.length
  cell_eq : ∀ (k : ℕ) (c : Int), points[k]? = some c → w.storage.cell (u.count + k) = cellOf c
  indexes_eq : w.lowSurrogateIndexes = u.lowSurrogateIndexes ++ lowIndexes u.count points
  values_eq : w.lowSurrogateValues = u.lowSurrogateValues ++ lowValues points

section Extensions

variable {u v w : UnicodeString} {points points' : List Int}

theorem lowIndexes_cons (n c : Int) (points : List Int) : lowIndexes n (c :: points) =
    if c ≥ 65536 then n :: lowIndexes (n + 1) points else lowIndexes (n + 1) points := rfl

theorem lowValues_cons (c : Int) (points : List Int) : lowValues (c :: points) =
    if c ≥ 65536 then lowSurrogate c :: lowValues points else lowValues points := by
  unfold lowValues
  by_cases big : c ≥ 65536
  · rw [if_pos big, List.filter_cons, if_pos (decide_eq_true big), List.map_cons]
  · rw [if_neg big, List.filter_cons, if_neg (by rw [decide_eq_true_eq]; exact big)]

theorem lowValues_append (points points' : List Int) :
    lowValues (points ++ points') = lowValues points ++ lowValues points' := by
  unfold lowValues
  rw [List.filter_append, List.map_append]

theorem lowIndexes_append (n : Int) (points points' : List Int) :
    lowIndexes n (points ++ points') =
      lowIndexes n points ++ lowIndexes (n + points.length) points' := by
  induction points generalizing n with
  | nil => simp [lowIndexes]
  | cons c points ih =>
    have next : n + 1 + (points.length : Int) = n + ((c :: points).length : ℕ) := by
      rw [List.length_cons]
      omega
    rw [List.cons_append, lowIndexes_cons, lowIndexes_cons, ih, next]
    split <;> rfl

theorem lowIndexes_ge {n : Int} {points : List Int} : ∀ i ∈ lowIndexes n points, n ≤ i := by
  induction points generalizing n with
  | nil => exact fun i member => absurd member List.not_mem_nil
  | cons c points ih =>
    intro i member
    rw [lowIndexes_cons] at member
    split at member
    · rcases List.mem_cons.mp member with rfl | later
      · exact Int.le_refl _
      · have := ih i later
        omega
    · have := ih i member
      omega

theorem extended_nil (room : u.Room) : Extended u [] u :=
  ⟨room, by simp, fun k c found => absurd found (by simp), by simp [lowIndexes], by simp [lowValues]⟩

theorem Extended.extend (h : Extended u points w) (nonneg : 0 ≤ u.count) (c : Int) :
    Returns (w.extend c) fun w' => Extended u (points ++ [c]) w' := by
  have size := h.room.size_eq
  have count := h.count_eq
  have le := h.room.count_le
  have reserved : w.reserve.storage.size = w.reserve.capacity ∧ w.reserve.count = w.count ∧
      w.count + 1 ≤ w.reserve.capacity ∧
      (∀ i, 0 ≤ i → i < w.count → w.reserve.storage.cell i = w.storage.cell i) ∧
      w.reserve.lowSurrogateIndexes = w.lowSurrogateIndexes ∧
      w.reserve.lowSurrogateValues = w.lowSurrogateValues := by
    unfold UnicodeString.reserve
    split
    · exact ⟨size, rfl, by omega, fun _ _ _ => rfl, rfl, rfl⟩
    · split
      · exact ⟨rfl, rfl, by dsimp only; omega, fun i _ _ => by omega, rfl, rfl⟩
      · exact ⟨rfl, rfl, by dsimp only; omega, fun i _ _ => if_pos (by omega), rfl, rfl⟩
  obtain ⟨size', count', room, kept, indexes, values⟩ := reserved
  have written : ∀ w' : UnicodeString, w'.storage = w.reserve.storage.set (cellOf c) w.reserve.count →
      w'.count = w.reserve.count + 1 → w'.capacity = w.reserve.capacity →
      w'.lowSurrogateIndexes = w.lowSurrogateIndexes ++ lowIndexes w.count [c] →
      w'.lowSurrogateValues = w.lowSurrogateValues ++ lowValues [c] →
      Extended u (points ++ [c]) w' := by
    intro w' storage total capacity newIndexes newValues
    refine ⟨⟨?_, by omega, by omega⟩, ?_, fun k d at_k => ?_, ?_, ?_⟩
    · rw [storage, capacity]
      exact size'
    · rw [List.length_append, List.length_singleton]
      omega
    · have bound := (List.getElem?_eq_some_iff.mp at_k).1
      rw [List.length_append, List.length_singleton] at bound
      by_cases here : k < points.length
      · rw [List.getElem?_append_left here] at at_k
        rw [storage, NativeArray.cell_set_of_ne _ _ (by omega), kept _ (by omega) (by omega)]
        exact h.cell_eq k d at_k
      · have last : k - points.length = 0 := by omega
        rw [List.getElem?_append_right (by omega), last] at at_k
        cases at_k
        rw [storage, show u.count + (k : Int) = w.reserve.count by omega, NativeArray.cell_set_self]
    · rw [newIndexes, h.indexes_eq, lowIndexes_append, List.append_assoc, count]
    · rw [newValues, h.values_eq, List.append_assoc, lowValues_append]
  unfold UnicodeString.extend
  split
  · rename_i supplementary
    rw [Returns.bind_iff, NativeArray.returns_put, Returns.pure_iff]
    refine ⟨by omega, written _ ?_ rfl rfl ?_ ?_⟩
    · unfold cellOf
      rw [if_pos supplementary]
    · dsimp only
      rw [indexes, count', lowIndexes_cons, if_pos supplementary]
      rfl
    · dsimp only
      rw [values, lowValues_cons, if_pos supplementary]
      rfl
  · rename_i plain
    rw [Returns.bind_iff, NativeArray.returns_put, Returns.pure_iff]
    refine ⟨by omega, written _ ?_ rfl rfl ?_ ?_⟩
    · unfold cellOf
      rw [if_neg plain]
    · dsimp only
      rw [indexes, lowIndexes_cons, if_neg plain]
      exact (List.append_nil _).symm
    · dsimp only
      rw [values, lowValues_cons, if_neg plain]
      exact (List.append_nil _).symm

theorem Room.foldlM_extend (room : u.Room) (points : List Int) :
    Returns (points.foldlM UnicodeString.extend u) fun w => Extended u points w := by
  have all : ∀ (rest done : List Int) (v : UnicodeString), Extended u done v →
      Returns (rest.foldlM UnicodeString.extend v) fun w => Extended u (done ++ rest) w := by
    intro rest
    induction rest with
    | nil =>
      intro done v h
      rw [List.append_nil]
      exact Returns.some_iff.mpr h
    | cons c rest ih =>
      intro done v h
      refine (h.extend room.count_nonneg c).bind fun v' h' => ?_
      have tail := ih (done ++ [c]) v' h'
      rwa [List.append_assoc] at tail
  exact all points [] u (extended_nil room)

/-! ## The code points of an extension -/

theorem lowSurrogate_eq (c : Int) (nonneg : 0 ≤ c) :
    (lowSurrogate c).toNat = (c % 1024).toNat := by
  unfold lowSurrogate
  have mask : (BitVec.ofInt 32 c &&& 0x3FF#32).toNat = c.toNat % 2 ^ 32 % 1024 := by
    rw [BitVec.toNat_and, show (0x3FF#32).toNat = 2 ^ 10 - 1 from rfl, Nat.and_two_pow_sub_one_eq_mod,
      BitVec.toNat_ofInt]
    omega
  rw [BitVec.toNat_setWidth, mask]
  omega

theorem cellOf_toNat {c : Int} (low : 0 ≤ c) (high : c ≤ 0x10FFFF) :
    ((cellOf c).toNat : Int) = if c ≥ 65536 then c / 1024 - 64 else c := by
  unfold cellOf low16 highSurrogate
  rw [BitVec.toNat_ofInt]
  split <;> omega

/-- A code point is told by its cell and its place in the table of the low surrogates. -/
theorem eq_of_written {n : Int} (cells : ∀ (k : ℕ), (points[k]?).map cellOf = (points'[k]?).map cellOf)
    (indexes : lowIndexes n points = lowIndexes n points') (values : lowValues points = lowValues points')
    (valid : ∀ c ∈ points, ValidUnicode c) (valid' : ∀ c ∈ points', ValidUnicode c) :
    points = points' := by
  induction points generalizing n points' with
  | nil =>
    cases points' with
    | nil => rfl
    | cons c' points' => cases cells 0
  | cons c points ih =>
    cases points' with
    | nil => cases cells 0
    | cons c' points' =>
      have low := (valid c List.mem_cons_self).1
      have low' := (valid' c' List.mem_cons_self).1
      have cell : ((cellOf c).toNat : Int) = (cellOf c').toNat := by
        rw [Option.some_inj.mp (cells 0)]
      rw [cellOf_toNat low.1 low.2, cellOf_toNat low'.1 low'.2] at cell
      have tail : ∀ k : ℕ, (points[k]?).map cellOf = (points'[k]?).map cellOf := fun k => cells (k + 1)
      have rest := fun next values' => @ih points' (n + 1) tail next values'
        (fun d member => valid d (List.mem_cons_of_mem c member))
        fun d member => valid' d (List.mem_cons_of_mem c' member)
      rw [lowIndexes_cons, lowIndexes_cons] at indexes
      rw [lowValues_cons, lowValues_cons] at values
      have notLater : ∀ points : List Int, n ∉ lowIndexes (n + 1) points := by
        intro points member
        have := lowIndexes_ge n member
        omega
      by_cases big : c ≥ 65536 <;> by_cases big' : c' ≥ 65536
      · rw [if_pos big, if_pos big'] at indexes cell values
        have last := congrArg BitVec.toNat (List.cons.inj values).1
        rw [lowSurrogate_eq c low.1, lowSurrogate_eq c' low'.1] at last
        rw [show c = c' by omega, rest (List.cons.inj indexes).2 (List.cons.inj values).2]
      · rw [if_pos big, if_neg big'] at indexes
        exact absurd (indexes ▸ List.mem_cons_self) (notLater points')
      · rw [if_neg big, if_pos big'] at indexes
        exact absurd (indexes ▸ List.mem_cons_self) (notLater points)
      · rw [if_neg big, if_neg big'] at indexes cell values
        rw [cell, rest indexes values]

/-- Valid code points are told by the string that is extended by them. -/
theorem Extended.unique (h : Extended u points w) (h' : Extended u points' w)
    (valid : ∀ c ∈ points, ValidUnicode c) (valid' : ∀ c ∈ points', ValidUnicode c) :
    points = points' := by
  have lengths : points.length = points'.length := by
    have := h.count_eq
    have := h'.count_eq
    omega
  refine eq_of_written (n := u.count) (fun k => ?_) ?_ ?_ valid valid'
  · cases at_k : points[k]? with
    | none =>
      rw [List.getElem?_eq_none_iff] at at_k
      rw [List.getElem?_eq_none (by omega)]
    | some c =>
      have less := (List.getElem?_eq_some_iff.mp at_k).1
      have at_k' : points'[k]? = some (points'.get ⟨k, by omega⟩) :=
        List.getElem?_eq_getElem _
      rw [at_k', Option.map_some, Option.map_some, ← h.cell_eq k c at_k, ← h'.cell_eq k _ at_k']
  · exact List.append_cancel_left (h.indexes_eq.symm.trans h'.indexes_eq)
  · exact List.append_cancel_left (h.values_eq.symm.trans h'.values_eq)

end Extensions

/-! ## Any bytes -/

/-- The bytes are those of valid code points. -/
def IsUtf8 (s : List Int) : Prop :=
  ∃ points : List Int, (∀ c ∈ points, ValidUnicode c) ∧ s = points.flatMap bytesOf

section AnyBytes

variable {u : UnicodeString} {s s' : List Int} {result : Bool} {v i k : Int}

theorem Room.extend (room : u.Room) (c : Int) : Returns (u.extend c) Room :=
  ((extended_nil room).extend room.count_nonneg c).mono fun _ h => h.room

theorem charAt_drop (low : 1 ≤ i) (high : i ≤ s.length) :
    ∃ b, charAt s i = some b ∧ s.drop (i - 1).toNat = b :: s.drop i.toNat := by
  have inside : (i - 1).toNat < s.length := by omega
  have place : i - 1 = ((i - 1).toNat : ℕ) := by omega
  refine ⟨s[(i - 1).toNat], ?_, ?_⟩
  · have read := FastArray.item_natCast s (i - 1).toNat
    rw [← place] at read
    exact read.trans (List.getElem?_eq_getElem inside)
  · rw [List.drop_eq_getElem_cons inside, show (i - 1).toNat + 1 = i.toNat by omega]

/-- The bytes from the index `i` on begin with the continuation bytes `digits`. -/
def Continues (s : List Int) (i : Int) (digits : List Int) : Prop :=
  (∀ digit ∈ digits, 0 ≤ digit ∧ digit < 64) ∧ i + digits.length ≤ s.length + 1 ∧
    s.drop (i - 1).toNat = digits.map (· + 128) ++ s.drop (i + digits.length - 1).toNat

theorem continues_nil (high : i ≤ s.length + 1) : Continues s i [] := by
  refine ⟨fun digit member => absurd member List.not_mem_nil, ?_, ?_⟩
  · rw [List.length_nil]
    omega
  · rw [List.length_nil, Int.natCast_zero, Int.add_zero]
    rfl

theorem Continues.snoc {digits : List Int} (h : Continues s i digits) {b : Int}
    (range : 128 ≤ b ∧ b ≤ 191) (high : i + digits.length ≤ s.length)
    (here : s.drop (i + digits.length - 1).toNat = b :: s.drop (i + digits.length).toNat) :
    Continues s i (digits ++ [b - 128]) := by
  obtain ⟨six, -, same⟩ := h
  have next : i + ((digits ++ [b - 128]).length : ℕ) = i + digits.length + 1 := by
    rw [List.length_append, List.length_singleton]
    omega
  refine ⟨fun digit member => ?_, by omega, ?_⟩
  · rcases List.mem_append.mp member with before | last
    · exact six digit before
    · rw [List.mem_singleton.mp last]
      omega
  · rw [same, here, next, List.map_append, List.append_assoc, List.map_singleton,
      List.singleton_append, show b - 128 + 128 = b by omega,
      show i + digits.length + 1 - 1 = i + digits.length by omega]

/-- Either all the continuation bytes are there, or the string is extended once and the result
is no more true. -/
theorem utf8Continuation_any (room : u.Room) (low : 1 ≤ i) (high : i ≤ s.length + 1)
    (least : 1 ≤ k) (most : k ≤ 4) :
    Returns (utf8Continuation s (u, result, v, i, k)) fun t =>
      (∃ digits : List Int, digits.length = k - 1 ∧ Continues s i digits ∧
        t = (u, result, sixBits v digits, i + digits.length, 1)) ∨
      ∃ u' v' i', i ≤ i' ∧ i' ≤ s.length + 1 ∧ u.extend 65533 = some u' ∧
        t = (u', false, v', i', 0) := by
  refine returns_untilLoop
    (fun t : UnicodeString × Bool × Int × Int × Int =>
      (∃ digits : List Int, digits.length ≤ k - 1 ∧ Continues s i digits ∧
        t = (u, result, sixBits v digits, i + digits.length, k - digits.length)) ∨
      ∃ u' v' i', i ≤ i' ∧ i' ≤ s.length + 1 ∧ u.extend 65533 = some u' ∧
        t = (u', false, v', i', 0))
    (fun t => (t.2.2.2.2 - 1).toNat)
    (.inl ⟨[], by simp; omega, continues_nil high, by simp [sixBits]⟩) (by dsimp only; omega) ?_
  rintro t (⟨digits, short, continued, rfl⟩ | ⟨u', v', i', from_i, to_end, extended, rfl⟩)
  · rw [Returns.some_iff]
    dsimp only
    obtain ⟨six, inside, bytes⟩ := continued
    by_cases whole : k - digits.length ≤ 1
    · rw [if_pos (decide_eq_true whole)]
      exact .inl ⟨digits, by omega, ⟨six, inside, bytes⟩, by
        rw [show k - digits.length = 1 by omega]⟩
    · rw [if_neg (by rw [decide_eq_false whole]; exact Bool.false_ne_true)]
      obtain ⟨u', run, -⟩ := room.extend 65533
      by_cases more : i + digits.length ≤ s.length
      · obtain ⟨b, read, here⟩ := charAt_drop (s := s) (i := i + digits.length) (by omega) more
        rw [if_pos more, read, Returns.bind_iff, Returns.bind_iff, Returns.some_iff, Returns.pure_iff]
        by_cases range : 128 ≤ b ∧ b ≤ 191
        · rw [if_pos (decide_eq_true range), Returns.bind_iff, Returns.some_iff, Returns.pure_iff]
          have value : sixBits v digits * 64 + b - 128 = sixBits v (digits ++ [b - 128]) := by
            unfold sixBits
            rw [List.foldl_append, List.foldl_cons, List.foldl_nil]
            omega
          have longer : (digits ++ [b - 128]).length = digits.length + 1 := by
            rw [List.length_append, List.length_singleton]
          refine ⟨.inl ⟨digits ++ [b - 128], by omega,
            Continues.snoc ⟨six, inside, bytes⟩ range more here, ?_⟩, by dsimp only; omega⟩
          rw [value, longer, show i + (digits.length : Int) + 1 = i + ((digits.length + 1 : ℕ) : Int) by omega,
            show k - (digits.length : Int) - 1 = k - ((digits.length + 1 : ℕ) : Int) by omega]
        · rw [if_neg (by rw [decide_eq_false range]; exact Bool.false_ne_true), run, Returns.bind_iff,
            Returns.some_iff, Returns.pure_iff]
          exact ⟨.inr ⟨u', _, _, by omega, inside, rfl, rfl⟩, by dsimp only; omega⟩
      · rw [if_neg more, Returns.bind_iff, Returns.some_iff, if_neg Bool.false_ne_true, run,
          Returns.bind_iff, Returns.some_iff, Returns.pure_iff]
        exact ⟨.inr ⟨u', _, _, by omega, inside, rfl, rfl⟩, by dsimp only; omega⟩
  · rw [Returns.some_iff]
    exact .inr ⟨u', v', i', from_i, to_end, extended, rfl⟩

/-- The lengths of the sequences, with their first bytes and what is subtracted from them. -/
def Leads (b base k : Int) : Prop :=
  (192 ≤ b ∧ b ≤ 223) ∧ base = 192 ∧ k = 2 ∨ (224 ≤ b ∧ b ≤ 239) ∧ base = 224 ∧ k = 3 ∨
    (240 ≤ b ∧ b ≤ 247) ∧ base = 240 ∧ k = 4

/-- A sequence that is not overlong is the one that encodes its value. -/
theorem bytesOf_sequence {b base : Int} {digits : List Int} (leads : Leads b base k)
    (number : digits.length = k - 1) (six : ∀ digit ∈ digits, 0 ≤ digit ∧ digit < 64)
    (long : ¬(sixBits (b - base) digits < 128 ∨ sixBits (b - base) digits < 2048 ∧ k > 2 ∨
      sixBits (b - base) digits < 65536 ∧ k > 3)) :
    bytesOf (sixBits (b - base) digits) = b :: digits.map (· + 128) := by
  rcases leads with ⟨range, rfl, rfl⟩ | ⟨range, rfl, rfl⟩ | ⟨range, rfl, rfl⟩
  · obtain ⟨d, rfl⟩ := List.length_eq_one_iff.mp (show digits.length = 1 by omega)
    have first := six d (by simp)
    simp only [sixBits, List.foldl_cons, List.foldl_nil] at long ⊢
    unfold bytesOf lead
    rw [if_neg (by omega), if_pos (by omega)]
    simp only [List.map_cons, List.map_nil, List.cons.injEq, and_true]
    omega
  · obtain ⟨d, e, rfl⟩ := List.length_eq_two.mp (show digits.length = 2 by omega)
    have first := six d (by simp)
    have second := six e (by simp)
    simp only [sixBits, List.foldl_cons, List.foldl_nil] at long ⊢
    unfold bytesOf lead
    rw [if_neg (by omega), if_neg (by omega), if_pos (by omega)]
    simp only [List.map_cons, List.map_nil, List.cons.injEq, and_true]
    omega
  · obtain ⟨d, e, f, rfl⟩ := List.length_eq_three.mp (show digits.length = 3 by omega)
    have first := six d (by simp)
    have second := six e (by simp)
    have third := six f (by simp)
    simp only [sixBits, List.foldl_cons, List.foldl_nil] at long ⊢
    unfold bytesOf lead
    rw [if_neg (by omega), if_neg (by omega), if_neg (by omega)]
    simp only [List.map_cons, List.map_nil, List.cons.injEq, and_true]
    omega

/-- What a round makes of the bytes from the index `i` on. -/
def Round (s : List Int) (u : UnicodeString) (result : Bool) (i : Int)
    (t : UnicodeString × Bool × Int) : Prop :=
  i < t.2.2 ∧ t.2.2 ≤ s.length + 1 ∧ ∃ c, u.extend c = some t.1 ∧
    (t.2.1 = true → result = true ∧ ValidUnicode c ∧
      s.drop (i - 1).toNat = bytesOf c ++ s.drop (t.2.2 - 1).toNat)

/-- A round on a sequence of several bytes. -/
theorem round_sequence (room : u.Room) {b base : Int} (leads : Leads b base k) (low : 1 ≤ i)
    (high : i ≤ s.length) (here : s.drop (i - 1).toNat = b :: s.drop i.toNat) :
    Returns (do utf8DecodeEnd k (← utf8Continuation s (u, result, b - base, i + 1, k)))
      (Round s u result i) := by
  have least : 1 ≤ k ∧ k ≤ 4 := by
    unfold Leads at leads
    omega
  refine (utf8Continuation_any room (by omega) (by omega) least.1 least.2).bind ?_
  obtain ⟨u', run, -⟩ := room.extend 65533
  rintro t (⟨digits, number, ⟨six, inside, bytes⟩, rfl⟩ | ⟨w, v', i', from_i, to_end, extended, rfl⟩)
  · unfold utf8DecodeEnd
    dsimp only
    rw [if_pos rfl, run]
    split
    · rw [Returns.bind_iff, Returns.some_iff, Returns.pure_iff]
      exact ⟨by dsimp only; omega, inside, 65533, run, fun found => absurd found Bool.false_ne_true⟩
    · rename_i long
      split
      · rw [Returns.bind_iff, Returns.some_iff, Returns.pure_iff]
        exact ⟨by dsimp only; omega, inside, 65533, run, fun found => absurd found Bool.false_ne_true⟩
      · rename_i valid
        obtain ⟨w, extended, -⟩ := room.extend (sixBits (b - base) digits)
        rw [extended, Returns.bind_iff, Returns.some_iff, Returns.pure_iff]
        refine ⟨by dsimp only; omega, inside, _, extended, fun ok => ⟨ok, not_not.mp valid, ?_⟩⟩
        rw [bytesOf_sequence leads number six long, here, List.cons_append]
        rw [show i + 1 - 1 = i by omega] at bytes
        rw [bytes]
  · unfold utf8DecodeEnd
    dsimp only
    rw [if_neg (by decide), Returns.pure_iff]
    exact ⟨by dsimp only; omega, to_end, 65533, extended, fun found => absurd found Bool.false_ne_true⟩

theorem utf8DecodeStep_any (room : u.Room) (low : 1 ≤ i) (high : i ≤ s.length) :
    Returns (utf8DecodeStep s (u, result, i)) (Round s u result i) := by
  obtain ⟨b, read, here⟩ := charAt_drop low high
  unfold utf8DecodeStep
  dsimp only
  rw [read, Returns.some_bind, Returns.bind_iff]
  split
  · rename_i ascii
    obtain ⟨u', run, -⟩ := room.extend b
    rw [run, Returns.some_bind, Returns.pure_iff, Returns.bind_iff,
      utf8Continuation_zero, Returns.some_iff]
    unfold utf8DecodeEnd
    dsimp only
    rw [if_neg (by decide), Returns.pure_iff]
    refine ⟨by dsimp only; omega, by dsimp only; omega, b, run, fun ok => ⟨ok, ?_, ?_⟩⟩
    · unfold ValidUnicode
      omega
    · rw [here, show i + 1 - 1 = i by omega]
      unfold bytesOf lead
      rw [if_pos (by omega)]
      rfl
  · split
    · rename_i range
      rw [Returns.some_iff]
      exact round_sequence room (.inl ⟨range, rfl, rfl⟩) low high here
    · split
      · rename_i range
        rw [Returns.some_iff]
        exact round_sequence room (.inr (.inl ⟨range, rfl, rfl⟩)) low high here
      · split
        · rename_i range
          rw [Returns.some_iff]
          exact round_sequence room (.inr (.inr ⟨range, rfl, rfl⟩)) low high here
        · obtain ⟨u', run, -⟩ := room.extend 65533
          rw [run, Returns.some_bind, Returns.pure_iff, Returns.bind_iff,
            utf8Continuation_zero, Returns.some_iff]
          unfold utf8DecodeEnd
          dsimp only
          rw [if_neg (by decide), Returns.pure_iff]
          exact ⟨by dsimp only; omega, by dsimp only; omega, 65533, run,
            fun found => absurd found Bool.false_ne_true⟩

theorem foldlM_extend_snoc {points : List Int} {w w' : UnicodeString} {c : Int}
    (before : points.foldlM UnicodeString.extend u = some w) (run : w.extend c = some w') :
    (points ++ [c]).foldlM UnicodeString.extend u = some w' := by
  rw [List.foldlM_append, before, Option.bind_eq_bind, Option.bind_some, List.foldlM_cons, run]
  rfl

/-- The whole loop: the bytes encode code points when the result is true, and the string is
extended by them then. -/
theorem utf8DecodeFrom_any (room : u.Room) (s : List Int) :
    Returns (u.utf8DecodeFrom s) fun t => t.2 = true → ∃ points : List Int,
      (∀ c ∈ points, ValidUnicode c) ∧ s = points.flatMap bytesOf ∧
        points.foldlM UnicodeString.extend u = some t.1 := by
  unfold utf8DecodeFrom
  rw [Returns.bind_iff]
  refine returns_untilLoop
    (fun t : UnicodeString × Bool × Int => t.1.Room ∧ 1 ≤ t.2.2 ∧ t.2.2 ≤ s.length + 1 ∧
      (t.2.1 = true → ∃ points : List Int, (∀ c ∈ points, ValidUnicode c) ∧
        s = points.flatMap bytesOf ++ s.drop (t.2.2 - 1).toNat ∧
          points.foldlM UnicodeString.extend u = some t.1))
    (fun t => s.length + 1 - t.2.2.toNat)
    ⟨room, Int.le_refl _, by dsimp only; omega, fun _ => ⟨[], by simp, rfl, rfl⟩⟩
    (by dsimp only; omega) ?_
  rintro ⟨w, result, i⟩ ⟨roomW, low, high, decoded⟩
  dsimp only at roomW low high decoded ⊢
  rw [Returns.some_iff]
  by_cases past : i > s.length
  · rw [if_pos (decide_eq_true past), Returns.pure_iff]
    intro ok
    obtain ⟨points, valid, bytes, folded⟩ := decoded ok
    rw [List.drop_eq_nil_of_le (by omega), List.append_nil] at bytes
    exact ⟨points, valid, bytes, folded⟩
  · rw [if_neg (by rw [decide_eq_false past]; exact Bool.false_ne_true)]
    refine (utf8DecodeStep_any roomW low (by omega)).mono ?_
    rintro ⟨w', result', i'⟩ ⟨further, inside, c, run, ok⟩
    have roomW' := (roomW.extend c).unique run
    refine ⟨⟨roomW', by omega, inside, fun isOk => ?_⟩, by omega⟩
    obtain ⟨before, validC, here⟩ := ok isOk
    obtain ⟨points, valid, bytes, folded⟩ := decoded before
    refine ⟨points ++ [c], fun d member => ?_, ?_, foldlM_extend_snoc folded run⟩
    · rcases List.mem_append.mp member with old | new
      · exact valid d old
      · rw [List.mem_singleton.mp new]
        exact validC
    · rw [List.flatMap_append, List.flatMap_singleton, List.append_assoc, ← here]
      exact bytes

/-- The bytes of valid code points are decoded into any string. -/
theorem utf8DecodeFrom_bytesOf (room : u.Room) {points : List Int}
    (valid : ∀ c ∈ points, ValidUnicode c) :
    Returns (u.utf8DecodeFrom (points.flatMap bytesOf)) fun t => t.2 = true ∧
      points.foldlM UnicodeString.extend u = some t.1 := by
  unfold utf8DecodeFrom
  rw [Returns.bind_iff]
  refine returns_untilLoop
    (fun t : UnicodeString × Bool × Int => t.1.Room ∧ t.2.1 = true ∧ ∃ done rest,
      points = done ++ rest ∧ t.2.2 = ((done.flatMap bytesOf).length : ℕ) + 1 ∧
        done.foldlM UnicodeString.extend u = some t.1)
    (fun t => (points.flatMap bytesOf).length + 1 - t.2.2.toNat)
    ⟨room, rfl, [], points, rfl, rfl, rfl⟩ (by dsimp only; omega) ?_
  rintro ⟨w, result, i⟩ ⟨roomW, ok, done, rest, split, position, folded⟩
  dsimp only at roomW ok position folded ⊢
  rw [Returns.some_iff]
  have bytes : points.flatMap bytesOf = done.flatMap bytesOf ++ rest.flatMap bytesOf := by
    rw [split, List.flatMap_append]
  have total := congrArg List.length bytes
  rw [List.length_append] at total
  cases rest with
  | nil =>
    rw [List.flatMap_nil, List.length_nil] at total
    rw [if_pos (decide_eq_true (by omega)), Returns.pure_iff, split, List.append_nil]
    exact ⟨ok, folded⟩
  | cons c rest =>
    have longer : (bytesOf c).length ≠ 0 := Nat.succ_ne_zero _
    rw [List.flatMap_cons] at bytes total
    rw [List.length_append] at total
    rw [if_neg (by rw [decide_eq_true_eq]; omega), bytes,
      utf8DecodeStep_bytesOf (valid c (by rw [split]; simp)) position, ← bytes]
    obtain ⟨w', run, roomW'⟩ := roomW.extend c
    rw [run, Option.map_some, Returns.some_iff]
    refine ⟨⟨roomW', ok, done ++ [c], rest, by rw [split]; simp, ?_,
      foldlM_extend_snoc folded run⟩, by dsimp only; omega⟩
    rw [List.flatMap_append, List.flatMap_singleton, List.length_append]
    dsimp only
    omega

/-- What `utf8_decode_from` does with any bytes. -/
theorem returns_utf8DecodeFrom_any (room : u.Room) (s : List Int) :
    Returns (u.utf8DecodeFrom s) fun t => (t.2 = true ↔ IsUtf8 s) ∧ (t.2 = true →
      ∃ points : List Int, (∀ c ∈ points, ValidUnicode c) ∧ s = points.flatMap bytesOf ∧
        Extended u points t.1) := by
  obtain ⟨t, run, decoded⟩ := utf8DecodeFrom_any room s
  refine ⟨t, run, ⟨fun ok => ?_, ?_⟩, fun ok => ?_⟩
  · obtain ⟨points, valid, bytes, -⟩ := decoded ok
    exact ⟨points, valid, bytes⟩
  · rintro ⟨points, valid, rfl⟩
    exact ((utf8DecodeFrom_bytesOf room valid).unique run).1
  · obtain ⟨points, valid, bytes, folded⟩ := decoded ok
    exact ⟨points, valid, bytes, (room.foldlM_extend points).unique folded⟩

/-- Both are invalid, or both are decoded to the same string. -/
def SameDecoding (t t' : UnicodeString × Bool) : Prop :=
  (t.2 = false ∧ t'.2 = false) ∨ (t.2 = true ∧ t'.2 = true ∧ t.1 = t'.1)

/-- The same bytes are decoded to a string, or none. -/
theorem sameDecoding_iff (room : u.Room) {t t' : UnicodeString × Bool}
    (run : u.utf8DecodeFrom s = some t) (run' : u.utf8DecodeFrom s' = some t') :
    SameDecoding t t' ↔ s = s' ∨ ¬IsUtf8 s ∧ ¬IsUtf8 s' := by
  obtain ⟨valid, decoded⟩ := (returns_utf8DecodeFrom_any room s).unique run
  obtain ⟨valid', decoded'⟩ := (returns_utf8DecodeFrom_any room s').unique run'
  constructor
  · rintro (⟨wrong, wrong'⟩ | ⟨ok, ok', same⟩)
    · exact .inr ⟨fun is => Bool.false_ne_true (wrong.symm.trans (valid.mpr is)),
        fun is => Bool.false_ne_true (wrong'.symm.trans (valid'.mpr is))⟩
    · obtain ⟨points, validPoints, bytes, extended⟩ := decoded ok
      obtain ⟨points', validPoints', bytes', extended'⟩ := decoded' ok'
      rw [← same] at extended'
      rw [bytes, bytes', extended.unique extended' validPoints validPoints']
      exact .inl rfl
  · rintro (rfl | ⟨wrong, wrong'⟩)
    · cases run.symm.trans run'
      cases ok : t.2 with
      | false => exact .inl ⟨ok, ok⟩
      | true => exact .inr ⟨ok, ok, rfl⟩
    · exact .inl ⟨Bool.eq_false_iff.mpr (mt valid.mp wrong), Bool.eq_false_iff.mpr (mt valid'.mp wrong')⟩

end AnyBytes

end UnicodeString

end Liberty
