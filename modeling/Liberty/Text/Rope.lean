import Liberty.Text.AbstractString

/-!
# ROPE

A ROPE against the flat string of its characters: its queries, its comparison and its iterator.
-/

namespace Liberty

/-! ## The source -/

namespace AbstractString

/-- `infix "<"` of ROPE -/
def lessThan (a other : AbstractString) : Option Bool := do
  let s ← untilLoop
    (fun s => some (s.2.1 || decide (s.1 > a.count) || decide (s.1 > other.count)))
    (fun s => do
      if (← a.item s.1) ≠ (← other.item s.1) then
        return (s.1 + 1, true, decide ((← a.item s.1) < (← other.item s.1)))
      else return (s.1 + 1, s.2))
    a.count.toNat (1, false, false)
  return s.2.2

end AbstractString

/-- An ITERATOR_ON_STRING, or an ITERATOR_ON_ROPE whose `iter` is set or is Void. -/
inductive StringIterator
  | onString (string : NativelyStoredString) (itemIndex : Int)
  | onRope (root : AbstractString × AbstractString) (rightVisited : Bool) (iter : StringIterator)
  | offRope

namespace AbstractString

/-- `new_iterator`, after `start` -/
def started : AbstractString → StringIterator
  | string s => .onString s 1
  | fixed s => .onString s.toNativelyStoredString 1
  | rope left right => .onRope (left, right) false left.started

end AbstractString

namespace StringIterator

def isOff : StringIterator → Bool
  | onString s itemIndex => decide (itemIndex > s.count)
  | onRope _ _ _ => false
  | offRope => true

def item : StringIterator → Option Character
  | onString s itemIndex => s.item itemIndex
  | onRope _ _ iter => iter.item
  | offRope => none

def next : StringIterator → Option StringIterator
  | onString s itemIndex => some (onString s (itemIndex + 1))
  | onRope root rightVisited iter => do
      let iter ← iter.next
      if iter.isOff then
        if rightVisited then return offRope
        else return onRope root true root.2.started
      else return onRope root rightVisited iter
  | offRope => none

/-- `from it.start until it.is_off loop … it.item … it.next end`: the items in their order. -/
def delivers (fuel : ℕ) (it : StringIterator) : Option (List Character) := do
  let s ← untilLoop (fun s => some s.1.isOff)
    (fun s => do
      let x ← s.1.item
      return (← s.1.next, s.2 ++ [x])) fuel (it, [])
  return s.2

end StringIterator

/-! ## Queries of the parts -/

namespace AbstractString

variable {a : AbstractString} {i j : Int}

theorem Readable.count_nonneg (h : a.Readable) : 0 ≤ a.count := by
  rw [h.spells.count_eq]
  exact Int.natCast_nonneg _

theorem Readable.occurrences_eq (h : a.Readable) (c : Character) :
    a.occurrences c = some (a.chars.count c) := by
  induction a with
  | string s => exact NativelyStoredString.Readable.occurrences_eq h c
  | fixed s => exact NativelyStoredString.Readable.occurrences_eq h c
  | rope left right leftIh rightIh =>
    change (do return (← left.occurrences c) + (← right.occurrences c)) =
      some ((left.chars ++ right.chars).count c : Int)
    rw [leftIh h.1, rightIh h.2, List.count_append]
    rfl

theorem placeFrom_append (c : Character) {xs ys : List Character} (low : 1 ≤ i) :
    placeFrom c i (xs ++ ys) =
      if i > xs.length then placeFrom c (i - xs.length) ys + xs.length
      else if placeFrom c i xs ≤ xs.length then placeFrom c i xs
      else placeFrom c 1 ys + xs.length := by
  unfold placeFrom
  rw [List.length_append, List.drop_append]
  by_cases right : i > xs.length
  · rw [if_pos right, List.drop_eq_nil_of_le (by omega), List.nil_append,
      show (i - 1).toNat - xs.length = (i - xs.length - 1).toNat by omega]
    split <;> split <;> omega
  · have length : (xs.drop (i - 1).toNat).length = xs.length - (i - 1).toNat := List.length_drop
    rw [if_neg right, if_pos (show i ≤ ((xs.length + ys.length : ℕ) : Int) by omega),
      if_pos (show i ≤ (xs.length : Int) by omega), List.idxOf_append,
      show (i - 1).toNat - xs.length = 0 by omega, List.drop_zero, Int.sub_self, Int.toNat_zero,
      List.drop_zero]
    by_cases mem : c ∈ xs.drop (i - 1).toNat
    · have less := List.idxOf_lt_length_of_mem mem
      rw [if_pos mem, if_pos (by omega)]
    · have none := List.idxOf_eq_length mem
      have last : ys.idxOf c ≤ ys.length := List.idxOf_le_length
      rw [if_neg mem, if_neg (by omega)]
      split <;> omega

theorem Readable.indexOf_eq (h : a.Readable) (c : Character) (low : 1 ≤ i) :
    a.indexOf c i = some (placeFrom c i a.chars) := by
  induction a generalizing i with
  | string s => exact NativelyStoredString.Readable.indexOf_eq h c low
  | fixed s => exact NativelyStoredString.Readable.indexOf_eq h c low
  | rope left right leftIh rightIh =>
    have count := h.1.spells.count_eq
    unfold indexOf
    rw [chars, placeFrom_append c low, ← count]
    by_cases inRight : i > left.count
    · rw [if_pos inRight, if_pos inRight, rightIh h.2 (by omega)]
      rfl
    · have place : 1 ≤ placeFrom c i left.chars := by
        unfold placeFrom
        split <;> omega
      rw [if_neg inRight, if_neg inRight, leftIh h.1 low, Returns.some_bind, rightIh h.2 (by omega)]
      unfold validIndex
      rw [decide_eq_true place, Bool.true_and]
      by_cases found : placeFrom c i left.chars ≤ left.count
      · rw [if_pos (decide_eq_true found), if_pos found]
        rfl
      · rw [if_neg (fun here => found (of_decide_eq_true here)), if_neg found]
        rfl

theorem placeBefore_bounds (c : Character) {xs : List Character} (low : 0 ≤ i) (high : i ≤ xs.length) :
    0 ≤ placeBefore c i xs ∧ placeBefore c i xs ≤ i := by
  have bound : (xs.take i.toNat).reverse.idxOf c ≤ (xs.take i.toNat).reverse.length :=
    List.idxOf_le_length
  rw [List.length_reverse, List.length_take] at bound
  unfold placeBefore
  omega

theorem placeBefore_append (c : Character) {xs ys : List Character} (high : i ≤ xs.length + ys.length) :
    placeBefore c i (xs ++ ys) =
      if i ≤ xs.length then placeBefore c i xs
      else if 1 ≤ placeBefore c (i - xs.length) ys then placeBefore c (i - xs.length) ys + xs.length
      else placeBefore c xs.length xs := by
  unfold placeBefore
  rw [List.take_append]
  by_cases left : i ≤ xs.length
  · rw [if_pos left, show i.toNat - xs.length = 0 by omega, List.take_zero, List.append_nil]
  · have length : (ys.take (i - xs.length).toNat).reverse.length = (i - xs.length).toNat := by
      rw [List.length_reverse, List.length_take]
      omega
    rw [if_neg left, List.take_of_length_le (by omega), List.reverse_append, List.idxOf_append,
      show i.toNat - xs.length = (i - xs.length).toNat by omega, Int.toNat_natCast, List.take_length]
    by_cases mem : c ∈ (ys.take (i - xs.length).toNat).reverse
    · have less := List.idxOf_lt_length_of_mem mem
      rw [if_pos mem, if_pos (by omega)]
      omega
    · have none := List.idxOf_eq_length mem
      rw [if_neg mem, if_neg (by omega)]
      omega

theorem Readable.reverseIndexOf_eq (h : a.Readable) (c : Character) (low : 0 ≤ i) (high : i ≤ a.count) :
    a.reverseIndexOf c i = some (placeBefore c i a.chars) := by
  induction a generalizing i with
  | string s => exact NativelyStoredString.Readable.reverseIndexOf_eq h c low high
  | fixed s => exact NativelyStoredString.Readable.reverseIndexOf_eq h c low high
  | rope left right leftIh rightIh =>
    have leftCount := h.1.spells.count_eq
    have rightCount := h.2.spells.count_eq
    have nonneg := h.1.count_nonneg
    change i ≤ left.count + right.count at high
    unfold reverseIndexOf
    rw [chars, placeBefore_append c (by omega), ← leftCount]
    by_cases inLeft : i ≤ left.count
    · rw [if_pos inLeft, if_pos inLeft]
      exact leftIh h.1 low inLeft
    · have bounds := @placeBefore_bounds (i - left.count) c right.chars (by omega) (by omega)
      rw [if_neg inLeft, if_neg inLeft, rightIh h.2 (by omega) (by omega), Returns.some_bind]
      unfold validIndex
      rw [decide_eq_true (show placeBefore c (i - left.count) right.chars ≤ right.count by omega),
        Bool.and_true]
      by_cases found : 1 ≤ placeBefore c (i - left.count) right.chars
      · rw [if_pos (decide_eq_true found), if_pos found]
        rfl
      · rw [if_neg (fun here => found (of_decide_eq_true here)), if_neg found]
        exact leftIh h.1 nonneg (Int.le_refl _)

theorem readable_blank : (string .blank).Readable :=
  ⟨Int.le_refl 0, Int.le_refl 0, Int.le_refl 0⟩

theorem slice_append {xs ys : List Character} (m n : ℕ) :
    ((xs ++ ys).drop m).take n =
      (xs.drop m).take n ++ (ys.drop (m - xs.length)).take (n - (xs.length - m)) := by
  rw [List.drop_append, List.take_append, List.length_drop]

theorem Readable.returns_substring (h : a.Readable) (low : 1 ≤ i) (high : j ≤ a.count)
    (interval : i ≤ j + 1) :
    Returns (a.substring i j) fun r =>
      r.Readable ∧ r.chars = (a.chars.drop (i - 1).toNat).take (j - i + 1).toNat := by
  induction a generalizing i j with
  | string s =>
    have run := NativelyStoredString.Readable.returns_substring h low high interval
    exact run.bind fun r made => Returns.pure_iff.mpr made
  | fixed s =>
    have run := FixedString.returns_substring h low high interval
    exact run.bind fun r made => Returns.pure_iff.mpr ⟨made.1, made.2.1⟩
  | rope left right leftIh rightIh =>
    have count := h.1.spells.count_eq
    have blankChars : (string .blank).chars = [] := rfl
    change j ≤ left.count + right.count at high
    unfold substring
    rw [chars, slice_append]
    by_cases inLeft : j ≤ left.count
    · rw [if_pos inLeft]
      refine (leftIh h.1 low inLeft interval).bind fun r ⟨readable, characters⟩ => ?_
      rw [Returns.pure_iff]
      refine ⟨⟨readable, readable_blank⟩, ?_⟩
      rw [chars, characters, blankChars,
        show (j - i + 1).toNat - (left.chars.length - (i - 1).toNat) = 0 by omega, List.take_zero]
    · rw [if_neg inLeft]
      by_cases inRight : i > left.count
      · rw [if_pos inRight]
        have run := rightIh h.2 (show 1 ≤ i - left.count by omega)
          (show j - left.count ≤ right.count by omega) (by omega)
        refine run.bind fun r ⟨readable, characters⟩ => ?_
        rw [Returns.pure_iff]
        refine ⟨⟨readable_blank, readable⟩, ?_⟩
        rw [chars, characters, blankChars, List.drop_eq_nil_of_le (show left.chars.length ≤ (i - 1).toNat by omega),
          List.take_nil, show (i - left.count - 1).toNat = (i - 1).toNat - left.chars.length by omega,
          show (j - left.count - (i - left.count) + 1).toNat =
            (j - i + 1).toNat - (left.chars.length - (i - 1).toNat) by omega]
      · rw [if_neg inRight]
        have leftRun := leftIh h.1 low (Int.le_refl _) (show i ≤ left.count + 1 by omega)
        have rightRun := rightIh h.2 (Int.le_refl 1) (show j - left.count ≤ right.count by omega)
          (by omega)
        refine leftRun.bind fun l ⟨leftReadable, leftCharacters⟩ => ?_
        refine rightRun.bind fun r ⟨rightReadable, rightCharacters⟩ => ?_
        rw [Returns.pure_iff]
        refine ⟨⟨leftReadable, rightReadable⟩, ?_⟩
        have length : (left.chars.drop (i - 1).toNat).length = left.chars.length - (i - 1).toNat :=
          List.length_drop
        rw [chars, leftCharacters, rightCharacters,
          List.take_of_length_le (show _ ≤ (left.count - i + 1).toNat by omega),
          List.take_of_length_le (show _ ≤ (j - i + 1).toNat by omega),
          show (i - 1).toNat - left.chars.length = 0 by omega, Int.sub_self, Int.toNat_zero,
          show (j - left.count - 1 + 1).toNat =
            (j - i + 1).toNat - (left.chars.length - (i - 1).toNat) by omega]

/-! ## Ends -/

/-- The STRING or FIXED_STRING at the beginning. -/
def firstLeaf : AbstractString → NativelyStoredString
  | string s => s
  | fixed s => s.toNativelyStoredString
  | rope left _ => left.firstLeaf

/-- The STRING or FIXED_STRING at the end. -/
def lastLeaf : AbstractString → NativelyStoredString
  | string s => s
  | fixed s => s.toNativelyStoredString
  | rope _ right => right.lastLeaf

theorem first_eq (a : AbstractString) : a.first = a.firstLeaf.first := by
  induction a with
  | string s => rfl
  | fixed s => rfl
  | rope left right leftIh _ => exact leftIh

theorem last_eq (a : AbstractString) : a.last = a.lastLeaf.last := by
  induction a with
  | string s => rfl
  | fixed s => rfl
  | rope left right _ rightIh => exact rightIh

theorem Readable.lastLeaf (h : a.Readable) : a.lastLeaf.Readable := by
  induction a with
  | string s => exact h
  | fixed s => exact h
  | rope left right _ rightIh => exact rightIh h.2

theorem Readable.exists_first (h : a.Readable) (nonempty : a.firstLeaf.count > 0) :
    ∃ c, a.first = some c ∧ a.chars.head? = some c := by
  induction a with
  | string s => exact NativelyStoredString.Readable.exists_first h nonempty
  | fixed s => exact NativelyStoredString.Readable.exists_first h nonempty
  | rope left right leftIh _ =>
    obtain ⟨c, first, head⟩ := leftIh h.1 nonempty
    refine ⟨c, first, ?_⟩
    rw [chars, List.head?_append, head]
    rfl

theorem Readable.exists_last (h : a.Readable) (nonempty : a.lastLeaf.count > 0) :
    ∃ c, a.last = some c ∧ a.chars.getLast? = some c := by
  induction a with
  | string s => exact NativelyStoredString.Readable.exists_last h nonempty
  | fixed s => exact NativelyStoredString.Readable.exists_last h nonempty
  | rope left right _ rightIh =>
    obtain ⟨c, last, end'⟩ := rightIh h.2 nonempty
    refine ⟨c, last, ?_⟩
    rw [chars, List.getLast?_append, end']
    rfl

/-! ## Comparison -/

/-- What the comparison of ROPE answers: nothing is said once one of the strings ends. -/
def differsBelow : List Character → List Character → Bool
  | x :: xs, y :: ys => if x ≠ y then decide (x < y) else differsBelow xs ys
  | _, _ => false

theorem differsBelow_iff {xs ys : List Character} :
    differsBelow xs ys = true ↔ xs < ys ∧ ¬xs <+: ys := by
  induction xs generalizing ys with
  | nil =>
    cases ys <;> simp [differsBelow]
  | cons x xs ih =>
    cases ys with
    | nil => simp [differsBelow]
    | cons y ys =>
      rw [List.cons_lt_cons_iff, List.cons_prefix_cons]
      unfold differsBelow
      by_cases same : x = y
      · subst same
        rw [if_neg (fun differ => differ rfl), ih]
        simp
      · rw [if_pos same, decide_eq_true_eq]
        simp [same]

/-- From the index `i` on the strings hold the characters of `xs` and of `ys`. -/
theorem returns_lessLoop {other : AbstractString} {xs ys : List Character} {fuel : ℕ}
    (enough : xs.length ≤ fuel) (count : a.count + 1 = i + xs.length)
    (otherCount : other.count + 1 = i + ys.length)
    (read : ∀ (k : ℕ) (x : Character), xs[k]? = some x → a.item (i + k) = some x)
    (otherRead : ∀ (k : ℕ) (y : Character), ys[k]? = some y → other.item (i + k) = some y) :
    Returns (untilLoop
      (fun s => some (s.2.1 || decide (s.1 > a.count) || decide (s.1 > other.count)))
      (fun s => do
        if (← a.item s.1) ≠ (← other.item s.1) then
          return (s.1 + 1, true, decide ((← a.item s.1) < (← other.item s.1)))
        else return (s.1 + 1, s.2))
      fuel (i, false, false)) fun s => s.2.2 = differsBelow xs ys := by
  induction xs generalizing ys i fuel with
  | nil =>
    rw [List.length_nil] at count
    rw [untilLoop_stopped, Returns.some_iff]
    · rfl
    · rw [decide_eq_true (show i > a.count by omega)]
      rfl
  | cons x xs ih =>
    cases ys with
    | nil =>
      rw [List.length_nil] at otherCount
      rw [untilLoop_stopped, Returns.some_iff]
      · rfl
      · rw [decide_eq_true (show i > other.count by omega), Bool.or_true]
    | cons y ys =>
      rw [List.length_cons] at count otherCount enough
      obtain ⟨fuel, rfl⟩ : ∃ n, fuel = n + 1 := ⟨fuel - 1, by omega⟩
      have here := read 0 x rfl
      have there := otherRead 0 y rfl
      rw [Int.natCast_zero, Int.add_zero] at here there
      have next : ∀ k : ℕ, i + 1 + (k : Int) = i + ((k + 1 : ℕ) : Int) := fun k => by omega
      rw [untilLoop, decide_eq_false (show ¬i > a.count by omega),
        decide_eq_false (show ¬i > other.count by omega)]
      unfold differsBelow
      rw [here, there]
      by_cases differ : x ≠ y
      · rw [if_pos differ]
        change Returns (do
          let s ← (if x ≠ y then some (i + 1, true, decide (x < y)) else some (i + 1, false, false))
          untilLoop _ _ fuel s) _
        rw [if_pos differ, Returns.some_bind, untilLoop_stopped, Returns.some_iff]
        rfl
      · rw [if_neg differ]
        change Returns (do
          let s ← (if x ≠ y then some (i + 1, true, decide (x < y)) else some (i + 1, false, false))
          untilLoop _ _ fuel s) _
        rw [if_neg differ, Returns.some_bind]
        apply ih (by omega) (by omega) (by omega)
        · intro k z found
          rw [next]
          exact read (k + 1) z found
        · intro k z found
          rw [next]
          exact otherRead (k + 1) z found

theorem lessThan_eq {other : AbstractString} (h : a.Readable) (h' : other.Readable) :
    a.lessThan other = some (differsBelow a.chars other.chars) := by
  have spells := h.spells
  have spells' := h'.spells
  have count := spells.count_eq
  have otherCount := spells'.count_eq
  have run := returns_lessLoop (a := a) (i := 1) (show a.chars.length ≤ a.count.toNat by omega)
    (by omega) (show other.count + 1 = 1 + (other.chars.length : Int) by omega)
    (fun k x found => by rw [Int.add_comm]; exact spells.item_eq k x found)
    (fun k y found => by rw [Int.add_comm]; exact spells'.item_eq k y found)
  obtain ⟨s, run, result⟩ := run
  unfold lessThan
  rw [run, ← result]
  rfl

end AbstractString

/-! ## Iteration -/

namespace AbstractString

/-- The number of items that an iterator gives as a part of a ROPE. -/
def rounds : AbstractString → ℕ
  | string s => max 1 s.count.toNat
  | fixed s => max 1 s.count.toNat
  | rope left right => left.rounds + right.rounds

/-- No part is empty. -/
def NoEmptyPart : AbstractString → Prop
  | string s => 0 < s.count
  | fixed s => 0 < s.count
  | rope left right => left.NoEmptyPart ∧ right.NoEmptyPart

theorem Readable.length_le_rounds {a : AbstractString} (h : a.Readable) :
    a.chars.length ≤ a.rounds ∧ (a.chars.length = a.rounds → a.NoEmptyPart) := by
  have leaf : ∀ {s : NativelyStoredString}, s.Readable → s.chars.length ≤ max 1 s.count.toNat ∧
      (s.chars.length = max 1 s.count.toNat → 0 < s.count) := fun {s} readable => by
    have count := readable.count_eq
    omega
  induction a with
  | string s => exact leaf h
  | fixed s => exact leaf h
  | rope left right leftIh rightIh =>
    obtain ⟨leftLe, leftFull⟩ := leftIh h.1
    obtain ⟨rightLe, rightFull⟩ := rightIh h.2
    rw [chars, rounds, List.length_append]
    refine ⟨by omega, fun same => ⟨leftFull (by omega), rightFull (by omega)⟩⟩

end AbstractString

namespace StringIterator

/-- The number of rounds that are left. -/
def rounds : StringIterator → ℕ
  | onString s itemIndex => max 1 (s.count + 1 - itemIndex).toNat
  | onRope root rightVisited iter => iter.rounds + if rightVisited then 0 else root.2.rounds
  | offRope => 0

theorem rounds_started (a : AbstractString) : a.started.rounds = a.rounds := by
  induction a with
  | string s => exact congrArg (fun n : Int => max 1 n.toNat) (by omega)
  | fixed s => exact congrArg (fun n : Int => max 1 n.toNat) (by omega)
  | rope left right leftIh _ => exact congrArg (· + right.rounds) leftIh

theorem rounds_next {it it' : StringIterator} (run : it.next = some it') :
    it.rounds = if it'.isOff then 1 else it'.rounds + 1 := by
  induction it generalizing it' with
  | onString s itemIndex =>
    cases run
    change max 1 (s.count + 1 - itemIndex).toNat =
      if decide (itemIndex + 1 > s.count) = true then 1
      else max 1 (s.count + 1 - (itemIndex + 1)).toNat + 1
    by_cases off : itemIndex + 1 > s.count
    · rw [if_pos (decide_eq_true off)]
      omega
    · rw [if_neg fun past => off (of_decide_eq_true past)]
      omega
  | onRope root rightVisited iter ih =>
    unfold next at run
    cases moved : iter.next with
    | none =>
      rw [moved] at run
      cases run
    | some iter' =>
      rw [moved, Returns.some_bind] at run
      have left := ih moved
      unfold rounds
      split at run
      · rename_i off
        rw [if_pos off] at left
        cases rightVisited with
        | true =>
          cases run
          exact left
        | false =>
          cases run
          have right := rounds_started root.2
          change iter.rounds + root.2.rounds = root.2.started.rounds + 0 + 1
          omega
      · rename_i goes
        cases run
        rw [if_neg goes] at left
        change _ = iter'.rounds + _ + 1
        omega
  | offRope => cases run

/-- A traversal that comes to its end makes all the rounds. -/
theorem length_of_delivers {fuel : ℕ} {it it' : StringIterator} {xs ys : List Character}
    (run : untilLoop (fun s => some s.1.isOff)
      (fun s => do
        let x ← s.1.item
        return (← s.1.next, s.2 ++ [x])) fuel (it, xs) = some (it', ys)) :
    ys.length = xs.length + if it.isOff then 0 else it.rounds := by
  have ended : ∀ fuel {it : StringIterator} {xs : List Character}, it.isOff = true →
      untilLoop (fun s => some s.1.isOff)
        (fun s => do
          let x ← s.1.item
          return (← s.1.next, s.2 ++ [x])) fuel (it, xs) = some (it', ys) →
      ys.length = xs.length + if it.isOff then 0 else it.rounds := fun fuel it xs off run => by
    rw [untilLoop_stopped] at run
    · cases run
      rw [if_pos off, Nat.add_zero]
    · exact congrArg some off
  induction fuel generalizing it xs with
  | zero =>
    by_cases off : it.isOff = true
    · exact ended 0 off run
    · rw [untilLoop] at run
      rw [Bool.eq_false_iff.mpr off] at run
      cases run
  | succ fuel ih =>
    by_cases off : it.isOff = true
    · exact ended (fuel + 1) off run
    · rw [untilLoop] at run
      dsimp only at run
      rw [Bool.eq_false_iff.mpr off] at run
      cases read : it.item with
      | none =>
        rw [read] at run
        cases run
      | some x =>
        cases moved : it.next with
        | none =>
          rw [read, moved] at run
          cases run
        | some next =>
          rw [read, moved] at run
          have rest := ih run
          have left := rounds_next moved
          rw [List.length_append, List.length_singleton] at rest
          rw [rest, if_neg off, left]
          split <;> omega

/-- The iterator stands before the characters of `xs`. -/
def Ahead : StringIterator → List Character → Prop
  | onString s itemIndex, xs => 1 ≤ itemIndex ∧ s.Readable ∧ xs = s.chars.drop (itemIndex - 1).toNat
  | onRope root rightVisited iter, xs => ∃ ys, ys ≠ [] ∧ iter.Ahead ys ∧
      (rightVisited = false → root.2.Readable ∧ root.2.NoEmptyPart) ∧
      xs = ys ++ if rightVisited then [] else root.2.chars
  | offRope, xs => xs = []

theorem ahead_started {a : AbstractString} (h : a.Readable) (full : a.NoEmptyPart) :
    a.started.Ahead a.chars ∧ a.chars ≠ [] := by
  have leaf : ∀ {s : NativelyStoredString}, s.Readable → 0 < s.count →
      (onString s 1).Ahead s.chars ∧ s.chars ≠ [] := fun {s} readable nonempty => by
    have count := readable.count_eq
    refine ⟨⟨Int.le_refl 1, readable, rfl⟩, fun empty => ?_⟩
    rw [empty, List.length_nil] at count
    omega
  induction a with
  | string s => exact leaf h full
  | fixed s => exact leaf h full
  | rope left right leftIh _ =>
    obtain ⟨ahead, nonempty⟩ := leftIh h.1 full.1
    exact ⟨⟨left.chars, nonempty, ahead, fun _ => ⟨h.2, full.2⟩, rfl⟩,
      fun empty => nonempty (List.append_eq_nil_iff.mp empty).1⟩

theorem Ahead.isOff_iff {it : StringIterator} {xs : List Character} (h : it.Ahead xs) :
    it.isOff = true ↔ xs = [] := by
  cases it with
  | onString s itemIndex =>
    obtain ⟨low, readable, rfl⟩ := h
    have count := readable.count_eq
    rw [List.drop_eq_nil_iff]
    exact decide_eq_true_iff.trans (by omega)
  | onRope root rightVisited iter =>
    obtain ⟨ys, nonempty, -, -, rfl⟩ := h
    exact ⟨fun off => absurd off Bool.false_ne_true,
      fun empty => absurd (List.append_eq_nil_iff.mp empty).1 nonempty⟩
  | offRope => exact ⟨fun _ => h, fun _ => rfl⟩

theorem Ahead.step {it : StringIterator} {x : Character} {xs : List Character} (h : it.Ahead (x :: xs)) :
    it.item = some x ∧ Returns it.next fun it' => it'.Ahead xs := by
  induction it generalizing x xs with
  | onString s itemIndex =>
    obtain ⟨low, readable, rest⟩ := h
    have found : s.chars[(itemIndex - 1).toNat]? = some x := by
      rw [← List.head?_drop, ← rest]
      rfl
    have item := readable.spells.item_eq _ x found
    rw [show (((itemIndex - 1).toNat : ℕ) : Int) + 1 = itemIndex by omega] at item
    refine ⟨item, Returns.some_iff.mpr ⟨by omega, readable, ?_⟩⟩
    rw [show (itemIndex + 1 - 1).toNat = (itemIndex - 1).toNat + 1 by omega, ← List.drop_drop, ← rest]
    rfl
  | onRope root rightVisited iter ih =>
    obtain ⟨ys, nonempty, ahead, right, rest⟩ := h
    cases ys with
    | nil => exact absurd rfl nonempty
    | cons y ys =>
      cases rest
      obtain ⟨item, moved⟩ := ih ahead
      refine ⟨item, moved.bind fun iter' ahead' => ?_⟩
      cases ys with
      | nil =>
        rw [if_pos (ahead'.isOff_iff.mpr rfl)]
        cases rightVisited with
        | true => exact Returns.pure_iff.mpr rfl
        | false =>
          obtain ⟨readable, full⟩ := right rfl
          obtain ⟨start, some⟩ := ahead_started readable full
          refine Returns.pure_iff.mpr ⟨root.2.chars, some, start, fun visited => ?_,
            (List.append_nil _).symm⟩
          cases visited
      | cons z zs =>
        rw [if_neg fun off => nomatch ahead'.isOff_iff.mp off]
        exact Returns.pure_iff.mpr ⟨z :: zs, List.cons_ne_nil _ _, ahead', right, rfl⟩
  | offRope => cases h

theorem Ahead.delivers_eq {it : StringIterator} {xs : List Character} (h : it.Ahead xs) {fuel : ℕ}
    (enough : xs.length ≤ fuel) : it.delivers fuel = some xs := by
  have general : ∀ ys : List Character, Returns (untilLoop (fun s => some s.1.isOff)
      (fun s => do
        let x ← s.1.item
        return (← s.1.next, s.2 ++ [x])) fuel (it, ys)) fun s => s.2 = ys ++ xs := by
    induction xs generalizing it fuel with
    | nil =>
      intro ys
      rw [untilLoop_stopped, Returns.some_iff, List.append_nil]
      rw [h.isOff_iff.mpr rfl]
    | cons x xs ih =>
      intro ys
      obtain ⟨fuel, rfl⟩ : ∃ n, fuel = n + 1 := ⟨fuel - 1, by rw [List.length_cons] at enough; omega⟩
      obtain ⟨item, it', moved, ahead⟩ := h.step
      have goes : it.isOff = false := Bool.eq_false_iff.mpr fun off => nomatch h.isOff_iff.mp off
      rw [untilLoop]
      rw [goes, item, moved, ← List.singleton_append, ← List.append_assoc]
      exact ih ahead (Nat.le_of_succ_le_succ enough) _
  obtain ⟨s, run, result⟩ := general []
  unfold delivers
  rw [run, Returns.some_bind, result]
  rfl

end StringIterator

/-! ## A ROPE and its flat string -/

namespace AbstractString

inductive Query
  | count
  | item (i : Int)
  | first
  | last
  | substring (startIndex endIndex : Int)
  | occurrences (c : Character)
  | indexOf (c : Character) (startIndex : Int)
  | reverseIndexOf (c : Character) (startIndex : Int)
  | lessThan (other : AbstractString)
  | iteration

inductive Answer
  | integer (n : Int)
  | character (c : Character)
  | boolean (b : Bool)
  | characters (xs : List Character)

/-- The preconditions; the other string of a comparison is in order. -/
def Allowed (a : AbstractString) : Query → Prop
  | .count | .occurrences _ | .iteration => True
  | .item i => 1 ≤ i ∧ i ≤ a.count
  | .first | .last => a.count ≠ 0
  | .substring startIndex endIndex => 1 ≤ startIndex ∧ endIndex ≤ a.count ∧ startIndex ≤ endIndex + 1
  | .indexOf _ startIndex => 1 ≤ startIndex
  | .reverseIndexOf _ startIndex => 1 ≤ startIndex ∧ startIndex ≤ a.count
  | .lessThan other => other.Readable

def ask (a : AbstractString) : Query → Option Answer
  | .count => some (.integer a.count)
  | .item i => do return .character (← a.item i)
  | .first => do return .character (← a.first)
  | .last => do return .character (← a.last)
  | .substring startIndex endIndex => do return .characters (← a.substring startIndex endIndex).chars
  | .occurrences c => do return .integer (← a.occurrences c)
  | .indexOf c startIndex => do return .integer (← a.indexOf c startIndex)
  | .reverseIndexOf c startIndex => do return .integer (← a.reverseIndexOf c startIndex)
  | .lessThan other => do return .boolean (← a.lessThan other)
  | .iteration => do return .characters (← a.started.delivers a.rounds)

/-- What the list of the characters answers. -/
def flatAnswer (xs : List Character) : Query → Option Answer
  | .count => some (.integer xs.length)
  | .item i => do return .character (← xs[(i - 1).toNat]?)
  | .first => do return .character (← xs.head?)
  | .last => do return .character (← xs.getLast?)
  | .substring startIndex endIndex =>
    some (.characters ((xs.drop (startIndex - 1).toNat).take (endIndex - startIndex + 1).toNat))
  | .occurrences c => some (.integer (xs.count c))
  | .indexOf c startIndex => some (.integer (placeFrom c startIndex xs))
  | .reverseIndexOf c startIndex => some (.integer (placeBefore c startIndex xs))
  | .lessThan other => some (.boolean (decide (xs < other.chars)))
  | .iteration => some (.characters xs)

/-- When a ROPE answers as its flat string: the part at the asked end is not empty (or what is left
in its storage looks like the right character), the other string does not go on after the ROPE, no
part is empty where all are gone through. -/
def Meets (a : AbstractString) : Query → Prop
  | .first => a.firstLeaf.count > 0 ∨ a.firstLeaf.storage.item a.firstLeaf.storageLower = a.chars.head?
  | .last => a.lastLeaf.count > 0 ∨
      a.lastLeaf.storage.item (a.lastLeaf.storageLower - 1) = a.chars.getLast?
  | .lessThan other => a.chars <+: other.chars → a.chars = other.chars
  | .iteration => a.NoEmptyPart
  | _ => True

section Flat

variable {left right : AbstractString} {query : Query}

theorem lt_of_isPrefix {xs ys : List Character} (starts : xs <+: ys) (differ : xs ≠ ys) : xs < ys := by
  induction xs generalizing ys with
  | nil =>
    cases ys with
    | nil => exact absurd rfl differ
    | cons y ys => exact List.nil_lt_cons y ys
  | cons x xs ih =>
    cases ys with
    | nil => exact absurd (List.prefix_nil.mp starts) (List.cons_ne_nil x xs)
    | cons y ys =>
      obtain ⟨rfl, rest⟩ := List.cons_prefix_cons.mp starts
      refine List.cons_lt_cons_iff.mpr (.inr ⟨rfl, ih rest fun same => differ ?_⟩)
      rw [same]

theorem map_eq_iff {f : Character → Answer} (inj : ∀ c d, f c = f d → c = d) {x y : Option Character} :
    (do return f (← x)) = (do return f (← y)) ↔ x = y := by
  cases x <;> cases y <;> simp
  exact ⟨inj _ _, congrArg f⟩

theorem Readable.iteration_iff (h : (rope left right).Readable) :
    (rope left right).ask .iteration = flatAnswer (rope left right).chars .iteration ↔
      (rope left right).NoEmptyPart := by
  obtain ⟨le, full⟩ := h.length_le_rounds
  constructor
  · intro same
    unfold ask flatAnswer at same
    cases run : (rope left right).started.delivers (rope left right).rounds with
    | none =>
      rw [run] at same
      cases same
    | some xs =>
      rw [run] at same
      cases same
      obtain ⟨s, looped, result⟩ := Option.bind_eq_some_iff.mp run
      have length := StringIterator.length_of_delivers looped
      have items : s.2 = (rope left right).chars := Option.some.inj result
      rw [List.length_nil, StringIterator.rounds_started, items] at length
      apply full
      rw [length]
      exact Nat.zero_add _
  · intro parts
    obtain ⟨ahead, -⟩ := StringIterator.ahead_started h parts
    unfold ask flatAnswer
    rw [ahead.delivers_eq le]
    rfl

/-- **A ROPE answers as the string of its characters**, whatever its parts are, precisely to the
queries that meet the condition: never to `first` and `last` by the character of an empty part,
never to `<` when the other string goes on, never to an iteration over an empty part. -/
theorem ask_eq_flatAnswer_iff (h : (rope left right).Readable) (allowed : (rope left right).Allowed query) :
    (rope left right).ask query = flatAnswer (rope left right).chars query ↔
      (rope left right).Meets query := by
  have spells := h.spells
  have count := spells.count_eq
  cases query with
  | count => exact ⟨fun _ => trivial, fun _ => congrArg (some ∘ Answer.integer) count⟩
  | item i =>
    obtain ⟨low, high⟩ := allowed
    obtain ⟨c, found⟩ : ∃ c, (rope left right).chars[(i - 1).toNat]? = some c :=
      ⟨_, List.getElem?_eq_getElem (by omega)⟩
    have read := spells.item_eq _ c found
    rw [show (((i - 1).toNat : ℕ) : Int) + 1 = i by omega] at read
    refine ⟨fun _ => trivial, fun _ => ?_⟩
    unfold ask flatAnswer
    dsimp only
    rw [read, found]
  | first =>
    refine (map_eq_iff fun c d => Answer.character.inj).trans ?_
    by_cases nonempty : (rope left right).firstLeaf.count > 0
    · obtain ⟨c, first, head⟩ := h.exists_first nonempty
      exact ⟨fun _ => .inl nonempty, fun _ => first.trans head.symm⟩
    · rw [first_eq]
      exact ⟨.inr, fun meets => meets.resolve_left nonempty⟩
  | last =>
    refine (map_eq_iff fun c d => Answer.character.inj).trans ?_
    by_cases nonempty : (rope left right).lastLeaf.count > 0
    · obtain ⟨c, last, end'⟩ := h.exists_last nonempty
      exact ⟨fun _ => .inl nonempty, fun _ => last.trans end'.symm⟩
    · have none : (rope left right).lastLeaf.count = 0 := by
        have := h.lastLeaf.count_nonneg
        omega
      rw [last_eq]
      unfold NativelyStoredString.last
      rw [none, Int.add_zero]
      exact ⟨.inr, fun meets => meets.resolve_left nonempty⟩
  | substring i j =>
    obtain ⟨low, high, interval⟩ := allowed
    obtain ⟨r, run, -, characters⟩ := h.returns_substring low high interval
    refine ⟨fun _ => trivial, fun _ => ?_⟩
    unfold ask flatAnswer
    dsimp only
    rw [run, ← characters]
    rfl
  | occurrences c =>
    refine ⟨fun _ => trivial, fun _ => ?_⟩
    unfold ask flatAnswer
    dsimp only
    rw [h.occurrences_eq]
    rfl
  | indexOf c i =>
    refine ⟨fun _ => trivial, fun _ => ?_⟩
    unfold ask flatAnswer
    dsimp only
    rw [h.indexOf_eq c allowed]
    rfl
  | reverseIndexOf c i =>
    obtain ⟨low, high⟩ := allowed
    refine ⟨fun _ => trivial, fun _ => ?_⟩
    unfold ask flatAnswer
    dsimp only
    rw [h.reverseIndexOf_eq c (by omega) high]
    rfl
  | lessThan other =>
    unfold ask flatAnswer Meets
    dsimp only
    rw [lessThan_eq h allowed]
    change some (Answer.boolean _) = some (Answer.boolean _) ↔ _
    rw [Option.some_inj, Answer.boolean.injEq, Bool.eq_iff_iff, differsBelow_iff, decide_eq_true_eq]
    constructor
    · intro same starts
      by_contra differ
      exact (same.mpr (lt_of_isPrefix starts differ)).2 starts
    · intro whole
      refine ⟨fun below => below.1, fun below => ⟨below, fun starts => ?_⟩⟩
      rw [whole starts] at below
      exact List.lt_irrefl _ below
  | iteration => exact h.iteration_iff

/-- A string of one character. -/
def letter (c : Character) : AbstractString :=
  string { storage := ⟨1, fun _ => c⟩, isNull := false, storageLower := 0, count := 1, capacity := 1 }

theorem readable_letter (c : Character) : (letter c).Readable :=
  ⟨Int.le_refl 0, show (0 : Int) ≤ 1 by decide, Int.le_refl 1⟩

/-- The two characters of a ROPE are gone through. -/
theorem ask_eq_flatAnswer_iff_letters :
    (rope (letter 97) (letter 98)).ask .iteration = some (.characters [97, 98]) := by
  have readable : (rope (letter 97) (letter 98)).Readable := ⟨readable_letter 97, readable_letter 98⟩
  have allowed : (rope (letter 97) (letter 98)).Allowed .iteration := trivial
  exact (ask_eq_flatAnswer_iff readable allowed).mpr ⟨Int.one_pos, Int.one_pos⟩

/-- The first character of a ROPE whose left part is empty. -/
theorem not_ask_eq_flatAnswer :
    ¬∀ (left right : AbstractString) (query : Query), (rope left right).Readable →
      (rope left right).Allowed query →
        (rope left right).ask query = flatAnswer (rope left right).chars query := by
  intro claim
  have wrong := claim (string .blank) (letter 97) .first ⟨readable_blank, readable_letter 97⟩
    (show (0 : Int) + 1 ≠ 0 by decide)
  cases wrong

end Flat

end AbstractString

end Liberty
