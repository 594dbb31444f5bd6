import Liberty.Library.Returns
import Mathlib.Data.Int.Notation
import Mathlib.Data.Nat.Notation
import Mathlib.Data.List.Induction

/-!
# Scans

Loops that go through the indexes of an interval until a test holds, and loops that go through
them as long as a test holds.  What is read on the way is told as a list.
-/

/-- `from i := start until i > upper or else test(i) loop i := i + 1 end` -/
def scanUp (test : Int → Option Bool) (start upper : Int) : Option Int :=
  untilLoop (fun i => if i > upper then some true else test i) (fun i => some (i + 1))
    (upper + 1 - start).toNat start

/-- `from i := start until i < lower or else test(i) loop i := i - 1 end` -/
def scanDown (test : Int → Option Bool) (start lower : Int) : Option Int :=
  untilLoop (fun i => if i < lower then some true else test i) (fun i => some (i - 1))
    (start + 1 - lower).toNat start

/-- `from i := start; Result := r until not Result or else i > upper loop Result := test(i);
i := i + 1 end`: the last `Result`. -/
def allUp (test : Int → Option Bool) (r : Bool) (start upper : Int) : Option Bool := do
  let s ← untilLoop (fun s => some (!s.1 || decide (s.2 > upper)))
    (fun s => do return (← test s.2, s.2 + 1)) (upper + 1 - start).toNat (r, start)
  return s.1

/-- `from i := start until i > upper loop if test(i) then Result := Result + 1 end;
i := i + 1 end` -/
def countUp (test : Int → Option Bool) (start upper : Int) : Option Int := do
  let s ← untilLoop (fun s => some (decide (s.1 > upper)))
    (fun s => do return (s.1 + 1, if ← test s.1 then s.2 + 1 else s.2))
    (upper + 1 - start).toNat (start, (0 : Int))
  return s.2

/-- `from i := start until i < lower loop if test(i) then Result := Result + 1 end;
i := i - 1 end` -/
def countDown (test : Int → Option Bool) (start lower : Int) : Option Int := do
  let s ← untilLoop (fun s => some (decide (s.1 < lower)))
    (fun s => do return (s.1 - 1, if ← test s.1 then s.2 + 1 else s.2))
    (start + 1 - lower).toNat (start, (0 : Int))
  return s.2

/-- `from i := start until Result /= Void or else i > upper loop Result := test(i); i := i + 1
end` -/
def findUp {β : Type} (test : Int → Option (Option β)) (start upper : Int) : Option (Option β) := do
  let s ← untilLoop (fun s => some (s.1.isSome || decide (s.2 > upper)))
    (fun s => do return (← test s.2, s.2 + 1)) (upper + 1 - start).toNat ((none : Option β), start)
  return s.1

section Scans

variable {α : Type} {test : Int → Option Bool} {p : α → Bool} {start upper lower : Int} {xs : List α}

/-- The test at the index of each item tells whether the item passes. -/
def Tests (test : Int → Option Bool) (start : Int) (p : α → Bool) (xs : List α) : Prop :=
  ∀ (k : ℕ) (x : α), xs[k]? = some x → test (start + k) = some (p x)

theorem Tests.head {x : α} (tests : Tests test start p (x :: xs)) : test start = some (p x) := by
  have first := tests 0 x rfl
  rwa [Int.natCast_zero, Int.add_zero] at first

theorem Tests.tail {x : α} (tests : Tests test start p (x :: xs)) : Tests test (start + 1) p xs := by
  intro k y found
  have next := tests (k + 1) y found
  rwa [Int.natCast_succ, Int.add_comm (k : Int), ← Int.add_assoc] at next

theorem scanUp_eq (tests : Tests test start p xs) (length : upper + 1 = start + xs.length) :
    scanUp test start upper = some (start + xs.findIdx p) := by
  unfold scanUp
  rw [show (upper + 1 - start).toNat = xs.length by omega]
  induction xs generalizing start with
  | nil =>
    rw [untilLoop_stopped]
    · rw [List.findIdx_nil, Int.natCast_zero, Int.add_zero]
    · rw [if_pos]
      rw [List.length_nil] at length
      omega
  | cons x xs ih =>
    rw [List.length_cons] at length ⊢
    have read := tests.head
    rw [List.findIdx_cons]
    cases passes : p x with
    | true =>
      rw [untilLoop_stopped]
      · rw [cond_true, Int.natCast_zero, Int.add_zero]
      · rw [if_neg (by omega), read, passes]
    | false =>
      have rest := ih tests.tail (by omega)
      rw [cond_false, untilLoop, if_neg (by omega), read, passes, Returns.some_bind,
        if_neg Bool.false_ne_true, Returns.some_bind, rest]
      congr 1
      omega

/-- A scan downwards reads the items from the last one on. -/
theorem scanDown_eq (tests : Tests test lower p xs) (length : start + 1 = lower + xs.length) :
    scanDown test start lower = some (start - xs.reverse.findIdx p) := by
  unfold scanDown
  rw [show (start + 1 - lower).toNat = xs.length by omega]
  induction xs using List.reverseRecOn generalizing start with
  | nil =>
    rw [untilLoop_stopped]
    · rw [List.reverse_nil, List.findIdx_nil, Int.natCast_zero, Int.sub_zero]
    · rw [if_pos]
      rw [List.length_nil] at length
      omega
  | append_singleton xs x ih =>
    rw [List.length_append, List.length_singleton] at length ⊢
    have read := tests xs.length x (by rw [List.getElem?_concat_length])
    rw [show lower + (xs.length : Int) = start by omega] at read
    rw [List.reverse_concat, List.findIdx_cons]
    cases passes : p x with
    | true =>
      rw [untilLoop_stopped]
      · rw [cond_true, Int.natCast_zero, Int.sub_zero]
      · rw [if_neg (by omega), read, passes]
    | false =>
      have before : Tests test lower p xs := by
        intro k y found
        have bound := (List.getElem?_eq_some_iff.mp found).1
        exact tests k y (by rw [List.getElem?_append_left bound, found])
      have rest := ih before (show start - 1 + 1 = lower + (xs.length : Int) by omega)
      rw [cond_false, untilLoop, if_neg (by omega), read, passes, Returns.some_bind,
        if_neg Bool.false_ne_true, Returns.some_bind, rest]
      congr 1
      omega

theorem allUp_false : allUp test false start upper = some false := by
  unfold allUp
  rw [untilLoop_stopped]
  · rfl
  · rfl

theorem allUp_eq (tests : Tests test start p xs) (length : upper + 1 = start + xs.length) :
    allUp test true start upper = some (xs.all p) := by
  have general : ∀ r : Bool, allUp test r start upper = some (r && xs.all p) := by
    unfold allUp
    rw [show (upper + 1 - start).toNat = xs.length by omega]
    induction xs generalizing start with
    | nil =>
      intro r
      rw [untilLoop_stopped]
      · rw [List.all_nil, Bool.and_true]
        rfl
      · rw [List.length_nil] at length
        rw [decide_eq_true (show start > upper by omega), Bool.or_true]
    | cons x xs ih =>
      intro r
      rw [List.length_cons] at length ⊢
      cases r with
      | false =>
        rw [untilLoop_stopped]
        · rfl
        · rfl
      | true =>
        have rest := ih tests.tail (by omega) (p x)
        rw [List.all_cons, Bool.true_and, ← rest, untilLoop,
          decide_eq_false (show ¬start > upper by omega), tests.head]
        rfl
  exact general true

theorem countUp_eq (tests : Tests test start p xs) (length : upper + 1 = start + xs.length) :
    countUp test start upper = some (xs.countP p) := by
  have general : ∀ n : Int, untilLoop (fun s => some (decide (s.1 > upper)))
      (fun s => do return (s.1 + 1, if ← test s.1 then s.2 + 1 else s.2))
      (upper + 1 - start).toNat (start, n) = some (upper + 1, n + xs.countP p) := by
    rw [show (upper + 1 - start).toNat = xs.length by omega]
    induction xs generalizing start with
    | nil =>
      intro n
      rw [List.length_nil] at length
      rw [untilLoop_stopped]
      · rw [List.countP_nil, Int.natCast_zero, Int.add_zero, length, Int.natCast_zero, Int.add_zero]
      · rw [decide_eq_true (show start > upper by omega)]
    | cons x xs ih =>
      intro n
      rw [List.length_cons] at length ⊢
      have rest := ih tests.tail (by omega) (if p x then n + 1 else n)
      rw [untilLoop, decide_eq_false (show ¬start > upper by omega), tests.head]
      refine rest.trans ?_
      rw [List.countP_cons]
      cases p x with
      | true =>
        rw [if_pos rfl, if_pos rfl, Int.natCast_succ, Int.add_comm (xs.countP p : Int),
          ← Int.add_assoc]
      | false => rw [if_neg Bool.false_ne_true, if_neg Bool.false_ne_true, Nat.add_zero]
  unfold countUp
  rw [general, Returns.some_bind, Int.zero_add]
  rfl

/-- The items are counted from the last one on. -/
theorem countDown_eq (tests : Tests test lower p xs) (length : start + 1 = lower + xs.length) :
    countDown test start lower = some (xs.countP p) := by
  have general : ∀ n : Int, untilLoop (fun s => some (decide (s.1 < lower)))
      (fun s => do return (s.1 - 1, if ← test s.1 then s.2 + 1 else s.2))
      (start + 1 - lower).toNat (start, n) = some (lower - 1, n + xs.countP p) := by
    rw [show (start + 1 - lower).toNat = xs.length by omega]
    induction xs using List.reverseRecOn generalizing start with
    | nil =>
      intro n
      rw [List.length_nil, Int.natCast_zero, Int.add_zero] at length
      rw [untilLoop_stopped]
      · rw [List.countP_nil, Int.natCast_zero, Int.add_zero, show start = lower - 1 by omega]
      · rw [decide_eq_true (show start < lower by omega)]
    | append_singleton xs x ih =>
      intro n
      rw [List.length_append, List.length_singleton] at length ⊢
      have read := tests xs.length x (by rw [List.getElem?_concat_length])
      rw [show lower + (xs.length : Int) = start by omega] at read
      have before : Tests test lower p xs := by
        intro k y found
        have bound := (List.getElem?_eq_some_iff.mp found).1
        exact tests k y (by rw [List.getElem?_append_left bound, found])
      have rest := ih before (show start - 1 + 1 = lower + (xs.length : Int) by omega)
        (if p x then n + 1 else n)
      rw [untilLoop, decide_eq_false (show ¬start < lower by omega), read]
      refine rest.trans ?_
      rw [List.countP_append, List.countP_singleton]
      cases p x with
      | true =>
        rw [if_pos rfl, if_pos rfl, Int.natCast_succ, Int.add_comm (xs.countP p : Int),
          ← Int.add_assoc]
      | false => rw [if_neg Bool.false_ne_true, if_neg Bool.false_ne_true, Nat.add_zero]
  unfold countDown
  rw [general, Returns.some_bind, Int.zero_add]
  rfl

/-- The search stops at the first item for which there is a result. -/
theorem findUp_eq {β : Type} {test : Int → Option (Option β)} {f : α → Option β}
    (tests : ∀ (k : ℕ) (x : α), xs[k]? = some x → test (start + k) = some (f x))
    (length : upper + 1 = start + xs.length) : findUp test start upper = some (xs.findSome? f) := by
  unfold findUp
  rw [show (upper + 1 - start).toNat = xs.length by omega]
  induction xs generalizing start with
  | nil =>
    rw [List.length_nil] at length
    rw [untilLoop_stopped]
    · rfl
    · rw [decide_eq_true (show start > upper by omega), Bool.or_true]
  | cons x xs ih =>
    rw [List.length_cons] at length ⊢
    have first := tests 0 x rfl
    rw [Int.natCast_zero, Int.add_zero] at first
    rw [untilLoop, decide_eq_false (show ¬start > upper by omega), first, List.findSome?_cons]
    cases found : f x with
    | some y =>
      change (do
        let s ← untilLoop _ _ xs.length (some y, start + 1)
        return s.1) = _
      rw [untilLoop_stopped]
      · rfl
      · rfl
    | none =>
      refine ih (fun k y found => ?_) (by omega)
      have next := tests (k + 1) y found
      rwa [Int.natCast_succ, Int.add_comm (k : Int), ← Int.add_assoc] at next

theorem findIdx_eq_idxOf [DecidableEq α] (x : α) (xs : List α) :
    (xs.findIdx fun y => decide (x = y)) = xs.idxOf x := by
  congr 1
  funext y
  rw [Bool.eq_iff_iff, decide_eq_true_eq, beq_iff_eq]
  exact eq_comm

end Scans
