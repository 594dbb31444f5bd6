import Liberty.Library.Returns
import Mathlib.Data.Int.Notation
import Mathlib.Data.Nat.Notation

/-!
# FAST_ARRAY

A resizable array whose lower index is 0, as the list of its items.  An access to an index
that is not valid does not return.
-/

namespace Liberty

namespace FastArray

variable {α : Type}

def upper (a : List α) : Int :=
  a.length - 1

def item (a : List α) (i : Int) : Option α :=
  if 0 ≤ i then a[i.toNat]? else none

def put (a : List α) (element : α) (i : Int) : Option (List α) :=
  if 0 ≤ i ∧ i < a.length then some (a.set i.toNat element) else none

def addLast (a : List α) (element : α) : List α :=
  a ++ [element]

def addFirst (a : List α) (element : α) : List α :=
  element :: a

/-- `resize`: the new positions get default values. -/
def resize [Inhabited α] (a : List α) (newCount : Int) : List α :=
  a.take newCount.toNat ++ .replicate (newCount.toNat - a.length) default

def add (a : List α) (element : α) (index : Int) : Option (List α) :=
  if 0 ≤ index ∧ index ≤ a.length then some (a.insertIdx index.toNat element) else none

def remove (a : List α) (index : Int) : Option (List α) :=
  if 0 ≤ index ∧ index < a.length then some (a.eraseIdx index.toNat) else none

/-- One round of `move`. -/
def moveStep [Inhabited α] (distance : Int) (a : List α) (i : Int) : Option (List α) := do
  put (← put a (← item a i) (i + distance)) default i

/-- `move`, for a distance that is not zero. -/
def move [Inhabited α] (a : List α) (lowerIndex upperIndex distance : Int) :
    Option (List α) := do
  if distance < 0 then
    let (a, _) ← untilLoop (fun s => some (decide (s.2 > upperIndex)))
      (fun (a, i) => do return (← moveStep distance a i, i + 1))
      (upperIndex - lowerIndex + 1).toNat (a, lowerIndex)
    return a
  else
    let (a, _) ← untilLoop (fun s => some (decide (s.2 < lowerIndex)))
      (fun (a, i) => do return (← moveStep distance a i, i - 1))
      (upperIndex - lowerIndex + 1).toNat (a, upperIndex)
    return a

def setAllWith (a : List α) (v : α) : List α :=
  .replicate a.length v

/-- `fast_first_index_of`: the index after the last one when nothing is found. -/
def fastFirstIndexOf [BEq α] (a : List α) (element : α) : Int :=
  a.idxOf element

/-! ## Accesses -/

theorem item_natCast (a : List α) (i : ℕ) : item a i = a[i]? := by
  rfl

theorem item_of_lt {a : List α} {i : Int} (low : 0 ≤ i) (high : i.toNat < a.length) :
    item a i = some a[i.toNat] := by
  unfold item
  rw [if_pos low, List.getElem?_eq_getElem high]

theorem put_natCast {a : List α} (element : α) {i : ℕ} (high : i < a.length) :
    put a element i = some (a.set i element) := by
  unfold put
  rw [if_pos (by omega)]
  rfl

theorem remove_natCast {a : List α} {i : ℕ} (high : i < a.length) :
    remove a i = some (a.eraseIdx i) := by
  unfold remove
  rw [if_pos (by omega)]
  rfl

theorem item_middle (a : List α) (x : α) (b : List α) : item (a ++ x :: b) a.length = some x := by
  rw [item_natCast, List.getElem?_append_right (Nat.le_refl _), Nat.sub_self]
  rfl

theorem remove_middle (a : List α) (x : α) (b : List α) : remove (a ++ x :: b) a.length = some (a ++ b) := by
  rw [remove_natCast (by simp), List.eraseIdx_append_of_length_le (Nat.le_refl _), Nat.sub_self]
  rfl

theorem add_middle (a : List α) (x : α) (b : List α) : add (a ++ b) x a.length = some (a ++ x :: b) := by
  unfold add
  rw [if_pos (by rw [List.length_append]; omega), Int.toNat_natCast]
  congr 1
  induction a with
  | nil => rfl
  | cons y a ih => exact congrArg (y :: ·) ih

@[simp] theorem resize_length [Inhabited α] (a : List α) : resize a a.length = a := by
  unfold resize
  rw [Int.toNat_natCast, List.take_length, Nat.sub_self]
  exact List.append_nil a

theorem resize_of_le [Inhabited α] {a : List α} {newCount : ℕ} (le : newCount ≤ a.length) :
    resize a newCount = a.take newCount := by
  unfold resize
  rw [Int.toNat_natCast, Nat.sub_eq_zero_of_le le]
  exact List.append_nil _

end FastArray

end Liberty
