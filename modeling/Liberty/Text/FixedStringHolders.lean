import Liberty.Text.StringWorld
import Mathlib.Data.List.Nodup

/-!
# The holders of a FIXED_STRING

The strings that share a storage are on one list.  A string that needs a storage of its own leaves the list;
the last one that stays on it is not shared any more, whatever part of the storage it denotes.
-/

namespace Liberty

/-! ## The source -/

namespace FixedString

/-- The loop of `from_external` and `from_external_copy` over a C string. -/
def externalCount (p : NativeArray Character) : Option Int :=
  untilLoop (fun i => do return decide ((← p.item i) = 0)) (fun i => some (i + 1)) p.size.toNat 0

/-- The loop of `from_external_sized_copy`. -/
def externalCountTo (size : Int) (p : NativeArray Character) : Option Int :=
  untilLoop (fun i => if i = size then some true else do return decide ((← p.item i) = 0))
    (fun i => some (i + 1)) p.size.toNat 0

/-- The end of a creation. -/
def ofStorage (address : ℕ) (storage : NativeArray Character) (count capacity : Int) : Option FixedString := do
  let result : NativelyStoredString :=
    { storage := storage, isNull := false, storageLower := 0, count := count, capacity := capacity }
  return { toNativelyStoredString := result, address := address,
           hashCode := ← computedHashCode result.item result.count }

def fromExternal (address : ℕ) (p : NativeArray Character) : Option FixedString := do
  let i ← externalCount p
  ofStorage address p i (i + 1)

def fromExternalCopy (address : ℕ) (p : NativeArray Character) : Option FixedString := do
  let i ← externalCount p
  ofStorage address (← (NativeArray.calloc (i + 1)).sliceCopy 0 p 0 i) i (i + 1)

def fromExternalSizedCopy (address : ℕ) (p : NativeArray Character) (size : Int) : Option FixedString := do
  let i ← externalCountTo size p
  let storage ← (NativeArray.calloc (i + 1)).sliceCopy 0 p 0 (i - 1)
  ofStorage address (← storage.put 0 i) i (i + 1)

end FixedString

/-- A FIXED_STRING with the number of its list of `holders`. -/
structure HeldString extends FixedString where
  holders : ℕ

/-- The FIXED_STRINGs and their lists of holders, numbered as they were created. -/
structure HolderWorld where
  strings : ℕ → HeldString
  stringCount : ℕ
  lists : ℕ → List ℕ
  listCount : ℕ
  addressCount : ℕ

namespace HolderWorld

def isShared (w : HolderWorld) (x : ℕ) : Bool :=
  decide (1 < (w.lists (w.strings x).holders).length)

/-- A new string with a storage of its own and, by `new_holders`, a list of its own. -/
def addOwner (w : HolderWorld) (f : FixedString) : HolderWorld where
  strings := Function.update w.strings w.stringCount { f with holders := w.listCount }
  stringCount := w.stringCount + 1
  lists := Function.update w.lists w.listCount [w.stringCount]
  listCount := w.listCount + 1
  addressCount := w.addressCount + 1

/-- A new string that, by `share_with`, holds the storage of another one. -/
def addSharer (w : HolderWorld) (f : FixedString) (other : ℕ) : HolderWorld :=
  let holders := (w.strings other).holders
  { w with
    strings := Function.update w.strings w.stringCount { f with holders := holders }
    stringCount := w.stringCount + 1
    lists := Function.update w.lists holders (w.lists holders ++ [w.stringCount]) }

def unshare (w : HolderWorld) (x : ℕ) : Option HolderWorld := do
  let current := w.strings x
  let storage ← (NativeArray.calloc (current.count + 1)).sliceCopy 0 current.storage current.storageLower
    (current.storageLower + current.count - 1)
  let storage ← storage.put 0 current.count
  let list := w.lists current.holders
  let lists := Function.update w.lists current.holders (list.eraseIdx (list.idxOf x))
  return {
    strings := Function.update w.strings x { current with
      storage := storage, address := w.addressCount, storageLower := 0, capacity := current.count + 1,
      holders := w.listCount }
    stringCount := w.stringCount
    lists := Function.update lists w.listCount [x]
    listCount := w.listCount + 1
    addressCount := w.addressCount + 1 }

/-- `to_external`, with the address of a storage and a place in it. -/
def toExternal (w : HolderWorld) (x : ℕ) : Option (HolderWorld × ℕ × Int) := do
  let w ← if w.isShared x then w.unshare x else some w
  return (w, (w.strings x).address, (w.strings x).storageLower)

/-- A creation of a string, or a call on one; a C string that is given is not the storage of a string. -/
inductive Call
  | makeFromString (model : NativelyStoredString)
  | fromExternal (p : NativeArray Character)
  | fromExternalCopy (p : NativeArray Character)
  | fromExternalSizedCopy (p : NativeArray Character) (size : Int)
  | copy (other : ℕ)
  | substring (other : ℕ) (startIndex endIndex : Int)
  | toExternal (x : ℕ)

def execute (w : HolderWorld) : Call → Option HolderWorld
  | .makeFromString model => do return w.addOwner (← FixedString.makeFromString w.addressCount model)
  | .fromExternal p => do return w.addOwner (← FixedString.fromExternal w.addressCount p)
  | .fromExternalCopy p => do return w.addOwner (← FixedString.fromExternalCopy w.addressCount p)
  | .fromExternalSizedCopy p size => do
      return w.addOwner (← FixedString.fromExternalSizedCopy w.addressCount p size)
  | .copy other => some (w.addSharer (w.strings other).toFixedString other)
  | .substring other i j => do return w.addSharer (← (w.strings other).substring i j) other
  | .toExternal x => do return (← w.toExternal x).1

/-- The null character is in the C string. -/
def Terminated (p : NativeArray Character) : Prop :=
  ∃ n : Int, 0 ≤ n ∧ n < p.size ∧ p.cell n = 0

/-- The preconditions. -/
def Call.Allowed (w : HolderWorld) : Call → Prop
  | .makeFromString model => model.Readable
  | .fromExternal p | .fromExternalCopy p => Terminated p
  | .fromExternalSizedCopy p size => 0 ≤ size ∧ Terminated p
  | .copy other => other < w.stringCount
  | .substring other i j => other < w.stringCount ∧ 1 ≤ i ∧ j ≤ (w.strings other).count ∧ i ≤ j + 1
  | .toExternal x => x < w.stringCount

def start : HolderWorld where
  strings _ := { toNativelyStoredString := .blank, address := 0, hashCode := 0, holders := 0 }
  stringCount := 0
  lists _ := []
  listCount := 0
  addressCount := 0

/-- The strings after a sequence of calls. -/
inductive Runs (w : HolderWorld) : HolderWorld → Prop
  | refl : Runs w w
  | step {w' w'' : HolderWorld} (before : Runs w w') (call : Call) (allowed : call.Allowed w')
      (run : w'.execute call = some w'') : Runs w w''

end HolderWorld

/-! ## Creations -/

/-- The storage ends with a null character, and the string is in it. -/
structure FixedString.Ended (f : FixedString) : Prop where
  positive : 1 ≤ f.capacity
  inside : f.capacity ≤ f.storage.size
  null : f.storage.cell (f.capacity - 1) = 0
  fits : f.storageLower + f.count ≤ f.capacity

namespace FixedString

section Creations

variable {address : ℕ} {storage p : NativeArray Character} {count capacity size : Int}

theorem eq_of_item {s : NativeArray Character} {i : Int} {c : Character} (run : s.item i = some c) : c = s.cell i := by
  unfold NativeArray.item at run
  split at run
  · exact (Option.some.inj run).symm
  · cases run

theorem eq_of_put {s s' : NativeArray Character} {i : Int} {c : Character} (run : s.put c i = some s') :
    s' = s.set c i := by
  unfold NativeArray.put at run
  split at run
  · exact (Option.some.inj run).symm
  · cases run

theorem eq_of_sliceCopy {s s' src : NativeArray Character} {at' low high : Int}
    (run : s.sliceCopy at' src low high = some s') : s' = { s with
      cell := fun i => if at' ≤ i ∧ i ≤ at' + high - low then src.cell (low + i - at') else s.cell i } := by
  unfold NativeArray.sliceCopy at run
  split at run
  · exact (Option.some.inj run).symm
  · cases run

/-- What a creation makes: a string of its own storage. -/
def Made (address : ℕ) (f : FixedString) : Prop :=
  f.Readable ∧ f.Ended ∧ f.address = address

theorem returns_ofStorage {xs : List Character} (address : ℕ) (length : count = xs.length) (holds : storage.Holds 0 xs)
    (first : 1 ≤ capacity) (last : capacity ≤ storage.size) (null : storage.cell (capacity - 1) = 0)
    (fits : count ≤ capacity) : Returns (ofStorage address storage count capacity) (Made address) := by
  obtain ⟨readable, -⟩ := @NativelyStoredString.readable_of_holds
    { storage := storage, isNull := false, storageLower := 0, count := count, capacity := capacity } xs length holds
  unfold ofStorage
  dsimp only
  rw [readable.spells.computedHashCode_eq, Returns.some_bind, Returns.pure_iff]
  refine ⟨readable, ⟨first, last, null, ?_⟩, rfl⟩
  dsimp only
  omega

/-- A storage whose characters are the ones before the null character. -/
theorem returns_ofStorage_terminated (address : ℕ) (nonneg : 0 ≤ count) (last : count + 1 ≤ storage.size)
    (null : storage.cell count = 0) : Returns (ofStorage address storage count (count + 1)) (Made address) := by
  have holds : storage.Holds 0 ((List.range count.toNat).map fun k : ℕ => storage.cell k) :=
    NativeArray.holds_cells _ (by omega)
  refine returns_ofStorage address ?_ holds (by omega) last ?_ (by omega)
  · rw [List.length_map, List.length_range]
    omega
  · rw [Int.add_sub_cancel]
    exact null

/-- The count of a C string is the place of its first null character. -/
theorem returns_externalCount (terminated : HolderWorld.Terminated p) :
    Returns (externalCount p) fun i => 0 ≤ i ∧ i + 1 ≤ p.size ∧ p.cell i = 0 := by
  obtain ⟨n, low, high, null⟩ := terminated
  refine returns_untilLoop (fun i => 0 ≤ i ∧ i ≤ n) (fun i => (n - i).toNat) ⟨Int.le_refl 0, low⟩ (by omega) ?_
  intro i ⟨from_zero, le⟩
  rw [NativeArray.item_of_inBounds (by omega), Returns.some_bind, Returns.pure_iff]
  split
  · rename_i found
    exact ⟨from_zero, by omega, of_decide_eq_true found⟩
  · rename_i other
    have before : i ≠ n := by
      rintro rfl
      exact other (decide_eq_true null)
    rw [Returns.some_iff]
    exact ⟨⟨by omega, by omega⟩, by omega⟩

theorem returns_externalCountTo (nonneg : 0 ≤ size) (terminated : HolderWorld.Terminated p) :
    Returns (externalCountTo size p) fun i => 0 ≤ i ∧ i + 1 ≤ p.size := by
  obtain ⟨n, low, high, null⟩ := terminated
  refine returns_untilLoop (fun i => 0 ≤ i ∧ i ≤ n ∧ i ≤ size) (fun i => (n - i).toNat)
    ⟨Int.le_refl 0, low, nonneg⟩ (by omega) ?_
  intro i ⟨from_zero, le, le'⟩
  by_cases all : i = size
  · rw [if_pos all, Returns.some_iff, if_pos rfl]
    exact ⟨from_zero, by omega⟩
  · rw [if_neg all, NativeArray.item_of_inBounds (by omega), Returns.some_bind, Returns.pure_iff]
    split
    · exact ⟨from_zero, by omega⟩
    · rename_i other
      have before : i ≠ n := by
        rintro rfl
        exact other (decide_eq_true null)
      rw [Returns.some_iff]
      exact ⟨⟨by omega, by omega, by omega⟩, by omega⟩

theorem returns_fromExternal (address : ℕ) (terminated : HolderWorld.Terminated p) :
    Returns (fromExternal address p) (Made address) := by
  unfold fromExternal
  rw [Returns.bind_iff]
  exact (returns_externalCount terminated).mono fun i ⟨nonneg, last, null⟩ =>
    returns_ofStorage_terminated address nonneg last null

theorem returns_fromExternalCopy (address : ℕ) (terminated : HolderWorld.Terminated p) :
    Returns (fromExternalCopy address p) (Made address) := by
  unfold fromExternalCopy
  rw [Returns.bind_iff]
  refine (returns_externalCount terminated).mono fun i ⟨nonneg, last, null⟩ => ?_
  rw [Returns.bind_iff]
  refine NativeArray.returns_sliceCopy (fun _ => ?_) fun storage size copied kept => ?_
  · rw [NativeArray.size_calloc]
    omega
  · rw [NativeArray.size_calloc] at size
    refine returns_ofStorage_terminated address nonneg (by omega) ?_
    rw [copied i nonneg (by omega), show 0 + i - 0 = i by omega]
    exact null

theorem returns_fromExternalSizedCopy (address : ℕ) (nonneg : 0 ≤ size) (terminated : HolderWorld.Terminated p) :
    Returns (fromExternalSizedCopy address p size) (Made address) := by
  unfold fromExternalSizedCopy
  rw [Returns.bind_iff]
  refine (returns_externalCountTo nonneg terminated).mono fun i ⟨from_zero, last⟩ => ?_
  rw [Returns.bind_iff]
  refine NativeArray.returns_sliceCopy (fun _ => ?_) fun storage size copied kept => ?_
  · rw [NativeArray.size_calloc]
    omega
  · rw [NativeArray.size_calloc] at size
    rw [Returns.bind_iff, NativeArray.returns_put]
    refine ⟨by omega, returns_ofStorage_terminated address from_zero ?_ (NativeArray.cell_set_self _ _ _)⟩
    rw [NativeArray.size_set]
    omega

/-- The storage of `make_from_string` ends with a null character, its own or the one of the model. -/
theorem ended_makeFromString {model : NativelyStoredString} {f : FixedString} (h : model.Readable)
    (run : makeFromString address model = some f) : f.Ended := by
  have nonneg := h.count_nonneg
  obtain ⟨endsWithNull, found, run⟩ := Option.bind_eq_some_iff.mp run
  obtain ⟨filled, copied, run⟩ := Option.bind_eq_some_iff.mp run
  obtain ⟨storage, closed, run⟩ := Option.bind_eq_some_iff.mp run
  obtain ⟨hash, -, same⟩ := Option.bind_eq_some_iff.mp run
  cases same
  by_cases positive : model.count > 0
  · rw [if_pos positive] at found copied
    obtain ⟨last, read, same⟩ := Option.bind_eq_some_iff.mp found
    cases same
    have copy := eq_of_sliceCopy copied
    have place : last = model.storage.cell (model.storageLower + model.count - 1) := eq_of_item read
    by_cases null : last = 0
    · rw [if_pos (decide_eq_true null)] at closed
      cases closed
      rw [copy]
      refine ⟨?_, ?_, ?_, ?_⟩ <;> dsimp only <;> rw [if_pos (decide_eq_true null)]
      · omega
      · exact Int.le_refl _
      · rw [if_pos (by omega), show model.storageLower + (model.count - 1) - 0 =
          model.storageLower + model.count - 1 by omega, ← place]
        exact null
      · omega
    · rw [if_neg fun same => null (of_decide_eq_true same)] at closed
      rw [eq_of_put closed, copy]
      refine ⟨?_, ?_, ?_, ?_⟩ <;> dsimp only <;> rw [if_neg fun same => null (of_decide_eq_true same)]
      · omega
      · exact Int.le_refl _
      · rw [Int.add_sub_cancel]
        exact NativeArray.cell_set_self _ _ _
      · omega
  · rw [if_neg positive] at found copied
    cases found
    cases copied
    rw [eq_of_put closed]
    refine ⟨?_, ?_, ?_, ?_⟩ <;> dsimp only <;> rw [if_neg Bool.false_ne_true]
    · omega
    · exact Int.le_refl _
    · rw [Int.add_sub_cancel]
      exact NativeArray.cell_set_self _ _ _
    · omega

theorem returns_makeFromString_made {model : NativelyStoredString} (h : model.Readable) (address : ℕ) :
    Returns (makeFromString address model) (Made address) := by
  obtain ⟨f, run, readable, -, same, -⟩ := returns_makeFromString h address
  exact ⟨f, run, readable, ended_makeFromString h run, same⟩

end Creations

end FixedString

/-! ## Sharing -/

namespace HolderWorld

/-- The strings are in their storages, and a list holds the strings of one storage, each of them once. -/
structure Sound (w : HolderWorld) : Prop where
  readable : ∀ x < w.stringCount, (w.strings x).Readable
  ended : ∀ x < w.stringCount, (w.strings x).Ended
  address_lt : ∀ x < w.stringCount, (w.strings x).address < w.addressCount
  holders_lt : ∀ x < w.stringCount, (w.strings x).holders < w.listCount
  storage_eq : ∀ x < w.stringCount, ∀ y < w.stringCount, (w.strings x).address = (w.strings y).address →
    (w.strings x).storage = (w.strings y).storage
  mem_iff : ∀ h < w.listCount, ∀ x, x ∈ w.lists h ↔ x < w.stringCount ∧ (w.strings x).holders = h
  nodup : ∀ h < w.listCount, (w.lists h).Nodup
  holders_eq_iff : ∀ x < w.stringCount, ∀ y < w.stringCount,
    (w.strings x).holders = (w.strings y).holders ↔ (w.strings x).address = (w.strings y).address

/-- The strings that there were have kept their characters. -/
def Extends (w w' : HolderWorld) : Prop :=
  w.stringCount ≤ w'.stringCount ∧ ∀ x < w.stringCount, (w'.strings x).chars = (w.strings x).chars

section Worlds

variable {w w' w'' : HolderWorld} {f : FixedString} {x y other : ℕ}

theorem Extends.refl (w : HolderWorld) : Extends w w :=
  ⟨Nat.le_refl _, fun _ _ => rfl⟩

theorem Extends.then (h : Extends w w') (h' : Extends w' w'') : Extends w w'' :=
  ⟨Nat.le_trans h.1 h'.1, fun x less => (h'.2 x (Nat.lt_of_lt_of_le less h.1)).trans (h.2 x less)⟩

theorem sound_start : start.Sound := by
  have none : ∀ {P : Prop} {k : ℕ}, k < 0 → P := fun less => absurd less (Nat.not_lt_zero _)
  exact ⟨fun _ => none, fun _ => none, fun _ => none, fun _ => none, fun _ => none, fun _ => none, fun _ => none,
    fun _ => none⟩

theorem addOwner_of_lt (less : x < w.stringCount) : (w.addOwner f).strings x = w.strings x :=
  Function.update_of_ne (Nat.ne_of_lt less) _ _

theorem addOwner_self : (w.addOwner f).strings w.stringCount = { f with holders := w.listCount } :=
  Function.update_self _ _ _

theorem addSharer_of_lt (less : x < w.stringCount) : (w.addSharer f other).strings x = w.strings x :=
  Function.update_of_ne (Nat.ne_of_lt less) _ _

theorem addSharer_self :
    (w.addSharer f other).strings w.stringCount = { f with holders := (w.strings other).holders } :=
  Function.update_self _ _ _

theorem lt_or_eq_of_lt_succ {n : ℕ} (less : x < n + 1) : x < n ∨ x = n := by
  omega

theorem Sound.addOwner (h : w.Sound) (made : FixedString.Made w.addressCount f) : (w.addOwner f).Sound := by
  obtain ⟨readable, ended, address⟩ := made
  refine ⟨fun x less => ?_, fun x less => ?_, fun x less => ?_, fun x less => ?_, fun x less y less' same => ?_,
    fun l less x => ?_, fun l less => ?_, fun x less y less' => ?_⟩
  · rcases lt_or_eq_of_lt_succ less with old | rfl
    · rw [addOwner_of_lt old]
      exact h.readable x old
    · rw [addOwner_self]
      exact readable
  · rcases lt_or_eq_of_lt_succ less with old | rfl
    · rw [addOwner_of_lt old]
      exact h.ended x old
    · rw [addOwner_self]
      exact ended
  · change _ < w.addressCount + 1
    rcases lt_or_eq_of_lt_succ less with old | rfl
    · rw [addOwner_of_lt old]
      exact Nat.lt_succ_of_lt (h.address_lt x old)
    · rw [addOwner_self, address]
      exact Nat.lt_succ_self _
  · change _ < w.listCount + 1
    rcases lt_or_eq_of_lt_succ less with old | rfl
    · rw [addOwner_of_lt old]
      exact Nat.lt_succ_of_lt (h.holders_lt x old)
    · rw [addOwner_self]
      exact Nat.lt_succ_self _
  · rcases lt_or_eq_of_lt_succ less with old | rfl
    · rcases lt_or_eq_of_lt_succ less' with old' | rfl
      · rw [addOwner_of_lt old, addOwner_of_lt old'] at same ⊢
        exact h.storage_eq x old y old' same
      · rw [addOwner_of_lt old, addOwner_self, address] at same
        exact absurd same (Nat.ne_of_lt (h.address_lt x old))
    · rcases lt_or_eq_of_lt_succ less' with old' | rfl
      · rw [addOwner_of_lt old', addOwner_self, address] at same
        exact absurd same.symm (Nat.ne_of_lt (h.address_lt y old'))
      · rfl
  · by_cases own : l = w.listCount
    · have list : (w.addOwner f).lists l = [w.stringCount] := own ▸ Function.update_self _ _ _
      rw [list, List.mem_singleton]
      constructor
      · rintro rfl
        rw [addOwner_self]
        exact ⟨Nat.lt_succ_self _, own.symm⟩
      · rintro ⟨less', same⟩
        rcases lt_or_eq_of_lt_succ less' with old | new
        · rw [addOwner_of_lt old] at same
          exact absurd (same.trans own) (Nat.ne_of_lt (h.holders_lt x old))
        · exact new
    · have old : l < w.listCount := (lt_or_eq_of_lt_succ less).resolve_right own
      have list : (w.addOwner f).lists l = w.lists l := Function.update_of_ne own _ _
      rw [list, h.mem_iff l old]
      constructor
      · rintro ⟨less', same⟩
        rw [addOwner_of_lt less']
        exact ⟨Nat.lt_succ_of_lt less', same⟩
      · rintro ⟨less', same⟩
        rcases lt_or_eq_of_lt_succ less' with old' | rfl
        · rw [addOwner_of_lt old'] at same
          exact ⟨old', same⟩
        · rw [addOwner_self] at same
          exact absurd same.symm own
  · by_cases own : l = w.listCount
    · have list : (w.addOwner f).lists l = [w.stringCount] := own ▸ Function.update_self _ _ _
      rw [list]
      exact List.nodup_singleton _
    · have list : (w.addOwner f).lists l = w.lists l := Function.update_of_ne own _ _
      rw [list]
      exact h.nodup l ((lt_or_eq_of_lt_succ less).resolve_right own)
  · rcases lt_or_eq_of_lt_succ less with old | rfl
    · rcases lt_or_eq_of_lt_succ less' with old' | rfl
      · rw [addOwner_of_lt old, addOwner_of_lt old']
        exact h.holders_eq_iff x old y old'
      · rw [addOwner_of_lt old, addOwner_self, address]
        exact iff_of_false (Nat.ne_of_lt (h.holders_lt x old)) (Nat.ne_of_lt (h.address_lt x old))
    · rcases lt_or_eq_of_lt_succ less' with old' | rfl
      · rw [addOwner_of_lt old', addOwner_self, address]
        exact iff_of_false (Nat.ne_of_lt (h.holders_lt y old')).symm (Nat.ne_of_lt (h.address_lt y old')).symm
      · exact iff_of_true rfl rfl

/-- A new string in the storage of another one. -/
theorem Sound.addSharer (h : w.Sound) (less : other < w.stringCount) (readable : f.Readable) (ended : f.Ended)
    (address : f.address = (w.strings other).address) (storage : f.storage = (w.strings other).storage) :
    (w.addSharer f other).Sound := by
  have first := h.holders_lt other less
  have eq_iff : ∀ x < w.stringCount, (w.strings x).holders = (w.strings other).holders ↔
      (w.strings x).address = f.address := fun x old => by
    rw [address]
    exact h.holders_eq_iff x old other less
  refine ⟨fun x less => ?_, fun x less => ?_, fun x less => ?_, fun x less => ?_, fun x less y less' same => ?_,
    fun l less x => ?_, fun l less => ?_, fun x less y less' => ?_⟩
  · rcases lt_or_eq_of_lt_succ less with old | rfl
    · rw [addSharer_of_lt old]
      exact h.readable x old
    · rw [addSharer_self]
      exact readable
  · rcases lt_or_eq_of_lt_succ less with old | rfl
    · rw [addSharer_of_lt old]
      exact h.ended x old
    · rw [addSharer_self]
      exact ended
  · rcases lt_or_eq_of_lt_succ less with old | rfl
    · rw [addSharer_of_lt old]
      exact h.address_lt x old
    · rw [addSharer_self, address]
      exact h.address_lt other ‹_›
  · rcases lt_or_eq_of_lt_succ less with old | rfl
    · rw [addSharer_of_lt old]
      exact h.holders_lt x old
    · rw [addSharer_self]
      exact first
  · rcases lt_or_eq_of_lt_succ less with old | rfl
    · rcases lt_or_eq_of_lt_succ less' with old' | rfl
      · rw [addSharer_of_lt old, addSharer_of_lt old'] at same ⊢
        exact h.storage_eq x old y old' same
      · rw [addSharer_of_lt old, addSharer_self] at same ⊢
        exact (h.storage_eq x old other ‹_› (same.trans address)).trans storage.symm
    · rcases lt_or_eq_of_lt_succ less' with old' | rfl
      · rw [addSharer_of_lt old', addSharer_self] at same ⊢
        exact storage.trans (h.storage_eq other ‹_› y old' (address.symm.trans same))
      · rfl
  · by_cases shared : l = (w.strings other).holders
    · have list : (w.addSharer f other).lists l = w.lists (w.strings other).holders ++ [w.stringCount] := by
        rw [shared]
        exact Function.update_self _ _ _
      rw [list, List.mem_append, List.mem_singleton, h.mem_iff _ first]
      constructor
      · rintro (⟨old, same⟩ | rfl)
        · rw [addSharer_of_lt old]
          exact ⟨Nat.lt_succ_of_lt old, same.trans shared.symm⟩
        · rw [addSharer_self]
          exact ⟨Nat.lt_succ_self _, shared.symm⟩
      · rintro ⟨less', same⟩
        rcases lt_or_eq_of_lt_succ less' with old | new
        · rw [addSharer_of_lt old] at same
          exact .inl ⟨old, same.trans shared⟩
        · exact .inr new
    · have list : (w.addSharer f other).lists l = w.lists l := Function.update_of_ne shared _ _
      rw [list, h.mem_iff l less]
      constructor
      · rintro ⟨less', same⟩
        rw [addSharer_of_lt less']
        exact ⟨Nat.lt_succ_of_lt less', same⟩
      · rintro ⟨less', same⟩
        rcases lt_or_eq_of_lt_succ less' with old | rfl
        · rw [addSharer_of_lt old] at same
          exact ⟨old, same⟩
        · rw [addSharer_self] at same
          exact absurd same.symm shared
  · by_cases shared : l = (w.strings other).holders
    · have list : (w.addSharer f other).lists l = w.lists (w.strings other).holders ++ [w.stringCount] := by
        rw [shared]
        exact Function.update_self _ _ _
      have new : w.stringCount ∉ w.lists (w.strings other).holders := fun mem =>
        Nat.lt_irrefl _ ((h.mem_iff _ first _).mp mem).1
      rw [list]
      exact List.nodup_append.mpr ⟨h.nodup _ first, List.nodup_singleton _, fun a mem b last same =>
        new (List.mem_singleton.mp last ▸ same ▸ mem)⟩
    · have list : (w.addSharer f other).lists l = w.lists l := Function.update_of_ne shared _ _
      rw [list]
      exact h.nodup l less
  · rcases lt_or_eq_of_lt_succ less with old | rfl
    · rcases lt_or_eq_of_lt_succ less' with old' | rfl
      · rw [addSharer_of_lt old, addSharer_of_lt old']
        exact h.holders_eq_iff x old y old'
      · rw [addSharer_of_lt old, addSharer_self]
        exact eq_iff x old
    · rcases lt_or_eq_of_lt_succ less' with old' | rfl
      · rw [addSharer_of_lt old', addSharer_self, eq_comm, @eq_comm _ f.address]
        exact eq_iff y old'
      · exact iff_of_true rfl rfl

/-- The string leaves its list with the new string `f` in its place. -/
def leave (w : HolderWorld) (x : ℕ) (f : FixedString) : HolderWorld where
  strings := Function.update w.strings x { f with holders := w.listCount }
  stringCount := w.stringCount
  lists := Function.update (Function.update w.lists (w.strings x).holders ((w.lists (w.strings x).holders).erase x))
    w.listCount [x]
  listCount := w.listCount + 1
  addressCount := w.addressCount + 1

theorem leave_self : (w.leave x f).strings x = { f with holders := w.listCount } :=
  Function.update_self _ _ _

theorem leave_of_ne (other : y ≠ x) : (w.leave x f).strings y = w.strings y :=
  Function.update_of_ne other _ _

theorem Sound.leave (h : w.Sound) (less : x < w.stringCount) (made : FixedString.Made w.addressCount f) :
    (w.leave x f).Sound := by
  obtain ⟨readable, ended, address⟩ := made
  have old := h.holders_lt x less
  refine ⟨fun y less => ?_, fun y less => ?_, fun y less => ?_, fun y less => ?_, fun y less z less' same => ?_,
    fun l lessL y => ?_, fun l lessL => ?_, fun y less z less' => ?_⟩
  · by_cases own : y = x
    · rw [own, leave_self]
      exact readable
    · rw [leave_of_ne own]
      exact h.readable y less
  · by_cases own : y = x
    · rw [own, leave_self]
      exact ended
    · rw [leave_of_ne own]
      exact h.ended y less
  · change _ < w.addressCount + 1
    by_cases own : y = x
    · rw [own, leave_self, address]
      exact Nat.lt_succ_self _
    · rw [leave_of_ne own]
      exact Nat.lt_succ_of_lt (h.address_lt y less)
  · change _ < w.listCount + 1
    by_cases own : y = x
    · rw [own, leave_self]
      exact Nat.lt_succ_self _
    · rw [leave_of_ne own]
      exact Nat.lt_succ_of_lt (h.holders_lt y less)
  · by_cases own : y = x
    · by_cases own' : z = x
      · rw [own, own']
      · rw [own, leave_self, leave_of_ne own', address] at same
        exact absurd same.symm (Nat.ne_of_lt (h.address_lt z less'))
    · by_cases own' : z = x
      · rw [own', leave_self, leave_of_ne own, address] at same
        exact absurd same (Nat.ne_of_lt (h.address_lt y less))
      · rw [leave_of_ne own, leave_of_ne own'] at same ⊢
        exact h.storage_eq y less z less' same
  · by_cases new : l = w.listCount
    · have list : (w.leave x f).lists l = [x] := by
        rw [new]
        exact Function.update_self _ _ _
      rw [list, List.mem_singleton, new]
      by_cases own : y = x
      · rw [own, leave_self]
        exact iff_of_true rfl ⟨less, rfl⟩
      · rw [leave_of_ne own]
        exact iff_of_false own fun ⟨less', same⟩ => Nat.ne_of_lt (h.holders_lt y less') same
    · have lessL' : l < w.listCount := (lt_or_eq_of_lt_succ lessL).resolve_right new
      have list : (w.leave x f).lists l = Function.update w.lists (w.strings x).holders
          ((w.lists (w.strings x).holders).erase x) l := Function.update_of_ne new _ _
      by_cases own : y = x
      · rw [own, leave_self]
        refine iff_of_false ?_ fun ⟨_, same⟩ => new same.symm
        rw [list]
        by_cases left : l = (w.strings x).holders
        · rw [left, Function.update_self, (h.nodup _ old).mem_erase_iff]
          exact fun mem => mem.1 rfl
        · rw [Function.update_of_ne left, h.mem_iff l lessL']
          exact fun mem => left mem.2.symm
      · rw [leave_of_ne own, list]
        by_cases left : l = (w.strings x).holders
        · rw [left, Function.update_self, (h.nodup _ old).mem_erase_iff, h.mem_iff _ old]
          exact and_iff_right own
        · rw [Function.update_of_ne left]
          exact h.mem_iff l lessL' y
  · by_cases new : l = w.listCount
    · have list : (w.leave x f).lists l = [x] := by
        rw [new]
        exact Function.update_self _ _ _
      rw [list]
      exact List.nodup_singleton _
    · have lessL' : l < w.listCount := (lt_or_eq_of_lt_succ lessL).resolve_right new
      have list : (w.leave x f).lists l = Function.update w.lists (w.strings x).holders
          ((w.lists (w.strings x).holders).erase x) l := Function.update_of_ne new _ _
      rw [list]
      by_cases left : l = (w.strings x).holders
      · rw [left, Function.update_self]
        exact (h.nodup _ old).erase x
      · rw [Function.update_of_ne left]
        exact h.nodup l lessL'
  · by_cases own : y = x
    · by_cases own' : z = x
      · rw [own, own']
        exact iff_of_true rfl rfl
      · rw [own, leave_self, leave_of_ne own', address]
        exact iff_of_false (Nat.ne_of_lt (h.holders_lt z less')).symm (Nat.ne_of_lt (h.address_lt z less')).symm
    · by_cases own' : z = x
      · rw [own', leave_self, leave_of_ne own, address]
        exact iff_of_false (Nat.ne_of_lt (h.holders_lt y less)) (Nat.ne_of_lt (h.address_lt y less))
      · rw [leave_of_ne own, leave_of_ne own']
        exact h.holders_eq_iff y less z less'

/-- The characters of the string are the last ones of its storage. -/
def ReachesEnd (f : FixedString) : Prop :=
  f.capacity = f.storageLower + f.count + 1 ∨ f.capacity = f.storageLower + f.count ∧ 0 < f.count

/-- The storage of its own that a string gets holds its characters and a null character. -/
theorem Sound.returns_unshare (h : w.Sound) (less : x < w.stringCount) :
    Returns (w.unshare x) fun w' => w'.Sound ∧ Extends w w' ∧ x < w'.stringCount ∧
      ReachesEnd (w'.strings x).toFixedString := by
  have readable := h.readable x less
  have holds := readable.holds
  have count := readable.count_eq
  have lower := readable.lower_nonneg
  have fits := readable.fits
  unfold unshare
  rw [Returns.bind_iff]
  refine NativeArray.returns_sliceCopy (fun _ => ?_) fun storage size copied kept => ?_
  · rw [NativeArray.size_calloc]
    omega
  · rw [NativeArray.size_calloc] at size
    rw [Returns.bind_iff, NativeArray.returns_put]
    refine ⟨by omega, ?_⟩
    rw [Returns.pure_iff, List.eraseIdx_idxOf_eq_erase]
    let f : FixedString := { (w.strings x).toFixedString with
      storage := storage.set 0 (w.strings x).count, address := w.addressCount, storageLower := 0
      capacity := (w.strings x).count + 1 }
    have held : f.storage.Holds f.storageLower (w.strings x).chars := by
      refine ⟨Int.le_refl 0, ?_, ?_⟩
      · change 0 + _ ≤ storage.size
        omega
      · refine holds.segment.copied fun i from_zero less' => ?_
        change (storage.set 0 (w.strings x).count).cell (0 + i) = _
        rw [NativeArray.cell_set_of_ne _ _ (by omega), copied _ (by omega) (by omega)]
        congr 1
        omega
    obtain ⟨readable', characters⟩ := NativelyStoredString.readable_of_holds (s := f.toNativelyStoredString) count held
    have ended : f.Ended := by
      refine ⟨?_, ?_, ?_, ?_⟩
      · change 1 ≤ (w.strings x).count + 1
        omega
      · change (w.strings x).count + 1 ≤ storage.size
        omega
      · change (storage.set 0 (w.strings x).count).cell ((w.strings x).count + 1 - 1) = 0
        rw [Int.add_sub_cancel]
        exact NativeArray.cell_set_self _ _ _
      · change 0 + (w.strings x).count ≤ (w.strings x).count + 1
        omega
    refine ⟨h.leave less (f := f) ⟨readable', ended, rfl⟩, ⟨Nat.le_refl _, fun y less' => ?_⟩, less, ?_⟩
    · by_cases own : y = x
      · rw [own]
        change NativelyStoredString.chars ((w.leave x f).strings x).toNativelyStoredString = _
        rw [leave_self]
        exact characters
      · change NativelyStoredString.chars ((w.leave x f).strings y).toNativelyStoredString = _
        rw [leave_of_ne own]
    · refine .inl ?_
      change ((w.leave x f).strings x).capacity = ((w.leave x f).strings x).storageLower +
        ((w.leave x f).strings x).count + 1
      rw [leave_self]
      change (w.strings x).count + 1 = 0 + (w.strings x).count + 1
      omega

theorem extends_addOwner : Extends w (w.addOwner f) :=
  ⟨Nat.le_succ _, fun x less => by rw [addOwner_of_lt less]⟩

theorem extends_addSharer : Extends w (w.addSharer f other) :=
  ⟨Nat.le_succ _, fun x less => by rw [addSharer_of_lt less]⟩

/-- `to_external` gives the place of the characters, the last ones of a storage if the string is shared. -/
theorem Sound.returns_toExternal (h : w.Sound) (less : x < w.stringCount) :
    Returns (w.toExternal x) fun r => r.1.Sound ∧ Extends w r.1 ∧ x < r.1.stringCount ∧
      r.2 = ((r.1.strings x).address, (r.1.strings x).storageLower) ∧
      (w.isShared x = true ∨ ReachesEnd (w.strings x).toFixedString → ReachesEnd (r.1.strings x).toFixedString) := by
  unfold toExternal
  split
  · rw [Returns.bind_iff]
    refine (h.returns_unshare less).mono fun w' ⟨sound, grows, present, reaches⟩ => ?_
    rw [Returns.pure_iff]
    exact ⟨sound, grows, present, rfl, fun _ => reaches⟩
  · rename_i alone
    rw [Returns.some_bind, Returns.pure_iff]
    exact ⟨h, .refl w, less, rfl, fun reaches => reaches.resolve_left alone⟩

theorem Sound.returns_execute (h : w.Sound) {call : Call} (allowed : call.Allowed w) :
    Returns (w.execute call) fun w' => w'.Sound ∧ Extends w w' := by
  have owned {f : FixedString} (made : FixedString.Made w.addressCount f) :
      Returns (some (w.addOwner f)) fun w' => w'.Sound ∧ Extends w w' :=
    Returns.some_iff.mpr ⟨h.addOwner made, extends_addOwner⟩
  cases call with
  | makeFromString model => exact (FixedString.returns_makeFromString_made allowed _).bind fun f made => owned made
  | fromExternal p => exact (FixedString.returns_fromExternal _ allowed).bind fun f made => owned made
  | fromExternalCopy p => exact (FixedString.returns_fromExternalCopy _ allowed).bind fun f made => owned made
  | fromExternalSizedCopy p size =>
    exact (FixedString.returns_fromExternalSizedCopy _ allowed.1 allowed.2).bind fun f made => owned made
  | copy other =>
    have sound := h.addSharer allowed (h.readable other allowed) (h.ended other allowed) rfl rfl
    exact Returns.some_iff.mpr ⟨sound, extends_addSharer⟩
  | substring other i j =>
    obtain ⟨present, low, high, interval⟩ := allowed
    have readable := h.readable other present
    have run := FixedString.returns_substring readable low high interval
    obtain ⟨f, made, readable', -, address, storage, -⟩ := run
    have ended := h.ended other present
    have fields : f.capacity = (w.strings other).capacity ∧
        f.storageLower + f.count = i - 1 + (w.strings other).storageLower + (j - i + 1) := by
      obtain ⟨hash, -, same⟩ := Option.bind_eq_some_iff.mp made
      cases same
      exact ⟨rfl, rfl⟩
    have fits := ended.fits
    have positive := ended.positive
    have inside := ended.inside
    have null := ended.null
    have ended' : f.Ended := by
      refine ⟨by omega, by rw [storage]; omega, ?_, by omega⟩
      rw [storage, fields.1]
      exact null
    unfold execute
    dsimp only
    rw [made, Returns.some_bind]
    exact Returns.pure_iff.mpr ⟨h.addSharer present readable' ended' address storage, extends_addSharer⟩
  | toExternal x =>
    exact (h.returns_toExternal allowed).bind fun r ⟨sound, grows, _⟩ => Returns.pure_iff.mpr ⟨sound, grows⟩

/-! ## Runs -/

theorem Runs.sound (runs : Runs w w') (sound : w.Sound) : w'.Sound ∧ Extends w w' := by
  induction runs with
  | refl => exact ⟨sound, .refl w⟩
  | step before call allowed run ih =>
    obtain ⟨sound', grows⟩ := (ih.1.returns_execute allowed).unique run
    exact ⟨sound', ih.2.then grows⟩

/-- The string is on one list of holders, with the strings that share its storage. -/
def HeldOnce (w : HolderWorld) (x : ℕ) : Prop :=
  ∃ l < w.listCount, (∀ k < w.listCount, x ∈ w.lists k ↔ k = l) ∧
    ∀ y, y ∈ w.lists l ↔ y < w.stringCount ∧ (w.strings y).address = (w.strings x).address

theorem Sound.heldOnce (h : w.Sound) (less : x < w.stringCount) : HeldOnce w x := by
  refine ⟨(w.strings x).holders, h.holders_lt x less, fun k lessK => ?_, fun y => ?_⟩
  · rw [h.mem_iff k lessK, and_iff_right less]
    exact eq_comm
  · rw [h.mem_iff _ (h.holders_lt x less)]
    exact and_congr_right fun less' => h.holders_eq_iff y less' x less

/-- The characters are at the place that `to_external` gives, and a null character follows or ends them. -/
def GivenAt (chars : List Character) (w : HolderWorld) (x : ℕ) (place : ℕ × Int) : Prop :=
  place = ((w.strings x).address, (w.strings x).storageLower) ∧
    (w.strings x).storage.Holds place.2 chars ∧
    ((w.strings x).storage.item (place.2 + chars.length) = some 0 ∨ chars.getLast? = some 0)

theorem Sound.givenAt (h : w.Sound) (less : x < w.stringCount) (reaches : ReachesEnd (w.strings x).toFixedString) :
    GivenAt (w.strings x).chars w x ((w.strings x).address, (w.strings x).storageLower) := by
  have readable := h.readable x less
  have ended := h.ended x less
  have count := readable.count_eq
  have lower := readable.lower_nonneg
  have inside := ended.inside
  have null := ended.null
  refine ⟨rfl, readable.holds, ?_⟩
  rcases reaches with followed | ⟨last, positive⟩
  · refine .inl ?_
    rw [NativeArray.item_of_inBounds (by omega), show (w.strings x).storageLower + ((w.strings x).chars.length : Int) =
      (w.strings x).capacity - 1 by omega, null]
  · refine .inr ?_
    obtain ⟨c, read, found⟩ := readable.exists_last positive
    have place : c = (w.strings x).storage.cell _ := FixedString.eq_of_item read
    rw [found, place, ← null, last]

/-- **Copy on write.**  Strings keep their characters, a string is on one list of holders with the strings that
share its storage, and `to_external` of a string that is shared, or whose characters are the last ones of its
storage, gives a place where a null character follows them or ends them. -/
theorem runs_holders (runs : Runs start w) :
    (∀ w', Runs w w' → ∀ x < w.stringCount, (w'.strings x).chars = (w.strings x).chars) ∧
      ∀ x < w.stringCount, HeldOnce w x ∧
        (w.isShared x = true ∨ ReachesEnd (w.strings x).toFixedString →
          Returns (w.toExternal x) fun r => GivenAt (w.strings x).chars r.1 x r.2) := by
  have sound := (runs.sound sound_start).1
  refine ⟨fun w' later => (later.sound sound).2.2, fun x less => ⟨sound.heldOnce less, fun allowed => ?_⟩⟩
  refine (sound.returns_toExternal less).mono fun r ⟨sound', grows, present, place, reaches⟩ => ?_
  have given := sound'.givenAt present (reaches allowed)
  rw [grows.2 x less] at given
  rw [place]
  exact given

end Worlds

/-- Two strings that share a storage. -/
theorem runs_holders_copy : ∃ w, Runs start w ∧ w.isShared 1 = true ∧ HeldOnce w 1 ∧
    Returns (w.toExternal 1) fun r => GivenAt (w.strings 1).chars r.1 1 r.2 := by
  have made := Runs.refl.step (w := start) (.makeFromString (.spelling [97, 98]))
    (NativelyStoredString.readable_spelling _) rfl
  have copied := made.step (.copy 0) Nat.zero_lt_one rfl
  obtain ⟨once, given⟩ := (runs_holders copied).2 1 Nat.one_lt_two
  exact ⟨_, copied, rfl, once, given (.inl rfl)⟩

/-- The storage of a string that ends with a null character has no other one. -/
theorem not_followed_by_null : ¬∀ w, Runs start w → ∀ x < w.stringCount, Returns (w.toExternal x) fun r =>
    (r.1.strings x).storage.item (r.2.2 + (w.strings x).count) = some 0 := by
  intro claim
  have made := Runs.refl.step (w := start) (.makeFromString (.spelling [0]))
    (NativelyStoredString.readable_spelling _) rfl
  obtain ⟨r, run, null⟩ := claim _ made 0 Nat.zero_lt_one
  cases run
  cases null

end HolderWorld

end Liberty
