import Liberty.Text.AbstractString
import Liberty.Text.StringRuns

/-!
# STRINGs and FIXED_STRINGs of a program

The FIXED_STRINGs that come from one another by `substring` or `twin` share one storage, which
nobody writes into.  A STRING keeps its storage for itself.
-/

namespace Liberty

/-! ## The source -/

/-- CHARACTER's `same_as`: no difference between upper and lower case. -/
def Character.sameAs (c other : Character) : Bool :=
  if c = other then true
  else if 65 ≤ c.code ∧ c.code ≤ 90 then decide (c.code = other.code - 32)
  else if 97 ≤ c.code ∧ c.code ≤ 122 then decide (c.code = other.code + 32)
  else false

namespace NativelyStoredString

/-- The direct comparison of `is_equal` and `same_as`; `same` is `storage = nss.storage`. -/
def directEqual (same : Bool) (s nss : NativelyStoredString) : Option Bool :=
  if s.count = nss.count then
    if same then some true
    else s.storage.sliceFastMemcmp s.storageLower nss.storage nss.storageLower
      (nss.storageLower + s.count - 1)
  else some false

/-- `same_as`, for a string of the same kind -/
def sameAs (same : Bool) (s nss : NativelyStoredString) : Option Bool := do
  if ← directEqual same s nss then return true
  else
    allUp (fun i => do return Character.sameAs (← s.item i) (← nss.item i))
      (decide (s.count = nss.count)) 1 s.count

end NativelyStoredString

namespace FixedString

/-- `make_from_string`; the storage is a new one. -/
def makeFromString (address : ℕ) (model : NativelyStoredString) : Option FixedString := do
  let newCount := model.count
  let endsWithNull ← (if newCount > 0 then do return decide ((← model.last) = 0) else some false)
  let newCapacity := if endsWithNull then newCount else newCount + 1
  let storage : NativeArray Character := .calloc newCapacity
  let storage ←
    (if newCount > 0 then
      storage.sliceCopy 0 model.storage model.storageLower (model.storageLower + model.count - 1)
    else some storage)
  let storage ← (if endsWithNull then some storage else storage.put 0 newCount)
  let result : NativelyStoredString :=
    { storage := storage, isNull := false, storageLower := 0, count := newCount,
      capacity := newCapacity }
  return { toNativelyStoredString := result, address := address,
           hashCode := ← computedHashCode result.item newCount }

end FixedString

/-- The variables of type STRING and the FIXED_STRING objects, numbered as they were created;
`interned` is the dictionary of the interned ones by their hash code. -/
structure StringWorld where
  strings : ℕ → NativelyStoredString
  fixed : ℕ → FixedString
  fixedCount : ℕ
  interned : Int → Option (List ℕ)
  isInterned : ℕ → Bool

/-- A reference to a string: a STRING, a FIXED_STRING or a ROPE. -/
inductive Text
  | string (n : ℕ)
  | fixed (k : ℕ)
  | rope (left right : Text)

namespace StringWorld

def value (w : StringWorld) : Text → AbstractString
  | .string n => .string (w.strings n)
  | .fixed k => .fixed (w.fixed k)
  | .rope left right => .rope (w.value left) (w.value right)

/-- `nss ?:= other` -/
def native (w : StringWorld) : Text → Option NativelyStoredString
  | .string n => some (w.strings n)
  | .fixed k => some (w.fixed k).toNativelyStoredString
  | .rope _ _ => none

/-- `storage = nss.storage` -/
def sameStorage (w : StringWorld) : Text → Text → Bool
  | .string m, .string n => decide (m = n) || (w.strings m).isNull && (w.strings n).isNull
  | .fixed j, .fixed k => decide ((w.fixed j).address = (w.fixed k).address)
  | _, _ => false

def isEqual (w : StringWorld) (a other : Text) : Option Bool :=
  match w.native a, w.native other with
  | some s, some nss => s.directEqual (w.sameStorage a other) nss
  | some s, none =>
    allUp (fun i => do return decide ((← s.item i) = (← (w.value other).item i)))
      (decide (s.count = (w.value other).count)) 1 s.count
  | none, _ =>
    -- `same_as` of ROPE
    allUp (fun i => do return decide ((← (w.value a).item i) = (← (w.value other).item i)))
      true 1 (min (w.value a).count (w.value other).count)

/-- A new FIXED_STRING. -/
def addFixed (w : StringWorld) (f : FixedString) : StringWorld :=
  { w with
    fixed := Function.update w.fixed w.fixedCount f
    fixedCount := w.fixedCount + 1 }

/-! ## Interning -/

/-- `interned.reference_at(hash_code)`, after `interned.add` when it was Void -/
def listOf (w : StringWorld) (hashCode : Int) : List ℕ :=
  (w.interned hashCode).getD []

def setList (w : StringWorld) (hashCode : Int) (strings : List ℕ) : StringWorld :=
  { w with interned := Function.update w.interned hashCode (some strings) }

/-- `do_intern` -/
def doIntern (w : StringWorld) (k : ℕ) (strings : List ℕ) : StringWorld :=
  { w.setList (w.fixed k).hashCode (strings ++ [k]) with
    isInterned := Function.update w.isInterned k true }

/-- `strings.first_index_of(Current)` -/
def firstIndexOf (w : StringWorld) (k : ℕ) (strings : List ℕ) : Option Int :=
  scanUp (fun i => do
    let j ← strings[i.toNat]?
    if k = j then return true else w.isEqual (.fixed k) (.fixed j)) 0 (strings.length - 1)

/-- `intern` of FIXED_STRING -/
def internFixed (w : StringWorld) (k : ℕ) : Option (ℕ × StringWorld) :=
  if w.isInterned k then some (k, w)
  else do
    let hashCode := (w.fixed k).hashCode
    let strings := w.listOf hashCode
    let w := w.setList hashCode strings
    let i ← w.firstIndexOf k strings
    if i < strings.length then return (← strings[i.toNat]?, w)
    else return (k, w.doIntern k strings)

/-- `intern` of STRING -/
def internString (w : StringWorld) (n : ℕ) : Option (ℕ × StringWorld) := do
  let current := w.strings n
  let hashCode ← computedHashCode current.item current.count
  let strings := w.listOf hashCode
  let w := w.setList hashCode strings
  let result ← findUp (fun i => do
    let j ← strings[i.toNat]?
    if ← (w.fixed j).sameAs false current then return some j else return none) 0 (strings.length - 1)
  match result with
  | some j => return (j, w)
  | none =>
    let f ← FixedString.makeFromString w.fixedCount current
    let k := w.fixedCount
    return (k, (w.addFixed f).doIntern k strings)

/-! ## Programs -/

inductive Operation
  | createString (n : ℕ) (creation : NativelyStoredString.Creation)
  | changeString (n : ℕ) (command : NativelyStoredString.Command)
  | makeFromString (n : ℕ)
  | twin (k : ℕ)
  | substring (k : ℕ) (startIndex endIndex : Int)

/-- The FIXED_STRINGs are there, the preconditions hold, and a command of STRING is of the kinds
that do what they say. -/
def Operation.Allowed (w : StringWorld) : Operation → Prop
  | createString _ creation => creation.Allowed
  | changeString n command => command.Allowed w.strings n ∧ command.Meets w.strings n
  | makeFromString _ => True
  | twin k => k < w.fixedCount
  | substring k startIndex endIndex =>
    k < w.fixedCount ∧ 1 ≤ startIndex ∧ endIndex ≤ (w.fixed k).count ∧ startIndex ≤ endIndex + 1

def Operation.execute (w : StringWorld) : Operation → Option StringWorld
  | createString n creation => do
      return { w with strings := Function.update w.strings n (← creation.execute w.strings) }
  | changeString n command => do
      return { w with strings := Function.update w.strings n (← command.execute w.strings n) }
  | makeFromString n => do return w.addFixed (← FixedString.makeFromString w.fixedCount (w.strings n))
  | twin k => some (w.addFixed (w.fixed k))
  | substring k startIndex endIndex => do
      return w.addFixed (← (w.fixed k).substring startIndex endIndex)

/-- A request to intern. -/
inductive Request
  | string (n : ℕ)
  | fixed (k : ℕ)

def Request.Allowed (w : StringWorld) : Request → Prop
  | string _ => True
  | fixed k => k < w.fixedCount

def intern (w : StringWorld) : Request → Option (ℕ × StringWorld)
  | .string n => w.internString n
  | .fixed k => w.internFixed k

/-- The characters of the string to intern. -/
def requested (w : StringWorld) : Request → List Character
  | .string n => (w.strings n).chars
  | .fixed k => (w.fixed k).chars

def start : StringWorld where
  strings _ := .blank
  fixed _ := { toNativelyStoredString := .blank, address := 0, hashCode := 0 }
  fixedCount := 0
  interned _ := none
  isInterned _ := false

/-- The states of a program, with the requests so far and their answers; `P` tells which requests
are made. -/
inductive Reaches (P : StringWorld → Request → Prop) : StringWorld → List (List Character × ℕ) → Prop
  | start : Reaches P start []
  | operation {w w' : StringWorld} {history : List (List Character × ℕ)} (operation : Operation)
      (before : Reaches P w history) (allowed : operation.Allowed w)
      (run : operation.execute w = some w') : Reaches P w' history
  | request {w w' : StringWorld} {history : List (List Character × ℕ)} {answer : ℕ} (request : Request)
      (before : Reaches P w history) (allowed : request.Allowed w) (meets : P w request)
      (run : w.intern request = some (answer, w')) :
      Reaches P w' ((w.requested request, answer) :: history)

end StringWorld

/-! ## Validity -/

theorem NativelyStoredString.blank_valid : NativelyStoredString.blank.Valid :=
  NativelyStoredString.represents_blank.valid

/-- The end of `make_from_string`: a storage with the characters at its beginning. -/
theorem FixedString.returns_finish {s : NativelyStoredString} {xs : List Character} (address : ℕ)
    (count : s.count = xs.length) (holds : s.storage.Holds s.storageLower xs) :
    Returns (do
      return { toNativelyStoredString := s, address := address,
               hashCode := ← computedHashCode s.item s.count : FixedString }) fun f =>
      f.Readable ∧ f.chars = xs ∧ f.address = address ∧ f.hashCode = hashOf f.chars := by
  obtain ⟨readable, characters⟩ := NativelyStoredString.readable_of_holds count holds
  rw [readable.spells.computedHashCode_eq, Returns.some_bind, Returns.pure_iff]
  exact ⟨readable, characters, rfl, rfl⟩

theorem FixedString.returns_makeFromString {model : NativelyStoredString} (h : model.Readable)
    (address : ℕ) :
    Returns (makeFromString address model) fun f => f.Readable ∧ f.chars = model.chars ∧
      f.address = address ∧ f.hashCode = hashOf f.chars := by
  have count := h.count_eq
  have low := h.lower_nonneg
  have fits := h.fits
  have holds := h.holds
  unfold makeFromString
  by_cases positive : model.count > 0
  · obtain ⟨c, last, -⟩ := h.exists_last positive
    simp only [if_pos positive]
    rw [last]
    change Returns ((NativeArray.sliceCopy (NativeArray.calloc
      (if decide (c = 0) then model.count else model.count + 1)) _ _ _ _) >>= _) _
    rw [Returns.bind_iff]
    refine NativeArray.returns_sliceCopy (fun inside => ?_) fun storage size copied kept => ?_
    · rw [NativeArray.size_calloc]
      omega
    · rw [NativeArray.size_calloc] at size
      have copy : storage.Holds 0 model.chars := by
        refine ⟨Int.le_refl 0, by omega, holds.segment.copied fun i from_zero less => ?_⟩
        rw [copied _ (by omega) (by omega)]
        congr 1
        omega
      by_cases null : c = 0
      · rw [if_pos (decide_eq_true null)]
        exact returns_finish address count copy
      · rw [if_neg fun same => null (of_decide_eq_true same)] at size ⊢
        refine Returns.bind (NativeArray.returns_put.mpr
          ⟨by omega, (rfl : storage.set 0 model.count = storage.set 0 model.count)⟩) fun s same => ?_
        subst same
        refine returns_finish address count ⟨copy.low, by rw [NativeArray.size_set]; exact copy.high,
          copy.segment.congr fun i _ less => ?_⟩
        exact NativeArray.cell_set_of_ne _ _ (by omega)
  · have zero : model.count = 0 := by omega
    have none : model.chars = [] := List.length_eq_zero_iff.mp (by omega)
    rw [zero, none]
    exact returns_finish (s := ⟨(NativeArray.calloc 1).set 0 0, false, 0, 0, 1⟩) address rfl
      ⟨Int.le_refl 0, show (0 : Int) ≤ 1 by decide, segment_nil⟩

namespace StringWorld

/-- The characters of a text. -/
def chars (w : StringWorld) (a : Text) : List Character :=
  (w.value a).chars

/-- The FIXED_STRINGs of a text are there. -/
def Exists (w : StringWorld) : Text → Prop
  | .string _ => True
  | .fixed k => k < w.fixedCount
  | .rope left right => w.Exists left ∧ w.Exists right

/-- Strings are in their storages, the hash codes are right, and one address means one storage. -/
structure Valid (w : StringWorld) : Prop where
  strings : ∀ n, (w.strings n).Valid
  fixed : ∀ k, k < w.fixedCount → (w.fixed k).Readable
  hash : ∀ k, k < w.fixedCount → (w.fixed k).hashCode = hashOf (w.fixed k).chars
  address : ∀ k, k < w.fixedCount → (w.fixed k).address < w.fixedCount
  shared : ∀ j k, j < w.fixedCount → k < w.fixedCount →
    (w.fixed j).address = (w.fixed k).address → (w.fixed j).storage = (w.fixed k).storage

section Worlds

variable {w w' : StringWorld} {f : FixedString} {k : ℕ} {a : Text}

theorem Valid.readable (h : w.Valid) (present : w.Exists a) : (w.value a).Readable := by
  induction a with
  | string n => exact (h.strings n).readable
  | fixed k => exact h.fixed k present
  | rope left right leftIh rightIh => exact ⟨leftIh present.1, rightIh present.2⟩

theorem start_valid : start.Valid :=
  have none : ∀ {P : Prop} {k : ℕ}, k < 0 → P := fun less => absurd less (Nat.not_lt_zero _)
  ⟨fun _ => NativelyStoredString.blank_valid, fun _ => none, fun _ => none, fun _ => none,
    fun _ _ => none⟩

@[simp] theorem addFixed_self : (w.addFixed f).fixed w.fixedCount = f :=
  Function.update_self _ _ _

theorem addFixed_of_lt (less : k < w.fixedCount) : (w.addFixed f).fixed k = w.fixed k :=
  Function.update_of_ne (Nat.ne_of_lt less) _ _

/-- A new FIXED_STRING has a storage of its own, or one that there is already. -/
theorem Valid.addFixed (h : w.Valid) (readable : f.Readable) (hash : f.hashCode = hashOf f.chars)
    (address : f.address = w.fixedCount ∨ ∃ k, k < w.fixedCount ∧ f.address = (w.fixed k).address ∧
      f.storage = (w.fixed k).storage) : (w.addFixed f).Valid := by
  have split : ∀ j, j < w.fixedCount + 1 → j < w.fixedCount ∨ j = w.fixedCount := fun j less => by omega
  have new : ∀ j, j < w.fixedCount → f.address = (w.fixed j).address → f.storage = (w.fixed j).storage := by
    intro j less same
    rcases address with own | ⟨k, lessK, sameK, storage⟩
    · have := h.address j less
      omega
    · rw [storage]
      exact h.shared k j lessK less (sameK.symm.trans same)
  refine ⟨h.strings, fun j less => ?_, fun j less => ?_, fun j less => ?_, fun i j lessI lessJ same => ?_⟩
  · rcases split j less with old | rfl
    · rw [addFixed_of_lt old]
      exact h.fixed j old
    · rw [addFixed_self]
      exact readable
  · rcases split j less with old | rfl
    · rw [addFixed_of_lt old]
      exact h.hash j old
    · rw [addFixed_self]
      exact hash
  · change _ < w.fixedCount + 1
    rcases split j less with old | rfl
    · rw [addFixed_of_lt old]
      have := h.address j old
      omega
    · rw [addFixed_self]
      rcases address with own | ⟨k, lessK, sameK, -⟩
      · omega
      · have := h.address k lessK
        omega
  · rcases split i lessI with oldI | rfl
    · rcases split j lessJ with oldJ | rfl
      · rw [addFixed_of_lt oldI, addFixed_of_lt oldJ] at same ⊢
        exact h.shared i j oldI oldJ same
      · rw [addFixed_of_lt oldI, addFixed_self] at same ⊢
        exact (new i oldI same.symm).symm
    · rcases split j lessJ with oldJ | rfl
      · rw [addFixed_of_lt oldJ, addFixed_self] at same ⊢
        exact new j oldJ same
      · rfl

theorem Valid.setList (h : w.Valid) (hashCode : Int) (strings : List ℕ) :
    (w.setList hashCode strings).Valid :=
  ⟨h.strings, h.fixed, h.hash, h.address, h.shared⟩

theorem Valid.doIntern (h : w.Valid) (k : ℕ) (strings : List ℕ) : (w.doIntern k strings).Valid :=
  ⟨h.strings, h.fixed, h.hash, h.address, h.shared⟩

theorem Valid.setString (h : w.Valid) {d : NativelyStoredString} (n : ℕ) (valid : d.Valid) :
    { w with strings := Function.update w.strings n d : StringWorld }.Valid := by
  refine ⟨fun m => ?_, h.fixed, h.hash, h.address, h.shared⟩
  dsimp only
  by_cases same : m = n
  · rw [same, Function.update_self]
    exact valid
  · rw [Function.update_of_ne same]
    exact h.strings m

theorem Valid.execute (h : w.Valid) {operation : Operation} (allowed : operation.Allowed w) :
    Returns (operation.execute w) Valid := by
  have represents : ∀ n, NativelyStoredString.Represents (w.strings n) (w.strings n).chars :=
    fun n => NativelyStoredString.represents_chars (h.strings n)
  cases operation with
  | createString n creation =>
    have run := NativelyStoredString.Creation.returns_execute represents creation allowed
    exact run.bind fun d made => Returns.pure_iff.mpr (h.setString n made.valid)
  | changeString n command =>
    have run := NativelyStoredString.Command.returns_execute represents allowed.1 allowed.2
    exact run.bind fun d made => Returns.pure_iff.mpr (h.setString n made.valid)
  | makeFromString n =>
    have run := FixedString.returns_makeFromString (h.strings n).readable w.fixedCount
    exact run.bind fun f ⟨readable, _, address, hash⟩ =>
      Returns.pure_iff.mpr (h.addFixed readable hash (.inl address))
  | twin k =>
    exact Returns.some_iff.mpr
      (h.addFixed (h.fixed k allowed) (h.hash k allowed) (.inr ⟨k, allowed, rfl, rfl⟩))
  | substring k i j =>
    obtain ⟨present, low, high, interval⟩ := allowed
    have run := FixedString.returns_substring (h.fixed k present) low high interval
    exact run.bind fun f ⟨readable, _, address, storage, hash⟩ =>
      Returns.pure_iff.mpr (h.addFixed readable hash (.inr ⟨k, present, address, storage⟩))

theorem Valid.internFixed (h : w.Valid) {answer : ℕ} (run : w.internFixed k = some (answer, w')) :
    w'.Valid := by
  unfold StringWorld.internFixed at run
  split at run
  · cases run
    exact h
  · obtain ⟨i, -, rest⟩ := Option.bind_eq_some_iff.mp run
    split at rest
    · obtain ⟨j, -, done⟩ := Option.bind_eq_some_iff.mp rest
      cases done
      exact h.setList _ _
    · cases rest
      exact (h.setList _ _).doIntern _ _

theorem Valid.internString (h : w.Valid) {n answer : ℕ} (run : w.internString n = some (answer, w')) :
    w'.Valid := by
  obtain ⟨hashCode, -, rest⟩ := Option.bind_eq_some_iff.mp run
  obtain ⟨result, -, found⟩ := Option.bind_eq_some_iff.mp rest
  cases result with
  | some j =>
    cases found
    exact h.setList _ _
  | none =>
    obtain ⟨f, made, done⟩ := Option.bind_eq_some_iff.mp found
    cases done
    obtain ⟨readable, -, address, hash⟩ :=
      (FixedString.returns_makeFromString (h.strings n).readable w.fixedCount).unique made
    exact ((h.setList _ _).addFixed readable hash (.inl address)).doIntern _ _

theorem Reaches.valid {P : StringWorld → Request → Prop} {history : List (List Character × ℕ)}
    (reached : Reaches P w history) : w.Valid := by
  induction reached with
  | start => exact start_valid
  | operation operation before allowed run ih => exact (ih.execute allowed).unique run
  | request request before allowed meets run ih =>
    cases request with
    | string n => exact ih.internString run
    | fixed k => exact ih.internFixed run

end Worlds

end StringWorld

end Liberty
