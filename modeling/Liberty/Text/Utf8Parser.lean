import Liberty.Library.Loops
import Liberty.Text.NativelyStoredString
import Liberty.Text.Utf8Decoding
import Mathlib.Algebra.Group.Int.Defs

/-!
# UTF8_PARSER

The decoder that explains its first error.  It reads the storage of the string from its first
cell on, whatever the `storageLower` of the string.
-/

namespace Liberty

/-- The attributes of a UTF8_PARSER. -/
structure Utf8Parser where
  firstError : Option String
  firstErrorIndex : Int
  firstErrorCharacter : Int

/-- `hexadecimal_digit` -/
def hexadecimalDigit (value : Int) : Char :=
  if value ≤ 9 then Char.ofNat (48 + value.toNat) else Char.ofNat (55 + value.toNat)

/-- `to_hexadecimal_in` of an INTEGER: its eight digits. -/
def toHexadecimal (value : Int) : String :=
  String.ofList ((List.range 8).map fun k => hexadecimalDigit (value / 16 ^ (7 - k) % 16))

namespace Utf8Parser

open UnicodeString

/-! ## The source -/

def invalidFirst : String :=
  "Invalid byte as first character of UTF-8 sequence."

/-- The text of an error at the byte number `number` of a sequence. -/
def invalidSequence (inside : Bool) (number seqLength : Int) : String :=
  (if inside then "Invalid byte in UTF-8 sequence. This character is  number "
    else " Missing character number ") ++
    toString number ++ " in " ++ toString seqLength ++ " bytes sequence."

def overlong : String :=
  "Overlong sequence, must be refused by any UTF-8 complient decoder for security reasons."

def invalidValue (v : Int) : String :=
  "Invalid unicode value: 0x" ++ toHexadecimal v ++ ". Please check unicode charts."

/-- Only the first error is kept. -/
def record (p : Utf8Parser) (text : String) (index character : Int) : Utf8Parser :=
  match p.firstError with
  | some _ => p
  | none => ⟨some text, index, character⟩

/-- The loop over the continuation bytes: the parser, the string, the value, the index and the
number of bytes left. -/
def continuation (storage : NativeArray Character) (maxi seqLength : Int)
    (start : Utf8Parser × UnicodeString × Int × Int × Int) :
    Option (Utf8Parser × UnicodeString × Int × Int × Int) :=
  untilLoop (fun (_, _, _, _, k) => some (decide (k ≤ 1)))
    (fun (p, u, v, i, k) => do
      let continues ←
        (if i ≤ maxi then do
          let code := (← storage.item i).code
          return decide (128 ≤ code ∧ code ≤ 191)
        else some false)
      if continues then
        return (p, u, v * 64 + (← storage.item i).code - 128, i + 1, k - 1)
      else do
        let u ← u.extend 65533
        return (p.record (invalidSequence (decide (i ≤ maxi)) (seqLength - k + 2) seqLength) i u.count,
          u, v, i, 0))
    3 start

/-- The end of a round, where `k` is 1 after a whole sequence. -/
def decodeEnd (seqLength : Int) :
    Utf8Parser × UnicodeString × Int × Int × Int → Option (Utf8Parser × UnicodeString × Int)
  | (p, u, v, i, k) => do
    if k = 1 then
      if v < 128 ∨ v < 2048 ∧ seqLength > 2 ∨ v < 65536 ∧ seqLength > 3 then do
        let u ← u.extend 65533
        return (p.record overlong (i - seqLength + 1) u.count, u, i)
      else if ¬ValidUnicode v then do
        let u ← u.extend 65533
        return (p.record (invalidValue v) (i - seqLength + 1) u.count, u, i)
      else
        return (p, ← u.extend v, i)
    else
      return (p, u, i)

/-- One round of the main loop. -/
def decodeStep (storage : NativeArray Character) (maxi : Int) :
    Utf8Parser × UnicodeString × Int → Option (Utf8Parser × UnicodeString × Int)
  | (p, u, i) => do
    let v := (← storage.item i).code
    let i := i + 1
    let (p, u, v, k) ←
      (if 0 ≤ v ∧ v ≤ 127 then do return (p, ← u.extend v, v, 0)
      else if 192 ≤ v ∧ v ≤ 223 then some (p, u, v - 192, 2)
      else if 224 ≤ v ∧ v ≤ 239 then some (p, u, v - 224, 3)
      else if 240 ≤ v ∧ v ≤ 247 then some (p, u, v - 240, 4)
      else do
        let u ← u.extend 65533
        return (p.record invalidFirst i u.count, u, v, 0))
    decodeEnd k (← continuation storage maxi k (p, u, v, i, k))

def decode (p : Utf8Parser) (utf8String : NativelyStoredString) (unicodeString : UnicodeString) :
    Option (Utf8Parser × UnicodeString) := do
  let maxi := utf8String.count - 1
  let (p, u, _) ← untilLoop (fun (_, _, i) => some (decide (i > maxi)))
    (decodeStep utf8String.storage maxi) utf8String.count.toNat
    ({ p with firstError := none }, unicodeString, (0 : Int))
  return (p, u)

/-! ## In step with `utf8_decode_from` -/

/-- The codes of the first `count` cells of the storage. -/
def leadingCodes (s : NativelyStoredString) : List Int :=
  (List.range s.count.toNat).map fun k : ℕ => (s.storage.cell k).code

/-- The first cells hold the characters of a string that nothing was removed from. -/
theorem leadingCodes_eq_codes {s : NativelyStoredString} (zero : s.storageLower = 0) :
    leadingCodes s = s.codes := by
  unfold leadingCodes NativelyStoredString.codes NativelyStoredString.chars
  rw [List.map_map]
  refine List.map_congr_left fun k _ => ?_
  rw [Function.comp_apply, NativelyStoredString.charAt, zero, Int.zero_add]

/-- Whether no error has been found. -/
def isOk (p : Utf8Parser) : Bool :=
  p.firstError.isNone

/-- The state of `utf8_decode_from` in a round, the indexes of which start at 1. -/
def view : Utf8Parser × UnicodeString × Int → UnicodeString × Bool × Int
  | (p, u, i) => (u, p.isOk, i + 1)

def viewContinuation :
    Utf8Parser × UnicodeString × Int × Int × Int → UnicodeString × Bool × Int × Int × Int
  | (p, u, v, i, k) => (u, p.isOk, v, i + 1, k)

section Simulation

variable {s : NativelyStoredString} {p : Utf8Parser} {u : UnicodeString} {v i k seqLength : Int}

@[simp] theorem isOk_record (p : Utf8Parser) (text : String) (index character : Int) :
    (p.record text index character).isOk = false := by
  unfold isOk record
  split
  · rename_i found
    rw [found]
    rfl
  · rfl

theorem length_leadingCodes (s : NativelyStoredString) : (leadingCodes s).length = s.count.toNat := by
  unfold leadingCodes
  rw [List.length_map, List.length_range]

theorem read_eq (valid : s.Valid) (low : 0 ≤ i) (high : i ≤ s.count - 1) :
    s.storage.item i = some (s.storage.cell i) ∧
      charAt (leadingCodes s) (i + 1) = some (s.storage.cell i).code := by
  have size := valid.size_eq
  have lower := valid.lower_nonneg
  have fits := valid.fits
  have place : i = (i.toNat : ℕ) := by omega
  refine ⟨NativeArray.item_of_inBounds (by omega), ?_⟩
  unfold charAt leadingCodes
  rw [show i + 1 - 1 = i by omega, place, FastArray.item_natCast, List.getElem?_map,
    List.getElem?_range (by omega)]
  rfl

theorem inStep_continuation (valid : s.Valid) (nonneg : 0 ≤ i) :
    InStep viewContinuation (fun t => 0 ≤ t.2.2.2.1)
      (continuation s.storage (s.count - 1) seqLength (p, u, v, i, k))
      (utf8Continuation (leadingCodes s) (viewContinuation (p, u, v, i, k))) := by
  have length := length_leadingCodes s
  refine inStep_untilLoop viewContinuation (fun t => 0 ≤ t.2.2.2.1) ?_ ?_ ?_ 3
  · exact nonneg
  · exact fun _ _ => rfl
  rintro ⟨p, u, v, i, k⟩ low -
  dsimp only [viewContinuation] at low ⊢
  have broken : InStep viewContinuation (fun t => 0 ≤ t.2.2.2.1)
      (do
        let u ← u.extend 65533
        return (p.record (invalidSequence (decide (i ≤ s.count - 1)) (seqLength - k + 2) seqLength) i
          u.count, u, v, i, (0 : Int)))
      (do return (← u.extend 65533, false, v, i + 1, (0 : Int))) := by
    cases u.extend 65533 with
    | none => exact .none
    | some w =>
      exact .some (congrArg (fun ok => (w, ok, v, i + 1, (0 : Int))) (isOk_record p _ _ _)) low
  by_cases inside : i ≤ s.count - 1
  · obtain ⟨read, read'⟩ := read_eq valid low inside
    rw [if_pos inside, if_pos (by omega), read, read', Returns.some_bind, Returns.some_bind,
      Option.pure_def, Returns.some_bind, Returns.some_bind, Returns.some_bind]
    by_cases range : 128 ≤ (s.storage.cell i).code ∧ (s.storage.cell i).code ≤ 191
    · rw [if_pos (decide_eq_true range), if_pos (decide_eq_true range)]
      exact .some rfl (by dsimp only; omega)
    · rw [if_neg (by rw [decide_eq_false range]; exact Bool.false_ne_true),
        if_neg (by rw [decide_eq_false range]; exact Bool.false_ne_true)]
      exact broken
  · rw [if_neg inside, if_neg (by omega), Returns.some_bind, Returns.some_bind,
      if_neg Bool.false_ne_true, if_neg Bool.false_ne_true]
    exact broken

theorem inStep_decodeEnd (low : 0 ≤ i) :
    InStep view (fun t => 0 ≤ t.2.2) (decodeEnd seqLength (p, u, v, i, k))
      (utf8DecodeEnd seqLength (viewContinuation (p, u, v, i, k))) := by
  have broken : ∀ (text : String) (index : Int), InStep view (fun t => 0 ≤ t.2.2)
      (do
        let u ← u.extend 65533
        return (p.record text index u.count, u, i))
      (do return (← u.extend 65533, false, i + 1)) := by
    intro text index
    cases u.extend 65533 with
    | none => exact .none
    | some w => exact .some (congrArg (fun ok => (w, ok, i + 1)) (isOk_record p _ _ _)) low
  unfold decodeEnd utf8DecodeEnd
  dsimp only [viewContinuation]
  split
  · split
    · exact broken _ _
    · split
      · exact broken _ _
      · cases u.extend v with
        | none => exact .none
        | some w => exact .some rfl low
  · exact .some rfl low

/-- A sequence of several bytes, or what is left of a round after its only byte. -/
theorem inStep_sequence (valid : s.Valid) (p : Utf8Parser) (u : UnicodeString) (v k : Int)
    (low : 0 ≤ i) :
    InStep view (fun t => 0 ≤ t.2.2)
      (do decodeEnd k (← continuation s.storage (s.count - 1) k (p, u, v, i, k)))
      (do utf8DecodeEnd k (← utf8Continuation (leadingCodes s) (u, p.isOk, v, i + 1, k))) := by
  have loops : InStep viewContinuation (fun t => 0 ≤ t.2.2.2.1)
      (continuation s.storage (s.count - 1) k (p, u, v, i, k))
      (utf8Continuation (leadingCodes s) (viewContinuation (p, u, v, i, k))) :=
    inStep_continuation valid low
  obtain ⟨same, kept⟩ := loops
  dsimp only [viewContinuation] at same
  rw [← same]
  cases run : continuation s.storage (s.count - 1) k (p, u, v, i, k) with
  | none => exact .none
  | some t =>
    exact inStep_decodeEnd (kept _ run)

theorem inStep_decodeStep (valid : s.Valid) (low : 0 ≤ i) (high : i ≤ s.count - 1) :
    InStep view (fun t => 0 ≤ t.2.2) (decodeStep s.storage (s.count - 1) (p, u, i))
      (utf8DecodeStep (leadingCodes s) (view (p, u, i))) := by
  obtain ⟨read, read'⟩ := read_eq valid low high
  have next : 0 ≤ i + 1 := by omega
  unfold decodeStep utf8DecodeStep
  dsimp only [view]
  rw [read, read', Returns.some_bind, Returns.some_bind]
  generalize (s.storage.cell i).code = v
  split
  · cases u.extend v with
    | none => exact .none
    | some w => exact inStep_sequence valid p w v 0 next
  · split
    · exact inStep_sequence valid p u (v - 192) 2 next
    · split
      · exact inStep_sequence valid p u (v - 224) 3 next
      · split
        · exact inStep_sequence valid p u (v - 240) 4 next
        · cases u.extend 65533 with
          | none => exact .none
          | some w =>
            have after := inStep_sequence valid (p.record invalidFirst (i + 1) w.count) w v 0 next
            rw [isOk_record] at after
            exact after

/-- The parser decodes the first cells of the storage as `utf8_decode_from` does. -/
theorem decode_eq (valid : s.Valid) (p : Utf8Parser) (u : UnicodeString) :
    (p.decode s u).map (fun t => (t.2, t.1.isOk)) = u.utf8DecodeFrom (leadingCodes s) := by
  have length := length_leadingCodes s
  have count := valid.count_nonneg
  have loops : InStep view (fun t => 0 ≤ t.2.2)
      (untilLoop (fun t => some (decide (t.2.2 > s.count - 1)))
        (decodeStep s.storage (s.count - 1)) s.count.toNat
        ({ p with firstError := none }, u, (0 : Int)))
      (untilLoop (fun t => some (decide (t.2.2 > (s.count.toNat : Int))))
        (utf8DecodeStep (leadingCodes s)) s.count.toNat (u, true, (1 : Int))) := by
    refine inStep_untilLoop view (fun t => 0 ≤ t.2.2) (Int.le_refl _) ?_ ?_ s.count.toNat
    · rintro ⟨p, u, i⟩ -
      refine congrArg some (decide_eq_decide.mpr ?_)
      change i > s.count - 1 ↔ i + 1 > (s.count.toNat : Int)
      omega
    · rintro ⟨p, u, i⟩ low going
      have inside : ¬i > s.count - 1 := of_decide_eq_false (Option.some.inj going)
      exact inStep_decodeStep valid low (by omega)
  unfold decode utf8DecodeFrom
  dsimp only
  rw [length, ← loops.1]
  cases untilLoop (fun t => some (decide (t.2.2 > s.count - 1)))
      (decodeStep s.storage (s.count - 1)) s.count.toNat
      ({ p with firstError := none }, u, (0 : Int)) with
  | none => rfl
  | some t => rfl

end Simulation

/-- **The two decoders agree** on a string when and only when the first cells of its storage
hold its own characters, or neither these cells nor its characters are UTF-8.  Then both report
it as invalid, or both extend the Unicode string by the same code points. -/
theorem decode_sameDecoding_iff (p : Utf8Parser) {s : NativelyStoredString} (valid : s.Valid)
    {u : UnicodeString} (validU : UnicodeString.Valid u) :
    ∃ t t', p.decode s u = some t ∧ u.utf8DecodeFrom s.codes = some t' ∧
      (SameDecoding (t.2, t.1.isOk) t' ↔
        leadingCodes s = s.codes ∨ ¬IsUtf8 (leadingCodes s) ∧ ¬IsUtf8 s.codes) := by
  have room : u.Room := ⟨validU.size_eq, validU.count_nonneg, validU.count_le⟩
  have run := decode_eq valid p u
  obtain ⟨r, decoded, -⟩ := returns_utf8DecodeFrom_any room (leadingCodes s)
  obtain ⟨t', decoded', -⟩ := returns_utf8DecodeFrom_any room s.codes
  rw [decoded] at run
  obtain ⟨t, parsed, seen⟩ := Option.map_eq_some_iff.mp run
  refine ⟨t, t', parsed, decoded', ?_⟩
  rw [seen]
  exact sameDecoding_iff room decoded decoded'

/-- The two bytes of U+00E9. -/
def acute : NativelyStoredString where
  storage := ⟨2, fun i => if i = 0 then 0xC3 else 0xA9⟩
  isNull := false
  storageLower := 0
  count := 2
  capacity := 2

/-- The string `a` that is left when the byte 128 before it is removed by `remove_first`. -/
def shifted : NativelyStoredString where
  storage := ⟨2, fun i => if i = 0 then 128 else 97⟩
  isNull := false
  storageLower := 1
  count := 1
  capacity := 2

theorem decode_sameDecoding_acute :
    ∃ t t', (⟨none, 0, 0⟩ : Utf8Parser).decode acute (blank.make 2) = some t ∧
      (blank.make 2).utf8DecodeFrom acute.codes = some t' ∧ SameDecoding (t.2, t.1.isOk) t' := by
  have empty : UnicodeString.Valid (blank.make 2) :=
    valid_iff.mpr ⟨[], represents_make (show (0 : Int) ≤ 2 by decide)⟩
  have valid : acute.Valid := ⟨rfl, nofun, by decide, by decide, by decide⟩
  obtain ⟨t, t', run, run', same⟩ := decode_sameDecoding_iff ⟨none, 0, 0⟩ valid empty
  exact ⟨t, t', run, run', same.mpr (.inl (leadingCodes_eq_codes rfl))⟩

/-- The parser reports the string `a` as invalid, and `utf8_decode_from` decodes it. -/
theorem not_decode_sameDecoding :
    ¬∀ (p : Utf8Parser) (s : NativelyStoredString), s.Valid → ∀ u : UnicodeString,
      UnicodeString.Valid u → ∃ t t', p.decode s u = some t ∧
        u.utf8DecodeFrom s.codes = some t' ∧ SameDecoding (t.2, t.1.isOk) t' := by
  intro claim
  have empty : UnicodeString.Valid (blank.make 1) :=
    valid_iff.mpr ⟨[], represents_make (show (0 : Int) ≤ 1 by decide)⟩
  have valid : shifted.Valid := ⟨rfl, nofun, by decide, by decide, by decide⟩
  obtain ⟨t, t', run, run', same⟩ := claim ⟨none, 0, 0⟩ shifted valid (blank.make 1) empty
  have wrong : ((⟨none, 0, 0⟩ : Utf8Parser).decode shifted (blank.make 1)).map (·.1.isOk) =
    some false := rfl
  have right : ((blank.make 1).utf8DecodeFrom shifted.codes).map (·.2) = some true := rfl
  rw [run] at wrong
  rw [run'] at right
  have invalid : t.1.isOk = false := Option.some.inj wrong
  have ok : t'.2 = true := Option.some.inj right
  rcases same with ⟨-, invalid'⟩ | ⟨ok', -, -⟩
  · exact Bool.false_ne_true (invalid'.symm.trans ok)
  · exact Bool.false_ne_true (invalid.symm.trans ok')

end Utf8Parser

end Liberty
