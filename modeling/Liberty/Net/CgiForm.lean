import Liberty.Io.PathVariables
import Liberty.Io.QuotedPrintable
import Liberty.Json.JsonParser
import Liberty.Storage.HashedDictionaryRuns
import Liberty.Text.AbstractString

/-!
# CGI_FORM

The parser of forms is a machine of four states over the characters of its stream.  Its key is never
decoded, a `+` is no blank for it, its escapes are INTEGER_8 numbers, and a field goes to the dictionary
with `add`, which must not know its key yet.  `Harmful` tells the texts that make it break a precondition.
-/

namespace Liberty

/-! ## Keys -/

theorem hashStep_range (result : Int) (c : Character) :
    -2147483648 ≤ hashStep result c ∧ hashStep result c ≤ 2147483647 := by
  unfold hashStep
  generalize wrap32 (5 * result) + c.code = n
  unfold wrap32
  rw [Int.bmod_def]
  split <;> omega

theorem hashOf_range (s : List Character) : 0 ≤ hashOf s ∧ hashOf s < 2 ^ 31 := by
  have range : -2147483648 ≤ s.foldl hashStep 0 ∧ s.foldl hashStep 0 ≤ 2147483647 := by
    cases s.eq_nil_or_concat with
    | inl empty => rw [empty]; decide
    | inr last =>
      obtain ⟨t, c, rfl⟩ := last
      rw [List.concat_eq_append, List.foldl_append]
      exact hashStep_range _ c
  unfold hashOf hashEnd
  split
  case isTrue negative =>
      cases code : s.foldl hashStep 0 with
      | ofNat n =>
        rw [code] at negative
        exact absurd negative (Int.natCast_nonneg n).not_gt
      | negSucc n =>
        rw [code] at range
        change 0 ≤ (n : Int) ∧ (n : Int) < 2 ^ 31
        omega
  case isFalse positive => omega

/-- FIXED_STRING keys, compared by their characters. -/
instance : HashedKey (List Character) where
  safeEqual k l := k == l
  hashCode := hashOf
  safeEqual_refl k := beq_self_eq_true k
  safeEqual_symm same := by rw [beq_iff_eq] at same ⊢; exact same.symm
  safeEqual_trans same same' := by rw [beq_iff_eq] at same same' ⊢; exact same.trans same'
  hashCode_eq same := by rw [beq_iff_eq] at same; rw [same]
  hashCode_nonneg k := (hashOf_range k).1
  hashCode_lt k := (hashOf_range k).2

theorem keyClass_characters {k l : List Character} : keyClass k = keyClass l ↔ k = l := by
  rw [keyClass_eq]
  exact beq_iff_eq

/-! ## The machine -/

abbrev FormDictionary : Type :=
  HashedDictionary (List Character) (List Character)

/-- `form_memory` and the local variables of `parse`. -/
structure CgiForm where
  formMemory : FormDictionary
  key : List Character
  value : List Character
  state : Int
  escape : Int

namespace CgiForm

open JsonParser (isHexadecimalDigit hexadecimalValue)

def ampersand : Character := '&'.toUInt8
def newLine : Character := '\n'.toUInt8
def percent : Character := '%'.toUInt8
def equal : Character := '='.toUInt8
def blank : Character := ' '.toUInt8
def plus : Character := '+'.toUInt8

/-- `form_memory.add`, with its precondition. -/
def addTo (d : FormDictionary) (field : List Character × List Character) : Option FormDictionary := do
  if ← d.has safeEqual field.1 then none else d.add field.2 field.1

/-- The branches of the loop. -/
def step (s : CgiForm) (c : Character) : Option CgiForm :=
  if s.state = 0 then
    if c = equal then some { s with state := 1, value := [] }
    else some { s with key := s.key ++ [c] }
  else if s.state = 1 then
    if c = ampersand ∨ c = newLine then do
      return { s with formMemory := ← addTo s.formMemory (s.key, s.value), state := 0, key := [] }
    else if c = percent then some { s with state := 2 }
    else some { s with value := s.value ++ [c] }
  else if s.state = 2 then
    if isHexadecimalDigit c then some { s with escape := hexadecimalValue c, state := 3 }
    else some { s with state := -1 }
  else if s.state = 3 then
    if isHexadecimalDigit c then do
      let escape ← checked 8 ((← checked 8 (s.escape * 16)) + hexadecimalValue c)
      return { s with escape, value := s.value ++ [UInt8.ofNat escape.toNat], state := 1 }
    else some { s with state := -1 }
  else none

/-- The loop, over the characters that the stream still has. -/
def parseLoop : List Character → CgiForm → Option CgiForm
  | [], s => some s
  | c :: rest, s => if s.state < 0 then some s else do parseLoop rest (← s.step c)

/-- What `parse` does from a state of its loop on. -/
def parseFrom (stream : List Character) (s : CgiForm) : Option FormDictionary := do
  let s ← parseLoop stream s
  if s.state > 0 then addTo s.formMemory (s.key, s.value) else return s.formMemory

def parse (heap : NodeHeap (HashedDictionary.Node (List Character) (List Character)))
    (stream : List Character) : Option FormDictionary :=
  parseFrom stream ⟨.make heap, [], [], 0, 0⟩

/-! ## The dictionary -/

/-- The dictionary holds the fields, whose keys are distinct. -/
def Holds (others : Set ℕ) (d : FormDictionary) (fields : List (List Character × List Character)) : Prop :=
  (fields.map Prod.fst).Nodup ∧
    ∃ m, HashedDictionary.Represents others d m ∧ ∀ k, m.lookup (keyClass k) = fields.lookup k

/-- What the form answers for each key. -/
def Answers (d : FormDictionary) (fields : List (List Character × List Character)) : Prop :=
  ∀ k, d.referenceAt safeEqual k = some (fields.lookup k)

variable {others : Set ℕ} {d : FormDictionary} {fields : List (List Character × List Character)}
  {field : List Character × List Character}

theorem Holds.answers (h : Holds others d fields) : Answers d fields := by
  obtain ⟨-, m, represents, lookup⟩ := h
  intro k
  rw [represents.referenceAt_eq (fun _ _ => rfl), lookup]

theorem mem_iff_of_lookup {m : FiniteMap (List Character) (List Character)}
    (lookup : ∀ k, m.lookup (keyClass k) = fields.lookup k) (k : List Character) :
    keyClass k ∈ m ↔ k ∈ fields.map Prod.fst := by
  rw [← Finmap.lookup_isSome, lookup, List.lookup_isSome_iff, List.mem_map]
  constructor
  · intro ⟨p, member, same⟩
    exact ⟨p, member, (beq_iff_eq.mp same).symm⟩
  · intro ⟨p, member, same⟩
    exact ⟨p, member, beq_iff_eq.mpr same.symm⟩

theorem Holds.returns_addTo (h : Holds others d fields) {key : List Character}
    (absent : key ∉ fields.map Prod.fst) (value : List Character) :
    Returns (addTo d (key, value)) fun d' => Holds others d' ((key, value) :: fields) := by
  obtain ⟨distinct, m, represents, lookup⟩ := h
  have missing : keyClass key ∉ m := (mem_iff_of_lookup lookup _).not.mpr absent
  unfold addTo
  rw [represents.has_eq (fun _ _ => rfl), Option.bind_eq_bind, Option.bind_some, decide_eq_false missing]
  refine (represents.returns_add missing value).mono fun d' ⟨represents', _⟩ => ?_
  refine ⟨List.nodup_cons.mpr ⟨absent, distinct⟩, _, represents', fun k => ?_⟩
  rw [List.lookup_cons]
  by_cases same : k = key
  · rw [same, Finmap.lookup_insert, beq_self_eq_true]
  · rw [Finmap.lookup_insert_of_ne _ (keyClass_characters.not.mpr same), lookup, beq_eq_false_iff_ne.mpr same]

theorem Holds.addTo_none (h : Holds others d fields) {key : List Character}
    (known : key ∈ fields.map Prod.fst) (value : List Character) : addTo d (key, value) = none := by
  obtain ⟨-, m, represents, lookup⟩ := h
  unfold addTo
  rw [represents.has_eq (fun _ _ => rfl), decide_eq_true ((mem_iff_of_lookup lookup _).mpr known)]
  rfl

/-- The fields one after the other: their keys must be distinct. -/
theorem Holds.returns_addAll (h : Holds others d fields) (added : List (List Character × List Character)) :
    (Returns (added.foldlM addTo d) fun d' => Holds others d' (added.reverse ++ fields)) ∨
      added.foldlM addTo d = none ∧ ¬((added.reverse ++ fields).map Prod.fst).Nodup := by
  induction added generalizing d fields with
  | nil => exact .inl (Returns.some_iff.mpr h)
  | cons field added ih =>
    rw [List.foldlM_cons, List.reverse_cons, List.append_assoc, List.singleton_append]
    by_cases known : field.1 ∈ fields.map Prod.fst
    · refine .inr ⟨by rw [h.addTo_none known field.2]; rfl, fun distinct => ?_⟩
      rw [List.map_append, List.map_cons, List.nodup_append, List.nodup_cons] at distinct
      exact distinct.2.1.1 known
    · obtain ⟨d', run, h'⟩ := h.returns_addTo known field.2
      rw [run]
      exact ih h'

/-! ## Runs of the loop -/

theorem parseLoop_stopped {s : CgiForm} (stopped : s.state < 0) (stream : List Character) :
    parseLoop stream s = some s := by
  cases stream with
  | nil => rfl
  | cons c rest => exact if_pos stopped

variable {key value rest : List Character} {state escape : Int} {s : CgiForm}

theorem parseLoop_going (going : 0 ≤ state) (c : Character) (rest : List Character) :
    parseLoop (c :: rest) ⟨d, key, value, state, escape⟩ =
      (step ⟨d, key, value, state, escape⟩ c).bind (parseLoop rest) :=
  if_neg (Int.not_lt.mpr going)

theorem parseLoop_cons {c : Character} (going : 0 ≤ state)
    (run : step ⟨d, key, value, state, escape⟩ c = some s) (rest : List Character) :
    parseLoop (c :: rest) ⟨d, key, value, state, escape⟩ = parseLoop rest s := by
  rw [parseLoop_going going, run]
  rfl

theorem parseLoop_key (d : FormDictionary) (value rest : List Character) (escape : Int) (free : equal ∉ key)
    (before : List Character) :
    parseLoop (key ++ rest) ⟨d, before, value, 0, escape⟩ =
      parseLoop rest ⟨d, before ++ key, value, 0, escape⟩ := by
  induction key generalizing before with
  | nil => rw [List.append_nil]; rfl
  | cons c key ih =>
    have other : c ≠ equal := fun same => free (same ▸ List.mem_cons_self)
    have run : step ⟨d, before, value, 0, escape⟩ c = some ⟨d, before ++ [c], value, 0, escape⟩ := by
      unfold step
      rw [if_pos rfl, if_neg other]
    rw [List.cons_append, parseLoop_cons (Int.le_refl 0) run,
      ih (fun member => free (List.mem_cons_of_mem c member)), List.append_assoc]
    rfl

/-! ## Values in pieces -/

/-- A character of a value, or an escape. -/
inductive Piece
  | plain (c : Character)
  | escape (high low : Character)

def Piece.written : Piece → List Character
  | .plain c => [c]
  | .escape high low => [percent, high, low]

def Piece.decoded : Piece → Character
  | .plain c => c
  | .escape high low => UInt8.ofNat (hexadecimalValue high * 16 + hexadecimalValue low).toNat

/-- A character that stands for itself, or the escape of an ASCII character. -/
def Piece.Sound : Piece → Prop
  | .plain c => c ≠ ampersand ∧ c ≠ newLine ∧ c ≠ percent
  | .escape high low =>
    isHexadecimalDigit high = true ∧ isHexadecimalDigit low = true ∧ hexadecimalValue high < 8

theorem forall_byte {P : Character → Prop} (all : ∀ code : Fin 256, P (UInt8.ofNat code)) (c : Character) :
    P c := by
  have here := all ⟨c.toNat, c.toNat_lt⟩
  rw [UInt8.ofNat_toNat] at here
  exact here

theorem hexadecimalValue_range : ∀ c : Character, isHexadecimalDigit c = true →
    0 ≤ hexadecimalValue c ∧ hexadecimalValue c < 16 :=
  forall_byte (by decide +kernel)

theorem step_low (high : Character) {low : Character} (digit : isHexadecimalDigit low = true)
    (digit' : isHexadecimalDigit high = true) :
    step ⟨d, key, value, 3, hexadecimalValue high⟩ low =
      if hexadecimalValue high < 8 then
        some ⟨d, key, value ++ [(Piece.escape high low).decoded], 1,
          hexadecimalValue high * 16 + hexadecimalValue low⟩
      else none := by
  have range := hexadecimalValue_range _ digit
  have range' := hexadecimalValue_range _ digit'
  unfold step checked
  dsimp only
  rw [if_neg (by decide), if_neg (by decide), if_neg (by decide), if_pos rfl, if_pos digit]
  have inside : InWidth 8 (hexadecimalValue high * 16) ↔ hexadecimalValue high < 8 := by
    change (-128 : Int) ≤ _ ∧ _ ≤ (127 : Int) ↔ _
    omega
  by_cases small : hexadecimalValue high < 8
  · have inside' : InWidth 8 (hexadecimalValue high * 16 + hexadecimalValue low) := by
      change (-128 : Int) ≤ _ ∧ _ ≤ (127 : Int)
      omega
    rw [if_pos (inside.mpr small), if_pos small, Returns.some_bind, if_pos inside']
    rfl
  · rw [if_neg (inside.not.mpr small), if_neg small]
    rfl

theorem step_percent : step ⟨d, key, value, 1, escape⟩ percent = some ⟨d, key, value, 2, escape⟩ := rfl

theorem step_high {high : Character} (digit : isHexadecimalDigit high = true) :
    step ⟨d, key, value, 2, escape⟩ high = some ⟨d, key, value, 3, hexadecimalValue high⟩ := by
  unfold step
  dsimp only
  rw [if_neg (by decide), if_neg (by decide), if_pos rfl, if_pos digit]

/-- The digits of an escape are read one after the other. -/
theorem parseLoop_escape (high low : Character) (digits : isHexadecimalDigit high = true ∧
    isHexadecimalDigit low = true) :
    parseLoop (percent :: high :: low :: rest) ⟨d, key, value, 1, escape⟩ =
      if hexadecimalValue high < 8 then
        parseLoop rest ⟨d, key, value ++ [(Piece.escape high low).decoded], 1,
          hexadecimalValue high * 16 + hexadecimalValue low⟩
      else none := by
  rw [parseLoop_cons (by decide) step_percent, parseLoop_cons (by decide) (step_high digits.1),
    parseLoop_going (by decide), step_low high digits.2 digits.1]
  split
  case isTrue less => rfl
  case isFalse more => rfl

theorem parseLoop_piece (d : FormDictionary) (key value rest : List Character) (escape : Int) {piece : Piece}
    (sound : piece.Sound) :
    ∃ escape', parseLoop (piece.written ++ rest) ⟨d, key, value, 1, escape⟩ =
      parseLoop rest ⟨d, key, value ++ [piece.decoded], 1, escape'⟩ := by
  cases piece with
  | plain c =>
    obtain ⟨notAmpersand, notNewLine, notPercent⟩ := sound
    refine ⟨escape, parseLoop_cons (by decide) ?_ rest⟩
    unfold step
    dsimp only
    rw [if_neg (by decide), if_pos rfl, if_neg (not_or.mpr ⟨notAmpersand, notNewLine⟩), if_neg notPercent]
    rfl
  | escape high low =>
    exact ⟨_, (parseLoop_escape high low ⟨sound.1, sound.2.1⟩).trans (if_pos sound.2.2)⟩

theorem parseLoop_pieces (d : FormDictionary) (key value rest : List Character) (escape : Int)
    {pieces : List Piece} (sound : ∀ piece ∈ pieces, piece.Sound) :
    ∃ escape', parseLoop (pieces.flatMap Piece.written ++ rest) ⟨d, key, value, 1, escape⟩ =
      parseLoop rest ⟨d, key, value ++ pieces.map Piece.decoded, 1, escape'⟩ := by
  induction pieces generalizing value escape with
  | nil => exact ⟨escape, by rw [List.map_nil, List.append_nil]; rfl⟩
  | cons piece pieces ih =>
    rw [List.flatMap_cons, List.append_assoc]
    obtain ⟨escape', run⟩ := parseLoop_piece d key value (pieces.flatMap Piece.written ++ rest) escape
      (sound piece List.mem_cons_self)
    obtain ⟨last, run'⟩ := ih (value ++ [piece.decoded]) escape'
      (fun p member => sound p (List.mem_cons_of_mem piece member))
    refine ⟨last, run.trans (run'.trans ?_)⟩
    rw [List.append_assoc, List.map_cons]
    rfl

/-- The text of a field up to the end of its value. -/
def fieldText (key : List Character) (pieces : List Piece) : List Character :=
  key ++ equal :: pieces.flatMap Piece.written

theorem parseFrom_field (d : FormDictionary) (value rest : List Character) (escape : Int)
    {pieces : List Piece} (free : equal ∉ key)
    (sound : ∀ piece ∈ pieces, piece.Sound) :
    ∃ escape', parseFrom (fieldText key pieces ++ rest) ⟨d, [], value, 0, escape⟩ =
      parseFrom rest ⟨d, key, pieces.map Piece.decoded, 1, escape'⟩ := by
  have run : step ⟨d, key, value, 0, escape⟩ equal = some ⟨d, key, [], 1, escape⟩ := rfl
  obtain ⟨escape', run'⟩ := parseLoop_pieces d key [] rest escape sound
  refine ⟨escape', ?_⟩
  unfold parseFrom fieldText
  rw [List.append_assoc, parseLoop_key d value _ escape free, List.nil_append, List.cons_append,
    parseLoop_cons (Int.le_refl 0) run, run']
  rfl

/-! ## The ends of a value -/

def Separator (c : Character) : Prop :=
  c = ampersand ∨ c = newLine

/-- The end of the text, maybe in an escape. -/
inductive Truncated : List Character → Prop
  | whole : Truncated []
  | percent : Truncated [percent]
  | digit {high : Character} (digit : isHexadecimalDigit high = true) : Truncated [CgiForm.percent, high]

/-- No escape. -/
inductive Malformed : List Character → Prop
  | first {c : Character} {rest : List Character} (other : isHexadecimalDigit c ≠ true) :
    Malformed (percent :: c :: rest)
  | second {high c : Character} {rest : List Character} (digit : isHexadecimalDigit high = true)
    (other : isHexadecimalDigit c ≠ true) : Malformed (percent :: high :: c :: rest)

/-- The escape of a character that is not ASCII. -/
inductive High : List Character → Prop
  | mk {high low : Character} {rest : List Character} (digit : isHexadecimalDigit high = true)
    (digit' : isHexadecimalDigit low = true) (big : 8 ≤ hexadecimalValue high) :
    High (percent :: high :: low :: rest)

/-- What stands after the sound pieces of a value. -/
inductive Stop : List Character → Prop
  | truncated {tail : List Character} (ends : Truncated tail) : Stop tail
  | separator {c : Character} {rest : List Character} (separates : Separator c) : Stop (c :: rest)
  | malformed {tail : List Character} (broken : Malformed tail) : Stop tail
  | high {tail : List Character} (big : High tail) : Stop tail

theorem escape_or_stop (text : List Character) :
    (∃ high low rest, text = high :: low :: rest ∧ (Piece.escape high low).Sound) ∨ Stop (percent :: text) := by
  cases text with
  | nil => exact .inr (.truncated .percent)
  | cons high text =>
    by_cases digit : isHexadecimalDigit high = true
    · cases text with
      | nil => exact .inr (.truncated (.digit digit))
      | cons low rest =>
        by_cases digit' : isHexadecimalDigit low = true
        · by_cases small : hexadecimalValue high < 8
          · exact .inl ⟨high, low, rest, rfl, digit, digit', small⟩
          · exact .inr (.high (.mk digit digit' (Int.not_lt.mp small)))
        · exact .inr (.malformed (.second digit digit'))
    · exact .inr (.malformed (.first digit))

/-- Sound pieces up to a stop. -/
def InPieces (text : List Character) : Prop :=
  ∃ (pieces : List Piece) (tail : List Character), (∀ piece ∈ pieces, piece.Sound) ∧
    text = pieces.flatMap Piece.written ++ tail ∧ Stop tail

theorem inPieces (text : List Character) : InPieces text := by
  induction length : text.length using Nat.strong_induction_on generalizing text with
  | _ n ih =>
    -- A piece more before the pieces of what follows it.
    have more : ∀ (piece : Piece) (rest : List Character), piece.Sound → text = piece.written ++ rest →
        rest.length < n → InPieces text := by
      intro piece rest sound same less
      obtain ⟨pieces, tail, sounds, same', stop⟩ := ih _ less rest rfl
      refine ⟨piece :: pieces, tail, List.forall_mem_cons.mpr ⟨sound, sounds⟩, ?_, stop⟩
      rw [same, same', List.flatMap_cons, List.append_assoc]
    have here : Stop text → InPieces text :=
      fun stop => ⟨[], text, List.forall_mem_nil _, rfl, stop⟩
    cases text with
    | nil => exact here (.truncated .whole)
    | cons c rest =>
      by_cases separates : Separator c
      · exact here (.separator separates)
      · by_cases escapes : c = percent
        · subst escapes
          rcases escape_or_stop rest with ⟨high, low, rest', rfl, sound⟩ | stop
          · refine more (.escape high low) rest' sound rfl ?_
            rw [← length]
            exact Nat.lt_add_of_pos_right (n := rest'.length) (k := 3) (by decide)
          · exact here stop
        · refine more (.plain c) rest ⟨fun same => separates (.inl same), fun same => separates (.inr same),
            escapes⟩ rfl ?_
          rw [← length]
          exact Nat.lt_succ_self _

theorem parseFrom_truncated (ends : Truncated rest) :
    parseFrom rest ⟨d, key, value, 1, escape⟩ = addTo d (key, value) := by
  cases ends with
  | whole => rfl
  | percent => rfl
  | @digit high digit =>
    unfold parseFrom
    rw [parseLoop_cons (by decide) step_percent, parseLoop_cons (by decide) (step_high digit)]
    rfl

theorem parseFrom_separator {c : Character} (separates : Separator c) :
    parseFrom (c :: rest) ⟨d, key, value, 1, escape⟩ =
      (addTo d (key, value)).bind fun d' => parseFrom rest ⟨d', [], value, 0, escape⟩ := by
  have run : step ⟨d, key, value, 1, escape⟩ c =
      (addTo d (key, value)).bind fun d' => some ⟨d', [], value, 0, escape⟩ := by
    unfold step
    dsimp only
    rw [if_neg (by decide), if_pos rfl]
    exact if_pos separates
  unfold parseFrom
  rw [parseLoop_going (by decide), run]
  cases addTo d (key, value) with
  | none => rfl
  | some d' => rfl

/-- A malformed escape ends the loop, without its field. -/
theorem parseFrom_malformed (broken : Malformed rest) :
    parseFrom rest ⟨d, key, value, 1, escape⟩ = some d := by
  cases broken with
  | @first c rest other =>
    have last : step ⟨d, key, value, 2, escape⟩ c = some ⟨d, key, value, -1, escape⟩ := by
      unfold step
      dsimp only
      rw [if_neg (by decide), if_neg (by decide), if_pos rfl, if_neg other]
    unfold parseFrom
    rw [parseLoop_cons (by decide) step_percent,
      parseLoop_cons (by decide) last, parseLoop_stopped (show (-1 : Int) < 0 by decide)]
    rfl
  | @second high c rest digit other =>
    have last : step ⟨d, key, value, 3, hexadecimalValue high⟩ c =
        some ⟨d, key, value, -1, hexadecimalValue high⟩ := by
      unfold step
      dsimp only
      rw [if_neg (by decide), if_neg (by decide), if_neg (by decide), if_pos rfl, if_neg other]
    unfold parseFrom
    rw [parseLoop_cons (by decide) step_percent,
      parseLoop_cons (by decide) (step_high digit), parseLoop_cons (by decide) last,
      parseLoop_stopped (show (-1 : Int) < 0 by decide)]
    rfl

theorem parseFrom_high (big : High rest) : parseFrom rest ⟨d, key, value, 1, escape⟩ = none := by
  cases big with
  | mk digit digit' big =>
    unfold parseFrom
    rw [parseLoop_escape _ _ ⟨digit, digit'⟩, if_neg (Int.not_lt.mpr big)]
    rfl

/-! ## Harmful texts -/

/-- After sound fields with the keys `keys`, a field with a key that is known, or one with the escape of a
character that is not ASCII. -/
inductive Harmful : List (List Character) → List Character → Prop
  | known {keys : List (List Character)} {key : List Character} {pieces : List Piece} {tail : List Character}
    (free : equal ∉ key) (sound : ∀ piece ∈ pieces, piece.Sound) (member : key ∈ keys)
    (ended : Truncated tail ∨ ∃ c rest, Separator c ∧ tail = c :: rest) :
    Harmful keys (fieldText key pieces ++ tail)
  | high {keys : List (List Character)} {key : List Character} {pieces : List Piece} {tail : List Character}
    (free : equal ∉ key) (sound : ∀ piece ∈ pieces, piece.Sound) (big : High tail) :
    Harmful keys (fieldText key pieces ++ tail)
  | next {keys : List (List Character)} {key : List Character} {pieces : List Piece} {c : Character}
    {rest : List Character} (free : equal ∉ key) (sound : ∀ piece ∈ pieces, piece.Sound)
    (separates : Separator c) (later : Harmful (key :: keys) rest) :
    Harmful keys (fieldText key pieces ++ c :: rest)

theorem Harmful.parseFrom_none {keys : List (List Character)} {text : List Character}
    (harmful : Harmful keys text) (h : Holds others d fields) (same : fields.map Prod.fst = keys) :
    parseFrom text ⟨d, [], value, 0, escape⟩ = none := by
  induction harmful generalizing d fields value escape with
  | @known keys key pieces tail free sound member ended =>
    obtain ⟨escape', run⟩ := parseFrom_field d value tail escape free sound
    rw [run]
    have refused := h.addTo_none (same.symm ▸ member) (pieces.map Piece.decoded)
    rcases ended with ends | ⟨c, rest, separates, rfl⟩
    · exact (parseFrom_truncated ends).trans refused
    · rw [parseFrom_separator separates, refused]
      rfl
  | @high keys key pieces tail free sound big =>
    obtain ⟨escape', run⟩ := parseFrom_field d value tail escape free sound
    exact run.trans (parseFrom_high big)
  | @next keys key pieces c rest free sound separates later ih =>
    obtain ⟨escape', run⟩ := parseFrom_field d value (c :: rest) escape free sound
    rw [run, parseFrom_separator separates]
    by_cases member : key ∈ keys
    · rw [h.addTo_none (same.symm ▸ member)]
      rfl
    · obtain ⟨d', added, h'⟩ := h.returns_addTo (same.symm ▸ member) (pieces.map Piece.decoded)
      rw [added]
      exact ih h' (congrArg (key :: ·) same)

theorem returns_parseFrom {text : List Character} (h : Holds others d fields)
    (harmless : ¬Harmful (fields.map Prod.fst) text) :
    Returns (parseFrom text ⟨d, [], value, 0, escape⟩) fun _ => True := by
  induction length : text.length using Nat.strong_induction_on generalizing text d fields value escape with
  | _ n ih =>
    by_cases valued : equal ∈ text
    · obtain ⟨key, value', rfl, free⟩ := List.eq_append_cons_of_mem valued
      obtain ⟨pieces, tail, sound, rfl, stop⟩ := inPieces value'
      have spelled : key ++ equal :: (pieces.flatMap Piece.written ++ tail) = fieldText key pieces ++ tail :=
        (List.append_assoc key (equal :: pieces.flatMap Piece.written) tail).symm
      rw [spelled] at harmless length ⊢
      obtain ⟨escape', run⟩ := parseFrom_field d value tail escape free sound
      rw [run]
      cases stop with
      | truncated ends =>
        have absent : key ∉ fields.map Prod.fst :=
          fun member => harmless (.known free sound member (.inl ends))
        rw [parseFrom_truncated ends]
        exact (h.returns_addTo absent _).mono fun _ _ => trivial
      | separator separates =>
        have absent : key ∉ fields.map Prod.fst :=
          fun member => harmless (.known free sound member (.inr ⟨_, _, separates, rfl⟩))
        obtain ⟨d', added, h'⟩ := h.returns_addTo absent (pieces.map Piece.decoded)
        rw [parseFrom_separator separates, added]
        refine ih _ ?_ h' (fun later => harmless (.next free sound separates later)) rfl
        rw [← length, List.length_append, List.length_cons]
        omega
      | malformed broken =>
        rw [parseFrom_malformed broken]
        exact Returns.some_iff.mpr trivial
      | high big => exact absurd (.high free sound big) harmless
    · have run := parseLoop_key d value [] escape valued []
      rw [List.append_nil] at run
      unfold parseFrom
      rw [run]
      exact Returns.some_iff.mpr trivial

/-! ## Encodings -/

/-- The characters that stand for themselves. -/
def isPlain (c : Character) : Bool :=
  c.isLetterOrDigit || c == '*'.toUInt8 || c == '-'.toUInt8 || c == '.'.toUInt8 || c == '_'.toUInt8

/-- A byte of a key or of a value, as piece of a text. -/
def pieceOf (c : Character) : Piece :=
  if isPlain c then .plain c else if c = blank then .plain plus
  else .escape (QuotedPrintable.hexadecimalDigit (c.code / 16)) (QuotedPrintable.hexadecimalDigit (c.code % 16))

def percentEncoded (s : List Character) : List Character :=
  s.flatMap fun c => (pieceOf c).written

/-- The application/x-www-form-urlencoded text of a list of fields. -/
def encoding : List (List Character × List Character) → List Character
  | [] => []
  | [(key, value)] => percentEncoded key ++ equal :: percentEncoded value
  | (key, value) :: field :: fields =>
    percentEncoded key ++ equal :: percentEncoded value ++ ampersand :: encoding (field :: fields)

/-- What the machine takes a field for. -/
def takenFor (field : List Character × List Character) : List Character × List Character :=
  (percentEncoded field.1, field.2.map fun c => (pieceOf c).decoded)

/-- The fields that the machine decodes. -/
def Faithful (field : List Character × List Character) : Prop :=
  (∀ c ∈ field.1, isPlain c = true) ∧ ∀ c ∈ field.2, c ≠ blank ∧ c.code < 128

instance : DecidablePred Faithful :=
  fun _ => @instDecidableAnd _ _ (List.decidableBAll _ _) (List.decidableBAll _ _)

def weight (c : Character) : ℕ :=
  if c = blank then 1 else 2

instance : DecidablePred Piece.Sound
  | .plain _ => inferInstanceAs (Decidable (_ ∧ _))
  | .escape _ _ => inferInstanceAs (Decidable (_ ∧ _))

/-- The facts of the single bytes, code by code. -/
theorem pieceOf_spec : ∀ c : Character, equal ∉ (pieceOf c).written ∧
    (c.code < 128 → (pieceOf c).Sound) ∧
    (¬c.code < 128 → isPlain c = false ∧ c ≠ blank ∧
      isHexadecimalDigit (QuotedPrintable.hexadecimalDigit (c.code / 16)) = true ∧
      isHexadecimalDigit (QuotedPrintable.hexadecimalDigit (c.code % 16)) = true ∧
      8 ≤ hexadecimalValue (QuotedPrintable.hexadecimalDigit (c.code / 16))) ∧
    (weight c ≤ ((pieceOf c).written.map weight).sum ∧
      (weight c = ((pieceOf c).written.map weight).sum → isPlain c = true)) ∧
    (weight c ≤ weight (pieceOf c).decoded ∧ (weight c = weight (pieceOf c).decoded → c ≠ blank)) ∧
    (c ≠ blank → (pieceOf c).decoded = c) :=
  forall_byte (by decide +kernel)

theorem equal_notMem_written (c : Character) : equal ∉ (pieceOf c).written :=
  (pieceOf_spec c).1

theorem sound_pieceOf (c : Character) : c.code < 128 → (pieceOf c).Sound :=
  (pieceOf_spec c).2.1

/-- The escape of a character that is not ASCII begins with 8 or more. -/
theorem high_pieceOf (c : Character) (more : ¬c.code < 128) (rest : List Character) :
    High ((pieceOf c).written ++ rest) := by
  obtain ⟨notPlain, notBlank, digit, digit', big⟩ := (pieceOf_spec c).2.2.1 more
  unfold pieceOf
  rw [notPlain, if_neg Bool.false_ne_true, if_neg notBlank]
  exact .mk digit digit' big

theorem weight_le_written (c : Character) : weight c ≤ ((pieceOf c).written.map weight).sum ∧
    (weight c = ((pieceOf c).written.map weight).sum → isPlain c = true) :=
  (pieceOf_spec c).2.2.2.1

theorem weight_le_decoded (c : Character) : weight c ≤ weight (pieceOf c).decoded ∧
    (weight c = weight (pieceOf c).decoded → c ≠ blank) :=
  (pieceOf_spec c).2.2.2.2.1

theorem decoded_eq (c : Character) : c ≠ blank → (pieceOf c).decoded = c :=
  (pieceOf_spec c).2.2.2.2.2

/-! ## Reading an encoding -/

variable {pairs : List (List Character × List Character)}

theorem encoding_single (key value : List Character) :
    encoding [(key, value)] = fieldText (percentEncoded key) (value.map pieceOf) ++ [] := by
  unfold fieldText
  rw [List.append_nil, List.flatMap_map]
  rfl

theorem encoding_cons (key value : List Character) (field : List Character × List Character)
    (fields : List (List Character × List Character)) :
    encoding ((key, value) :: field :: fields) =
      fieldText (percentEncoded key) (value.map pieceOf) ++ ampersand :: encoding (field :: fields) := by
  unfold fieldText
  rw [List.flatMap_map]
  rfl

theorem equal_notMem_percentEncoded (s : List Character) : equal ∉ percentEncoded s := by
  intro member
  obtain ⟨c, -, within⟩ := List.mem_flatMap.mp member
  exact equal_notMem_written c within

theorem sound_pieces (ascii : ∀ c ∈ value, c.code < 128) : ∀ piece ∈ value.map pieceOf, piece.Sound := by
  intro piece member
  obtain ⟨c, within, rfl⟩ := List.mem_map.mp member
  exact sound_pieceOf c (ascii c within)

/-- The encoding of ASCII values is read field by field. -/
theorem parseFrom_encoding (ascii : ∀ field ∈ pairs, ∀ c ∈ field.2, c.code < 128) :
    parseFrom (encoding pairs) ⟨d, [], value, 0, escape⟩ = (pairs.map takenFor).foldlM addTo d := by
  induction pairs using encoding.induct generalizing d value escape with
  | case1 => rfl
  | case2 key value' =>
    obtain ⟨escape', run⟩ := parseFrom_field d value [] escape (equal_notMem_percentEncoded key)
      (sound_pieces (ascii _ List.mem_cons_self))
    rw [encoding_single, run, parseFrom_truncated .whole, List.map_map]
    exact (bind_pure _).symm
  | case3 key value' field fields ih =>
    obtain ⟨escape', run⟩ := parseFrom_field d value (ampersand :: encoding (field :: fields)) escape
      (equal_notMem_percentEncoded key) (sound_pieces (ascii _ List.mem_cons_self))
    rw [encoding_cons, run, parseFrom_separator (.inl rfl), List.map_map, List.map_cons, List.foldlM_cons]
    refine congrArg _ (funext fun d' => ih ?_)
    exact fun field member => ascii field (List.mem_cons_of_mem _ member)

/-- The first character of a value that is not ASCII ends its sound pieces. -/
theorem harmful_field {keys : List (List Character)} (key rest : List Character) {c : Character}
    (member : c ∈ value) (more : ¬c.code < 128) :
    Harmful keys (fieldText (percentEncoded key) (value.map pieceOf) ++ rest) := by
  obtain ⟨first, before, after, ascii, more', same, -⟩ :=
    List.exists_of_eraseP (p := fun c : Character => decide ¬c.code < 128) member (decide_eq_true more)
  have spelled : fieldText (percentEncoded key) (value.map pieceOf) ++ rest =
      fieldText (percentEncoded key) (before.map pieceOf) ++
        ((pieceOf first).written ++ ((after.map pieceOf).flatMap Piece.written ++ rest)) := by
    unfold fieldText
    rw [same, List.map_append, List.map_cons, List.flatMap_append, List.flatMap_cons, List.append_assoc,
      List.append_assoc, List.cons_append, List.cons_append, List.append_assoc, List.append_assoc]
  rw [spelled]
  refine .high (equal_notMem_percentEncoded key) (sound_pieces fun c within => ?_)
    (high_pieceOf first (of_decide_eq_true more') _)
  exact Decidable.not_not.mp fun big => ascii c within (decide_eq_true big)

theorem harmful_encoding {keys : List (List Character)} {field : List Character × List Character}
    {c : Character} (member : field ∈ pairs) (within : c ∈ field.2) (more : ¬c.code < 128) : Harmful keys (encoding pairs) := by
  induction pairs using encoding.induct generalizing keys with
  | case1 => exact absurd member List.not_mem_nil
  | case2 key value =>
    rw [List.mem_singleton.mp member] at within
    rw [encoding_single]
    exact harmful_field key [] within more
  | case3 key value field' fields ih =>
    rw [encoding_cons]
    by_cases ascii : ∀ c ∈ value, c.code < 128
    · refine .next (equal_notMem_percentEncoded key) (sound_pieces ascii) (.inl rfl) (ih ?_)
      rcases List.mem_cons.mp member with rfl | later
      · exact absurd (ascii c within) more
      · exact later
    · obtain ⟨c', within', more'⟩ : ∃ c ∈ value, ¬c.code < 128 := by
        by_contra none
        exact ascii fun c within => Decidable.not_not.mp fun more => none ⟨c, within, more⟩
      exact harmful_field key _ within' more'

/-! ## The weight of the fields -/

/-- Equal sums of weights that do not fall. -/
theorem eq_of_sum_eq {α : Type} {f g : α → ℕ} {l : List α} (le : ∀ a, f a ≤ g a)
    (same : (l.map f).sum = (l.map g).sum) : ∀ a ∈ l, f a = g a := by
  induction l with
  | nil => exact List.forall_mem_nil _
  | cons a l ih =>
    rw [List.map_cons, List.sum_cons, List.map_cons, List.sum_cons] at same
    have here := le a
    have rest : (l.map f).sum ≤ (l.map g).sum := List.sum_le_sum fun b _ => le b
    exact List.forall_mem_cons.mpr ⟨by omega, ih (by omega)⟩

def weightOf (s : List Character) : ℕ :=
  (s.map weight).sum

theorem weightOf_percentEncoded (s : List Character) :
    weightOf (percentEncoded s) = (s.map fun c => weightOf (pieceOf c).written).sum := by
  unfold weightOf percentEncoded
  rw [List.map_flatMap, List.flatMap_def, List.sum_flatten, List.map_map]
  rfl

theorem weightOf_decoded (s : List Character) :
    weightOf (s.map fun c => (pieceOf c).decoded) = (s.map fun c => weight (pieceOf c).decoded).sum := by
  unfold weightOf
  rw [List.map_map]
  rfl

def fieldWeight (field : List Character × List Character) : ℕ :=
  weightOf field.1 + weightOf field.2

theorem fieldWeight_le (field : List Character × List Character) :
    weightOf field.1 ≤ weightOf (takenFor field).1 ∧ weightOf field.2 ≤ weightOf (takenFor field).2 := by
  unfold takenFor
  rw [weightOf_percentEncoded, weightOf_decoded]
  exact ⟨List.sum_le_sum fun c _ => (weight_le_written c).1, List.sum_le_sum fun c _ => (weight_le_decoded c).1⟩

/-- The machine takes a field of ASCII values for one of more weight unless it decodes it. -/
theorem faithful_of_fieldWeight {field : List Character × List Character}
    (ascii : ∀ c ∈ field.2, c.code < 128) (same : fieldWeight field = fieldWeight (takenFor field)) :
    Faithful field := by
  have ⟨keys, values⟩ := fieldWeight_le field
  unfold fieldWeight at same
  have keys' : weightOf field.1 = weightOf (takenFor field).1 := by omega
  have values' : weightOf field.2 = weightOf (takenFor field).2 := by omega
  unfold takenFor at keys' values'
  rw [weightOf_percentEncoded] at keys'
  rw [weightOf_decoded] at values'
  constructor
  · intro c member
    exact (weight_le_written c).2 (eq_of_sum_eq (fun c => (weight_le_written c).1) keys' c member)
  · intro c member
    exact ⟨(weight_le_decoded c).2 (eq_of_sum_eq (fun c => (weight_le_decoded c).1) values' c member),
      ascii c member⟩

theorem takenFor_of_faithful {field : List Character × List Character} (faithful : Faithful field) :
    takenFor field = field := by
  have keys : percentEncoded field.1 = field.1 := by
    have all : ∀ c, isPlain c = true → (pieceOf c).written = [c] := fun c plain => by
      unfold pieceOf
      rw [if_pos plain]
      rfl
    unfold percentEncoded
    rw [List.flatMap_congr fun c member => all c (faithful.1 c member), List.flatMap_singleton']
  have values : (field.2.map fun c => (pieceOf c).decoded) = field.2 := by
    rw [List.map_congr_left fun c member => decoded_eq c (faithful.2 c member).1, List.map_id']
  exact Prod.ext keys values

theorem mem_iff_lookup (distinct : (fields.map Prod.fst).Nodup) (key value : List Character) :
    (key, value) ∈ fields ↔ fields.lookup key = some value := by
  induction fields with
  | nil => exact iff_of_false List.not_mem_nil (by rw [List.lookup_nil]; exact nofun)
  | cons field fields ih =>
    rw [List.map_cons, List.nodup_cons] at distinct
    rw [List.mem_cons, List.lookup_cons]
    by_cases here : key = field.1
    · rw [here, beq_self_eq_true, Option.some_inj]
      constructor
      · intro either
        rcases either with same | later
        · exact (congrArg Prod.snd same).symm
        · exact absurd (List.mem_map_of_mem later) distinct.1
      · exact fun value => .inl (Prod.ext rfl value.symm)
    · rw [beq_eq_false_iff_ne.mpr here, ← ih distinct.2]
      exact or_iff_right fun same => here (congrArg Prod.fst same)

/-- Lists of fields with distinct keys have the same answers when they have the same fields. -/
theorem lookup_eq_iff_perm {fields' : List (List Character × List Character)}
    (distinct : (fields.map Prod.fst).Nodup) (distinct' : (fields'.map Prod.fst).Nodup) :
    (∀ k, fields.lookup k = fields'.lookup k) ↔ fields.Perm fields' := by
  rw [List.perm_ext_iff_of_nodup distinct.of_map distinct'.of_map]
  constructor
  · intro same p
    rw [mem_iff_lookup distinct p.1 p.2, mem_iff_lookup distinct' p.1 p.2, same]
  · intro same k
    refine Option.ext fun v => ?_
    rw [← mem_iff_lookup distinct, ← mem_iff_lookup distinct', same]

/-! ## What `parse` yields -/

variable {free : List ℕ} {heap : NodeHeap (HashedDictionary.Node (List Character) (List Character))}

theorem holds_make (pool : NodeHeap.Pooled HashedDictionary.nodeLink heap free others) :
    Holds others (HashedDictionary.make heap) [] :=
  ⟨List.nodup_nil, ∅, HashedDictionary.represents_createWithCapacity pool (by decide) (by decide),
    fun _ => Finmap.lookup_empty _⟩

theorem returns_parse_iff (pool : NodeHeap.Pooled HashedDictionary.nodeLink heap free others)
    (text : List Character) :
    (Returns (parse heap text) fun _ => True) ↔ ¬Harmful [] text := by
  constructor
  · intro returns harmful
    unfold parse at returns
    rw [harmful.parseFrom_none (holds_make pool) rfl] at returns
    exact Returns.none_iff.mp returns
  · intro harmless
    exact returns_parseFrom (holds_make pool) harmless

theorem answers_parse_iff (pool : NodeHeap.Pooled HashedDictionary.nodeLink heap free others)
    (distinct : (pairs.map Prod.fst).Nodup) :
    (Returns (parse heap (encoding pairs)) fun form => Answers form pairs) ↔
      ∀ field ∈ pairs, Faithful field := by
  have new := holds_make pool
  constructor
  · intro returns
    have ascii : ∀ field ∈ pairs, ∀ c ∈ field.2, c.code < 128 := by
      intro field member c within
      by_contra more
      have harmless := (returns_parse_iff pool _).mp (returns.mono fun _ _ => trivial)
      exact harmless (harmful_encoding member within more)
    unfold parse at returns
    rw [parseFrom_encoding ascii] at returns
    rcases new.returns_addAll (pairs.map takenFor) with held | ⟨fails, -⟩
    · obtain ⟨form, -, answers, holds⟩ := returns.and held
      rw [List.append_nil] at holds
      have same : (pairs.map takenFor).reverse.Perm pairs := by
        refine (lookup_eq_iff_perm holds.1 distinct).mp fun k => ?_
        exact Option.some_inj.mp ((holds.answers k).symm.trans (answers k))
      have weights := (((pairs.map takenFor).reverse_perm.symm.trans same).map fieldWeight).sum_eq
      rw [List.map_map] at weights
      intro field member
      refine faithful_of_fieldWeight (ascii field member) ?_
      refine eq_of_sum_eq (fun field => ?_) weights.symm field member
      have ⟨keys, values⟩ := fieldWeight_le field
      exact Nat.add_le_add keys values
    · rw [fails] at returns
      exact absurd returns Returns.none_iff.mp
  · intro faithful
    have taken : pairs.map takenFor = pairs :=
      (List.map_congr_left fun field member => takenFor_of_faithful (faithful field member)).trans
        (List.map_id' _)
    unfold parse
    rw [parseFrom_encoding fun field member c within => ((faithful field member).2 c within).2, taken]
    rcases new.returns_addAll pairs with held | ⟨-, repeated⟩
    · refine held.mono fun form holds k => ?_
      rw [List.append_nil] at holds
      rw [holds.answers k, (lookup_eq_iff_perm holds.1 distinct).mpr pairs.reverse_perm k]
    · refine absurd ?_ repeated
      rw [List.append_nil, List.map_reverse]
      exact List.nodup_reverse.mpr distinct

/-- The machine decodes the fields whose keys are plain and whose values are ASCII without blanks; it reads
the texts that are not harmful. -/
theorem parse_iff (pool : NodeHeap.Pooled HashedDictionary.nodeLink heap free others)
    (distinct : (pairs.map Prod.fst).Nodup) (text : List Character) :
    ((Returns (parse heap (encoding pairs)) fun form => Answers form pairs) ↔
      ∀ field ∈ pairs, Faithful field) ∧
    ((Returns (parse heap text) fun _ => True) ↔ ¬Harmful [] text) :=
  ⟨answers_parse_iff pool distinct, returns_parse_iff pool text⟩

theorem parse_iff_two :
    (Returns (parse .empty (encoding [([97], [98, 43]), ([99], [])])) fun form =>
      Answers form [([97], [98, 43]), ([99], [])]) ∧ ¬Harmful [] [97] := by
  have distinct : (([([97], [98, 43]), ([99], [])] : List (List Character × List Character)).map
      Prod.fst).Nodup := by decide
  have both := parse_iff (NodeHeap.pooled_empty HashedDictionary.nodeLink) distinct [97]
  exact ⟨both.1.mpr (by decide), both.2.mp ⟨_, rfl, trivial⟩⟩

/-- A value that is not ASCII: its escape is no INTEGER_8. -/
theorem not_parse_encoding :
    ¬∀ pairs : List (List Character × List Character), (pairs.map Prod.fst).Nodup →
      Returns (parse .empty (encoding pairs)) fun form => Answers form pairs := by
  intro all
  have fails : parse .empty (encoding [([97], [128])]) = none := rfl
  have returns := all [([97], [128])] (by decide)
  rw [fails] at returns
  exact Returns.none_iff.mp returns

end CgiForm

end Liberty
