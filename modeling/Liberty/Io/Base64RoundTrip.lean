import Liberty.Io.Base64

/-!
# The Base64 encoding, there and back

The decoder gives the bytes back from their encoding, also when newlines stand in it, unless one stands
between the first and the second character of a group of four: that one is decoded as if it were a
character of the alphabet.
-/

namespace Liberty

/-! ## The underlying stream -/

namespace StringInputStream

variable {s : StringInputStream} {c : Character} {text skipped : List Character}

/-- The characters that have not been read. -/
def rest (s : StringInputStream) : List Character :=
  s.string.drop s.offset

theorem read_cons (rest : s.rest = c :: text) : s.filteredReadCharacter.rest = text ∧
    s.filteredReadCharacter.filteredLastCharacter = some c ∧ s.filteredReadCharacter.endOfInput = false := by
  have less : s.offset < s.string.length := by
    refine Nat.lt_of_not_le fun le => ?_
    unfold StringInputStream.rest at rest
    rw [List.drop_eq_nil_of_le le] at rest
    cases rest
  have parts := (List.drop_eq_getElem_cons less).symm.trans rest
  obtain ⟨here, behind⟩ := List.cons.inj parts
  refine ⟨behind, ?_, ?_⟩
  · unfold filteredReadCharacter filteredLastCharacter
    rw [if_neg (Nat.succ_ne_zero _), Nat.add_sub_cancel, List.getElem?_eq_getElem less, here]
  · exact decide_eq_false (Nat.not_lt_of_le less)

theorem read_nil (rest : s.rest = []) : s.filteredReadCharacter.rest = [] ∧
    s.filteredReadCharacter.endOfInput = true := by
  have le : s.string.length ≤ s.offset := List.drop_eq_nil_iff.mp rest
  refine ⟨List.drop_eq_nil_of_le (Nat.le_succ_of_le le), ?_⟩
  exact decide_eq_true (Nat.lt_succ_of_le le)

theorem skip_cons (newlines : ∀ x ∈ skipped, x = Base64.newline) (letter : c ≠ Base64.newline)
    (rest : s.rest = skipped ++ c :: text) : ∃ s', Base64InputStream.readSkippingNewlines s = some s' ∧
      s'.rest = text ∧ s'.filteredLastCharacter = some c ∧ s'.endOfInput = false := by
  have enough : skipped.length ≤ s.string.length + 1 := by
    have length := congrArg List.length rest
    unfold StringInputStream.rest at length
    rw [List.length_drop, List.length_append] at length
    omega
  unfold Base64InputStream.readSkippingNewlines
  generalize s.string.length + 1 = fuel at enough
  induction skipped generalizing s fuel with
  | nil =>
    obtain ⟨behind, last, going⟩ := read_cons rest
    refine ⟨_, untilLoop_stopped ?_, behind, last, going⟩
    rw [going, last]
    exact congrArg some (bne_iff_ne.mpr letter)
  | cons x skipped ih =>
    obtain ⟨behind, last, going⟩ := read_cons rest
    obtain ⟨fuel, rfl⟩ : ∃ k, fuel = k + 1 := ⟨fuel - 1, by rw [List.length_cons] at enough; omega⟩
    have blank : x = Base64.newline := newlines x List.mem_cons_self
    obtain ⟨s', run, found⟩ := ih (fun y mem => newlines y (List.mem_cons_of_mem _ mem)) behind fuel
      (Nat.le_of_succ_le_succ enough)
    refine ⟨s', ?_, found⟩
    rw [untilLoop, going, last, blank]
    exact run

theorem skip_nil (newlines : ∀ x ∈ s.rest, x = Base64.newline) :
    ∃ s', Base64InputStream.readSkippingNewlines s = some s' ∧ s'.rest = [] ∧ s'.endOfInput = true := by
  obtain ⟨skipped, rest⟩ : ∃ skipped, s.rest = skipped := ⟨_, rfl⟩
  have enough : skipped.length ≤ s.string.length + 1 := by
    rw [← rest]
    unfold StringInputStream.rest
    rw [List.length_drop]
    omega
  rw [rest] at newlines
  unfold Base64InputStream.readSkippingNewlines
  generalize s.string.length + 1 = fuel at enough
  induction skipped generalizing s fuel with
  | nil =>
    obtain ⟨behind, beyond⟩ := read_nil rest
    refine ⟨_, untilLoop_stopped ?_, behind, beyond⟩
    exact if_pos beyond
  | cons x skipped ih =>
    obtain ⟨behind, last, going⟩ := read_cons rest
    obtain ⟨fuel, rfl⟩ : ∃ k, fuel = k + 1 := ⟨fuel - 1, by rw [List.length_cons] at enough; omega⟩
    have blank : x = Base64.newline := newlines x List.mem_cons_self
    obtain ⟨s', run, found⟩ := ih (fun y mem => newlines y (List.mem_cons_of_mem _ mem)) behind fuel
      (Nat.le_of_succ_le_succ enough)
    refine ⟨s', ?_, found⟩
    rw [untilLoop, going, last, blank]
    exact run

end StringInputStream

namespace Base64

/-- A newline stands between the first and the second character of a group of four; `position` tells how
many characters of the group come before the text. -/
def NewlineInPair : ℕ → List Character → Prop
  | _, [] => False
  | position, c :: text =>
    if c = newline then position = 1 ∨ NewlineInPair position text
    else NewlineInPair ((position + 1) % 4) text

section Text

variable {text skipped : List Character} {c : Character} {position : ℕ}

/-- The text without its newlines. -/
def letters (text : List Character) : List Character :=
  text.filter (· ≠ newline)

theorem letters_eq_cons {cs : List Character} (h : letters text = c :: cs) : ∃ skipped behind,
    text = skipped ++ c :: behind ∧ (∀ x ∈ skipped, x = newline) ∧ c ≠ newline ∧ letters behind = cs := by
  obtain ⟨skipped, behind, parts, newlines, letter, rest⟩ := List.filter_eq_cons_iff.mp h
  refine ⟨skipped, behind, parts, fun x mem => ?_, of_decide_eq_true letter, rest⟩
  have blank := newlines x mem
  by_cases same : x = newline
  · exact same
  · exact absurd (decide_eq_true same) blank

theorem letters_eq_nil (h : letters text = []) : ∀ x ∈ text, x = newline := by
  intro x mem
  have blank := List.filter_eq_nil_iff.mp h x mem
  by_cases same : x = newline
  · exact same
  · exact absurd (decide_eq_true same) blank

theorem newlineInPair_skip (newlines : ∀ x ∈ skipped, x = newline) (inside : position ≠ 1) :
    NewlineInPair position (skipped ++ text) ↔ NewlineInPair position text := by
  induction skipped with
  | nil => exact Iff.rfl
  | cons x skipped ih =>
    have blank : x = newline := newlines x List.mem_cons_self
    rw [List.cons_append, NewlineInPair, if_pos blank, ih fun y mem => newlines y (List.mem_cons_of_mem _ mem)]
    exact ⟨fun either => either.resolve_left inside, .inr⟩

theorem newlineInPair_letter (newlines : ∀ x ∈ skipped, x = newline) (inside : position ≠ 1)
    (letter : c ≠ newline) : NewlineInPair position (skipped ++ c :: text) ↔
      NewlineInPair ((position + 1) % 4) text := by
  rw [newlineInPair_skip newlines inside, NewlineInPair, if_neg letter]

theorem not_newlineInPair_of_newlines (newlines : ∀ x ∈ text, x = newline) (inside : position ≠ 1) :
    ¬NewlineInPair position text := by
  have skip : NewlineInPair position (text ++ []) ↔ NewlineInPair position [] := newlineInPair_skip newlines inside
  rw [List.append_nil] at skip
  exact fun newline => skip.mp newline

end Text

/-! ## The decoder -/

/-- What the decoder knows of the bytes that are left, from the text that is left. -/
inductive Awaits (text : List Character) : ℕ → ℕ → List Character → Prop
  | zero {bytes : List Character} (accu : ℕ) (rest : letters text = encoding bytes) : Awaits text 0 accu bytes
  | one {bytes : List Character} (rest : letters text = encodingAfterOne bytes) :
      Awaits text 1 (highFour bytes * 16) bytes
  | two {bytes : List Character} (rest : letters text = encodingAfterTwo bytes) :
      Awaits text 2 (highTwo bytes * 64) bytes

/-- How many characters of the group the decoder has read. -/
def position : ℕ → ℕ
  | 0 => 0
  | state + 1 => state + 2

/-- The decoder stands before some bytes, and has nothing unread. -/
structure Decodes (s : Base64InputStream) (bytes : List Character) : Prop where
  awaits : Awaits s.stream.rest s.state s.accu bytes
  fresh : s.hasUnreadCharacter = false
  ended : s.endOfBase64 = true → bytes = []

/-- A newline is to come where the decoder does not skip it. -/
def Stumbles (s : Base64InputStream) : Prop :=
  NewlineInPair (position s.state) s.stream.rest

section Decoder

variable {s : Base64InputStream} {bytes text : List Character} {x c : Character}

theorem filteredReadCharacter_of_skip {stream : StringInputStream} (fresh : s.hasUnreadCharacter = false)
    (skip : Base64InputStream.readSkippingNewlines s.stream = some stream) (going : stream.endOfInput = false)
    (last : stream.filteredLastCharacter = some c) : s.filteredReadCharacter =
      (({ s with unreadBuffer := s.filteredLastCharacter, stream } : Base64InputStream).b2t c).bind
        fun r => (r.1.decode r.2).map Base64InputStream.setCanUnreadCharacter := by
  unfold Base64InputStream.filteredReadCharacter
  rw [if_neg (by rw [fresh]; decide), skip]
  simp only [Option.bind_eq_bind, Option.bind_some, going, last]
  cases Base64InputStream.b2t { s with unreadBuffer := s.filteredLastCharacter, stream } c with
  | none => rfl
  | some r =>
    cases found : r.1.decode r.2 with
    | none =>
      simp only [Option.bind_some, found]
      rfl
    | some s' =>
      simp only [Option.bind_some, found]
      rfl

theorem ofNat_byte (x : Character) : UInt8.ofNat x.toNat = x :=
  UInt8.ofNat_toNat

theorem joined (high low i : ℕ) (less : low < 2 ^ i) : high * 2 ^ i ||| low = high * 2 ^ i + low := by
  rw [← Nat.shiftLeft_eq, or_eq_add less, Nat.shiftLeft_eq]

theorem endOfInput_false {s' : Base64InputStream} (base64 : s'.endOfBase64 = false)
    (stream : s'.stream.endOfInput = false) : s'.endOfInput = false := by
  unfold Base64InputStream.endOfInput
  rw [base64, stream]
  rfl

/-- What a read of the decoder gives when a byte is left. -/
structure Gives (s s' : Base64InputStream) (x : Character) (bytes : List Character) : Prop where
  run : s.filteredReadCharacter = some s'
  last : s'.filteredLastCharacter = x
  can : s'.canUnreadCharacter = true
  going : s'.endOfInput = false
  decodes : Decodes s' bytes
  stumbles : Stumbles s' ↔ Stumbles s

theorem Gives.of_run {t : Base64InputStream} (run : s.filteredReadCharacter = some t.setCanUnreadCharacter)
    (last : t.filteredLastCharacter = x) (base64 : t.endOfBase64 = false) (stream : t.stream.endOfInput = false)
    (fresh : t.hasUnreadCharacter = false) (awaits : Awaits t.stream.rest t.state t.accu bytes)
    (stumbles : Stumbles t ↔ Stumbles s) : Gives s t.setCanUnreadCharacter x bytes where
  run
  last
  can := congrArg Bool.not (endOfInput_false base64 stream)
  going := endOfInput_false base64 stream
  decodes := ⟨awaits, fresh, fun beyond => absurd (base64.symm.trans beyond) Bool.false_ne_true⟩
  stumbles

theorem Decodes.read_zero (h : Decodes s (x :: bytes)) (state : s.state = 0)
    (rest : letters s.stream.rest = encoding (x :: bytes)) :
    (s.filteredReadCharacter = none ∧ Stumbles s) ∨ ∃ s', Gives s s' x bytes := by
  have byte := x.toNat_lt
  have four := highFour_lt bytes
  have ended : s.endOfBase64 = false := Bool.eq_false_iff.mpr fun beyond => nomatch h.ended beyond
  rw [encoding_cons] at rest
  obtain ⟨skipped, behind, parts, newlines, letter, rest⟩ := letters_eq_cons rest
  obtain ⟨stream, skip, streamRest, last, going⟩ := StringInputStream.skip_cons newlines letter parts
  have run := filteredReadCharacter_of_skip h.fresh skip going last
  rw [b2t_digit _ (by omega), Option.bind_some] at run
  have stumbles : Stumbles s ↔ NewlineInPair 1 behind := by
    unfold Stumbles
    rw [state, parts]
    exact newlineInPair_letter newlines (by decide) letter
  obtain ⟨skipped', behind', parts', newlines', letter', rest'⟩ := letters_eq_cons rest
  cases skipped' with
  | cons c skipped' =>
    -- the second character of the pair is read without skipping the newline
    have blank : c = newline := newlines' c List.mem_cons_self
    obtain ⟨-, second, more⟩ := StringInputStream.read_cons (streamRest.trans parts')
    refine .inl ⟨?_, stumbles.mpr ?_⟩
    · rw [run]
      unfold Base64InputStream.decode
      rw [state]
      dsimp only
      rw [more, second, blank]
      rfl
    · rw [parts', List.cons_append, NewlineInPair, if_pos blank]
      exact .inl rfl
  | nil =>
    obtain ⟨secondRest, second, more⟩ := StringInputStream.read_cons (streamRest.trans parts')
    have high : (x.toNat / 4) <<< 2 ||| ((x.toNat % 4 * 16 + highFour bytes) >>> 4) = x.toNat := by
      rw [Nat.shiftRight_eq_div_pow, or_eq_add (by omega)]
      omega
    have low : ((x.toNat % 4 * 16 + highFour bytes) &&& 15) <<< 4 = highFour bytes * 16 := by
      rw [lowFour, Nat.shiftLeft_eq]
      omega
    refine .inr ⟨({ s with
      unreadBuffer := s.filteredLastCharacter
      stream := stream.filteredReadCharacter
      filteredLastCharacter := x
      accu := highFour bytes * 16
      state := 1 } : Base64InputStream).setCanUnreadCharacter, .of_run ?_ rfl ended more h.fresh ?_ ?_⟩
    · rw [run]
      unfold Base64InputStream.decode
      rw [state]
      dsimp only
      rw [more, second]
      simp only [Bool.false_eq_true, if_false, Option.bind_eq_bind, Option.bind_some,
        b2t_digit _ (show x.toNat % 4 * 16 + highFour bytes < 64 by omega)]
      rw [high, low, ofNat_byte]
      rfl
    · exact .one ((congrArg letters secondRest).trans rest')
    · rw [stumbles, parts', List.nil_append, NewlineInPair, if_neg letter']
      change NewlineInPair 2 stream.filteredReadCharacter.rest ↔ _
      rw [secondRest]

theorem Decodes.read_one (h : Decodes s (x :: bytes)) (state : s.state = 1)
    (accu : s.accu = highFour (x :: bytes) * 16) (rest : letters s.stream.rest = encodingAfterOne (x :: bytes)) :
    ∃ s', Gives s s' x bytes := by
  have two := highTwo_lt bytes
  have ended : s.endOfBase64 = false := Bool.eq_false_iff.mpr fun beyond => nomatch h.ended beyond
  obtain ⟨skipped, behind, parts, newlines, letter, rest⟩ := letters_eq_cons rest
  obtain ⟨stream, skip, streamRest, last, going⟩ := StringInputStream.skip_cons newlines letter parts
  have run := filteredReadCharacter_of_skip h.fresh skip going last
  rw [b2t_digit _ (by omega), Option.bind_some] at run
  have high : highFour (x :: bytes) * 16 ||| ((x.toNat % 16 * 4 + highTwo bytes) >>> 2) = x.toNat := by
    change x.toNat / 16 * 2 ^ 4 ||| _ = _
    rw [Nat.shiftRight_eq_div_pow, joined _ _ _ (by omega)]
    omega
  have low : ((x.toNat % 16 * 4 + highTwo bytes) &&& 3) <<< 6 = highTwo bytes * 64 := by
    rw [lowTwo, Nat.shiftLeft_eq]
    omega
  refine ⟨({ s with
    unreadBuffer := s.filteredLastCharacter
    stream
    filteredLastCharacter := x
    accu := highTwo bytes * 64
    state := 2 } : Base64InputStream).setCanUnreadCharacter, .of_run ?_ rfl ended going h.fresh ?_ ?_⟩
  · rw [run]
    unfold Base64InputStream.decode
    rw [state, accu]
    dsimp only
    rw [high, low, ofNat_byte]
    rfl
  · exact .two ((congrArg letters streamRest).trans rest)
  · unfold Stumbles
    rw [state, parts]
    change NewlineInPair 3 stream.rest ↔ NewlineInPair 2 _
    rw [newlineInPair_letter newlines (by decide) letter, streamRest]

theorem Decodes.read_two (h : Decodes s (x :: bytes)) (state : s.state = 2)
    (accu : s.accu = highTwo (x :: bytes) * 64) (rest : letters s.stream.rest = encodingAfterTwo (x :: bytes)) :
    ∃ s', Gives s s' x bytes := by
  have ended : s.endOfBase64 = false := Bool.eq_false_iff.mpr fun beyond => nomatch h.ended beyond
  obtain ⟨skipped, behind, parts, newlines, letter, rest⟩ := letters_eq_cons rest
  obtain ⟨stream, skip, streamRest, last, going⟩ := StringInputStream.skip_cons newlines letter parts
  have run := filteredReadCharacter_of_skip h.fresh skip going last
  rw [b2t_digit _ (by omega), Option.bind_some] at run
  have whole : highTwo (x :: bytes) * 64 ||| x.toNat % 64 = x.toNat := by
    change x.toNat / 64 * 2 ^ 6 ||| _ = _
    rw [joined _ _ _ (by omega)]
    omega
  refine ⟨({ s with
    unreadBuffer := s.filteredLastCharacter
    stream
    filteredLastCharacter := x
    accu := x.toNat
    state := 0 } : Base64InputStream).setCanUnreadCharacter, .of_run ?_ rfl ended going h.fresh ?_ ?_⟩
  · rw [run]
    unfold Base64InputStream.decode
    rw [state, accu]
    dsimp only
    rw [whole, ofNat_byte]
    rfl
  · exact .zero _ ((congrArg letters streamRest).trans rest)
  · unfold Stumbles
    rw [state, parts]
    change NewlineInPair 0 stream.rest ↔ NewlineInPair 3 _
    rw [newlineInPair_letter newlines (by decide) letter, streamRest]

/-- A read gives the next byte, unless a newline stands in the next pair. -/
theorem Decodes.read (h : Decodes s (x :: bytes)) :
    (s.filteredReadCharacter = none ∧ Stumbles s) ∨ ∃ s', Gives s s' x bytes := by
  have awaits := h.awaits
  generalize state : s.state = k at awaits
  generalize accu : s.accu = value at awaits
  cases awaits with
  | zero _ rest => exact h.read_zero state rest
  | one rest => exact .inr (h.read_one state accu rest)
  | two rest => exact .inr (h.read_two state accu rest)

/-- At the end of the bytes, a read comes to the end of the input. -/
structure Ends (s s' : Base64InputStream) : Prop where
  run : s.filteredReadCharacter = some s'
  can : s'.canUnreadCharacter = false
  beyond : s'.endOfInput = true
  decodes : Decodes s' []

theorem Ends.of_padding {t : Base64InputStream} (run : s.filteredReadCharacter = some t.setCanUnreadCharacter)
    (base64 : t.endOfBase64 = true) (fresh : t.hasUnreadCharacter = false)
    (awaits : Awaits t.stream.rest t.state t.accu []) : Ends s t.setCanUnreadCharacter := by
  have beyond : t.endOfInput = true := by
    unfold Base64InputStream.endOfInput
    rw [base64]
    rfl
  exact ⟨run, congrArg Bool.not beyond, beyond, ⟨awaits, fresh, fun _ => rfl⟩⟩

theorem Decodes.read_end (h : Decodes s []) : ∃ s', Ends s s' := by
  have awaits := h.awaits
  generalize state : s.state = k at awaits
  generalize accu : s.accu = value at awaits
  cases awaits with
  | zero _ rest =>
    obtain ⟨stream, skip, streamRest, beyond⟩ := StringInputStream.skip_nil (letters_eq_nil rest)
    have ends : ({ s with unreadBuffer := s.filteredLastCharacter, stream } : Base64InputStream).endOfInput =
        true := by
      unfold Base64InputStream.endOfInput
      rw [beyond, Bool.or_true]
    refine ⟨({ s with unreadBuffer := s.filteredLastCharacter, stream } : Base64InputStream).setCanUnreadCharacter,
      ?_, congrArg Bool.not ends, ends, ⟨?_, h.fresh, fun _ => rfl⟩⟩
    · unfold Base64InputStream.filteredReadCharacter
      rw [if_neg (by rw [h.fresh]; decide), skip]
      simp only [Option.bind_eq_bind, Option.bind_some, beyond, if_true]
      rfl
    · change Awaits stream.rest s.state s.accu []
      rw [state, streamRest]
      exact .zero _ rfl
  | one rest =>
    obtain ⟨skipped, behind, parts, newlines, letter, rest⟩ := letters_eq_cons rest
    obtain ⟨stream, skip, streamRest, last, going⟩ := StringInputStream.skip_cons newlines letter parts
    have run := filteredReadCharacter_of_skip h.fresh skip going last
    refine ⟨({ s with
      unreadBuffer := s.filteredLastCharacter
      stream
      endOfBase64 := true
      filteredLastCharacter := UInt8.ofNat (s.accu ||| (0 >>> 2))
      accu := (0 &&& 3) <<< 6
      state := 2 } : Base64InputStream).setCanUnreadCharacter, .of_padding ?_ rfl h.fresh ?_⟩
    · rw [run]
      rw [state]
      rfl
    · change Awaits stream.rest 2 (highTwo [] * 64) []
      exact .two ((congrArg letters streamRest).trans rest)
  | two rest =>
    obtain ⟨skipped, behind, parts, newlines, letter, rest⟩ := letters_eq_cons rest
    obtain ⟨stream, skip, streamRest, last, going⟩ := StringInputStream.skip_cons newlines letter parts
    have run := filteredReadCharacter_of_skip h.fresh skip going last
    refine ⟨({ s with
      unreadBuffer := s.filteredLastCharacter
      stream
      endOfBase64 := true
      filteredLastCharacter := UInt8.ofNat (s.accu ||| 0)
      accu := s.accu ||| 0
      state := 0 } : Base64InputStream).setCanUnreadCharacter, .of_padding ?_ rfl h.fresh ?_⟩
    · rw [run]
      rw [state]
      rfl
    · exact .zero _ ((congrArg letters streamRest).trans rest)

/-- Where no byte is left, the decoder does not stumble. -/
theorem Decodes.not_stumbles (h : Decodes s []) : ¬Stumbles s := by
  have awaits := h.awaits
  unfold Stumbles
  generalize s.state = k at awaits
  generalize s.accu = value at awaits
  cases awaits with
  | zero _ rest => exact not_newlineInPair_of_newlines (letters_eq_nil rest) (by decide)
  | one rest =>
    obtain ⟨skipped, behind, parts, newlines, letter, rest⟩ := letters_eq_cons rest
    obtain ⟨skipped', behind', parts', newlines', letter', rest'⟩ := letters_eq_cons rest
    rw [parts]
    rw [newlineInPair_letter newlines (by decide) letter, parts',
      newlineInPair_letter newlines' (by decide) letter']
    exact not_newlineInPair_of_newlines (letters_eq_nil rest') (by decide)
  | two rest =>
    obtain ⟨skipped, behind, parts, newlines, letter, rest⟩ := letters_eq_cons rest
    rw [parts]
    rw [newlineInPair_letter newlines (by decide) letter]
    exact not_newlineInPair_of_newlines (letters_eq_nil rest) (by decide)

end Decoder

/-! ## A reader -/

/-- What a reader expects of the bytes: `position` tells how many of them it has got, and `canUnread`
whether the last thing it did was to read one. -/
def expected (bytes : List Character) : List ReaderCommand → ℕ → Bool → Option (List (Option Character))
  | [], _, _ => some []
  | .read :: commands, position, _ =>
    match bytes[position]? with
    | some c => do return some c :: (← expected bytes commands (position + 1) true)
    | none => do return none :: (← expected bytes commands position false)
  | .unread :: commands, position, canUnread =>
    if canUnread then expected bytes commands (position - 1) false else none

/-- The decoder stands where the reader does, perhaps with the last character unread. -/
inductive Follows (bytes : List Character) (s : Base64InputStream) : ℕ → Bool → Prop
  | fresh {position : ℕ} (decodes : Decodes s (bytes.drop position))
      (last : s.canUnreadCharacter = true → ∃ k, position = k + 1 ∧
        bytes[k]? = some s.filteredLastCharacter ∧ s.endOfInput = false) :
      Follows bytes s position s.canUnreadCharacter
  | unread {position : ℕ} (decodes : Decodes { s with hasUnreadCharacter := false } (bytes.drop (position + 1)))
      (has : s.hasUnreadCharacter = true) (can : s.canUnreadCharacter = false)
      (buffer : bytes[position]? = some s.unreadBuffer) (going : s.endOfInput = false) :
      Follows bytes s position false

section Reader

variable {s : Base64InputStream} {bytes : List Character} {position : ℕ} {canUnread : Bool}

/-- A decoder that does not stumble delivers what the reader expects. -/
theorem Follows.delivers_eq (commands : List ReaderCommand) (h : Follows bytes s position canUnread)
    (smooth : ¬Stumbles s) : s.delivers commands = expected bytes commands position canUnread := by
  induction commands generalizing s position canUnread with
  | nil => rfl
  | cons command commands ih =>
    cases command with
    | unread =>
      cases h with
      | fresh decodes last =>
        cases can : s.canUnreadCharacter with
        | false => rw [Base64InputStream.delivers, expected, can]; rfl
        | true =>
          obtain ⟨k, rfl, found, going⟩ := last can
          rw [Base64InputStream.delivers, expected, if_pos can, if_pos rfl]
          exact ih (.unread ⟨decodes.awaits, rfl, decodes.ended⟩ rfl rfl found going) smooth
      | unread decodes has can buffer going => rw [Base64InputStream.delivers, expected, can]; rfl
    | read =>
      cases h with
      | unread decodes has can buffer going =>
        have run : s.filteredReadCharacter =
            some { s with hasUnreadCharacter := false }.swapUnreadBuffer.setCanUnreadCharacter := if_pos has
        have can' : ({ s with hasUnreadCharacter := false } : Base64InputStream).swapUnreadBuffer.setCanUnreadCharacter.canUnreadCharacter =
            true := congrArg Bool.not going
        have follows : Follows bytes
            ({ s with hasUnreadCharacter := false } : Base64InputStream).swapUnreadBuffer.setCanUnreadCharacter
              (position + 1) true :=
          can' ▸ .fresh ⟨decodes.awaits, rfl, decodes.ended⟩ fun _ => ⟨position, rfl, buffer, going⟩
        have rest := ih follows smooth
        have going' : ({ s with hasUnreadCharacter := false } : Base64InputStream).swapUnreadBuffer.setCanUnreadCharacter.endOfInput =
            false := going
        rw [Base64InputStream.delivers, expected, run, buffer]
        simp only [Option.bind_eq_bind, Option.bind_some, rest, going']
        rfl
      | fresh decodes last =>
        rw [Base64InputStream.delivers, expected]
        cases left : bytes[position]? with
        | none =>
          have beyond : bytes.drop position = [] :=
            List.drop_eq_nil_of_le (List.getElem?_eq_none_iff.mp left)
          rw [beyond] at decodes
          obtain ⟨s', ends⟩ := decodes.read_end
          have follows : Follows bytes s' position false :=
            ends.can ▸ .fresh (beyond.symm ▸ ends.decodes) fun can => absurd (ends.can.symm.trans can) Bool.false_ne_true
          have rest := ih follows ends.decodes.not_stumbles
          rw [ends.run]
          simp only [Option.bind_eq_bind, Option.bind_some, rest, ends.beyond, if_true]
        | some c =>
          obtain ⟨less, here⟩ := List.getElem?_eq_some_iff.mp left
          rw [List.drop_eq_getElem_cons less, here] at decodes
          rcases decodes.read with ⟨-, stumbles⟩ | ⟨s', gives⟩
          · exact absurd stumbles smooth
          · have follows : Follows bytes s' (position + 1) true :=
              gives.can ▸ .fresh gives.decodes fun _ =>
                ⟨position, rfl, left.trans (congrArg some gives.last.symm), gives.going⟩
            have rest := ih follows fun stumbles => smooth (gives.stumbles.mp stumbles)
            rw [gives.run]
            simp only [Option.bind_eq_bind, Option.bind_some, rest, gives.going, gives.last]
            rfl

/-- A decoder that is to stumble fails in a sequence of reads. -/
theorem Decodes.fails (h : Decodes s bytes) (stumbles : Stumbles s) :
    ∃ n, s.delivers (List.replicate n .read) = none := by
  induction bytes generalizing s with
  | nil => exact absurd stumbles h.not_stumbles
  | cons x bytes ih =>
    rcases h.read with ⟨fails, -⟩ | ⟨s', gives⟩
    · refine ⟨1, ?_⟩
      rw [List.replicate_succ, Base64InputStream.delivers, fails]
      rfl
    · obtain ⟨n, fails⟩ := ih gives.decodes (gives.stumbles.mpr stumbles)
      refine ⟨n + 1, ?_⟩
      rw [List.replicate_succ, Base64InputStream.delivers, gives.run]
      simp only [Option.bind_eq_bind, Option.bind_some, fails]
      rfl

theorem expected_reads (bytes : List Character) (n position : ℕ) (canUnread : Bool) :
    ∃ characters, expected bytes (List.replicate n .read) position canUnread = some characters := by
  induction n generalizing position canUnread with
  | zero => exact ⟨[], rfl⟩
  | succ n ih =>
    rw [List.replicate_succ, expected]
    cases bytes[position]? with
    | none =>
      obtain ⟨characters, found⟩ := ih position false
      exact ⟨none :: characters, by rw [found]; rfl⟩
    | some c =>
      obtain ⟨characters, found⟩ := ih (position + 1) true
      exact ⟨some c :: characters, by rw [found]; rfl⟩

end Reader

/-- A fresh decoder that is connected to a text. -/
def decoder (text : List Character) : Base64InputStream :=
  .connectTo (.fromString text)

/-- **The encoder writes the encoding of the bytes; whatever newlines are inserted in it, and whenever
the reader unreads a character, the decoder gives the bytes back and then the end of the input, exactly
when no newline stands between the first and the second character of a group.** -/
theorem roundTrip_iff (bytes text : List Character) (inserted : letters text = encoding bytes) :
    encode bytes = some (encoding bytes) ∧
      ((∀ commands, (decoder text).delivers commands = expected bytes commands 0 false) ↔
        ¬NewlineInPair 0 text) := by
  have starts : Decodes (decoder text) bytes := ⟨.zero 0 inserted, rfl, fun beyond => nomatch beyond⟩
  refine ⟨encode_eq bytes, fun delivers stumbles => ?_, fun smooth commands => ?_⟩
  · obtain ⟨n, fails⟩ := starts.fails stumbles
    obtain ⟨characters, found⟩ := expected_reads bytes n 0 false
    rw [delivers, found] at fails
    cases fails
  · have follows : Follows bytes (decoder text) 0 false := .fresh starts fun can => nomatch can
    exact follows.delivers_eq commands smooth

/-- The bytes of "Man", with newlines after the first pair and at the end. -/
theorem roundTrip_newlines : encode [77, 97, 110] = some (encoding [77, 97, 110]) ∧
    ((∀ commands, (decoder [84, 87, 10, 70, 117, 10]).delivers commands =
      expected [77, 97, 110] commands 0 false) ↔ ¬NewlineInPair 0 [84, 87, 10, 70, 117, 10]) :=
  roundTrip_iff [77, 97, 110] [84, 87, 10, 70, 117, 10] (by decide +kernel)

/-- The bytes of "Man", with a newline inside of the first pair. -/
theorem delivers_newlineInPair : letters [84, 10, 87, 70, 117] = encoding [77, 97, 110] ∧
    (decoder [84, 10, 87, 70, 117]).delivers [.read] = none ∧
      expected [77, 97, 110] [.read] 0 false = some [some 77] :=
  ⟨by decide +kernel, by decide +kernel, by decide +kernel⟩

end Base64

end Liberty
