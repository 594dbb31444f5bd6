import Liberty.Parsing.DescendingTermination
import Liberty.Parsing.PackratParser

/-!
# When the packrat parser terminates

A parse that comes to a round of a repetition that matches and does not move forward never returns: the next
round finds a pack for each primary of the sequence, and all are the same again.  There is no other way not
to return for a grammar without left recursion.
-/

namespace Liberty

namespace Packrat

variable {κ ν ι ω : Type} [DecidableEq ν] [DecidableEq ω] {grammar : Grammar κ ν ι ω} {watched : Bool}

open Context (Sound Leaves)

namespace Grammar

/-! ## Rounds that stay at an index -/

/-- All that a round has left is as it was, but for the actions and the mark. -/
structure Stays (context : Context κ ν ι ω) (parsed : Parsed κ ν ι ω) : Prop where
  yes : parsed.result = .yes
  index : parsed.context.currentIndex = context.currentIndex
  data : parsed.context.data = context.data

/-- The primaries match at the index of the context without moving forward. -/
def Rests (primaries : List (Primary ω ν)) (context : Context κ ν ι ω) : Prop :=
  ∀ p ∈ primaries, context.Packed p context.currentIndex .yes context.currentIndex

variable {context : Context κ ν ι ω} {primary : Primary ω ν} {primaries : List (Primary ω ν)}

omit [DecidableEq ν] [DecidableEq ω] in
theorem Rests.of_stays {parsed : Parsed κ ν ι ω} (rests : Rests primaries context) (stays : Stays context parsed) :
    Rests primaries parsed.context := by
  intro p mem
  rw [Context.Packed, stays.index, stays.data]
  exact rests p mem

theorem stays_parse (fuel : ℕ) (inProgress : List (ν × ℕ))
    (packed : context.Packed primary context.currentIndex .yes context.currentIndex) :
    Yields (grammar.parse watched fuel inProgress primary context) (Stays context) := by
  cases fuel with
  | zero => exact .error
  | succ fuel =>
    obtain ⟨pack, found, yes, memo⟩ := packed
    rw [parse_packed fuel inProgress found]
    obtain ⟨result, -, index, data⟩ := usePack_fields pack
      ((context.restore pack.memo).append (pack.actions.getD []))
    rw [Context.restore_eq] at result index data ⊢
    exact .pure ⟨result.trans yes, index.trans memo, data⟩

theorem stays_parseAll (fuel : ℕ) (inProgress : List (ν × ℕ)) (rests : Rests primaries context) :
    Yields (parseAll (grammar.parse watched fuel inProgress) primaries context) (Stays context) := by
  induction primaries generalizing context with
  | nil => exact .pure ⟨rfl, rfl, rfl⟩
  | cons primary primaries ih =>
    refine (stays_parse fuel inProgress (rests primary List.mem_cons_self)).bind fun parsed stays => ?_
    rw [if_pos stays.yes]
    have others : Rests primaries context := fun p mem => rests p (List.mem_cons_of_mem _ mem)
    refine (ih (others.of_stays stays)).mono fun last rest => ?_
    exact ⟨rest.yes, rest.index.trans stays.index, rest.data.trans stays.data⟩

theorem stays_doParse (fuel : ℕ) (inProgress : List (ν × ℕ)) (object : ω) (rests : Rests primaries context) :
    Yields (doParse (grammar.parse watched fuel inProgress) object primaries context) (Stays context) := by
  refine (stays_parseAll fuel inProgress rests).bind fun parsed stays => ?_
  rw [if_pos stays.yes]
  exact .pure ⟨rfl, stays.index, stays.data⟩

/-- The rounds of a repetition go on for ever when they stay at an index. -/
theorem repeatParse_ne_ok (fuel : ℕ) (inProgress : List (ν × ℕ)) (object : ω) (rests : Rests primaries context)
    (rounds : ℕ) (result : Tristate) (parsed : Parsed κ ν ι ω) :
    repeatParse false (doParse (grammar.parse watched fuel inProgress) object primaries) rounds result context ≠
      .ok parsed := by
  suffices none : Yields (repeatParse false (doParse (grammar.parse watched fuel inProgress) object primaries) rounds
      result context) fun _ => False from fun run => none parsed run
  induction rounds generalizing result context with
  | zero => exact .error
  | succ rounds ih =>
    refine (stays_doParse fuel inProgress object rests).bind fun parsed stays => ?_
    rw [if_pos stays.yes, if_neg fun both => Bool.false_ne_true both.1]
    exact ih (rests.of_stays stays) .yes

/-- A round that matches and does not move forward leaves packs that say so. -/
theorem rests_parseAll (fuel : ℕ) (inProgress : List (ν × ℕ)) (sound : context.Sound) :
    Yields (parseAll (grammar.parse watched fuel inProgress) primaries context) fun parsed =>
      parsed.result = .yes → parsed.context.currentIndex = context.currentIndex → Rests primaries parsed.context := by
  induction primaries generalizing context with
  | nil => exact .pure fun _ _ _ none => nomatch none
  | cons primary primaries ih =>
    refine (parses_parse fuel inProgress primary sound).bind fun parsed parses => ?_
    split
    · rename_i yes
      intro last run
      have leaves := (leaving_parse fuel inProgress).parseAll primaries parses.leaves.sound last run
      intro yes' still
      have ahead := parses.leaves.ahead
      have ahead' := leaves.ahead
      have middle : parsed.context.currentIndex = context.currentIndex := by omega
      have others := ih parses.leaves.sound last run yes' (still.trans middle.symm)
      intro p mem
      rcases List.mem_cons.mp mem with rfl | mem
      · have packed := parses.packed.later leaves
        rwa [yes, middle, ← still] at packed
      · exact others p mem
    · rename_i no
      exact .pure fun yes => absurd yes no

theorem rests_doParse (fuel : ℕ) (inProgress : List (ν × ℕ)) (object : ω) (sound : context.Sound) :
    Yields (doParse (grammar.parse watched fuel inProgress) object primaries context) fun parsed =>
      parsed.result = .yes → parsed.context.currentIndex = context.currentIndex → Rests primaries parsed.context := by
  refine (rests_parseAll fuel inProgress sound).bind fun parsed rests => ?_
  split
  · rename_i yes
    exact .pure fun _ still => rests yes still
  · rename_i no
    exact .pure fun yes => absurd yes no

end Grammar

/-! ## The parse that is watched and the other one -/

section Agrees

variable {excused : Stop → Prop} {call call' : Primary ω ν → Context κ ν ι ω → Outcome (Parsed κ ν ι ω)}
variable {context : Context κ ν ι ω}

/-- The calls of the one follow those of the other. -/
def Agrees (excused : Stop → Prop) (call call' : Primary ω ν → Context κ ν ι ω → Outcome (Parsed κ ν ι ω)) : Prop :=
  ∀ primary context, context.Sound → Follows excused (call primary context) (call' primary context)

omit [DecidableEq ν] [DecidableEq ω]

theorem Agrees.parseAll (agrees : Agrees excused call call') (leaving : Leaving call') (primaries : List (Primary ω ν))
    (sound : context.Sound) : Follows excused (parseAll call primaries context) (parseAll call' primaries context) := by
  induction primaries generalizing context with
  | nil => exact .refl _
  | cons primary primaries ih =>
    refine (agrees primary context sound).bind fun parsed run => ?_
    have leaves := leaving primary context sound parsed run
    exact .ite (fun _ => ih leaves.sound) fun _ => .refl _

theorem Agrees.doParse (agrees : Agrees excused call call') (leaving : Leaving call') (object : ω)
    (primaries : List (Primary ω ν)) (sound : context.Sound) :
    Follows excused (doParse call object primaries context) (doParse call' object primaries context) :=
  (agrees.parseAll leaving primaries sound).bind fun _ _ => .refl _

theorem Agrees.parseChoice (agrees : Agrees excused call call') (leaving : Leaving call')
    (alternatives : List (Primary ω ν)) (sound : context.Sound) :
    Follows excused (parseChoice call alternatives context) (parseChoice call' alternatives context) := by
  induction alternatives generalizing context with
  | nil => exact .refl _
  | cons alternative alternatives ih =>
    refine (agrees alternative context sound).bind fun parsed run => ?_
    have leaves := leaving alternative context sound parsed run
    exact .ite (fun _ => ih leaves.sound) fun _ => .refl _

variable [DecidableEq ν] in
/-- The patterns agree when the calls do, the repetitions and the atoms. -/
theorem Agrees.packParse {grammar : Grammar κ ν ι ω} {watched watched' : Bool} {rounds rounds' : ℕ}
    {calls calls' : List (ν × ℕ) → Primary ω ν → Context κ ν ι ω → Outcome (Parsed κ ν ι ω)}
    (inProgress inProgress' : List (ν × ℕ)) (agrees : Agrees excused (calls inProgress) (calls' inProgress'))
    (leaving : Leaving (calls' inProgress'))
    (repetitions : ∀ object primaries result, Follows excused
      (repeatParse watched (Packrat.doParse (calls inProgress) object primaries) rounds result context)
      (repeatParse watched' (Packrat.doParse (calls' inProgress') object primaries) rounds' result context))
    (atoms : ∀ name, Follows excused (grammar.parseAtom watched calls inProgress name context)
      (grammar.parseAtom watched' calls' inProgress' name context))
    (primary : Primary ω ν) (sound : context.Sound) :
    Follows excused (grammar.packParse watched calls rounds inProgress primary context)
      (grammar.packParse watched' calls' rounds' inProgress' primary context) := by
  cases primary with
  | reference object name => exact atoms name
  | sequence object primaries howMany =>
    cases howMany with
    | one => exact agrees.doParse leaving object primaries sound
    | zeroOrOne => exact (agrees.doParse leaving object primaries sound).bind fun _ _ => .refl _
    | zeroOrMore => exact repetitions object primaries .yes
    | oneOrMore => exact repetitions object primaries .no
  | choice object alternatives => exact agrees.parseChoice leaving alternatives sound
  | and object primary => exact (agrees primary context sound).bind fun _ _ => .refl _
  | not object primary => exact (agrees primary context sound).bind fun _ _ => .refl _

end Agrees

namespace Grammar

variable {context : Context κ ν ι ω} {excused : Stop → Prop}

/-- The parses agree when what they do without a pack does. -/
theorem follows_parse_succ {watched watched' : Bool} {fuel fuel' : ℕ} {inProgress inProgress' : List (ν × ℕ)}
    {primary : Primary ω ν}
    (unpacked : Follows excused
      (grammar.packParse watched (grammar.parse watched fuel) fuel inProgress primary { context with actions := [] })
      (grammar.packParse watched' (grammar.parse watched' fuel') fuel' inProgress' primary
        { context with actions := [] })) :
    Follows excused (grammar.parse watched (fuel + 1) inProgress primary context)
      (grammar.parse watched' (fuel' + 1) inProgress' primary context) := by
  cases found : context.data primary.object context.currentIndex with
  | some pack =>
    rw [parse_packed fuel inProgress found, parse_packed fuel' inProgress' found]
    exact .refl _
  | none =>
    rw [parse_unpacked fuel inProgress found, parse_unpacked fuel' inProgress' found]
    exact unpacked.bind fun _ _ => .refl _

omit [DecidableEq ν] [DecidableEq ω] in
/-- The repetition returns what the watched one does. -/
theorem follows_repeatParse {doParse doParse' : Context κ ν ι ω → Outcome (Parsed κ ν ι ω)}
    (agrees : ∀ context, context.Sound → Follows (fun _ => False) (doParse context) (doParse' context))
    (leaving : ∀ context, context.Sound → Yields (doParse' context) fun parsed => context.Leaves parsed.context)
    (rounds : ℕ) (result : Tristate) (sound : context.Sound) :
    Follows (fun _ => False) (repeatParse false doParse rounds result context)
      (repeatParse true doParse' rounds result context) := by
  induction rounds generalizing result context with
  | zero => exact .of_error
  | succ rounds ih =>
    refine (agrees context sound).bind fun parsed run => ?_
    have leaves := leaving context sound parsed run
    refine .ite (fun _ => ?_) fun _ => .refl _
    rw [if_neg fun both => Bool.false_ne_true both.1]
    split
    · exact .of_error
    · exact ih .yes leaves.sound

section Atoms

variable {calls calls' : List (ν × ℕ) → Primary ω ν → Context κ ν ι ω → Outcome (Parsed κ ν ι ω)}

omit [DecidableEq ω]

theorem follows_parseAtom (agrees : ∀ inProgress inProgress', Agrees excused (calls inProgress) (calls' inProgress'))
    (inProgress inProgress' : List (ν × ℕ)) (name : ν) (sound : context.Sound) :
    Follows excused (grammar.parseAtom false calls inProgress name context)
      (grammar.parseAtom true calls' inProgress' name context) := by
  unfold parseAtom
  split
  · exact .of_error
  · exact .refl _
  · rw [if_neg fun both => Bool.false_ne_true both.1]
    split
    · exact .of_error
    · exact agrees _ _ _ _ sound

theorem watched_parseAtom (excuses : excused .nested)
    (agrees : ∀ inProgress inProgress', Agrees excused (calls inProgress) (calls' inProgress'))
    (inProgress inProgress' : List (ν × ℕ)) (name : ν) (sound : context.Sound) :
    Follows excused (grammar.parseAtom true calls inProgress name context)
      (grammar.parseAtom false calls' inProgress' name context) := by
  unfold parseAtom
  split
  · exact .of_error
  · exact .refl _
  · rw [if_neg (fun both : false = true ∧ _ => Bool.false_ne_true both.1)]
    split
    · exact .stopped excuses
    · exact agrees _ _ _ _ sound

end Atoms

/-- The parse returns what the watched one does. -/
theorem follows_watched (fuel : ℕ) (inProgress inProgress' : List (ν × ℕ)) :
    Agrees (fun _ => False) (grammar.parse false fuel inProgress) (grammar.parse true fuel inProgress') := by
  induction fuel generalizing inProgress inProgress' with
  | zero => exact fun _ _ _ => .of_error
  | succ fuel ih =>
    intro primary context sound
    have cleared : { context with actions := [] }.Sound := sound.of_fields rfl sound.inside rfl
    have agrees := ih inProgress inProgress'
    have leaving : Leaving (grammar.parse true fuel inProgress') := leaving_parse fuel inProgress'
    refine follows_parse_succ (agrees.packParse inProgress inProgress' leaving
      (fun object primaries result => ?_) (fun name => ?_) primary cleared)
    · exact follows_repeatParse (fun _ => agrees.doParse leaving object primaries)
        (fun _ => leaving.doParse object primaries) fuel result cleared
    · exact follows_parseAtom ih inProgress inProgress' name cleared

/-- A repetition that returns is not stopped when it is watched, for a round that stays at an index would
have been followed by others for ever. -/
theorem watched_repeatParse (fuel : ℕ) {call : Primary ω ν → Context κ ν ι ω → Outcome (Parsed κ ν ι ω)}
    (inProgress : List (ν × ℕ)) (agrees : Agrees (· ≠ .still) call (grammar.parse false fuel inProgress)) (object : ω)
    (primaries : List (Primary ω ν)) (rounds rounds' : ℕ) (result : Tristate) (sound : context.Sound) :
    Follows (· ≠ .still) (repeatParse true (doParse call object primaries) rounds result context)
      (repeatParse false (doParse (grammar.parse false fuel inProgress) object primaries) rounds' result context) := by
  have leaving : Leaving (grammar.parse false fuel inProgress) := leaving_parse fuel inProgress
  induction rounds' generalizing rounds result context with
  | zero => exact .of_error
  | succ rounds' ih =>
    cases rounds with
    | zero => exact .stopped fun same => nomatch same
    | succ rounds =>
      refine (agrees.doParse leaving object primaries sound).bind fun parsed run => ?_
      have leaves := leaving.doParse object primaries sound parsed run
      refine .ite (fun yes => ?_) fun _ => .refl _
      split
      · rename_i still
        have rests := rests_doParse fuel inProgress object sound parsed run yes still.2
        exact .of_ne (repeatParse_ne_ok fuel inProgress object rests rounds' .yes)
      · exact ih rounds .yes leaves.sound

/-- A parse that returns is not stopped for a round that stays at an index when it is watched. -/
theorem watched_follows (fuel fuel' : ℕ) (inProgress inProgress' : List (ν × ℕ)) :
    Agrees (· ≠ .still) (grammar.parse true fuel inProgress) (grammar.parse false fuel' inProgress') := by
  induction fuel' generalizing fuel inProgress inProgress' with
  | zero => exact fun _ _ _ => .of_error
  | succ fuel' ih =>
    cases fuel with
    | zero => exact fun _ _ _ => .stopped fun same => nomatch same
    | succ fuel =>
      intro primary context sound
      have cleared : { context with actions := [] }.Sound := sound.of_fields rfl sound.inside rfl
      have agrees := ih fuel inProgress inProgress'
      have leaving : Leaving (grammar.parse false fuel' inProgress') := leaving_parse fuel' inProgress'
      refine follows_parse_succ (agrees.packParse inProgress inProgress' leaving
        (fun object primaries result => ?_) (fun name => ?_) primary cleared)
      · exact watched_repeatParse fuel' inProgress' agrees object primaries fuel fuel' result cleared
      · exact watched_parseAtom (fun same => nomatch same) (ih fuel) inProgress inProgress' name cleared

end Grammar

/-! ## The parse that is watched comes to an end -/

section Settles

variable {call : ℕ → Primary ω ν → Context κ ν ι ω → Outcome (Parsed κ ν ι ω)} {start context : Context κ ν ι ω}

omit [DecidableEq ν] [DecidableEq ω]

theorem settles_parseAll (leaving : ∀ fuel, Leaving (call fuel)) (primaries : List (Primary ω ν))
    (ends : ∀ p ∈ primaries, ∀ c, start.Leaves c → Settles .unfinished fun fuel => call fuel p c)
    (here : start.Leaves context) : Settles .unfinished fun fuel => parseAll (call fuel) primaries context := by
  induction primaries generalizing context with
  | nil => exact .pure _
  | cons primary primaries ih =>
    refine (ends primary List.mem_cons_self context here).bind fun fuel parsed run => ?_
    have leaves := leaving fuel primary context here.sound parsed run
    refine .ite (fun _ => ?_) fun _ => .pure _
    exact ih (fun p mem => ends p (List.mem_cons_of_mem _ mem)) (here.trans leaves)

theorem settles_doParse (leaving : ∀ fuel, Leaving (call fuel)) (object : ω) (primaries : List (Primary ω ν))
    (ends : ∀ p ∈ primaries, ∀ c, start.Leaves c → Settles .unfinished fun fuel => call fuel p c)
    (here : start.Leaves context) : Settles .unfinished fun fuel => doParse (call fuel) object primaries context :=
  (settles_parseAll leaving primaries ends here).bind fun _ _ _ => .ite (fun _ => .pure _) fun _ => .pure _

theorem settles_parseChoice (leaving : ∀ fuel, Leaving (call fuel)) (alternatives : List (Primary ω ν))
    (ends : ∀ p ∈ alternatives, ∀ c, start.Leaves c → Settles .unfinished fun fuel => call fuel p c)
    (here : start.Leaves context) : Settles .unfinished fun fuel => parseChoice (call fuel) alternatives context := by
  induction alternatives generalizing context with
  | nil => exact .pure _
  | cons alternative alternatives ih =>
    refine (ends alternative List.mem_cons_self context here).bind fun fuel parsed run => ?_
    have leaves := leaving fuel alternative context here.sound parsed run
    refine .ite (fun _ => ?_) fun _ => .pure _
    exact ih (fun p mem => ends p (List.mem_cons_of_mem _ mem)) (here.trans leaves)

/-- Each round of a repetition moves forward or is the last one. -/
theorem settles_repeatParse {body : ℕ → Context κ ν ι ω → Outcome (Parsed κ ν ι ω)}
    (leaving : ∀ fuel context, context.Sound → Yields (body fuel context) fun parsed => context.Leaves parsed.context)
    (ends : ∀ c, start.Leaves c → Settles .unfinished fun fuel => body fuel c) (result : Tristate) (done : ℕ)
    (here : start.Leaves context) :
    Settles .unfinished fun fuel => repeatParse true (body fuel) (fuel - done) result context := by
  generalize remaining : context.text.length + 1 - context.currentIndex = r
  induction r using Nat.strongRecOn generalizing result done context with
  | _ r ih =>
    have round : Settles .unfinished fun fuel => (do
        let parsed ← body fuel context
        if parsed.result = .yes then
          if true = true ∧ parsed.context.currentIndex = context.currentIndex then throw .still
          else repeatParse true (body fuel) (fuel - (done + 1)) .yes parsed.context
        else return ⟨result, parsed.context⟩ : Outcome (Parsed κ ν ι ω)) := by
      refine (ends context here).bind fun fuel parsed run => ?_
      have leaves := leaving fuel context here.sound parsed run
      refine .ite (fun _ => .ite (fun _ => .const fun same => nomatch same) fun moves => ?_) fun _ => .pure _
      refine ih _ ?_ .yes (done + 1) (here.trans leaves) rfl
      have ahead := leaves.ahead
      have inside := leaves.sound.inside
      have forward : parsed.context.currentIndex ≠ context.currentIndex := fun same => moves ⟨rfl, same⟩
      rw [leaves.text] at inside ⊢
      omega
    refine .congr_from (done + 1) round fun fuel le => ?_
    obtain ⟨rounds, same⟩ : ∃ n, fuel - done = n + 1 := ⟨fuel - done - 1, by omega⟩
    have next : fuel - (done + 1) = rounds := by omega
    rw [same, next, repeatParse]

theorem settles_parseSequence (leaving : ∀ fuel, Leaving (call fuel)) (object : ω) (primaries : List (Primary ω ν))
    (howMany : HowMany)
    (ends : ∀ p ∈ primaries, ∀ c, start.Leaves c → Settles .unfinished fun fuel => call fuel p c)
    (here : start.Leaves context) :
    Settles .unfinished fun fuel => parseSequence (call fuel) true fuel object primaries howMany context := by
  have once : ∀ c, start.Leaves c → Settles .unfinished fun fuel => doParse (call fuel) object primaries c :=
    fun c => settles_doParse leaving object primaries ends
  have leaves : ∀ fuel context, context.Sound →
      Yields (doParse (call fuel) object primaries context) fun parsed => context.Leaves parsed.context :=
    fun fuel context sound => (leaving fuel).doParse object primaries sound
  cases howMany with
  | one => exact once context here
  | zeroOrOne => exact (once context here).bind fun _ _ _ => .pure _
  | zeroOrMore => exact settles_repeatParse leaves once .yes 0 here
  | oneOrMore => exact settles_repeatParse leaves once .no 0 here

end Settles

namespace Grammar

variable {context : Context κ ν ι ω}

omit [DecidableEq ω] in
theorem free_cons_lt {name : ν} {index : ℕ} {inProgress : List (ν × ℕ)} (known : grammar.Has name)
    (new : (name, index) ∉ inProgress) :
    (grammar.free ((name, index) :: inProgress) index).length < (grammar.free inProgress index).length := by
  have less : grammar.free ((name, index) :: inProgress) index =
      (grammar.free inProgress index).filter fun other => other ≠ name := by
    unfold free
    rw [List.filter_filter]
    refine List.filter_congr fun other _ => ?_
    by_cases same : other = name <;> simp [same]
  rw [less, List.length_filter_lt_length_iff_exists]
  obtain ⟨atom, item⟩ := known
  obtain ⟨before, after, split, -⟩ := List.lookup_eq_some_iff.mp item
  refine ⟨name, List.mem_filter.mpr ⟨?_, by simpa using new⟩, by simp⟩
  rw [split]
  simp

theorem settles_parseAtom (coherent : grammar.IsCoherent) (inProgress : List (ν × ℕ)) {name : ν}
    (known : grammar.Has name)
    (ends : ∀ pattern, grammar.item name = some (.nonTerminal pattern) → (name, context.currentIndex) ∉ inProgress →
      pattern.IsCoherent grammar.Has → Settles .unfinished fun fuel =>
        grammar.parse true fuel ((name, context.currentIndex) :: inProgress) pattern context) :
    Settles .unfinished fun fuel => grammar.parseAtom true (grammar.parse true fuel) inProgress name context := by
  obtain ⟨atom, item⟩ := known
  unfold parseAtom
  rw [item]
  cases atom with
  | terminal terminal => exact .pure _
  | nonTerminal pattern =>
    refine .ite (fun _ => .const fun same => nomatch same) fun new => ?_
    exact ends pattern item (fun mem => new ⟨rfl, mem⟩) (coherent name pattern item)

theorem settles_of_packParse (inProgress : List (ν × ℕ)) {primary : Primary ω ν}
    (h : Settles .unfinished fun fuel =>
      grammar.packParse true (grammar.parse true fuel) fuel inProgress primary { context with actions := [] }) :
    Settles .unfinished fun fuel => grammar.parse true fuel inProgress primary context := by
  refine .of_succ ?_
  cases found : context.data primary.object context.currentIndex with
  | some pack =>
    simp only [parse_packed _ inProgress found]
    exact .pure _
  | none =>
    simp only [parse_unpacked _ inProgress found]
    exact h.bind fun _ _ _ => .pure _

/-- The parse of a primary settles when the parses do that begin further in the text, or at the same index with
one atom more in progress. -/
theorem settles_of_further (start : Context κ ν ι ω) (coherent : grammar.IsCoherent) (inProgress : List (ν × ℕ)) {primary : Primary ω ν}
    (parts : primary.IsCoherent grammar.Has)
    (further : ∀ p (c : Context κ ν ι ω), p.IsCoherent grammar.Has → c.Sound → c.text = start.text →
      start.currentIndex < c.currentIndex → Settles .unfinished fun fuel => grammar.parse true fuel inProgress p c)
    (deeper : ∀ name pattern (c : Context κ ν ι ω), pattern.IsCoherent grammar.Has → c.Sound → c.text = start.text →
      c.currentIndex = start.currentIndex → grammar.Has name → (name, start.currentIndex) ∉ inProgress →
      Settles .unfinished fun fuel => grammar.parse true fuel ((name, start.currentIndex) :: inProgress) pattern c)
    (sound : context.Sound) (text : context.text = start.text) (index : context.currentIndex = start.currentIndex) :
    Settles .unfinished fun fuel => grammar.parse true fuel inProgress primary context := by
  -- A part is parsed where the pattern began, or further in the text.
  have later {p : Primary ω ν} (whole : p.IsCoherent grammar.Has)
      (ih : ∀ {c : Context κ ν ι ω}, c.Sound → c.text = start.text → c.currentIndex = start.currentIndex →
        Settles .unfinished fun fuel => grammar.parse true fuel inProgress p c)
      (here : Context κ ν ι ω) {c : Context κ ν ι ω} (same : here.text = start.text) (began : here.currentIndex = start.currentIndex)
      (leaves : here.Leaves c) : Settles .unfinished fun fuel => grammar.parse true fuel inProgress p c := by
    have ahead := leaves.ahead
    by_cases still : c.currentIndex = start.currentIndex
    · exact ih leaves.sound (leaves.text.trans same) still
    · exact further p c whole leaves.sound (leaves.text.trans same) (by omega)
  have leaving : ∀ fuel, Leaving (grammar.parse true fuel inProgress) := fun fuel => leaving_parse fuel inProgress
  have cleared {c : Context κ ν ι ω} (sound : c.Sound) : { c with actions := [] }.Sound :=
    sound.of_fields rfl sound.inside rfl
  induction parts generalizing context with
  | reference known =>
    refine settles_of_packParse inProgress (settles_parseAtom coherent inProgress known ?_)
    intro pattern item new whole
    rw [index] at new
    have deep := deeper _ pattern { context with actions := [] } whole (cleared sound) text index known new
    rwa [← index] at deep
  | sequence all ih =>
    refine settles_of_packParse inProgress (settles_parseSequence leaving _ _ _ (fun p mem c leaves => ?_)
      (.refl (cleared sound)))
    exact later (all p mem) (ih p mem) { context with actions := [] } text index leaves
  | choice all ih =>
    refine settles_of_packParse inProgress (settles_parseChoice leaving _ (fun p mem c leaves => ?_)
      (.refl (cleared sound)))
    exact later (all p mem) (ih p mem) { context with actions := [] } text index leaves
  | and whole ih =>
    refine settles_of_packParse inProgress (.bind ?_ fun _ _ _ => .pure _)
    exact later whole ih { context with actions := [] } text index (.refl (cleared sound))
  | not whole ih =>
    refine settles_of_packParse inProgress (.bind ?_ fun _ _ _ => .pure _)
    exact later whole ih { context with actions := [] } text index (.refl (cleared sound))

/-- With enough fuel the watched parse of a primary returns, or it is stopped. -/
theorem settles_parse (coherent : grammar.IsCoherent) (inProgress : List (ν × ℕ)) {primary : Primary ω ν}
    (parts : primary.IsCoherent grammar.Has) (sound : context.Sound) :
    Settles .unfinished fun fuel => grammar.parse true fuel inProgress primary context := by
  generalize remaining : context.text.length + 1 - context.currentIndex = r
  induction r using Nat.strongRecOn generalizing inProgress primary context with
  | _ r further =>
    generalize count : (grammar.free inProgress context.currentIndex).length = n
    induction n using Nat.strongRecOn generalizing inProgress primary context with
    | _ n deeper =>
      refine settles_of_further context coherent inProgress parts ?_ ?_ sound rfl rfl
      · intro p c whole sound' text ahead
        have inside := sound'.inside
        exact further _ (by rw [text] at inside ⊢; omega) inProgress whole sound' rfl
      · intro name pattern c whole sound' text index known new
        have less := free_cons_lt known new
        refine deeper _ ?_ _ whole sound' (by rw [text, index]; exact remaining) rfl
        rw [index]
        omega

/-! ## Termination -/

omit [DecidableEq ν] [DecidableEq ω] in
theorem sound_make (text : List κ) (currentIndex : ℕ) (marked : Bool) (actions : List (Action ν ι ω))
    (inside : currentIndex ≤ text.length + 1) : (Context.make text currentIndex marked actions).Sound :=
  ⟨inside, fun _ _ _ none => nomatch none⟩

/-- The packrat parser terminates, where it comes to no non-terminal again that it is parsing at the same index,
if and only if it comes to no round of a repetition that matches and does not move forward. -/
theorem returns_iff (coherent : grammar.IsCoherent) {start : ν} (known : grammar.Has start) (text : List κ)
    (currentIndex : ℕ) (marked : Bool) (actions : List (Action ν ι ω)) (inside : currentIndex ≤ text.length + 1)
    (noLeftRecursion : ∀ fuel,
      grammar.parseStart true fuel start text currentIndex marked actions ≠ .error .nested) :
    (∃ fuel parsed, grammar.parseStart false fuel start text currentIndex marked actions = .ok parsed) ↔
      ∀ fuel, grammar.parseStart true fuel start text currentIndex marked actions ≠ .error .still := by
  have sound := sound_make (ν := ν) (ι := ι) (ω := ω) text currentIndex marked actions inside
  constructor
  · intro ⟨fuel', parsed, run⟩ fuel
    have follows : Follows (· ≠ .still) (grammar.parseStart true fuel start text currentIndex marked actions)
        (grammar.parseStart false fuel' start text currentIndex marked actions) :=
      watched_parseAtom (fun same => nomatch same) (watched_follows fuel fuel') [] [] start sound
    exact follows.ne_error run fun differs => differs rfl
  · intro moves
    have settles := settles_parseAtom coherent [] known fun pattern _ _ parts => settles_parse coherent _ parts sound
    obtain ⟨fuel, parsed, run⟩ := settles.returns fun fuel e stop => by
      cases e with
      | unfinished => rfl
      | nested => exact absurd stop (noLeftRecursion fuel)
      | still => exact absurd stop (moves fuel)
    have follows : Follows (fun _ => False) (grammar.parseStart false fuel start text currentIndex marked actions)
        (grammar.parseStart true fuel start text currentIndex marked actions) :=
      follows_parseAtom (follows_watched fuel) [] [] start sound
    exact ⟨fuel, parsed, follows.ok run⟩

/-! ## Letters, and letters that may be missing -/

/-- The atom 0 is `a*`, the atom 1 a letter. -/
def letters : Grammar Bool ℕ Unit ℕ where
  atoms := [(0, .nonTerminal (.sequence 0 [.reference 1 1] .zeroOrMore)), (1, .terminal ParseTable.letter)]

/-- The atom 0 is `(a?)*`, the atom 1 a letter. -/
def missingLetters : Grammar Bool ℕ Unit ℕ where
  atoms := [(0, .nonTerminal (.sequence 0 [.sequence 1 [.reference 2 1] .zeroOrOne] .zeroOrMore)),
    (1, .terminal ParseTable.letter)]

theorem coherent_letters : letters.IsCoherent := by
  intro name pattern item
  match name with
  | 0 =>
    cases item
    refine .sequence fun p mem => ?_
    rw [List.mem_singleton.mp mem]
    exact .reference ⟨_, rfl⟩
  | 1 => cases item
  | n + 2 => cases item

theorem coherent_missingLetters : missingLetters.IsCoherent := by
  intro name pattern item
  match name with
  | 0 =>
    cases item
    refine .sequence fun p mem => ?_
    rw [List.mem_singleton.mp mem]
    refine .sequence fun p mem => ?_
    rw [List.mem_singleton.mp mem]
    exact .reference ⟨_, rfl⟩
  | 1 => cases item
  | n + 2 => cases item

theorem letters_ne_nested (fuel : ℕ) : letters.parseStart true fuel 0 [true] 1 false [] ≠ .error .nested := by
  match fuel with
  | 0 => exact fun same => nomatch same
  | 1 => exact fun same => nomatch same
  | 2 => exact fun same => nomatch same
  | fuel + 3 => exact fun same => nomatch same

theorem missingLetters_ne_nested (fuel : ℕ) : missingLetters.parseStart true fuel 0 [] 1 false [] ≠ .error .nested := by
  match fuel with
  | 0 => exact fun same => nomatch same
  | 1 => exact fun same => nomatch same
  | 2 => exact fun same => nomatch same
  | fuel + 3 => exact fun same => nomatch same

theorem returns_iff_letters :
    (∃ fuel parsed, letters.parseStart false fuel 0 [true] 1 false [] = .ok parsed) ↔
      ∀ fuel, letters.parseStart true fuel 0 [true] 1 false [] ≠ .error .still :=
  returns_iff coherent_letters ⟨_, rfl⟩ [true] 1 false [] (by decide) letters_ne_nested

/-- An optional letter that is repeated: the parse of the empty text never returns. -/
theorem not_returns_missingLetters :
    missingLetters.IsCoherent ∧ (∀ fuel, missingLetters.parseStart true fuel 0 [] 1 false [] ≠ .error .nested) ∧
      ∀ fuel parsed, missingLetters.parseStart false fuel 0 [] 1 false [] ≠ .ok parsed := by
  refine ⟨coherent_missingLetters, missingLetters_ne_nested, fun fuel parsed run => ?_⟩
  have sound : (Context.make (ν := ℕ) (ι := Unit) (ω := ℕ) ([] : List Bool) 1 false []).Sound := sound_make [] 1 false [] (by decide)
  have follows : Follows (· ≠ .still) (missingLetters.parseStart true 3 0 [] 1 false [])
      (missingLetters.parseStart false fuel 0 [] 1 false []) :=
    watched_parseAtom (fun same => nomatch same) (watched_follows 3 fuel) [] [] 0 sound
  exact follows.ne_error run (fun differs => differs rfl) rfl

/-! ## A primary that is met again -/

/-- **A primary that is met again at an index is not parsed again.**  Whatever has been parsed since,
its pack gives the result and the end of its first parse; but the actions of that parse come twice. -/
theorem parse_again {primary : Primary ω ν} {context : Context κ ν ι ω} {parsed : Parsed κ ν ι ω}
    {fuel : ℕ} {inProgress : List (ν × ℕ)}
    (first : context.data primary.object context.currentIndex = none)
    (run : grammar.parse watched fuel inProgress primary context = .ok parsed)
    {later : Context κ ν ι ω} (leaves : parsed.context.Leaves later) {aMemo : ContextMemo}
    (back : aMemo.memo = context.currentIndex) (fuel' : ℕ) (inProgress' : List (ν × ℕ)) :
    ∃ added again, parsed.context.actions = context.actions ++ added ∧
      grammar.parse watched (fuel' + 1) inProgress' primary (later.restore aMemo) = .ok again ∧
      again.result = parsed.result ∧ again.context.currentIndex = parsed.context.currentIndex ∧
      again.context.actions = later.actions ++ (added ++ added) := by
  cases fuel with
  | zero => cases run
  | succ fuel =>
    rw [parse_unpacked fuel inProgress first] at run
    cases inner : grammar.packParse watched (grammar.parse watched fuel) fuel inProgress primary
        { context with actions := [] } with
    | error stop =>
      rw [inner] at run
      cases run
    | ok p =>
      rw [inner] at run
      cases run
      obtain ⟨result, -, index, data⟩ := usePack_fields (Pack.make p.result p.context)
        { p.context.setPack primary context.currentIndex (Pack.make p.result p.context) with
          actions := context.actions }
      have found := leaves.kept primary.object context.currentIndex (Pack.make p.result p.context) (by
        rw [data]
        exact if_pos ⟨rfl, rfl⟩)
      have met : (later.restore aMemo).data primary.object (later.restore aMemo).currentIndex =
          some (Pack.make p.result p.context) := by
        rw [Context.restore_eq, ← found, ← back]
      obtain ⟨result', -, index', -⟩ := usePack_fields (Pack.make p.result p.context)
        (((later.restore aMemo).restore (Pack.make p.result p.context).memo).append
          ((Pack.make p.result p.context).actions.getD []))
      refine ⟨if p.result = .no then [] else p.context.actions, _, ?_, parse_packed fuel' inProgress' met,
        result'.trans result.symm, ?_, ?_⟩
      · unfold usePack Pack.make
        by_cases no : p.result = .no
        · simp only [no, if_true, List.append_nil]
        · simp only [no, if_false, Context.append, Option.getD_some]
      · rw [index', index, Context.restore_eq]
        rfl
      · rw [Context.restore_eq, Context.restore_eq]
        unfold usePack Pack.make
        by_cases no : p.result = .no
        · simp only [no, if_true, Context.append, Option.getD_none, List.append_nil]
        · simp only [no, if_false, Context.append, Option.getD_some, List.append_assoc]

/-- A letter that is met again: one action becomes three. -/
theorem parse_again_letter :
    ∃ parsed again, letters.parse false 1 [] (.reference 1 1) (.make [true] 1 false []) = .ok parsed ∧
      parsed.context.actions.length = 1 ∧
      letters.parse false 1 [] (.reference 1 1) (parsed.context.restore ⟨1, 0⟩) = .ok again ∧
      again.context.actions.length = 3 := by
  obtain ⟨parsed, run, one⟩ : ∃ parsed, letters.parse false 1 [] (.reference 1 1)
      (.make [true] 1 false []) = .ok parsed ∧ parsed.context.actions.length = 1 := ⟨_, rfl, rfl⟩
  have leaves : (Context.make [true] 1 false []).Leaves parsed.context :=
    leaving_parse 1 [] (.reference 1 1) _ (sound_make [true] 1 false [] (by decide)) parsed run
  obtain ⟨added, again, first, second, -, -, actions⟩ :=
    parse_again rfl run (.refl leaves.sound) (show ContextMemo.memo ⟨1, 0⟩ = _ from rfl) 0 []
  have added_one : added.length = 1 := by
    rw [first] at one
    exact one
  refine ⟨parsed, again, run, one, second, ?_⟩
  rw [actions, List.length_append, List.length_append, one, added_one]

end Grammar

end Packrat

end Liberty
