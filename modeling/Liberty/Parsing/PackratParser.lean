import Liberty.Parsing.DescendingParser
import Liberty.Library.WatchedProgram

/-!
# The packrat parser

A grammar of parsing expressions: references to the atoms of a table, sequences (once, `?`, `*` or `+`),
choices and lookaheads.  What a primary has given at an index is kept in a pack and used when the primary
is met there again.

A primary is told from the others by its object, which is a key of the packs.  The parse may be watched: it
then stops when it meets a non-terminal that it is parsing already at the same index, and when a round of a
repetition matches but does not move forward.  The parse of the source is the one that is not watched.
-/

namespace Liberty

namespace Packrat

variable {κ ν ι ω : Type}

/-- `how_many` -/
inductive HowMany
  | one
  | zeroOrOne
  | zeroOrMore
  | oneOrMore

/-- `PACKRAT_PRIMARY` -/
inductive Primary (ω ν : Type) where
  | reference (object : ω) (name : ν)
  | sequence (object : ω) (primaries : List (Primary ω ν)) (howMany : HowMany)
  | choice (object : ω) (alternatives : List (Primary ω ν))
  | and (object : ω) (primary : Primary ω ν)
  | not (object : ω) (primary : Primary ω ν)

namespace Primary

def object : Primary ω ν → ω
  | reference object _ => object
  | sequence object _ _ => object
  | choice object _ => object
  | and object _ => object
  | not object _ => object

/-- `is_coherent` -/
inductive IsCoherent (has : ν → Prop) : Primary ω ν → Prop
  | reference {object : ω} {name : ν} (known : has name) : IsCoherent has (.reference object name)
  | sequence {object : ω} {primaries : List (Primary ω ν)} {howMany : HowMany}
      (all : ∀ p ∈ primaries, IsCoherent has p) : IsCoherent has (.sequence object primaries howMany)
  | choice {object : ω} {alternatives : List (Primary ω ν)} (all : ∀ p ∈ alternatives, IsCoherent has p) :
      IsCoherent has (.choice object alternatives)
  | and {object : ω} {primary : Primary ω ν} (coherent : IsCoherent has primary) :
      IsCoherent has (.and object primary)
  | not {object : ω} {primary : Primary ω ν} (coherent : IsCoherent has primary) :
      IsCoherent has (.not object primary)

end Primary

/-- `PARSE_TERMINAL`, which the terminals of both parsers are. -/
abbrev Terminal (κ ι : Type) : Type := DescendingTerminal κ ι

/-- `PACKRAT_ATOM` -/
inductive Atom (κ ν ι ω : Type)
  | terminal (terminal : Terminal κ ι)
  | nonTerminal (pattern : Primary ω ν)

/-- The image of a terminal, or the action of a sequence. -/
inductive Action (ν ι ω : Type)
  | shift (name : ν) (image : ι)
  | sequence (object : ω)

/-! ## The context -/

/-- `PACKRAT_CONTEXT_MEMO` -/
structure ContextMemo where
  memo : ℕ
  actionCount : ℕ

/-- `PACKRAT_PACK` -/
structure Pack (ν ι ω : Type) where
  parsed : Tristate
  memo : ContextMemo
  actions : Option (List (Action ν ι ω))

/-- `PACKRAT_PARSE_CONTEXT`, with the fields of its buffer. -/
structure Context (κ ν ι ω : Type) where
  text : List κ
  currentIndex : ℕ
  marked : Bool
  actions : List (Action ν ι ω)
  data : ω → ℕ → Option (Pack ν ι ω)

namespace Context

/-- `make` -/
def make (text : List κ) (currentIndex : ℕ) (marked : Bool) (actions : List (Action ν ι ω)) : Context κ ν ι ω :=
  ⟨text, currentIndex, marked, actions, fun _ _ => none⟩

def memo (context : Context κ ν ι ω) : ContextMemo :=
  ⟨context.currentIndex, context.actions.length⟩

/-- `restore`: the count of actions is compared with the memo of the context, not with the one that is given. -/
def restore (aMemo : ContextMemo) (context : Context κ ν ι ω) : Context κ ν ι ω :=
  let moved := { context with currentIndex := aMemo.memo }
  if moved.actions.length > moved.memo.actionCount then
    { moved with
      actions := moved.actions.take
        (moved.actions.length - (moved.actions.length - moved.memo.actionCount)) }
  else moved

/-- `actions.append_traversable` -/
def append (added : List (Action ν ι ω)) (context : Context κ ν ι ω) : Context κ ν ι ω :=
  { context with actions := context.actions ++ added }

variable [DecidableEq ω]

/-- `set_pack` -/
def setPack (primary : Primary ω ν) (index : ℕ) (pack : Pack ν ι ω) (context : Context κ ν ι ω) :
    Context κ ν ι ω :=
  { context with
    data := fun object i =>
      if object = primary.object ∧ i = index then some pack else context.data object i }

end Context

/-- The pack that `set_pack` makes. -/
def Pack.make (parsed : Tristate) (context : Context κ ν ι ω) : Pack ν ι ω :=
  ⟨parsed, context.memo, if parsed = .no then none else some context.actions⟩

/-! ## Parsing -/

/-- Why a parse gives no result.  The last two are the reasons to stop of a parse that is watched. -/
inductive Stop
  | unfinished
  | nested
  | still
deriving DecidableEq

structure Parsed (κ ν ι ω : Type) where
  result : Tristate
  context : Context κ ν ι ω

abbrev Outcome (α : Type) : Type := Except Stop α

/-- `parse` of a terminal. -/
def parseTerminal (terminal : Terminal κ ι) (name : ν) (context : Context κ ν ι ω) : Parsed κ ν ι ω :=
  match terminal.parser context.text context.currentIndex context.marked with
  | (some image, index, marked) =>
    ⟨.yes, { context with currentIndex := index, marked := marked }.append [.shift name image]⟩
  | (none, _, marked) => ⟨if marked then .maybe else .no, { context with marked := marked }⟩

section Patterns

variable (call : Primary ω ν → Context κ ν ι ω → Outcome (Parsed κ ν ι ω))

/-- The loop of `do_parse` over the primaries that are left. -/
def parseAll : List (Primary ω ν) → Context κ ν ι ω → Outcome (Parsed κ ν ι ω)
  | [], context => return ⟨.yes, context⟩
  | primary :: primaries, context => do
      let parsed ← call primary context
      if parsed.result = .yes then parseAll primaries parsed.context else return parsed

/-- `do_parse` of a sequence -/
def doParse (object : ω) (primaries : List (Primary ω ν)) (context : Context κ ν ι ω) : Outcome (Parsed κ ν ι ω) := do
  let parsed ← parseAll call primaries context
  if parsed.result = .yes then return ⟨.yes, parsed.context.append [.sequence object]⟩
  else return ⟨parsed.result, parsed.context.restore context.memo⟩

/-- The loop of `pack_parse` of a `*` or `+` sequence, with the result so far. -/
def repeatParse (watched : Bool) (doParse : Context κ ν ι ω → Outcome (Parsed κ ν ι ω)) :
    ℕ → Tristate → Context κ ν ι ω → Outcome (Parsed κ ν ι ω)
  | 0, _, _ => throw .unfinished
  | rounds + 1, result, context => do
      let parsed ← doParse context
      if parsed.result = .yes then
        if watched ∧ parsed.context.currentIndex = context.currentIndex then throw .still
        else repeatParse watched doParse rounds .yes parsed.context
      else return ⟨result, parsed.context⟩

/-- The loop of `pack_parse` of a choice over the alternatives that are left. -/
def parseChoice : List (Primary ω ν) → Context κ ν ι ω → Outcome (Parsed κ ν ι ω)
  | [], context => return ⟨.no, context⟩
  | alternative :: alternatives, context => do
      let parsed ← call alternative context
      if parsed.result = .no then parseChoice alternatives parsed.context else return parsed

/-- `pack_parse` of a sequence -/
def parseSequence (watched : Bool) (rounds : ℕ) (object : ω) (primaries : List (Primary ω ν)) :
    HowMany → Context κ ν ι ω → Outcome (Parsed κ ν ι ω)
  | .one, context => doParse call object primaries context
  | .zeroOrOne, context => do
      let parsed ← doParse call object primaries context
      return ⟨.yes, parsed.context⟩
  | .zeroOrMore, context => repeatParse watched (doParse call object primaries) rounds .yes context
  | .oneOrMore, context => repeatParse watched (doParse call object primaries) rounds .no context

/-- `pack_parse` of a positive lookahead -/
def parseAnd (primary : Primary ω ν) (context : Context κ ν ι ω) : Outcome (Parsed κ ν ι ω) := do
  let parsed ← call primary context
  return ⟨parsed.result, parsed.context.restore context.memo⟩

/-- `pack_parse` of a negative lookahead -/
def parseNot (primary : Primary ω ν) (context : Context κ ν ι ω) : Outcome (Parsed κ ν ι ω) := do
  let parsed ← call primary context
  return ⟨if parsed.result = .no then .yes else .no, parsed.context.restore context.memo⟩

end Patterns

/-- What `parse` of a primary does with the pack of its index. -/
def usePack (pack : Pack ν ι ω) (context : Context κ ν ι ω) : Parsed κ ν ι ω :=
  ⟨pack.parsed, if pack.parsed = .no then context else context.append (pack.actions.getD [])⟩

/-- The atoms of a `PARSE_TABLE`. -/
structure Grammar (κ ν ι ω : Type) where
  atoms : List (ν × Atom κ ν ι ω)

namespace Grammar

variable [DecidableEq ν] [DecidableEq ω] (grammar : Grammar κ ν ι ω)

/-- `item` -/
def item (name : ν) : Option (Atom κ ν ι ω) :=
  grammar.atoms.lookup name

def Has (name : ν) : Prop :=
  ∃ atom, grammar.item name = some atom

/-- `is_coherent` -/
def IsCoherent : Prop :=
  ∀ name pattern, grammar.item name = some (.nonTerminal pattern) → pattern.IsCoherent grammar.Has

/-- `parse` of the atom with the name; in progress are the non-terminals with the indices where they began. -/
def parseAtom (watched : Bool) (call : List (ν × ℕ) → Primary ω ν → Context κ ν ι ω → Outcome (Parsed κ ν ι ω))
    (inProgress : List (ν × ℕ)) (name : ν) (context : Context κ ν ι ω) : Outcome (Parsed κ ν ι ω) :=
  match grammar.item name with
  | none => throw .unfinished
  | some (.terminal terminal) => return parseTerminal terminal name context
  | some (.nonTerminal pattern) =>
    if watched ∧ (name, context.currentIndex) ∈ inProgress then throw .nested
    else call ((name, context.currentIndex) :: inProgress) pattern context

/-- The names of the atoms that are not in progress at the index. -/
def free (inProgress : List (ν × ℕ)) (index : ℕ) : List ν :=
  (grammar.atoms.map Prod.fst).filter fun name => (name, index) ∉ inProgress

/-- `pack_parse` -/
def packParse (watched : Bool) (call : List (ν × ℕ) → Primary ω ν → Context κ ν ι ω → Outcome (Parsed κ ν ι ω))
    (rounds : ℕ) (inProgress : List (ν × ℕ)) : Primary ω ν → Context κ ν ι ω → Outcome (Parsed κ ν ι ω)
  | .reference _ name, context => grammar.parseAtom watched call inProgress name context
  | .sequence object primaries howMany, context =>
    parseSequence (call inProgress) watched rounds object primaries howMany context
  | .choice _ alternatives, context => parseChoice (call inProgress) alternatives context
  | .and _ primary, context => parseAnd (call inProgress) primary context
  | .not _ primary, context => parseNot (call inProgress) primary context

/-- `parse` of a primary -/
def parse (watched : Bool) : ℕ → List (ν × ℕ) → Primary ω ν → Context κ ν ι ω → Outcome (Parsed κ ν ι ω)
  | 0, _, _, _ => throw .unfinished
  | fuel + 1, inProgress, primary, context =>
    match context.data primary.object context.currentIndex with
    | some pack =>
      return usePack pack ((context.restore pack.memo).append (pack.actions.getD []))
    | none => do
        let parsed ← grammar.packParse watched (parse watched fuel) fuel inProgress primary
          { context with actions := [] }
        let pack := Pack.make parsed.result parsed.context
        return usePack pack
          { parsed.context.setPack primary context.currentIndex pack with actions := context.actions }

/-- `parse` of `PACKRAT_PARSER`, from the current index of the buffer. -/
def parseStart (watched : Bool) (fuel : ℕ) (start : ν) (text : List κ) (currentIndex : ℕ) (marked : Bool)
    (actions : List (Action ν ι ω)) : Outcome (Parsed κ ν ι ω) :=
  grammar.parseAtom watched (grammar.parse watched fuel) [] start (.make text currentIndex marked actions)

end Grammar

end Packrat

/-!
## What a packrat parse leaves

A parse goes forward in the text and keeps the packs that there are; a primary that has been parsed at an
index has a pack there with its result and with the index where it ended.
-/

namespace Packrat

variable {κ ν ι ω : Type}

/-! ## Contexts -/

namespace Context

/-- The actions are never removed: there are not more of them than the memo of the context says. -/
theorem restore_eq (aMemo : ContextMemo) (context : Context κ ν ι ω) :
    context.restore aMemo = { context with currentIndex := aMemo.memo } := by
  unfold restore
  rw [if_neg]
  exact Nat.lt_irrefl _

/-- The buffer is within the text, and so are the indices of the packs, none of which goes back. -/
structure Sound (context : Context κ ν ι ω) : Prop where
  inside : context.currentIndex ≤ context.text.length + 1
  memos : ∀ object index pack, context.data object index = some pack →
    index ≤ pack.memo.memo ∧ pack.memo.memo ≤ context.text.length + 1

/-- `later` is where a parse may have left `context`. -/
structure Leaves (context later : Context κ ν ι ω) : Prop where
  text : later.text = context.text
  ahead : context.currentIndex ≤ later.currentIndex
  kept : ∀ object index pack, context.data object index = some pack → later.data object index = some pack
  sound : later.Sound

variable {context later latest : Context κ ν ι ω}

theorem Leaves.refl (sound : context.Sound) : context.Leaves context :=
  ⟨rfl, Nat.le_refl _, fun _ _ _ found => found, sound⟩

theorem Leaves.trans (h : context.Leaves later) (h' : later.Leaves latest) : context.Leaves latest :=
  ⟨h'.text.trans h.text, h.ahead.trans h'.ahead, fun o i p found => h'.kept o i p (h.kept o i p found), h'.sound⟩

theorem Sound.of_fields {context' : Context κ ν ι ω} (sound : context.Sound) (text : context'.text = context.text)
    (inside : context'.currentIndex ≤ context.text.length + 1) (data : context'.data = context.data) :
    context'.Sound := by
  refine ⟨text ▸ inside, fun o i p found => ?_⟩
  rw [data] at found
  rw [text]
  exact sound.memos o i p found

theorem Leaves.append (h : context.Leaves later) (added : List (Action ν ι ω)) :
    context.Leaves (later.append added) :=
  ⟨h.text, h.ahead, h.kept, h.sound.of_fields rfl h.sound.inside rfl⟩

theorem Leaves.back (sound : context.Sound) (h : context.Leaves later) : context.Leaves (later.restore context.memo) := by
  rw [restore_eq]
  refine ⟨h.text, Nat.le_refl _, h.kept, h.sound.of_fields rfl ?_ rfl⟩
  rw [h.text]
  exact sound.inside

end Context

open Context (Sound Leaves)

/-- The pack of the primary at the index says that it matches and ends at the index `last`. -/
def Context.Packed (context : Context κ ν ι ω) (primary : Primary ω ν) (index : ℕ) (result : Tristate) (last : ℕ) :
    Prop :=
  ∃ pack, context.data primary.object index = some pack ∧ pack.parsed = result ∧ pack.memo.memo = last

theorem Context.Packed.later {context later : Context κ ν ι ω} {primary : Primary ω ν} {index last : ℕ}
    {result : Tristate} (h : context.Packed primary index result last) (leaves : context.Leaves later) :
    later.Packed primary index result last := by
  obtain ⟨pack, found, parsed, memo⟩ := h
  exact ⟨pack, leaves.kept _ _ _ found, parsed, memo⟩

/-- What is known of a parse of the primary when it has returned. -/
structure Parses (primary : Primary ω ν) (context : Context κ ν ι ω) (parsed : Parsed κ ν ι ω) : Prop where
  leaves : context.Leaves parsed.context
  packed : parsed.context.Packed primary context.currentIndex parsed.result parsed.context.currentIndex

/-! ## The patterns -/

theorem leaves_parseTerminal (terminal : Terminal κ ι) (name : ν) {context : Context κ ν ι ω} (sound : context.Sound) :
    context.Leaves (parseTerminal terminal name context).context := by
  unfold parseTerminal
  split
  · rename_i image index marked read
    have ahead := terminal.ahead sound.inside read
    have moved : context.Leaves { context with currentIndex := index, marked := marked } :=
      ⟨rfl, ahead.1, fun _ _ _ found => found, sound.of_fields rfl ahead.2 rfl⟩
    exact moved.append _
  · exact ⟨rfl, Nat.le_refl _, fun _ _ _ found => found, sound.of_fields rfl sound.inside rfl⟩

section Patterns

variable {call : Primary ω ν → Context κ ν ι ω → Outcome (Parsed κ ν ι ω)} {context : Context κ ν ι ω}

/-- A call leaves the context as a parse does. -/
def Leaving (call : Primary ω ν → Context κ ν ι ω → Outcome (Parsed κ ν ι ω)) : Prop :=
  ∀ primary context, context.Sound → Yields (call primary context) fun parsed => context.Leaves parsed.context

theorem Leaving.parseAll (calls : Leaving call) (primaries : List (Primary ω ν)) (sound : context.Sound) :
    Yields (parseAll call primaries context) fun parsed => context.Leaves parsed.context := by
  induction primaries generalizing context with
  | nil => exact .pure (.refl sound)
  | cons primary primaries ih =>
    refine (calls primary context sound).bind fun parsed leaves => ?_
    split
    · exact (ih leaves.sound).mono fun _ rest => leaves.trans rest
    · exact .pure leaves

theorem Leaving.doParse (calls : Leaving call) (object : ω) (primaries : List (Primary ω ν)) (sound : context.Sound) :
    Yields (doParse call object primaries context) fun parsed => context.Leaves parsed.context := by
  refine (calls.parseAll primaries sound).bind fun parsed leaves => ?_
  split
  · exact .pure (leaves.append _)
  · exact .pure (leaves.back sound)

theorem leaves_repeatParse {watched : Bool} {doParse : Context κ ν ι ω → Outcome (Parsed κ ν ι ω)}
    (body : ∀ context : Context κ ν ι ω, context.Sound →
      Yields (doParse context) fun parsed => context.Leaves parsed.context)
    (rounds : ℕ) (result : Tristate) (sound : context.Sound) :
    Yields (repeatParse watched doParse rounds result context) fun parsed => context.Leaves parsed.context := by
  induction rounds generalizing result context with
  | zero => exact .error
  | succ rounds ih =>
    refine (body context sound).bind fun parsed leaves => ?_
    split
    · split
      · exact .error
      · exact (ih .yes leaves.sound).mono fun _ rest => leaves.trans rest
    · exact .pure leaves

theorem Leaving.parseSequence (calls : Leaving call) (watched : Bool) (rounds : ℕ) (object : ω)
    (primaries : List (Primary ω ν)) (howMany : HowMany) (sound : context.Sound) :
    Yields (parseSequence call watched rounds object primaries howMany context) fun parsed =>
      context.Leaves parsed.context := by
  cases howMany with
  | one => exact calls.doParse object primaries sound
  | zeroOrOne => exact (calls.doParse object primaries sound).bind fun parsed leaves => .pure leaves
  | zeroOrMore => exact leaves_repeatParse (fun _ => calls.doParse object primaries) rounds .yes sound
  | oneOrMore => exact leaves_repeatParse (fun _ => calls.doParse object primaries) rounds .no sound

theorem Leaving.parseChoice (calls : Leaving call) (alternatives : List (Primary ω ν)) (sound : context.Sound) :
    Yields (parseChoice call alternatives context) fun parsed => context.Leaves parsed.context := by
  induction alternatives generalizing context with
  | nil => exact .pure (.refl sound)
  | cons alternative alternatives ih =>
    refine (calls alternative context sound).bind fun parsed leaves => ?_
    split
    · exact (ih leaves.sound).mono fun _ rest => leaves.trans rest
    · exact .pure leaves

end Patterns

/-! ## The parse -/

namespace Grammar

variable [DecidableEq ν] [DecidableEq ω] {grammar : Grammar κ ν ι ω} {watched : Bool}

theorem leaves_parseAtom {call : List (ν × ℕ) → Primary ω ν → Context κ ν ι ω → Outcome (Parsed κ ν ι ω)}
    (calls : ∀ inProgress, Leaving (call inProgress)) (inProgress : List (ν × ℕ)) (name : ν)
    {context : Context κ ν ι ω} (sound : context.Sound) :
    Yields (grammar.parseAtom watched call inProgress name context) fun parsed => context.Leaves parsed.context := by
  unfold parseAtom
  split
  · exact .error
  · exact .pure (leaves_parseTerminal _ name sound)
  · split
    · exact .error
    · exact calls _ _ context sound

theorem leaves_packParse {call : List (ν × ℕ) → Primary ω ν → Context κ ν ι ω → Outcome (Parsed κ ν ι ω)}
    (calls : ∀ inProgress, Leaving (call inProgress)) (rounds : ℕ) (inProgress : List (ν × ℕ)) (primary : Primary ω ν)
    {context : Context κ ν ι ω} (sound : context.Sound) :
    Yields (grammar.packParse watched call rounds inProgress primary context) fun parsed =>
      context.Leaves parsed.context := by
  cases primary with
  | reference object name => exact leaves_parseAtom calls inProgress name sound
  | sequence object primaries howMany => exact (calls inProgress).parseSequence watched rounds object primaries howMany sound
  | choice object alternatives => exact (calls inProgress).parseChoice alternatives sound
  | and object primary => exact (calls inProgress primary context sound).bind fun parsed leaves => .pure (leaves.back sound)
  | not object primary => exact (calls inProgress primary context sound).bind fun parsed leaves => .pure (leaves.back sound)

theorem usePack_fields (pack : Pack ν ι ω) (context : Context κ ν ι ω) :
    (usePack pack context).result = pack.parsed ∧ (usePack pack context).context.text = context.text ∧
      (usePack pack context).context.currentIndex = context.currentIndex ∧
      (usePack pack context).context.data = context.data := by
  unfold usePack
  split
  · exact ⟨rfl, rfl, rfl, rfl⟩
  · exact ⟨rfl, rfl, rfl, rfl⟩

/-- A primary that has a pack is not parsed. -/
theorem parse_packed (fuel : ℕ) (inProgress : List (ν × ℕ)) {primary : Primary ω ν} {context : Context κ ν ι ω}
    {pack : Pack ν ι ω} (found : context.data primary.object context.currentIndex = some pack) :
    grammar.parse watched (fuel + 1) inProgress primary context =
      .ok (usePack pack ((context.restore pack.memo).append (pack.actions.getD []))) := by
  rw [parse, found]
  rfl

theorem parse_unpacked (fuel : ℕ) (inProgress : List (ν × ℕ)) {primary : Primary ω ν} {context : Context κ ν ι ω}
    (none : context.data primary.object context.currentIndex = none) :
    grammar.parse watched (fuel + 1) inProgress primary context = (do
      let parsed ← grammar.packParse watched (grammar.parse watched fuel) fuel inProgress primary
        { context with actions := [] }
      return usePack (Pack.make parsed.result parsed.context)
        { parsed.context.setPack primary context.currentIndex (Pack.make parsed.result parsed.context) with
          actions := context.actions }) := by
  rw [parse, none]

/-- What is done with the result of a primary that had no pack. -/
theorem parses_setPack {primary : Primary ω ν} {context : Context κ ν ι ω} {parsed : Parsed κ ν ι ω}
    (none : context.data primary.object context.currentIndex = none)
    (leaves : { context with actions := [] }.Leaves parsed.context) :
    Parses primary context (usePack (Pack.make parsed.result parsed.context)
      { parsed.context.setPack primary context.currentIndex (Pack.make parsed.result parsed.context) with
        actions := context.actions }) := by
  obtain ⟨result, text, index, data⟩ := usePack_fields (Pack.make parsed.result parsed.context)
    { parsed.context.setPack primary context.currentIndex (Pack.make parsed.result parsed.context) with
      actions := context.actions }
  refine ⟨⟨text.trans leaves.text, index ▸ leaves.ahead, fun o i p found => ?_, ⟨?_, fun o i p found => ?_⟩⟩, ?_⟩
  · rw [data]
    change (if o = primary.object ∧ i = context.currentIndex then _ else parsed.context.data o i) = _
    rw [if_neg]
    · exact leaves.kept o i p found
    · rintro ⟨rfl, rfl⟩
      cases none.symm.trans found
  · rw [index, text]
    exact leaves.sound.inside
  · rw [data] at found
    rw [text]
    change (if o = primary.object ∧ i = context.currentIndex then _ else parsed.context.data o i) = _ at found
    split at found
    · rename_i here
      cases found
      exact ⟨here.2 ▸ leaves.ahead, leaves.sound.inside⟩
    · exact leaves.sound.memos o i p found
  · refine ⟨Pack.make parsed.result parsed.context, ?_, result.symm, index.symm⟩
    rw [data]
    exact if_pos ⟨rfl, rfl⟩

theorem parses_parse (fuel : ℕ) (inProgress : List (ν × ℕ)) (primary : Primary ω ν) {context : Context κ ν ι ω}
    (sound : context.Sound) :
    Yields (grammar.parse watched fuel inProgress primary context) (Parses primary context) := by
  induction fuel generalizing inProgress primary context with
  | zero => exact .error
  | succ fuel ih =>
    cases found : context.data primary.object context.currentIndex with
    | some pack =>
      have memos := sound.memos _ _ _ found
      rw [parse_packed fuel inProgress found]
      refine .pure ?_
      obtain ⟨result, text, index, data⟩ := usePack_fields pack
        ((context.restore pack.memo).append (pack.actions.getD []))
      rw [Context.restore_eq] at result text index data ⊢
      refine ⟨⟨text, index ▸ memos.1, fun o i p other => ?_, sound.of_fields text (index ▸ memos.2) data⟩, ?_⟩
      · rw [data]
        exact other
      · refine ⟨pack, ?_, result.symm, index.symm⟩
        rw [data]
        exact found
    | none =>
      rw [parse_unpacked fuel inProgress found]
      have calls : ∀ inProgress, Leaving (grammar.parse watched fuel inProgress) :=
        fun inProgress primary context sound => (ih inProgress primary sound).mono fun _ parses => parses.leaves
      have cleared : { context with actions := [] }.Sound := sound.of_fields rfl sound.inside rfl
      refine (leaves_packParse calls fuel inProgress primary cleared).bind fun parsed leaves => ?_
      exact .pure (parses_setPack found leaves)

theorem leaving_parse (fuel : ℕ) (inProgress : List (ν × ℕ)) : Leaving (grammar.parse watched fuel inProgress) :=
  fun primary _ sound => (parses_parse fuel inProgress primary sound).mono fun _ parses => parses.leaves

end Grammar

end Packrat

end Liberty
