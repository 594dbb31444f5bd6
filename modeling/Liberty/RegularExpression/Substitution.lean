import Liberty.Numeric.Integer32
import Liberty.Text.StringCommands

/-!
# Substitution by a REGULAR_EXPRESSION

A REGULAR_EXPRESSION keeps the areas of its last match in two arrays.  `prepare_substitution`
compiles the substitution pattern into a list of indexes of these arrays: an index from zero on is a
group of the match, a negative one is a piece of the text of the pattern, whose area is put in the
same arrays.
-/

namespace Liberty

/-- The characters of an ABSTRACT_STRING. -/
abbrev Characters : Type := List Character

namespace Characters

/-- `item(i)` -/
def item (s : Characters) (i : Int) : Option Character :=
  if 1 ≤ i then s[(i - 1).toNat]? else none

/-- The characters from `startIndex` to `endIndex`. -/
def substring (s : Characters) (startIndex endIndex : Int) : Characters :=
  (s.drop (startIndex - 1).toNat).take (endIndex - startIndex + 1).toNat

/-- `buffer.append_substring(s, start_index, end_index)`, outside of whose precondition cells are read
that are none of the text. -/
def appendSubstring (buffer s : Characters) (startIndex endIndex : Int) : Option Characters :=
  if 1 ≤ startIndex ∧ endIndex ≤ s.length ∧ startIndex ≤ endIndex + 1 then
    some (buffer ++ s.substring startIndex endIndex)
  else none

end Characters

/-- ARRAY[INTEGER] -/
structure IndexArray where
  lower : Int
  items : List Int

namespace IndexArray

def upper (a : IndexArray) : Int :=
  a.lower + a.items.length - 1

def item (a : IndexArray) (i : Int) : Option Int :=
  if a.lower ≤ i then a.items[(i - a.lower).toNat]? else none

def resize (a : IndexArray) (minIndex maxIndex : Int) : IndexArray where
  lower := minIndex
  items := (List.range (maxIndex - minIndex + 1).toNat).map fun k : ℕ => (a.item (minIndex + (k : Int))).getD 0

def addFirst (a : IndexArray) (element : Int) : IndexArray :=
  { a with items := element :: a.items }

def reindex (a : IndexArray) (newLower : Int) : IndexArray :=
  { a with lower := newLower }

/-- The items from index zero on are set. -/
def setGroups (a : IndexArray) (groups : List Int) : Option IndexArray :=
  if a.lower ≤ 0 ∧ -a.lower ≤ a.items.length then
    some { a with items := a.items.take (-a.lower).toNat ++ groups }
  else none

end IndexArray

/-- The attributes of a REGULAR_EXPRESSION but for `substitution_pattern`, which is one string for all
of them. -/
structure RegularExpression where
  substringsFirstIndexes : IndexArray
  substringsLastIndexes : IndexArray
  compiledSubstitutionPattern : List Int
  substitutionPatternReady : Bool
  patternErrorMessage : Option String
  patternErrorPosition : Int
  lastMatchSucceeded : Bool
  lastMatchText : Characters
  lastSubstitution : Characters

/-- What `match_from` finds: the areas of the whole match and of the groups. -/
structure Matching where
  succeeded : Bool
  areas : List (Int × Int)

/-- `match_from`, which is deferred: a text and a first index give a matching. -/
abbrev Matcher : Type := Characters → Int → Matching

namespace RegularExpression

/-- A new object, for a regular expression that has no group. -/
def plain : RegularExpression where
  substringsFirstIndexes := ⟨0, [0]⟩
  substringsLastIndexes := ⟨0, [0]⟩
  compiledSubstitutionPattern := []
  substitutionPatternReady := false
  patternErrorMessage := none
  patternErrorPosition := 0
  lastMatchSucceeded := false
  lastMatchText := []
  lastSubstitution := []

/-! ## Preparation -/

/-- `\` -/
def escape : Character := 92

/-- The area of a piece of the pattern begins. -/
def beginVerbatim (r : RegularExpression) (i : Int) : RegularExpression :=
  let firsts := r.substringsFirstIndexes.addFirst i
  let firsts := firsts.reindex (firsts.lower - 1)
  { r with
    substringsFirstIndexes := firsts
    compiledSubstitutionPattern := r.compiledSubstitutionPattern ++ [firsts.lower] }

/-- The area of a piece of the pattern ends. -/
def endVerbatim (r : RegularExpression) (i : Int) : RegularExpression :=
  let lasts := r.substringsLastIndexes.addFirst i
  { r with substringsLastIndexes := lasts.reindex (lasts.lower - 1) }

/-- The variables of `prepare_substitution`; `pattern` is `substitution_pattern`. -/
structure Preparation where
  inVerbatimText : Bool
  i : Int
  pattern : Characters
  r : RegularExpression

/-- A `\` that is not the last character, followed by a digit. -/
def isReference (pattern : Characters) (i : Int) : Bool :=
  pattern.item i == some escape && decide (i < (pattern.length : Int)) &&
    (pattern.item (i + 1)).any Character.isDecimalDigit

def referenceRound (s : Preparation) : Option Preparation := do
  let s := if s.inVerbatimText then { s with r := s.r.endVerbatim (s.i - 1), inVerbatimText := false } else s
  let s := { s with i := s.i + 1 }
  let c ← s.pattern.item s.i
  let s :=
    if c.decimalValue > s.r.substringsFirstIndexes.upper then
      { s with
        r := { s.r with
          patternErrorPosition := s.i
          patternErrorMessage := some "Invalid reference for current pattern."
          substitutionPatternReady := false }
        i := s.pattern.length }
    else s
  let c ← s.pattern.item s.i
  let compiled := s.r.compiledSubstitutionPattern ++ [c.decimalValue]
  return { s with r := { s.r with compiledSubstitutionPattern := compiled } }

def verbatimRound (s : Preparation) : Preparation :=
  let s :=
    if s.pattern.item s.i = some escape ∧ s.i < (s.pattern.length : Int) then
      { s with pattern := s.pattern.eraseIdx (s.i - 1).toNat }
    else s
  if s.inVerbatimText then s else { s with r := s.r.beginVerbatim s.i, inVerbatimText := true }

def prepareRound (s : Preparation) : Option Preparation := do
  let s ← if isReference s.pattern s.i then referenceRound s else some (verbatimRound s)
  return { s with i := s.i + 1 }

/-- The new text of `substitution_pattern`, and the regular expression. -/
def prepareSubstitution (r : RegularExpression) (p : Characters) :
    Option (Characters × RegularExpression) := do
  let s ← untilLoop (fun s => some (decide (s.i > (s.pattern.length : Int)))) prepareRound p.length
    { inVerbatimText := false
      i := 1
      pattern := p
      r := { r with
        compiledSubstitutionPattern := []
        substitutionPatternReady := true
        substringsFirstIndexes := r.substringsFirstIndexes.resize 0 r.substringsFirstIndexes.upper
        substringsLastIndexes := r.substringsLastIndexes.resize 0 r.substringsLastIndexes.upper } }
  return (s.pattern, if s.inVerbatimText then s.r.endVerbatim (s.i - 1) else s.r)

/-! ## Matching -/

def matchFrom (matcher : Matcher) (r : RegularExpression) (text : Characters) (firstIndex : Int) :
    Option RegularExpression := do
  if 1 ≤ firstIndex ∧ firstIndex ≤ (text.length : Int) + 1 then
    let found := matcher text firstIndex
    return { r with
      substringsFirstIndexes := ← r.substringsFirstIndexes.setGroups (found.areas.map Prod.fst)
      substringsLastIndexes := ← r.substringsLastIndexes.setGroups (found.areas.map Prod.snd)
      lastMatchSucceeded := found.succeeded
      lastMatchText := text }
  else none

def lastMatchFirstIndex (r : RegularExpression) : Option Int :=
  r.substringsFirstIndexes.item 0

def lastMatchLastIndex (r : RegularExpression) : Option Int :=
  r.substringsLastIndexes.item 0

/-! ## Substitution -/

/-- The string that an index of the compiled pattern is about. -/
def source (pattern text : Characters) (index : Int) : Characters :=
  if index < 0 then pattern else text

def canSubstitute (r : RegularExpression) : Bool :=
  r.substitutionPatternReady && r.lastMatchSucceeded

/-- The loop of `substitute_for`, where a group that did not match is left out. -/
def appendMatched (r : RegularExpression) (pattern text buffer : Characters) : Option Characters :=
  r.compiledSubstitutionPattern.foldlM
    (fun buffer index => do
      let first ← r.substringsFirstIndexes.item index
      if first > 0 then
        buffer.appendSubstring (source pattern text index) first (← r.substringsLastIndexes.item index)
      else return buffer)
    buffer

def substituteFor (pattern : Characters) (r : RegularExpression) (text : Characters) :
    Option RegularExpression := do
  if r.canSubstitute = true ∧ text = r.lastMatchText then
    let buffer ← Characters.appendSubstring [] text 1 ((← r.lastMatchFirstIndex) - 1)
    let buffer ← r.appendMatched pattern text buffer
    let buffer ← buffer.appendSubstring text ((← r.lastMatchLastIndex) + 1) text.length
    return { r with lastSubstitution := buffer, lastMatchSucceeded := false }
  else none

/-- The inner loop of `substitute_all_without_tail`. -/
def appendAll (r : RegularExpression) (pattern text buffer : Characters) : Option Characters :=
  r.compiledSubstitutionPattern.foldlM
    (fun buffer index => do
      buffer.appendSubstring (source pattern text index) (← r.substringsFirstIndexes.item index)
        (← r.substringsLastIndexes.item index))
    buffer

/-- One match is replaced, and the next one is searched; the position is `Result`. -/
def substituteRound (matcher : Matcher) (pattern text : Characters) (s : RegularExpression × Int) :
    Option (RegularExpression × Int) := do
  let buffer ← s.1.lastSubstitution.appendSubstring text s.2 ((← s.1.lastMatchFirstIndex) - 1)
  let buffer ← s.1.appendAll pattern text buffer
  let result := (← s.1.lastMatchLastIndex) + 1
  return (← matchFrom matcher { s.1 with lastSubstitution := buffer } text result, result)

/-- `substitute_all_without_tail`, cut after `fuel` rounds. -/
def substituteAllWithoutTail (matcher : Matcher) (fuel : ℕ) (pattern : Characters) (r : RegularExpression)
    (text : Characters) : Option (RegularExpression × Int) := do
  if r.substitutionPatternReady then
    untilLoop (fun s => some (!s.1.lastMatchSucceeded)) (substituteRound matcher pattern text) fuel
      (← matchFrom matcher { r with lastSubstitution := [] } text 1, 1)
  else none

def substituteAllFor (matcher : Matcher) (fuel : ℕ) (pattern : Characters) (r : RegularExpression)
    (text : Characters) : Option RegularExpression := do
  let (r, textPos) ← substituteAllWithoutTail matcher fuel pattern r text
  if textPos = 1 then return { r with lastSubstitution := text }
  else return { r with lastSubstitution := ← r.lastSubstitution.appendSubstring text textPos text.length }

end RegularExpression

end Liberty
