import Liberty.Library.Returns
import Liberty.Text.NativelyStoredString
import Liberty.Library.Loops
import Mathlib.Data.List.Basic

/-!
# The inspection of strings

`MANIFEST_STRING_INSPECTOR` compiles an inspect statement whose when clauses list manifest strings.  The
strings are numbered in the order of the clauses; the code that is built walks through the inspected string
to find its number, the state, and inspects the state.
-/

namespace Liberty

section

/-- A when clause: its manifest strings and its compound, which may be Void. -/
structure StringWhenClause (ι : Type) where
  list : List (List Character)
  compound : Option ι

/-- MANIFEST_STRING_INSPECT_STATEMENT.  `isStored` is `is_stored_in_some_local_variable` of the simplified
expression. -/
structure StringInspectStatement (ι : Type) where
  isStored : Bool
  whenList : List (StringWhenClause ι)
  elseIsUnknown : Bool
  elseCompound : Option ι

/-- MANIFEST_STRING_INSPECTOR -/
structure ManifestStringInspector where
  headers : List (List Character)
  hasEmpty : Bool
  emptyIndex : ℕ

/-! ## The code that is built -/

/-- The code that computes the state: assignments to `state_local`, tests of `item` and of `count`. -/
inductive StringInspect where
  | assignState (state : Int)
  | ifItem (i : Int) (c : Character) (thenCompound elseCompound : StringInspect)
  | inspectItem (i : Int) (whenList : List (Character × StringInspect)) (elseCompound : StringInspect)
  | ifCount (count : Int) (thenCompound elseCompound : StringInspect)

/-- A when clause of `state_inspect`: a value, which is a slice of one value here, or a slice. -/
structure StateWhenClause (ι : Type) where
  lower : Int
  upper : Int
  compound : Option ι

/-- The instructions that `simplify` puts together. -/
inductive StringInspectCode (ι : Type) where
  | assignExpression
  | ifEmpty (thenCompound : Option ι) (elseCompound : StringInspectCode ι)
  | stringInspect (code : StringInspect)
  | stateInspect (whenList : List (StateWhenClause ι)) (elseIsUnknown : Bool) (elseCompound : Option ι)
  | compound (first second : StringInspectCode ι)

variable {ι : Type}

namespace ManifestStringInspector

/-! ## Creation -/

/-- A manifest string of the clause at `i`; a second occurrence is a fatal error. -/
def addHeader (i : ℕ) (inspector : ManifestStringInspector) (s : List Character) : Option ManifestStringInspector :=
  if s ∈ inspector.headers then none
  else
    let inspector := if s.isEmpty then { inspector with hasEmpty := true, emptyIndex := i } else inspector
    some { inspector with headers := inspector.headers ++ [s] }

/-- The clauses from the one at `i` on. -/
def addClauses (inspector : ManifestStringInspector) :
    ℕ → List (StringWhenClause ι) → Option ManifestStringInspector
  | _, [] => some inspector
  | i, whenClause :: rest => do
      let inspector ← whenClause.list.foldlM (addHeader i) inspector
      addClauses inspector (i + 1) rest

def make (inspectStatement : StringInspectStatement ι) : Option ManifestStringInspector :=
  addClauses { headers := [], hasEmpty := false, emptyIndex := 0 } 0 inspectStatement.whenList

/-! ## `inline_inspect` -/

/-- The characters that follow a prefix in the headers, and the index of the header it is. -/
structure Available where
  chars : List Character
  fullIndex : Option ℕ

/-- What the header at `i` adds. -/
def Available.add (aPrefix : List Character) (found : Available) (entry : List Character × ℕ) : Available :=
  let (header, i) := entry
  if aPrefix.isPrefixOf header then
    if header.length = aPrefix.length then { found with fullIndex := some i }
    else
      match header[aPrefix.length]? with
      | some c => if c ∈ found.chars then found else { found with chars := found.chars ++ [c] }
      | none => found
  else found

def available (headers : List (List Character)) (aPrefix : List Character) : Available :=
  headers.zipIdx.foldl (Available.add aPrefix) { chars := [], fullIndex := none }

/-- The when clauses of `inspect_chars`. -/
def inlineWhens (inline : List Character → Option StringInspect) (aPrefix : List Character) :
    List Character → Option (List (Character × StringInspect))
  | [] => some []
  | c :: rest => do
      let whenCompound ← inline (aPrefix ++ [c])
      let whens ← inlineWhens inline aPrefix rest
      return (c, whenCompound) :: whens

/-- The `else_compound`, which may contain nested inspect statements. -/
def inlineChars (inline : List Character → Option StringInspect) (aPrefix : List Character) :
    List Character → Option StringInspect
  | [] => some (.assignState 0)
  | [c] => do
      let whenCompound ← inline (aPrefix ++ [c])
      return .ifItem (aPrefix.length + 1) c whenCompound (.assignState 0)
  | chars => do
      let whens ← inlineWhens inline aPrefix chars
      return .inspectItem (aPrefix.length + 1) whens (.assignState 0)

/-- The test of the count, if the prefix is a header. -/
def testFull (aPrefix : List Character) (elseCompound : StringInspect) : Option ℕ → StringInspect
  | none => elseCompound
  | some fullIndex => .ifCount aPrefix.length (.assignState (fullIndex + 1)) elseCompound

def inlineInspect (headers : List (List Character)) : ℕ → List Character → Option StringInspect
  | 0, _ => none
  | fuel + 1, aPrefix => do
      let found := available headers aPrefix
      let elseCompound ← inlineChars (inlineInspect headers fuel) aPrefix found.chars
      return testFull aPrefix elseCompound found.fullIndex

/-! ## `simplify` -/

/-- The clauses of `state_inspect`, from the state `s` on. -/
def stateWhens (s : Int) : List (StringWhenClause ι) → List (StateWhenClause ι)
  | [] => []
  | whenClause :: rest =>
    let c : Int := whenClause.list.length
    { lower := s, upper := s + c - 1, compound := whenClause.compound } :: stateWhens (s + c) rest

/-- The compound for the empty string. -/
def emptyStringCompound (inspector : ManifestStringInspector) (inspectStatement : StringInspectStatement ι) :
    Option (Option ι) :=
  if inspector.hasEmpty then
    inspectStatement.whenList[inspector.emptyIndex]?.map StringWhenClause.compound
  else some inspectStatement.elseCompound

/-- The instruction that is built, which is simplified afterwards. -/
def simplify (inspector : ManifestStringInspector) (fuel : ℕ) (inspectStatement : StringInspectStatement ι) :
    Option (StringInspectCode ι) := do
  let stringInspect ← inlineInspect inspector.headers fuel []
  let emptyStringCompound ← inspector.emptyStringCompound inspectStatement
  let stateInspect := StringInspectCode.stateInspect (stateWhens 1 inspectStatement.whenList)
    inspectStatement.elseIsUnknown inspectStatement.elseCompound
  let ifEmpty := StringInspectCode.ifEmpty emptyStringCompound (.compound (.stringInspect stringInspect) stateInspect)
  return if inspectStatement.isStored then ifEmpty else .compound .assignExpression ifEmpty

end ManifestStringInspector

end

/-!
## What the code for the inspection of a string does

The code is run on a STRING.  `item` is defined from 1 to `count` only, so a run that calls it elsewhere
gives nothing.  The events tell that the inspected expression is evaluated, and what is executed after that.
-/

inductive StringInspectEvent (ι : Type) where
  | evaluated
  | executed (compound : Option ι)
  | badInspectValue

/-- The variables of the code, and what has happened. -/
structure StringInspectState (ι : Type) where
  localExpression : Option (List Character)
  stateLocal : Int
  events : List (StringInspectEvent ι)

/-- `item` of a STRING. -/
def stringItem (string : List Character) (i : Int) : Option Character :=
  if 1 ≤ i ∧ i ≤ string.length then string[(i - 1).toNat]? else none

namespace StringInspect

mutual

/-- The state that the code computes for a string. -/
def run (string : List Character) : StringInspect → Option Int
  | assignState state => some state
  | ifItem i c thenCompound elseCompound => do
      if (← stringItem string i) = c then run string thenCompound else run string elseCompound
  | inspectItem i whenList elseCompound => do
      let c ← stringItem string i
      runWhens string c (run string elseCompound) whenList
  | ifCount count thenCompound elseCompound =>
    if (string.length : Int) = count then run string thenCompound else run string elseCompound

def runWhens (string : List Character) (c : Character) (otherwise : Option Int) :
    List (Character × StringInspect) → Option Int
  | [] => otherwise
  | (value, compound) :: rest => if value = c then run string compound else runWhens string c otherwise rest

end

end StringInspect

namespace StringInspectCode

variable {ι : Type}

/-- The part of the inspection of the state that is executed. -/
def inspectState (state : Int) (elseIsUnknown : Bool) (elseCompound : Option ι) :
    List (StateWhenClause ι) → StringInspectEvent ι
  | [] => if elseIsUnknown then .badInspectValue else .executed elseCompound
  | whenClause :: rest =>
    if whenClause.lower ≤ state ∧ state ≤ whenClause.upper then .executed whenClause.compound
    else inspectState state elseIsUnknown elseCompound rest

/-- The run of the code, where the inspected expression gives `string`. -/
def run (string : List Character) : StringInspectCode ι → StringInspectState ι → Option (StringInspectState ι)
  | assignExpression, s => some { s with localExpression := some string, events := s.events ++ [.evaluated] }
  | ifEmpty thenCompound elseCompound, s => do
      let inspected ← s.localExpression
      if inspected.isEmpty then some { s with events := s.events ++ [.executed thenCompound] }
      else run string elseCompound s
  | stringInspect code, s => do
      let inspected ← s.localExpression
      return { s with stateLocal := ← code.run inspected }
  | stateInspect whenList elseIsUnknown elseCompound, s =>
    some { s with events := s.events ++ [inspectState s.stateLocal elseIsUnknown elseCompound whenList] }
  | compound first second, s => do
      let s ← run string first s
      run string second s

end StringInspectCode

/-- What the statement executes for a string. -/
def StringInspectStatement.meaning {ι : Type} (s : StringInspectStatement ι) (string : List Character) :
    StringInspectEvent ι :=
  match s.whenList.find? (fun whenClause => decide (string ∈ whenClause.list)) with
  | some whenClause => .executed whenClause.compound
  | none => if s.elseIsUnknown then .badInspectValue else .executed s.elseCompound

namespace ManifestStringInspector

/-! ## The characters after a prefix -/

variable {inline : List Character → Option StringInspect} {aPrefix string : List Character}
  {Q : Character → StringInspect → Prop}

end ManifestStringInspector

end Liberty
