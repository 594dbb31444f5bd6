import Liberty.Library.Returns
import Liberty.Numeric.Integer32
import Liberty.Text.NativelyStoredString

/-!
# The simplification of inspect statements

`INSPECT_STATEMENT.simplify`, of a statement that inspects an INTEGER or a CHARACTER (there is no
`manifest_string_inspector`).  The other expressions and the instructions of the compounds are told by the
identity of their object; what the compiler does with them stands in a `Simplifier`.
-/

namespace Liberty

section

/-- INTEGER_CONSTANT (whose `value_memory` is an INTEGER_64) and CHARACTER_CONSTANT. -/
inductive ManifestExpression where
  | integerConstant (valueMemory : Int)
  | characterConstant (value : Character)
deriving DecidableEq

/-- `integer_value_of`; a value that does not fit an INTEGER_32 is cut. -/
def ManifestExpression.integerValue : ManifestExpression → Int
  | integerConstant valueMemory => wrap32 valueMemory
  | characterConstant value => value.code

/-- An expression, which may be a constant (`cc ?= exp`, `ic ?= exp`). -/
inductive Expression (ε : Type) where
  | manifest (constant : ManifestExpression)
  | other (expression : ε)
deriving DecidableEq

/-- WHEN_ITEM_1, for a single value, and WHEN_ITEM_2, for a slice. -/
inductive WhenItem where
  | whenItem1 (manifestExpression : ManifestExpression)
  | whenItem2 (lowerManifestExpression upperManifestExpression : ManifestExpression)
deriving DecidableEq

def WhenItem.matchValue (v : Int) : WhenItem → Bool
  | whenItem1 manifestExpression => decide (manifestExpression.integerValue = v)
  | whenItem2 lower upper => decide (lower.integerValue ≤ v ∧ v ≤ upper.integerValue)

/-- What `simplify` asks of the rest of the compiler, in the type where it simplifies: `ace.boost`, and
of the expressions and instructions `simplify` (which may give Void) and `side_effect_free`.
`inlining_dynamic_dispatch_done` and `trace_in` are what `same_compound` uses. -/
structure Simplifier (ε ι : Type) where
  boost : Bool
  simplifyExpression : Expression ε → Expression ε
  sideEffectFree : Expression ε → Bool
  simplify : ι → Option ι
  inliningDynamicDispatchDone : Bool
  traceIn : ι → Option (List Character)

/-- WHEN_CLAUSE -/
structure WhenClause (ι : Type) where
  list : List WhenItem
  compound : Option ι
deriving DecidableEq

/-- INSPECT_STATEMENT; `elseIsUnknown` is `else_position.is_unknown`, without the keyword `else`. -/
structure InspectStatement (ε ι : Type) where
  expression : Expression ε
  whenList : Option (List (WhenClause ι))
  elseIsUnknown : Bool
  elseCompound : Option ι

/-- What becomes of an instruction: the compiler stops with a fatal error, or the result is Void, another
instruction or an inspect statement. -/
inductive Simplified (ε ι : Type) where
  | fatalError
  | instruction (compound : Option ι)
  | inspectStatement (statement : InspectStatement ε ι)

variable {ε ι : Type}

/-- `simplify` of an instruction that may be Void. -/
def Simplifier.simplifyCompound (compiler : Simplifier ε ι) (compound : Option ι) : Option ι :=
  compound.bind compiler.simplify

namespace WhenClause

def matchValue (whenClause : WhenClause ι) (v : Int) : Bool :=
  whenClause.list.any (WhenItem.matchValue v)

def createMergedWith (whenClause other : WhenClause ι) : WhenClause ι :=
  { whenClause with list := whenClause.list ++ other.list }

def simplify (compiler : Simplifier ε ι) (whenClause : WhenClause ι) : WhenClause ι :=
  { whenClause with compound := compiler.simplifyCompound whenClause.compound }

end WhenClause

namespace InspectStatement

variable [DecidableEq ι]

/-- The two loops over the clauses: the list is twinned at the first clause that changes, and the clauses
after it are simplified in the twin. -/
def simplifyWhenList (compiler : Simplifier ε ι) : List (WhenClause ι) → List (WhenClause ι)
  | [] => []
  | wc1 :: rest =>
    let wc2 := wc1.simplify compiler
    if wc1 ≠ wc2 then wc2 :: rest.map (WhenClause.simplify compiler)
    else wc1 :: simplifyWhenList compiler rest

def sameCompound (compiler : Simplifier ε ι) (c1 c2 : Option ι) : Bool :=
  if c1 = c2 then true
  else
    match c1, c2 with
    | none, _ => false
    | _, none => false
    | some c1, some c2 =>
      if compiler.inliningDynamicDispatchDone then
        match compiler.traceIn c1, compiler.traceIn c2 with
        | some view1, some view2 => decide (view1 = view2)
        | _, _ => false
      else false

/-- The clauses and the two indices of the merge. -/
structure Merge (ι : Type) where
  wl : List (WhenClause ι)
  i1 : Int
  i2 : Int

/-- `wl.item(i)`. -/
def item (wl : List (WhenClause ι)) (i : Int) : Option (WhenClause ι) :=
  if 0 ≤ i then wl[i.toNat]? else none

/-- A round of the inner loop. -/
def mergeRound (compiler : Simplifier ε ι) (s : Merge ι) : Option (Merge ι) := do
  let wc1 ← item s.wl s.i1
  let wc2 ← item s.wl s.i2
  if sameCompound compiler wc1.compound wc2.compound then
    -- Moving `i1' into `i2'; then resetting the indices.
    return { wl := (s.wl.set s.i2.toNat (wc2.createMergedWith wc1)).eraseIdx s.i1.toNat
             i1 := s.i1 - 1
             i2 := s.i1 - 1 - 1 }
  else return { s with i2 := s.i2 - 1 }

/-- The inner loop, for `i1` and all the clauses before it. -/
def mergeOne (compiler : Simplifier ε ι) (wl : List (WhenClause ι)) (i1 : Int) : Option (Merge ι) :=
  untilLoop (fun s => some (decide (s.i2 < 0))) (mergeRound compiler) (wl.length * wl.length)
    { wl := wl, i1 := i1, i2 := i1 - 1 }

/-- Trying to merge similar when clauses: the outer loop. -/
def merge (compiler : Simplifier ε ι) (wl : List (WhenClause ι)) : Option (List (WhenClause ι)) := do
  let (wl, _) ← untilLoop (fun s => some (decide (s.2 ≤ 0)))
    (fun ((wl, i1) : List (WhenClause ι) × Int) => do
      let s ← mergeOne compiler wl i1
      return (s.wl, s.i1 - 1)) wl.length (wl, (wl.length : Int) - 1)
  return wl

def currentOrTwinInit (s : InspectStatement ε ι) (exp : Expression ε) (wl : Option (List (WhenClause ι)))
    (ec : Option ι) : InspectStatement ε ι :=
  { s with expression := exp, whenList := wl, elseCompound := ec }

/-- The `expression` is statically known. -/
def simplifyConstant (compiler : Simplifier ε ι) (s : InspectStatement ε ι) (value : Int) : Simplified ε ι :=
  match s.whenList with
  | none => .instruction (compiler.simplifyCompound s.elseCompound)
  | some whenList =>
    match whenList.find? (·.matchValue value) with
    | some wc1 => .instruction (compiler.simplifyCompound wc1.compound)
    | none =>
      if s.elseIsUnknown then .fatalError
      else .instruction (compiler.simplifyCompound s.elseCompound)

/-- The general scheme. -/
def simplifyGeneral (compiler : Simplifier ε ι) (s : InspectStatement ε ι) (exp : Expression ε) :
    Option (Simplified ε ι) :=
  let ec := compiler.simplifyCompound s.elseCompound
  match s.whenList with
  | none =>
    if compiler.sideEffectFree exp then some (.instruction ec)
    else some (.inspectStatement (s.currentOrTwinInit exp none ec))
  | some whenList => do
      let wl ← merge compiler (simplifyWhenList compiler whenList)
      match wl with
      | [first] =>
        if s.elseIsUnknown && compiler.boost then
          if compiler.sideEffectFree exp then return .instruction first.compound
          else return .inspectStatement (s.currentOrTwinInit exp none first.compound)
        else return .inspectStatement (s.currentOrTwinInit exp (some wl) ec)
      | _ => return .inspectStatement (s.currentOrTwinInit exp (some wl) ec)

def simplify (compiler : Simplifier ε ι) (s : InspectStatement ε ι) : Option (Simplified ε ι) :=
  match compiler.simplifyExpression s.expression with
  | .manifest constant => some (s.simplifyConstant compiler constant.integerValue)
  | .other exp => s.simplifyGeneral compiler (.other exp)

end InspectStatement

end

/-!
## The meaning of inspect statements

An inspect statement evaluates its expression once and executes the compound of the clause that has the
value, or the else part, or raises the no-match error.  The meaning of the other expressions and
instructions is a parameter, about which the simplification is told what its own calls promise.
-/

section

/-! ## Values -/

/-- The value that a constant stands for. -/
def ManifestExpression.value : ManifestExpression → Int
  | integerConstant valueMemory => valueMemory
  | characterConstant value => value.code

/-- The values of a when item. -/
def WhenItem.has (v : Int) : WhenItem → Bool
  | whenItem1 manifestExpression => decide (manifestExpression.value = v)
  | whenItem2 lower upper => decide (lower.value ≤ v ∧ v ≤ upper.value)

variable {ε ι σ ρ : Type}

def WhenClause.has (whenClause : WhenClause ι) (v : Int) : Bool :=
  whenClause.list.any (WhenItem.has v)

/-- The when items are pairwise disjoint. -/
def InspectStatement.Disjoint (s : InspectStatement ε ι) : Prop :=
  ∀ wl, s.whenList = some wl →
    (wl.flatMap WhenClause.list).Pairwise fun item other => ∀ v, ¬(item.has v = true ∧ other.has v = true)

/-- The compound to execute, of the first clause with the property or of the else part, if any. -/
def InspectStatement.selected (s : InspectStatement ε ι) (chosen : WhenClause ι → Bool) : Option (Option ι) :=
  match (s.whenList.getD []).find? chosen with
  | some whenClause => some whenClause.compound
  | none => if s.elseIsUnknown then none else some s.elseCompound

/-! ## Outcomes -/

/-- What comes out of an instruction: it proceeds in a state, or it raises the no-match error, or
anything else (another error, no end). -/
inductive Outcome (σ ρ : Type) where
  | proceeds (state : σ)
  | badInspectValue (state : σ)
  | otherwise (outcome : ρ)

/-- A meaning of the other expressions and instructions. -/
structure Interpretation (ε ι σ ρ : Type) where
  initial : σ
  evaluateOther : ε → σ → Except ρ (Int × σ)
  executeOther : ι → σ → Outcome σ ρ

namespace Interpretation

variable (meaning : Interpretation ε ι σ ρ)

def evaluate : Expression ε → σ → Except ρ (Int × σ)
  | .manifest constant, state => .ok (constant.value, state)
  | .other expression, state => meaning.evaluateOther expression state

/-- Nothing is executed for a Void compound. -/
def run : Option ι → σ → Outcome σ ρ
  | none, state => .proceeds state
  | some compound, state => meaning.executeOther compound state

/-- The outcome of the part that is selected.  In boost mode nothing is generated when there is none. -/
def runSelected (boost : Bool) : Option (Option ι) → σ → Outcome σ ρ
  | some compound, state => meaning.run compound state
  | none, state => if boost then .proceeds state else .badInspectValue state

def executeInspect (boost : Bool) (s : InspectStatement ε ι) (state : σ) : Outcome σ ρ :=
  match meaning.evaluate s.expression state with
  | .error outcome => .otherwise outcome
  | .ok (v, state) => meaning.runSelected boost (s.selected (·.has v)) state

/-- The outcome of what the statement was simplified to.  A fatal error of the compiler says that every run
raises the no-match error. -/
def execute (boost : Bool) : Simplified ε ι → σ → Outcome σ ρ
  | .fatalError, state => .badInspectValue state
  | .instruction compound, state => meaning.run compound state
  | .inspectStatement s, state => meaning.executeInspect boost s state

/-- In boost mode a state counts when a clause or the else part matches there. -/
def Compared (boost : Bool) (s : InspectStatement ε ι) (state : σ) : Prop :=
  boost = true → ∀ v state', meaning.evaluate s.expression state = .ok (v, state') → s.selected (·.has v) ≠ none

/-- What the simplification relies on: simplifying an expression or an instruction preserves its meaning,
compounds that are the same for `same_compound` behave alike, and an expression without side effect need
not be evaluated. -/
structure Respects [DecidableEq ι] (compiler : Simplifier ε ι) : Prop where
  expression : ∀ e state, meaning.evaluate (compiler.simplifyExpression e) state = meaning.evaluate e state
  compound : ∀ c, meaning.run (compiler.simplify c) = meaning.run (some c)
  same : ∀ c1 c2, InspectStatement.sameCompound compiler c1 c2 = true → meaning.run c1 = meaning.run c2
  sideEffectFree : ∀ e, compiler.sideEffectFree e = true →
    ∀ state, ∃ v, meaning.evaluate e state = .ok (v, state)

end Interpretation

end

end Liberty
