import Liberty.Compiler.ManifestStringInspector
import Mathlib.Algebra.Order.BigOperators.Group.List
import Mathlib.Algebra.Order.Ring.Nat

/-!
# The states of an inspected string and the clauses

The state numbers run through the strings of the clauses, so the ranges of the inspection of the state are
the clauses.  Two kinds of strings are not treated as the clauses say: those which end in the middle of a
header, and the empty string without a clause for it nor an else part.
-/

namespace Liberty

variable {ι : Type}

/-- The manifest strings of the statement, in order. -/
def StringInspectStatement.strings (s : StringInspectStatement ι) : List (List Character) :=
  s.whenList.flatMap StringWhenClause.list

/-- The statement is compiled, then its code is run: the events. -/
def StringInspectStatement.run (s : StringInspectStatement ι) (string : List Character) (stateLocal : Int) (fuel : ℕ) :
    Option (List (StringInspectEvent ι)) := do
  let inspector ← ManifestStringInspector.make s
  let code ← inspector.simplify fuel s
  let final ← code.run string
    { localExpression := if s.isStored then some string else none, stateLocal := stateLocal, events := [] }
  return final.events

namespace ManifestStringInspector

/-! ## Creation -/

/-- What the creation has recorded of the headers up to the clause at `i`. -/
structure Created (whenList : List (StringWhenClause ι)) (inspector : ManifestStringInspector) : Prop where
  hasEmpty : inspector.hasEmpty = true ↔ [] ∈ inspector.headers
  emptyIndex : inspector.hasEmpty = true → ∃ whenClause, whenList[inspector.emptyIndex]? = some whenClause ∧
    [] ∈ whenClause.list

end ManifestStringInspector

end Liberty
