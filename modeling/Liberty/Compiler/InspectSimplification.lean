import Liberty.Compiler.InspectMerge

/-!
# What the simplification of an inspect statement preserves

Simplifying has the effect of the statement, in three cases excepted: a constant or a bound that does not
fit an INTEGER_32, a statement without clauses nor else part whose error disappears, and in boost mode the one
clause left after an expression that has to be evaluated, whose compound is dropped.
-/

namespace Liberty

variable {ε ι σ ρ : Type} [DecidableEq ι]

namespace InspectStatement

variable {compiler : Simplifier ε ι} {meaning : Interpretation ε ι σ ρ} {s : InspectStatement ε ι}

/-! ## The selection -/

/-- The branches where the simplification goes wrong are not taken, or make no difference. -/
structure Kept (compiler : Simplifier ε ι) (meaning : Interpretation ε ι σ ρ) (s : InspectStatement ε ι) : Prop where
  /-- What a constant selects as an INTEGER_32 behaves as what it selects. -/
  constant : ∀ c wl, compiler.simplifyExpression s.expression = .manifest c → s.whenList = some wl →
    ∀ state, meaning.Compared compiler.boost s state →
      meaning.runSelected false (s.selected (·.matchValue c.integerValue)) state =
        meaning.runSelected false (s.selected (·.has c.value)) state
  /-- A statement without clauses nor else part is kept for its error. -/
  noClause : s.whenList = none → s.elseIsUnknown = true → compiler.boost = false →
    (∀ c, compiler.simplifyExpression s.expression ≠ .manifest c) ∧
      compiler.sideEffectFree (compiler.simplifyExpression s.expression) = false
  /-- In boost mode the compound of the only clause left does nothing after an expression that is evaluated. -/
  oneClause : compiler.boost = true → s.elseIsUnknown = true →
    (∀ c, compiler.simplifyExpression s.expression ≠ .manifest c) →
    compiler.sideEffectFree (compiler.simplifyExpression s.expression) = false →
    ∀ wl, s.whenList = some wl → wl ≠ [] →
    (∀ j, 0 < j → j < wl.length → Repeats compiler (wl.map (WhenClause.simplify compiler)) j) →
    ∀ state v state' compound, meaning.evaluate s.expression state = .ok (v, state') →
      s.selected (·.has v) = some compound → meaning.run compound state' = .proceeds state'

end InspectStatement

end Liberty
