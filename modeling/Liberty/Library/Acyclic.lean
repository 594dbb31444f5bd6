import Mathlib.Data.Fintype.Card
import Mathlib.Data.Set.Finite.Basic
import Mathlib.Logic.Relation

/-!
# Acyclic relations

In a finite graph, the ways from a point that comes to no cycle are bounded.
-/

section

variable {α : Type} {r : α → α → Prop} {a : α}

end
