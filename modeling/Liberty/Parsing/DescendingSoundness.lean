import Liberty.Parsing.DescendingParser

/-!
# The descending parser is sound and atomic

When a parse answers `yes`, what it has consumed has a derivation tree, and the actions that it has
appended are the reductions of this tree.  When it does not, the index and the actions are as before.
-/

namespace Liberty

variable {κ ν β ι : Type} {context context' : ParseContext κ ν β ι} {result : Tristate}

namespace ParseContext

/-- The text is the same, and so is what `restore` puts back. -/
structure Unchanged (context context' : ParseContext κ ν β ι) : Prop where
  text : context'.text = context.text
  index : context'.currentIndex = context.currentIndex
  actions : context'.actions = context.actions

theorem Unchanged.refl : context.Unchanged context :=
  ⟨rfl, rfl, rfl⟩

theorem Unchanged.trans {context'' : ParseContext κ ν β ι} (first : context.Unchanged context')
    (second : context'.Unchanged context'') : context.Unchanged context'' :=
  ⟨second.text.trans first.text, second.index.trans first.index, second.actions.trans first.actions⟩

end ParseContext

/-- What a parse may do: `yes` with something consumed and some actions appended, of which `Q` holds, or
another answer and nothing changed. -/
def Atomic (Q : List κ → ℕ → ℕ → List (ParseAction ν β ι) → Prop) (context : ParseContext κ ν β ι) (result : Tristate)
    (context' : ParseContext κ ν β ι) : Prop :=
  context'.text = context.text ∧
    (result = .yes → ∃ added, context'.actions = context.actions ++ added ∧
      Q context.text context.currentIndex context'.currentIndex added) ∧
    (result ≠ .yes → context.Unchanged context')

namespace Atomic

variable {Q Q' : List κ → ℕ → ℕ → List (ParseAction ν β ι) → Prop}

theorem mono (h : Atomic Q context result context') (weaken : ∀ text i j added, Q text i j added → Q' text i j added) :
    Atomic Q' context result context' := by
  refine ⟨h.1, fun yes => ?_, h.2.2⟩
  obtain ⟨added, actions, holds⟩ := h.2.1 yes
  exact ⟨added, actions, weaken _ _ _ _ holds⟩

end Atomic

variable [DecidableEq ν] {table : ParseTable κ ν β ι}

namespace ParseTable

/-- What a node at `path` may do: the names from here to the end of a rule are derived, and the reduction
by this rule comes last. -/
def Reduces (table : ParseTable κ ν β ι) (nt : DescendingNonTerminal ν β) (name : ν) (path : List ν) (text : List κ)
    (i j : ℕ) (added : List (ParseAction ν β ι)) : Prop :=
  ∃ rest builder trees, (path ++ rest, builder) ∈ nt.rules ∧ table.DerivesAll text trees rest i j ∧
    added = DerivationTree.reductionsOf trees ++ [.reduce name (builder.map fun b => (b, path ++ rest))]

variable {nt : DescendingNonTerminal ν β} {name prefixName : ν} {path : List ν} {node : NtNode ν β}

/-- What a node does after its own name: it goes on with a suffix, or ends a rule. -/
theorem Reduces.cons {tree : DerivationTree ν β ι} {text : List κ} {i k j : ℕ} {added : List (ParseAction ν β ι)}
    (first : table.Derives text tree prefixName i k) (rest : table.Reduces nt name (path ++ [prefixName]) text k j added) :
    table.Reduces nt name path text i j (tree.reductions ++ added) := by
  obtain ⟨names, builder, trees, mem, derives, rfl⟩ := rest
  rw [List.append_assoc] at mem
  refine ⟨prefixName :: names, builder, tree :: trees, mem, .cons first derives, ?_⟩
  rw [List.append_assoc, ← List.append_assoc tree.reductions]
  rfl

end ParseTable

end Liberty
