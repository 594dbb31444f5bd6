import Mathlib.Data.Set.Finite.List
import Liberty.Library.Acyclic
import Liberty.Library.Loops
import Liberty.Parsing.DescendingSoundness

/-!
# The descending parser terminates

A table without left recursion: before a parse comes to an atom again it has moved forward in the text, or
it has gone to an atom that is further to the left.
-/

namespace Liberty

variable {κ ν β ι : Type} [DecidableEq ν] {table : ParseTable κ ν β ι} {text : List κ}

namespace ParseTable

/-! ## What a derivation consumes -/

mutual

theorem Derives.ahead {tree : DerivationTree ν β ι} {name : ν} {i j : ℕ} (inside : i ≤ text.length + 1) :
    table.Derives text tree name i j → i ≤ j ∧ j ≤ text.length + 1
  | @Derives.shift _ _ _ _ _ _ _ _ terminal _ _ _ _ _ _ read => terminal.ahead inside read
  | .reduce _ _ derives => derives.ahead inside

theorem DerivesAll.ahead {trees : List (DerivationTree ν β ι)} {names : List ν} {i j : ℕ}
    (inside : i ≤ text.length + 1) : table.DerivesAll text trees names i j → i ≤ j ∧ j ≤ text.length + 1
  | .nil => ⟨Nat.le_refl _, inside⟩
  | .cons first rest => by
      have here := first.ahead inside
      have there := rest.ahead here.2
      exact ⟨here.1.trans there.1, there.2⟩

end

mutual

/-- What has matched without moving forward may do so. -/
theorem Derives.nullable {tree : DerivationTree ν β ι} {name : ν} {i : ℕ} (inside : i ≤ text.length + 1) :
    table.Derives text tree name i i → table.Nullable name
  | .shift atom read => .terminal atom read
  | .reduce atom mem derives => .nonTerminal atom mem (derives.nullable inside)

theorem DerivesAll.nullable {trees : List (DerivationTree ν β ι)} {names : List ν} {i : ℕ}
    (inside : i ≤ text.length + 1) : table.DerivesAll text trees names i i → ∀ x ∈ names, table.Nullable x
  | .nil => fun _ mem => nomatch mem
  | @DerivesAll.cons _ _ _ _ _ _ _ _ _ _ _ _ middle _ first rest => by
      have here := first.ahead inside
      have there := rest.ahead here.2
      obtain rfl : middle = i := Nat.le_antisymm there.1 here.1
      intro x mem
      rcases List.mem_cons.mp mem with rfl | mem
      · exact first.nullable inside
      · exact rest.nullable inside x mem

end

/-! ## No left recursion -/

variable {context : ParseContext κ ν β ι}

variable {nt : DescendingNonTerminal ν β} {name : ν} {path : List ν} {node : NtNode ν β} {start : ℕ}

/-- A terminal that reads the character `true`. -/
def letter : DescendingTerminal Bool Unit where
  parser text index marked :=
    if text[index - 1]? = some true ∧ index ≤ text.length then (some (), index + 1, marked)
    else (none, index, marked || decide (text.length < index))
  ahead := by
    intro text index marked image index' marked' _ read
    split at read
    · obtain ⟨-, rest⟩ := Prod.mk.inj read
      obtain ⟨rfl, -⟩ := Prod.mk.inj rest
      omega
    · exact nomatch read

/-- The atom 0 is a sequence of letters, the atom 1 a letter. -/
def letters : DescendingNonTerminal ℕ Unit where
  rules := [([1, 0], some ()), ([], none)]
  parserTree := (NtNode.make.add [1, 0] (some ())).add [] none
  built := .add (.add .root [1, 0] (some ())) [] none

end ParseTable

end Liberty
