import Mathlib.Data.List.Basic
import Mathlib.Data.Nat.Notation
import Mathlib.Logic.Relation

/-!
# The descending parser

The rules of a non-terminal are merged into a tree of `DESCENDING_NT_NODE`s: a node stands for the names
of a rule up to it, its suffices are the names that may come next, and a rule may end at it.  `parse` tries
the suffices of a node one after the other and goes back in the buffer after each one that does not match.

The names of the atoms are interned, so two of them are equal when they are the same.  The builders, the
images of the terminals and the characters are of any type.
-/

namespace Liberty

section

/-- `TRISTATE` -/
inductive Tristate
  | yes
  | no
  | maybe
deriving DecidableEq

/-! ## The tree of a non-terminal -/

/-- `DESCENDING_NT_NODE`.  The action is a call of a builder with a rule; the `prefix_name` of a node is its
key among the suffices of its parent; no suffices stand for `suffices = Void`, and for the empty ones of a
root. -/
inductive NtNode (ν β : Type) where
  | mk (action : Option (β × List ν)) (endOfRule : Bool) (suffixes : List (ν × NtNode ν β))

namespace NtNode

variable {ν β : Type}

def action : NtNode ν β → Option (β × List ν)
  | ⟨action, _, _⟩ => action

def endOfRule : NtNode ν β → Bool
  | ⟨_, endOfRule, _⟩ => endOfRule

def suffixes : NtNode ν β → List (ν × NtNode ν β)
  | ⟨_, _, suffixes⟩ => suffixes

/-- `make`, and `root` -/
def make : NtNode ν β :=
  ⟨none, false, []⟩

variable [DecidableEq ν]

/-- The suffices where the node of a name is changed; it is made first if there is none. -/
def changeSuffix (change : NtNode ν β → NtNode ν β) (name : ν) : List (ν × NtNode ν β) → List (ν × NtNode ν β)
  | [] => [(name, change make)]
  | (key, node) :: rest =>
    if key = name then (key, change node) :: rest else (key, node) :: changeSuffix change name rest

/-- `do_add`, at the node where `rest` is what follows of the rule. -/
def doAdd (builder : Option β) (rule : List ν) : List ν → NtNode ν β → NtNode ν β
  | [], ⟨action, _, suffixes⟩ => ⟨(builder.map fun b => (b, rule)).orElse fun _ => action, true, suffixes⟩
  | name :: rest, ⟨action, endOfRule, suffixes⟩ =>
    ⟨action, endOfRule, changeSuffix (doAdd builder rule rest) name suffixes⟩

/-- `add`, at the root: an empty rule ends there. -/
def add (rule : List ν) (builder : Option β) (root : NtNode ν β) : NtNode ν β :=
  root.doAdd builder rule rule

/-- Somewhere in the tree the suffices are enumerated in another order: the dictionary may do so after each
addition. -/
inductive Rearranged : NtNode ν β → NtNode ν β → Prop
  | here {action : Option (β × List ν)} {endOfRule : Bool} {suffixes suffixes' : List (ν × NtNode ν β)}
      (same : suffixes.Perm suffixes') : Rearranged ⟨action, endOfRule, suffixes⟩ ⟨action, endOfRule, suffixes'⟩
  | deeper {action : Option (β × List ν)} {endOfRule : Bool} {before after : List (ν × NtNode ν β)} {name : ν}
      {node node' : NtNode ν β} (inside : Rearranged node node') :
      Rearranged ⟨action, endOfRule, before ++ (name, node) :: after⟩ ⟨action, endOfRule, before ++ (name, node') :: after⟩

/-- The tree has been built by adding the rules one after the other. -/
inductive Built : List (List ν × Option β) → NtNode ν β → Prop
  | root : Built [] make
  | add {rules : List (List ν × Option β)} {tree : NtNode ν β} (built : Built rules tree) (rule : List ν)
      (builder : Option β) : Built (rules ++ [(rule, builder)]) (tree.add rule builder)
  | rearrange {rules : List (List ν × Option β)} {tree tree' : NtNode ν β} (built : Built rules tree)
      (rearranged : Rearranged tree tree') : Built rules tree'

/-- `is_coherent`: all the atoms of the tree are in the table. -/
inductive IsCoherent (has : ν → Prop) : NtNode ν β → Prop
  | node {node : NtNode ν β} (names : ∀ name next, (name, next) ∈ node.suffixes → has name)
      (suffixes : ∀ name next, (name, next) ∈ node.suffixes → IsCoherent has next) : IsCoherent has node

end NtNode

/-! ## The parse table -/

/-- `DESCENDING_TERMINAL`: the agent gets the text, the current index and the mark of the buffer, and gives
the image or none, and the new index and mark.  What it has read is a part of the text that lies ahead. -/
structure DescendingTerminal (κ ι : Type) where
  parser : List κ → ℕ → Bool → Option ι × ℕ × Bool
  ahead : ∀ {text index marked image index' marked'}, index ≤ text.length + 1 →
    parser text index marked = (some image, index', marked') → index ≤ index' ∧ index' ≤ text.length + 1

/-- `DESCENDING_NON_TERMINAL`, with the rules that it has been made of. -/
structure DescendingNonTerminal (ν β : Type) [DecidableEq ν] where
  rules : List (List ν × Option β)
  parserTree : NtNode ν β
  built : NtNode.Built rules parserTree

inductive ParseAtom (κ ν β ι : Type) [DecidableEq ν]
  | terminal (terminal : DescendingTerminal κ ι)
  | nonTerminal (nonTerminal : DescendingNonTerminal ν β)

/-- `PARSE_TABLE` -/
structure ParseTable (κ ν β ι : Type) [DecidableEq ν] where
  atoms : List (ν × ParseAtom κ ν β ι)

/-- `PARSE_ACTION`: the image of a terminal, or the reduction of a non-terminal by a rule. -/
inductive ParseAction (ν β ι : Type)
  | shift (name : ν) (image : ι)
  | reduce (name : ν) (action : Option (β × List ν))

/-- `DESCENDING_PARSE_CONTEXT`, with the fields of its buffer. -/
structure ParseContext (κ ν β ι : Type) where
  text : List κ
  currentIndex : ℕ
  marked : Bool
  actions : List (ParseAction ν β ι)

variable {κ ν β ι : Type}

namespace ParseContext

/-- `actions.add_last` -/
def addAction (context : ParseContext κ ν β ι) (action : ParseAction ν β ι) : ParseContext κ ν β ι :=
  { context with actions := context.actions ++ [action] }

/-- `buffer.restore (memo)`, and the removal of the actions that have been added since there were `oldCount`. -/
def restore (context : ParseContext κ ν β ι) (memo oldCount : ℕ) : ParseContext κ ν β ι :=
  { context with
    currentIndex := memo
    actions :=
      if context.actions.length > oldCount then
        context.actions.take (context.actions.length - (context.actions.length - oldCount))
      else context.actions }

end ParseContext

/-- `parse` of a terminal. -/
def DescendingTerminal.parse (terminal : DescendingTerminal κ ι) (name : ν) (context : ParseContext κ ν β ι) :
    Tristate × ParseContext κ ν β ι :=
  match terminal.parser context.text context.currentIndex context.marked with
  | (some image, index, marked) =>
    (.yes, { context with currentIndex := index, marked := marked }.addAction (.shift name image))
  | (none, _, marked) => (if marked then .maybe else .no, { context with marked := marked })

/-- The loop of `parse_suffices`: the first suffix that matches, or `maybe` if one could have. -/
def scanSuffices (doParse : ν → NtNode ν β → ParseContext κ ν β ι → Option (Tristate × ParseContext κ ν β ι))
    (memo oldCount : ℕ) : List (ν × NtNode ν β) → Bool → ParseContext κ ν β ι →
      Option (Tristate × ParseContext κ ν β ι)
  | [], perhaps, context => some (if perhaps then .maybe else .no, context)
  | (name, node) :: rest, perhaps, context => do
      let (parsenode, context) ← doParse name node context
      if parsenode = .yes then return (.yes, context)
      else
        scanSuffices doParse memo oldCount rest (perhaps || decide (parsenode = .maybe))
          (context.restore memo oldCount)

/-- `parse_suffices` -/
def parseSuffices (doParse : ν → NtNode ν β → ParseContext κ ν β ι → Option (Tristate × ParseContext κ ν β ι))
    (node : NtNode ν β) (context : ParseContext κ ν β ι) : Option (Tristate × ParseContext κ ν β ι) :=
  scanSuffices doParse context.currentIndex context.actions.length node.suffixes false context

/-- `parse_suffices`, and the end of a rule at the node if none of them matches. -/
def parseRest (doParse : ν → NtNode ν β → ParseContext κ ν β ι → Option (Tristate × ParseContext κ ν β ι))
    (nt : ν) (node : NtNode ν β) (context : ParseContext κ ν β ι) : Option (Tristate × ParseContext κ ν β ι) := do
  let (result, context) ← parseSuffices doParse node context
  if result ≠ .yes ∧ node.endOfRule then
    return (.yes, context.addAction (.reduce nt node.action))
  else
    return (result, context)

/-- What `do_parse` does when the atom of the node has been parsed. -/
def afterAtom (doParse : ν → NtNode ν β → ParseContext κ ν β ι → Option (Tristate × ParseContext κ ν β ι))
    (nt : ν) (node : NtNode ν β) : Tristate × ParseContext κ ν β ι → Option (Tristate × ParseContext κ ν β ι)
  | (result, context) =>
    if result = .yes then
      if node.suffixes.isEmpty then some (.yes, context.addAction (.reduce nt node.action))
      else parseRest doParse nt node context
    else some (result, context)

namespace ParseTable

variable [DecidableEq ν] (table : ParseTable κ ν β ι)

/-- `item` -/
def item (name : ν) : Option (ParseAtom κ ν β ι) :=
  table.atoms.lookup name

/-- `is_coherent` -/
def IsCoherent : Prop :=
  ∀ name nonTerminal, table.item name = some (.nonTerminal nonTerminal) →
    NtNode.IsCoherent (fun name => ∃ atom, table.item name = some atom) nonTerminal.parserTree

mutual

/-- `parse` of the atom with the name. -/
def parse : ℕ → ν → ParseContext κ ν β ι → Option (Tristate × ParseContext κ ν β ι)
  | 0, _, _ => none
  | fuel + 1, name, context => do
      match ← table.item name with
      | .terminal terminal => return terminal.parse name context
      | .nonTerminal nonTerminal => parseRest (doParse fuel name) name nonTerminal.parserTree context

/-- `do_parse` of a node of the non-terminal `nt`, whose prefix name is `prefixName`. -/
def doParse : ℕ → ν → ν → NtNode ν β → ParseContext κ ν β ι → Option (Tristate × ParseContext κ ν β ι)
  | 0, _, _, _, _ => none
  | fuel + 1, nt, prefixName, node, old => do
      let (result, context) ← afterAtom (doParse fuel nt) nt node (← parse fuel prefixName old)
      return (result, if result ≠ .yes then context.restore old.currentIndex old.actions.length else context)

end

end ParseTable

end

/-!
## The grammar of a parse table

What the trees of the non-terminals stand for, and what a derivation by the rules of a table is.
-/

section

/-! ## The rules in a tree -/

namespace NtNode

variable {ν β : Type} {name : ν} {node node' tree tree' : NtNode ν β} {path : List ν}
variable {rules rules' : List (List ν × Option β)}

/-- What is known of a node that the names of `path` lead to. -/
structure StandsFor (rules : List (List ν × Option β)) (path : List ν) (node : NtNode ν β) : Prop where
  ends : node.endOfRule = true → ∃ builder, (path, builder) ∈ rules ∧ node.action = builder.map fun b => (b, path)
  goesOn : node.endOfRule = false → node.action = none
  within : path = [] ∨ ∃ rule ∈ rules, path <+: rule.1

/-- All nodes of the tree, of which the root is at `path`, stand for rules; and rules end at its leaves. -/
inductive Holds (rules : List (List ν × Option β)) : List ν → NtNode ν β → Prop
  | node {path : List ν} {node : NtNode ν β} (standsFor : StandsFor rules path node)
      (leaf : path ≠ [] → node.suffixes = [] → node.endOfRule = true)
      (suffixes : ∀ name next, (name, next) ∈ node.suffixes → Holds rules (path ++ [name]) next) :
      Holds rules path node

theorem StandsFor.mono (subset : rules ⊆ rules') (h : StandsFor rules path node) : StandsFor rules' path node := by
  refine ⟨fun ended => ?_, h.goesOn, ?_⟩
  · obtain ⟨builder, mem, same⟩ := h.ends ended
    exact ⟨builder, subset mem, same⟩
  · rcases h.within with root | ⟨rule, mem, start⟩
    · exact Or.inl root
    · exact Or.inr ⟨rule, subset mem, start⟩

theorem Holds.mono (subset : rules ⊆ rules') (h : Holds rules path node) : Holds rules' path node := by
  induction h with
  | node standsFor leaf _ ih => exact .node (standsFor.mono subset) leaf ih

theorem Holds.standsFor (h : Holds rules path node) : StandsFor rules path node := by
  cases h with
  | node standsFor _ _ => exact standsFor

theorem Holds.leaf (h : Holds rules path node) (inner : path ≠ []) (empty : node.suffixes = []) :
    node.endOfRule = true := by
  cases h with
  | node _ leaf _ => exact leaf inner empty

theorem Holds.suffix (h : Holds rules path node) (suffix : (name, node') ∈ node.suffixes) :
    Holds rules (path ++ [name]) node' := by
  cases h with
  | node _ _ suffixes => exact suffixes name node' suffix

variable [DecidableEq ν]

theorem mem_changeSuffix {change : NtNode ν β → NtNode ν β} {key : ν} {suffixes : List (ν × NtNode ν β)}
    (mem : (key, node) ∈ changeSuffix change name suffixes) : (key, node) ∈ suffixes ∨
      (key = name ∧ (node = change make ∨ ∃ old, (name, old) ∈ suffixes ∧ node = change old)) := by
  induction suffixes with
  | nil =>
    obtain ⟨rfl, rfl⟩ := Prod.mk.inj (List.mem_singleton.mp mem)
    exact Or.inr ⟨rfl, Or.inl rfl⟩
  | cons first rest ih =>
    obtain ⟨other, old⟩ := first
    unfold changeSuffix at mem
    split at mem
    · rename_i same
      rcases List.mem_cons.mp mem with here | mem
      · obtain ⟨rfl, rfl⟩ := Prod.mk.inj here
        exact Or.inr ⟨same, Or.inr ⟨old, same ▸ List.mem_cons_self, rfl⟩⟩
      · exact Or.inl (List.mem_cons_of_mem _ mem)
    · rcases List.mem_cons.mp mem with here | mem
      · exact Or.inl (here ▸ List.mem_cons_self)
      · rcases ih mem with later | ⟨same, fresh | ⟨old', there, changed⟩⟩
        · exact Or.inl (List.mem_cons_of_mem _ later)
        · exact Or.inr ⟨same, Or.inl fresh⟩
        · exact Or.inr ⟨same, Or.inr ⟨old', List.mem_cons_of_mem _ there, changed⟩⟩

theorem changeSuffix_ne_nil {change : NtNode ν β → NtNode ν β} {suffixes : List (ν × NtNode ν β)} :
    changeSuffix change name suffixes ≠ [] := by
  cases suffixes with
  | nil => exact List.cons_ne_nil _ _
  | cons first rest =>
    unfold changeSuffix
    split
    · exact List.cons_ne_nil _ _
    · exact List.cons_ne_nil _ _

/-- Adding the rest of a rule at the node that its first names lead to. -/
theorem holds_doAdd {builder : Option β} {rest : List ν} (rule : (path ++ rest, builder) ∈ rules)
    (standsFor : StandsFor rules path node)
    (suffixes : ∀ name next, (name, next) ∈ node.suffixes → Holds rules (path ++ [name]) next) :
    Holds rules path (node.doAdd builder (path ++ rest) rest) := by
  induction rest generalizing path node with
  | nil =>
    obtain ⟨action, endOfRule, successors⟩ := node
    rw [List.append_nil] at rule ⊢
    refine .node ⟨fun _ => ?_, fun none => (nomatch none), standsFor.within⟩ (fun _ _ => rfl) suffixes
    cases builder with
    | some b => exact ⟨some b, rule, rfl⟩
    | none =>
      cases ended : endOfRule with
      | false =>
        have none : action = none := standsFor.goesOn ended
        exact ⟨_, rule, none⟩
      | true =>
        obtain ⟨builder, mem, same⟩ := standsFor.ends ended
        exact ⟨builder, mem, same⟩
  | cons name rest ih =>
    obtain ⟨action, endOfRule, successors⟩ := node
    have next_rule : (path ++ [name] ++ rest, builder) ∈ rules := by
      rw [List.append_assoc]
      exact rule
    have next_within : path ++ [name] = [] ∨ ∃ rule ∈ rules, path ++ [name] <+: rule.1 :=
      Or.inr ⟨_, next_rule, List.prefix_append _ _⟩
    refine .node ⟨standsFor.ends, standsFor.goesOn, standsFor.within⟩
      (fun _ empty => absurd empty changeSuffix_ne_nil) fun key next mem => ?_
    rcases mem_changeSuffix mem with old | ⟨rfl, fresh | ⟨old, there, changed⟩⟩
    · exact suffixes key next old
    · rw [fresh]
      have made : StandsFor rules (path ++ [key]) make := ⟨fun none => (nomatch none), fun _ => rfl, next_within⟩
      have added := ih next_rule made fun _ _ none => (nomatch none)
      rwa [List.append_assoc] at added
    · rw [changed]
      have below := suffixes key old there
      have added := ih next_rule below.standsFor fun name next mem => below.suffix mem
      rwa [List.append_assoc] at added

omit [DecidableEq ν] in
theorem holds_rearranged (rearranged : Rearranged tree tree') (h : Holds rules path tree) : Holds rules path tree' := by
  induction rearranged generalizing path with
  | here same =>
    refine .node ⟨h.standsFor.ends, h.standsFor.goesOn, h.standsFor.within⟩ (fun inner empty => ?_)
      fun name next mem => h.suffix (same.mem_iff.mpr mem)
    exact h.leaf inner (List.perm_nil.mp (empty ▸ same))
  | @deeper action endOfRule before after key node node' inside ih =>
    refine .node ⟨h.standsFor.ends, h.standsFor.goesOn, h.standsFor.within⟩
      (fun _ empty => absurd empty (by simp [NtNode.suffixes])) fun name next mem => ?_
    rcases List.mem_append.mp mem with there | mem
    · exact h.suffix (List.mem_append_left _ there)
    · rcases List.mem_cons.mp mem with same | there
      · obtain ⟨rfl, rfl⟩ := Prod.mk.inj same
        exact ih (h.suffix (List.mem_append_right _ List.mem_cons_self))
      · exact h.suffix (List.mem_append_right _ (List.mem_cons_of_mem _ there))

/-- The tree of a non-terminal holds its rules. -/
theorem Built.holds (built : Built rules tree) : Holds rules [] tree := by
  induction built with
  | root =>
    refine .node ⟨fun none => (nomatch none), fun _ => rfl, Or.inl rfl⟩ (fun inner => absurd rfl inner)
      fun _ _ none => (nomatch none)
  | @add rules tree built rule builder ih =>
    have old : Holds (rules ++ [(rule, builder)]) [] tree := ih.mono (List.subset_append_left _ _)
    have last : (([] : List ν) ++ rule, builder) ∈ rules ++ [(rule, builder)] :=
      List.mem_append_right _ List.mem_cons_self
    exact holds_doAdd last old.standsFor fun name next mem => old.suffix mem
  | rearrange built rearranged ih => exact holds_rearranged rearranged ih

end NtNode

/-! ## Derivations -/

variable {κ ν β ι : Type} [DecidableEq ν]

/-- A derivation tree: at its leaves images of terminals, and at the other nodes the rules by which
non-terminals are reduced. -/
inductive DerivationTree (ν β ι : Type) where
  | shift (name : ν) (image : ι)
  | reduce (name : ν) (action : Option (β × List ν)) (children : List (DerivationTree ν β ι))

namespace DerivationTree

mutual

/-- The actions of the tree in post-order: one for each terminal and one for each rule. -/
def reductions : DerivationTree ν β ι → List (ParseAction ν β ι)
  | .shift name image => [.shift name image]
  | .reduce name action children => reductionsOf children ++ [.reduce name action]

def reductionsOf : List (DerivationTree ν β ι) → List (ParseAction ν β ι)
  | [] => []
  | tree :: rest => tree.reductions ++ reductionsOf rest

end

end DerivationTree

namespace ParseTable

variable (table : ParseTable κ ν β ι)

mutual

/-- The tree derives the text between the two indexes from the atom. -/
inductive Derives (text : List κ) : DerivationTree ν β ι → ν → ℕ → ℕ → Prop
  | shift {name : ν} {terminal : DescendingTerminal κ ι} {image : ι} {index index' : ℕ} {marked marked' : Bool}
      (atom : table.item name = some (.terminal terminal))
      (read : terminal.parser text index marked = (some image, index', marked')) :
      Derives text (.shift name image) name index index'
  | reduce {name : ν} {nt : DescendingNonTerminal ν β} {rule : List ν} {builder : Option β}
      {children : List (DerivationTree ν β ι)} {index index' : ℕ}
      (atom : table.item name = some (.nonTerminal nt)) (mem : (rule, builder) ∈ nt.rules)
      (derives : DerivesAll text children rule index index') :
      Derives text (.reduce name (builder.map fun b => (b, rule)) children) name index index'

/-- The trees derive the text between the two indexes from the atoms, one after the other. -/
inductive DerivesAll (text : List κ) : List (DerivationTree ν β ι) → List ν → ℕ → ℕ → Prop
  | nil {index : ℕ} : DerivesAll text [] [] index index
  | cons {tree : DerivationTree ν β ι} {trees : List (DerivationTree ν β ι)} {name : ν} {names : List ν}
      {index middle index' : ℕ} (first : Derives text tree name index middle)
      (rest : DerivesAll text trees names middle index') : DerivesAll text (tree :: trees) (name :: names) index index'

end

/-- The atom may match without moving forward. -/
inductive Nullable : ν → Prop
  | terminal {name : ν} {terminal : DescendingTerminal κ ι} {text : List κ} {index : ℕ} {marked marked' : Bool}
      {image : ι} (atom : table.item name = some (.terminal terminal))
      (read : terminal.parser text index marked = (some image, index, marked')) : Nullable name
  | nonTerminal {name : ν} {nt : DescendingNonTerminal ν β} {rule : List ν} {builder : Option β}
      (atom : table.item name = some (.nonTerminal nt)) (mem : (rule, builder) ∈ nt.rules)
      (all : ∀ x ∈ rule, Nullable x) : Nullable name

end ParseTable

end

end Liberty
