import Liberty.Kernel.SafeEqual
import Liberty.Storage.AvlDictionary

/-!
# Searching an AVL_DICTIONARY by value

The tree is ordered by its keys, so a value may be anywhere in it.  `occurrences` visits every
node; `key_at` and `fast_key_at` visit one child of each node only.
-/

namespace Liberty

open SortedAssoc

/-! ## The nodes -/

namespace AvlTreeNode

variable {κ ν : Type}

/-- `= Void` -/
def isVoid : AvlTreeNode (AvlCell ν) κ → Bool
  | void => true
  | node _ _ _ _ _ => false

/-- The search of `key_at` and `fast_key_at`; `initial` is the default value of the keys, Void for
references. -/
def keyWhere (same : ν → Bool) (initial : Option κ) : AvlTreeNode (AvlCell ν) κ → Option κ
  | void => initial
  | node left key cell _ right =>
    if same cell.value then some key
    else if !left.isVoid then keyWhere same initial left
    else if !right.isVoid then keyWhere same initial right
    else initial

def keyAt (E : SafeEqual ν) (initial : Option κ) (v : ν) (n : AvlTreeNode (AvlCell ν) κ) :
    Option κ :=
  n.keyWhere (E.test v) initial

def fastKeyAt (E : SafeEqual ν) (initial : Option κ) (v : ν)
    (n : AvlTreeNode (AvlCell ν) κ) : Option κ :=
  n.keyWhere (E.identical v) initial

/-- `occurrences_` and `fast_occurrences_`. -/
def occurrencesWhere (same : ν → Bool) : AvlTreeNode (AvlCell ν) κ → Int → Int
  | void, cnt => cnt
  | node left _ cell _ right, cnt =>
    let result := if same cell.value then cnt + 1 else cnt
    let result := if !left.isVoid then occurrencesWhere same left result else result
    if !right.isVoid then occurrencesWhere same right result else result

theorem occurrencesWhere_eq (same : ν → Bool) (n : AvlTreeNode (AvlCell ν) κ) (cnt : Int) :
    n.occurrencesWhere same cnt = cnt + n.bindings.countP fun p => same p.2 := by
  have child : ∀ (m : AvlTreeNode (AvlCell ν) κ) (cnt : Int),
      (if !m.isVoid then m.occurrencesWhere same cnt else cnt) = m.occurrencesWhere same cnt := by
    intro m cnt
    cases m <;> rfl
  induction n generalizing cnt with
  | void => exact (Int.add_zero cnt).symm
  | node left key cell b right leftIH rightIH =>
    rw [occurrencesWhere, bindings_node, List.countP_append, List.countP_cons]
    dsimp only
    rw [child, child, leftIH, rightIH]
    split <;> omega

/-! ## What the search visits -/

/-- The branch that goes to the left child wherever there is one, and else to the right child. -/
def firstBranch : AvlTreeNode (AvlCell ν) κ → List (κ × ν)
  | void => []
  | node left key cell _ right =>
    (key, cell.value) :: if !left.isVoid then firstBranch left else firstBranch right

theorem keyWhere_eq_find (same : ν → Bool) (initial : Option κ) (n : AvlTreeNode (AvlCell ν) κ) :
    n.keyWhere same initial =
      ((n.firstBranch.find? fun p => same p.2).map Prod.fst).or initial := by
  induction n with
  | void => rfl
  | node left key cell b right leftIH rightIH =>
    rw [keyWhere, firstBranch, List.find?_cons]
    cases here : same cell.value with
    | true => rfl
    | false =>
      cases leftVoid : left.isVoid with
      | false => exact leftIH
      | true =>
        cases right with
        | void => rfl
        | node l k c b r => exact rightIH

theorem mem_bindings_of_firstBranch {n : AvlTreeNode (AvlCell ν) κ} {p : κ × ν}
    (member : p ∈ n.firstBranch) : p ∈ n.bindings := by
  induction n with
  | void => exact member
  | node left key cell b right leftIH rightIH =>
    rw [bindings_node]
    rcases List.mem_cons.mp member with rfl | member
    · exact List.mem_append_right _ List.mem_cons_self
    · cases leftVoid : left.isVoid with
      | false =>
        rw [leftVoid] at member
        exact List.mem_append_left _ (leftIH member)
      | true =>
        rw [leftVoid] at member
        exact List.mem_append_right _ (List.mem_cons_of_mem _ (rightIH member))

end AvlTreeNode

/-! ## The dictionary -/

namespace AvlDictionary

variable {κ ν : Type}

/-- `key_at`; on an empty dictionary it calls a feature of Void. -/
def keyAt (E : SafeEqual ν) (initial : Option κ) (d : AvlDictionary κ ν) (v : ν) :
    Option (Option κ) :=
  if d.root.isVoid then none else some (d.root.keyAt E initial v)

def fastKeyAt (E : SafeEqual ν) (initial : Option κ) (d : AvlDictionary κ ν) (v : ν) :
    Option (Option κ) :=
  if d.root.isVoid then none else some (d.root.fastKeyAt E initial v)

/-- The map binds a value that is the `same` to one key only. -/
structure OnlyUnder (C : AvlItems κ) (m : κ → Option ν) (same : ν → Bool) (k : κ) : Prop where
  bound : ∃ w, m k = some w ∧ same w = true
  only : ∀ l w, m l = some w → same w = true → Same C.ordered l k

/-- The answer is the key `k`. -/
def Answers (C : AvlItems κ) (answer : Option (Option κ)) (k : κ) : Prop :=
  ∃ l, answer = some (some l) ∧ Same C.ordered l k

variable {C : AvlItems κ} {E : SafeEqual ν} {initial : Option κ} {d : AvlDictionary κ ν}
  {m : κ → Option ν} {same : ν → Bool} {k : κ} {v : ν}

/-- A binding of the tree is one of the map. -/
theorem bound_of_mem (h : AvlContainer.Represents C d m) {p : κ × ν}
    (member : p ∈ d.root.bindings) : m p.1 = some p.2 :=
  (h.lookup p.1 p.2).mpr ⟨p, member, ⟨C.ordered_irrefl _, C.ordered_irrefl _⟩, rfl⟩

theorem onlyUnder_of_bindings (h : AvlContainer.Represents C d m) {p : κ × ν}
    (member : p ∈ d.root.bindings) (hit : same p.2 = true)
    (all : ∀ q ∈ d.root.bindings, same q.2 = true → Same C.ordered q.1 p.1) :
    OnlyUnder C m same p.1 := by
  refine ⟨⟨p.2, bound_of_mem h member, hit⟩, fun l w bound hit' => ?_⟩
  obtain ⟨q, member', here, rfl⟩ := (h.lookup l w).mp bound
  exact here.symm.chain C.ordered_trans C.ordered_same (all q member' hit')

theorem bound_congr (h : AvlContainer.Represents C d m) {l : κ} (equal : Same C.ordered l k)
    {w : ν} (bound : m l = some w) : m k = some w := by
  obtain ⟨p, member, here, value⟩ := (h.lookup l w).mp bound
  exact (h.lookup k w).mpr ⟨p, member, here.chain C.ordered_trans C.ordered_same equal, value⟩

/-- The search finds the key where it visits the node of the key, or where the key is the one
that an unsuccessful search returns. -/
theorem keyWhere_iff (h : AvlContainer.Represents C d m) (held : OnlyUnder C m same k) :
    (∃ l, d.root.keyWhere same initial = some l ∧ Same C.ordered l k) ↔
      (∃ p ∈ d.root.firstBranch, Same C.ordered p.1 k) ∨
        ∃ l, initial = some l ∧ Same C.ordered l k := by
  rw [AvlTreeNode.keyWhere_eq_find]
  cases search : d.root.firstBranch.find? fun p => same p.2 with
  | some p =>
    have member := List.mem_of_find?_eq_some search
    have bound := bound_of_mem h (AvlTreeNode.mem_bindings_of_firstBranch member)
    have hit : same p.2 = true := List.find?_some (p := fun p : κ × ν => same p.2) search
    have equal := held.only p.1 p.2 bound hit
    exact iff_of_true ⟨p.1, rfl, equal⟩ (.inl ⟨p, member, equal⟩)
  | none =>
    refine ⟨.inr, fun visited => visited.resolve_left fun visited => ?_⟩
    obtain ⟨p, member, equal⟩ := visited
    obtain ⟨w, bound, hit⟩ := held.bound
    have here := bound_congr h equal
      (bound_of_mem h (AvlTreeNode.mem_bindings_of_firstBranch member))
    cases bound.symm.trans here
    exact absurd hit (List.find?_eq_none.mp search p member)

theorem root_ne_void (h : AvlContainer.Represents C d m) (held : OnlyUnder C m same k) :
    d.root.isVoid = false := by
  obtain ⟨w, bound, -⟩ := held.bound
  obtain ⟨p, member, -⟩ := (h.lookup k w).mp bound
  cases root : d.root with
  | void =>
    rw [root] at member
    exact absurd member List.not_mem_nil
  | node l i c b r => rfl

theorem answers_keyAt_iff (h : AvlContainer.Represents C d m)
    (held : OnlyUnder C m (E.test v) k) :
    Answers C (keyAt E initial d v) k ↔
      ∃ l, d.root.keyWhere (E.test v) initial = some l ∧ Same C.ordered l k := by
  have inside : keyAt E initial d v = some (d.root.keyWhere (E.test v) initial) := by
    unfold keyAt
    rw [root_ne_void h held]
    rfl
  unfold Answers
  rw [inside]
  simp only [Option.some.injEq]

theorem fastKeyAt_eq (coincide : E.Coincide) (initial : Option κ) (d : AvlDictionary κ ν) (v : ν) :
    fastKeyAt E initial d v = keyAt E initial d v := by
  unfold fastKeyAt keyAt AvlTreeNode.fastKeyAt AvlTreeNode.keyAt
  rw [funext (coincide v)]

/-- **AVL_DICTIONARY looks for a value on one branch.**  A key that alone holds the value is the
answer of `key_at` and of `fast_key_at` where the node of the key is on the branch that goes left
wherever it can, or where the key is the default value of its type, and nowhere else. -/
theorem keyAt_iff (κ ν : Type) (C : AvlItems κ) (E : SafeEqual ν) (initial : Option κ)
    (d : AvlDictionary κ ν) (m : κ → Option ν) (reached : Reaches C d m) (v : ν) (k : κ)
    (held : OnlyUnder C m (E.test v) k) :
    (Answers C (keyAt E initial d v) k ∧
        (E.Coincide → Answers C (fastKeyAt E initial d v) k)) ↔
      (∃ p ∈ d.root.firstBranch, Same C.ordered p.1 k) ∨
        ∃ l, initial = some l ∧ Same C.ordered l k := by
  have h := reached.represents
  rw [← keyWhere_iff h held, ← answers_keyAt_iff h held]
  refine ⟨And.left, fun answers => ⟨answers, fun coincide => ?_⟩⟩
  rw [fastKeyAt_eq coincide]
  exact answers

/-- Three keys whose nodes are the root and its two children. -/
theorem reaches_threeKeys :
    ∃ (d : AvlDictionary ℕ Int) (m : ℕ → Option Int), Reaches AvlTree.natItems d m ∧
      d.root = .node (.node .void 1 ⟨0, 10⟩ 0 .void) 2 ⟨1, 20⟩ 0
        (.node .void 3 ⟨2, 30⟩ 0 .void) := by
  have made : Reaches AvlTree.natItems (AvlContainer.make ⟨[], 0⟩ : AvlDictionary ℕ Int) _ :=
    .make ⟨.nil, fun a member => absurd member List.not_mem_nil⟩
  have first := made.step (.put 10 1) trivial rfl
  have second := first.step (.put 20 2) trivial rfl
  have third := second.step (.put 30 3) trivial rfl
  exact ⟨_, _, third, rfl⟩

/-- The node of 1 is the left child of the root. -/
theorem keyAt_iff_left :
    ∃ (d : AvlDictionary ℕ Int) (m : ℕ → Option Int), Reaches AvlTree.natItems d m ∧
      Answers AvlTree.natItems (keyAt SafeEqual.integer (some 0) d 10) 1 := by
  obtain ⟨d, m, reached, root⟩ := reaches_threeKeys
  have only : OnlyUnder AvlTree.natItems m (SafeEqual.integer.test 10) 1 :=
    onlyUnder_of_bindings (p := (1, 10)) reached.represents (by rw [root]; decide) rfl
      (by rw [root]; decide)
  have found := keyAt_iff ℕ Int AvlTree.natItems SafeEqual.integer (some 0) d m reached 10 1 only
  exact ⟨d, m, reached, (found.mpr (.inl ⟨(1, 10), by rw [root]; decide, by decide⟩)).1⟩

/-- The node of 3 is the right child of the root: the search for its value goes to the node of 1
and answers 0, the default value of the keys. -/
theorem not_keyAt_right :
    ∃ (d : AvlDictionary ℕ Int) (m : ℕ → Option Int), Reaches AvlTree.natItems d m ∧
      OnlyUnder AvlTree.natItems m (SafeEqual.integer.test 30) 3 ∧
      keyAt SafeEqual.integer (some 0) d 30 = some (some 0) ∧
      ¬Answers AvlTree.natItems (keyAt SafeEqual.integer (some 0) d 30) 3 := by
  obtain ⟨d, m, reached, root⟩ := reaches_threeKeys
  have only : OnlyUnder AvlTree.natItems m (SafeEqual.integer.test 30) 3 :=
    onlyUnder_of_bindings (p := (3, 30)) reached.represents (by rw [root]; decide) rfl
      (by rw [root]; decide)
  have answer : keyAt SafeEqual.integer (some 0) d 30 = some (some 0) := by
    unfold keyAt
    rw [root]
    rfl
  refine ⟨d, m, reached, only, answer, fun answers => ?_⟩
  obtain ⟨l, returned, equal⟩ := answers
  cases answer.symm.trans returned
  exact absurd equal (by decide)

/-! ## Counting a value -/

def occurrences (E : SafeEqual ν) (d : AvlDictionary κ ν) (v : ν) : Int :=
  if d.root.isVoid then 0 else d.root.occurrencesWhere (E.test v) 0

def fastOccurrences (E : SafeEqual ν) (d : AvlDictionary κ ν) (v : ν) : Int :=
  if d.root.isVoid then 0 else d.root.occurrencesWhere (E.identical v) 0

/-- **`occurrences` counts the keys that hold a value**: every binding of the map once, wherever
its node is. -/
theorem occurrences_eq_countP (κ ν : Type) (C : AvlItems κ) (E : SafeEqual ν) (d : AvlDictionary κ ν)
    (m : κ → Option ν) (reached : Reaches C d m) (v : ν) :
    ∃ bindings : List (κ × ν), bindings.Pairwise (fun p q => C.ordered p.1 q.1 = true) ∧
      (∀ k w, m k = some w ↔ ∃ p ∈ bindings, Same C.ordered p.1 k ∧ p.2 = w) ∧
      occurrences E d v = bindings.countP (fun p => E.test v p.2) ∧
      fastOccurrences E d v = bindings.countP (fun p => E.identical v p.2) := by
  have counted : ∀ same : ν → Bool, (if d.root.isVoid then 0 else d.root.occurrencesWhere same 0) =
      ((d.root.bindings.countP fun p => same p.2 : ℕ) : Int) := by
    intro same
    rw [AvlTreeNode.occurrencesWhere_eq, Int.zero_add]
    cases d.root <;> rfl
  have h := reached.represents
  exact ⟨d.root.bindings, h.sorted, h.lookup, counted _, counted _⟩

theorem occurrences_eq_countP_three :
    ∃ (d : AvlDictionary ℕ Int) (m : ℕ → Option Int) (bindings : List (ℕ × Int)),
      Reaches AvlTree.natItems d m ∧
      occurrences SafeEqual.integer d 30 =
        bindings.countP fun p => SafeEqual.integer.test 30 p.2 := by
  obtain ⟨d, m, reached, -⟩ := reaches_threeKeys
  obtain ⟨bindings, -, -, counted, -⟩ :=
    occurrences_eq_countP ℕ Int AvlTree.natItems SafeEqual.integer d m reached 30
  exact ⟨d, m, bindings, reached, counted⟩

end AvlDictionary

end Liberty
