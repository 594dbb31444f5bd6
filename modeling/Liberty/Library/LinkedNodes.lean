import Liberty.Library.Returns
import Mathlib.Data.List.Nodup
import Mathlib.Data.List.Perm.Basic
import Mathlib.Data.List.Range
import Mathlib.Data.Nat.Notation
import Mathlib.Logic.Function.Basic

/-!
# Chains of nodes

Nodes stand at addresses and are linked to one another; a node may carry several links,
each of them read and written through a `Link`.  A chain is the list of the addresses that
one comes to from a head.  A table is a family of chains, one for each bucket; `order` lists
its nodes.
-/

namespace LinkedNodes

/-- A link of a node: how it is read and written. -/
structure Link (α : Type) where
  get : α → Option ℕ
  set : Option ℕ → α → α
  get_set : ∀ n x, get (set n x) = n
  set_set : ∀ n m x, set n (set m x) = set n x

variable {α : Type}

/-! ## Chains -/

/-- The addresses from `head` on are `l`. -/
def Chain (next : ℕ → Option ℕ) : Option ℕ → List ℕ → Prop
  | head, [] => head = none
  | head, a :: l => head = some a ∧ Chain next (next a) l

variable {next next' : ℕ → Option ℕ} {head : Option ℕ} {l l' : List ℕ} {a b : ℕ}

theorem Chain.congr (h : Chain next head l) (same : ∀ a ∈ l, next' a = next a) :
    Chain next' head l := by
  induction l generalizing head with
  | nil => exact h
  | cons a l ih =>
    refine ⟨h.1, ?_⟩
    rw [same a List.mem_cons_self]
    exact ih h.2 fun b member => same b (List.mem_cons_of_mem a member)

theorem Chain.unique (h : Chain next head l) (h' : Chain next head l') : l = l' := by
  induction l generalizing head l' with
  | nil =>
    cases l' with
    | nil => rfl
    | cons b l' =>
      rw [show head = none from h] at h'
      cases h'.1
  | cons a l ih =>
    cases l' with
    | nil =>
      rw [show head = none from h'] at h
      cases h.1
    | cons b l' =>
      have same : a = b := Option.some_inj.mp (h.1.symm.trans h'.1)
      subst same
      rw [ih h.2 h'.2]

theorem Chain.suffix (h : Chain next head (l ++ a :: l')) : Chain next (some a) (a :: l') := by
  induction l generalizing head with
  | nil => exact ⟨rfl, h.2⟩
  | cons b l ih => exact ih h.2

theorem Chain.next_eq (h : Chain next head (l ++ b :: a :: l')) : next b = some a :=
  (Chain.suffix h).2.1

theorem Chain.next_last (h : Chain next head (l ++ [b])) : next b = none :=
  (Chain.suffix h).2

theorem Chain.exists_pair_of_next (h : Chain next head l) (member : a ∈ l) (linked : next a = some b) :
    ∃ l₁ l₂, l = l₁ ++ a :: b :: l₂ := by
  obtain ⟨l₁, t, rfl⟩ := List.mem_iff_append.mp member
  have rest := (Chain.suffix h).2
  rw [linked] at rest
  cases t with
  | nil => cases rest
  | cons c l₂ =>
    cases rest.1
    exact ⟨l₁, l₂, rfl⟩

/-- Where a second link leads back through the chain, the two links are inverse of each other. -/
theorem Chain.next_iff_previous (h : Chain next head l) {previous : ℕ → Option ℕ} {last : Option ℕ}
    (back : Chain previous last l.reverse) (member : a ∈ l) (member' : b ∈ l) :
    next a = some b ↔ previous b = some a := by
  constructor
  · intro linked
    obtain ⟨l₁, l₂, rfl⟩ := h.exists_pair_of_next member linked
    rw [List.reverse_append, List.reverse_cons, List.reverse_cons, List.append_assoc,
      List.append_assoc] at back
    exact Chain.next_eq back
  · intro linked
    obtain ⟨l₁, l₂, split⟩ := back.exists_pair_of_next (List.mem_reverse.mpr member') linked
    rw [← List.reverse_reverse l, split, List.reverse_append, List.reverse_cons, List.reverse_cons,
      List.append_assoc, List.append_assoc] at h
    exact Chain.next_eq h

/-- A chain that ends does not come twice to a node. -/
theorem Chain.nodup (h : Chain next head l) : l.Nodup := by
  induction l generalizing head with
  | nil => exact List.nodup_nil
  | cons a l ih =>
    refine List.nodup_cons.mpr ⟨fun again => ?_, ih h.2⟩
    obtain ⟨s, t, split⟩ := List.mem_iff_append.mp again
    have whole : Chain next (some a) (a :: l) := ⟨rfl, h.2⟩
    have part : Chain next (some a) (a :: t) := by
      rw [split] at h
      exact Chain.suffix (l := a :: s) h
    have lengths := congrArg List.length (whole.unique part)
    rw [split] at lengths
    simp only [List.length_cons, List.length_append] at lengths
    omega

theorem Chain.push (h : Chain next head l) (same : ∀ b ∈ l, next' b = next b)
    (linked : next' a = head) : Chain next' (some a) (a :: l) := by
  refine ⟨rfl, ?_⟩
  rw [linked]
  exact h.congr same

theorem Chain.unlink (h : Chain next head (l ++ b :: a :: l'))
    (same : ∀ c ∈ l ++ l', next' c = next c) (linked : next' b = next a) :
    Chain next' head (l ++ b :: l') := by
  induction l generalizing head with
  | nil =>
    refine ⟨h.1, ?_⟩
    rw [linked]
    exact h.2.2.congr same
  | cons c l ih =>
    refine ⟨h.1, ?_⟩
    rw [same c List.mem_cons_self]
    exact ih h.2 fun d member => same d (List.mem_cons_of_mem c member)

theorem Chain.insertAfter (h : Chain next head (l ++ b :: l'))
    (same : ∀ c ∈ l ++ l', next' c = next c) (linked : next' b = some a)
    (before : next' a = next b) : Chain next' head (l ++ b :: a :: l') := by
  induction l generalizing head with
  | nil =>
    refine ⟨h.1, linked, ?_⟩
    rw [before]
    exact h.2.congr same
  | cons c l ih =>
    refine ⟨h.1, ?_⟩
    rw [same c List.mem_cons_self]
    exact ih h.2 fun d member => same d (List.mem_cons_of_mem c member)

theorem Chain.head_eq (h : Chain next head l) : head = l.head? := by
  cases l with
  | nil => exact h
  | cons a l => exact h.1

theorem Chain.next_getElem? (h : Chain next head l) {k : ℕ} (at_k : l[k]? = some a) :
    next a = l[k + 1]? := by
  induction l generalizing head k with
  | nil => cases at_k
  | cons b l ih =>
    cases k with
    | zero =>
      cases at_k
      rw [h.2.head_eq, List.head?_eq_getElem?]
      rfl
    | succ k => exact ih h.2 at_k

/-- The node that one comes to after `k` steps. -/
def walk (next : ℕ → Option ℕ) (head : Option ℕ) : ℕ → Option ℕ
  | 0 => head
  | k + 1 => (walk next head k).bind next

theorem Chain.walk_eq (h : Chain next head l) (k : ℕ) : walk next head k = l[k]? := by
  induction k with
  | zero =>
    rw [← List.head?_eq_getElem?]
    exact h.head_eq
  | succ k ih =>
    unfold walk
    rw [ih]
    cases at_k : l[k]? with
    | none =>
      have past := List.getElem?_eq_none_iff.mp at_k
      exact (List.getElem?_eq_none (by omega)).symm
    | some a => exact h.next_getElem? at_k

/-! ## Tables -/

/-- The nodes of the first `n` buckets. -/
def order (chain : ℕ → List ℕ) (n : ℕ) : List ℕ :=
  (List.range n).flatMap chain

variable {chain chain' : ℕ → List ℕ} {n i : ℕ}

theorem mem_order : a ∈ order chain n ↔ ∃ i < n, a ∈ chain i := by
  unfold order
  simp only [List.mem_flatMap, List.mem_range]

theorem order_succ (chain : ℕ → List ℕ) (n : ℕ) : order chain (n + 1) = order chain n ++ chain n := by
  unfold order
  rw [List.range_succ, List.flatMap_append, List.flatMap_singleton]

theorem order_congr (same : ∀ i < n, chain' i = chain i) : order chain' n = order chain n := by
  induction n with
  | zero => rfl
  | succ n ih =>
    rw [order_succ, order_succ, ih fun i less => same i (by omega), same n (by omega)]

/-- The first chains are the beginning of all. -/
theorem order_isPrefix (chain : ℕ → List ℕ) {m n : ℕ} (le : m ≤ n) : order chain m <+: order chain n := by
  induction n with
  | zero =>
    obtain rfl := Nat.le_zero.mp le
    exact List.prefix_refl _
  | succ n ih =>
    rcases Nat.le_succ_iff.mp le with before | rfl
    · rw [order_succ]
      exact (ih before).trans (List.prefix_append _ _)
    · exact List.prefix_refl _

theorem nodup_order_of_le (nodup : (order chain n).Nodup) (le : i ≤ n) :
    (order chain i).Nodup := by
  induction n with
  | zero => rwa [Nat.le_zero.mp le]
  | succ n ih =>
    rcases Nat.le_succ_iff.mp le with before | same
    · rw [order_succ] at nodup
      exact ih (List.nodup_append.mp nodup).1 before
    · rwa [same]

theorem order_update_perm (less : i < n) (c : List ℕ) :
    (order (Function.update chain i c) n ++ chain i).Perm (order chain n ++ c) := by
  induction n with
  | zero => omega
  | succ n ih =>
    rw [order_succ, order_succ]
    by_cases last : i = n
    · subst last
      have before : order (Function.update chain i c) i = order chain i :=
        order_congr fun j low => Function.update_of_ne (by omega) _ _
      rw [before, Function.update_self, List.append_assoc, List.append_assoc]
      exact (List.perm_append_comm).append_left _
    · rw [Function.update_of_ne (by omega), List.append_assoc, List.append_assoc]
      refine ((List.perm_append_comm).append_left _).trans ?_
      rw [← List.append_assoc, ← List.append_assoc]
      refine ((ih (by omega)).append_right _).trans ?_
      rw [List.append_assoc, List.append_assoc]
      exact (List.perm_append_comm).append_left _

theorem order_push_perm (less : i < n) (a : ℕ) :
    (order (Function.update chain i (a :: chain i)) n).Perm (a :: order chain n) := by
  have middle : (order chain n ++ a :: chain i).Perm (a :: (order chain n ++ chain i)) :=
    List.perm_middle
  exact (List.perm_append_right_iff (chain i)).mp ((order_update_perm less _).trans middle)

theorem order_unlink_perm (less : i < n) (split : chain i = l ++ a :: l') :
    (order chain n).Perm (a :: order (Function.update chain i (l ++ l')) n) := by
  have swap : (order (Function.update chain i (l ++ l')) n ++ chain i).Perm
      (order chain n ++ (l ++ l')) := order_update_perm less _
  rw [split] at swap
  have middle : (order (Function.update chain i (l ++ l')) n ++ (l ++ a :: l')).Perm
      (a :: order (Function.update chain i (l ++ l')) n ++ (l ++ l')) := by
    refine ((List.perm_middle).append_left _).trans ?_
    exact List.perm_middle
  exact (List.perm_append_right_iff (l ++ l')).mp (swap.symm.trans middle)

theorem notMem_of_nodup_order (nodup : (order chain n).Nodup) {j : ℕ} (less : i < n)
    (less' : j < n) (other : i ≠ j) (member : a ∈ chain i) : a ∉ chain j := by
  have disjoint := (List.nodup_flatMap.mp nodup).2
  have symmetric : Std.Symm (Function.onFun List.Disjoint chain) :=
    ⟨fun _ _ apart _ inside inside' => apart inside' inside⟩
  exact disjoint.forall (List.mem_range.mpr less) (List.mem_range.mpr less') other member

/-! ## Walking a chain -/

/-- What stands at the addresses. -/
abbrev Memory (α : Type) : Type := ℕ → Option α

/-- The link of the node at an address. -/
def nextOf (link : Link α) (node : Memory α) (a : ℕ) : Option ℕ :=
  (node a).bind link.get

/-- The node at `a` meets the test. -/
def meets (node : Memory α) (test : α → Bool) (a : ℕ) : Bool :=
  (node a).any test

/-- `from head until node = Void or else test(node) loop node := node.next end` -/
def find (link : Link α) (node : Memory α) (test : α → Bool) (fuel : ℕ) (head : Option ℕ) :
    Option (Option ℕ) :=
  untilLoop
    (fun s => match s with
      | none => some true
      | some a => do return test (← node a))
    (fun s => do return link.get (← node (← s)))
    fuel head

/-- The same loop with the node before: it begins at `node := previous.next`. -/
def findAfter (link : Link α) (node : Memory α) (test : α → Bool) (fuel : ℕ)
    (previous : ℕ) (head : Option ℕ) : Option (ℕ × Option ℕ) :=
  untilLoop
    (fun s => match s.2 with
      | none => some true
      | some a => do return test (← node a))
    (fun s => do
      let a ← s.2
      return (a, link.get (← node a)))
    fuel (previous, head)

variable {link : Link α} {node node' : Memory α} {test : α → Bool}

theorem nextOf_eq {x : α} (at_a : node a = some x) : nextOf link node a = link.get x := by
  unfold nextOf
  rw [at_a]
  rfl

theorem meets_eq {x : α} (at_a : node a = some x) : meets node test a = test x := by
  unfold meets
  rw [at_a]
  rfl

theorem find_eq (h : Chain (nextOf link node) head l) (allocated : ∀ a ∈ l, ∃ x, node a = some x)
    {fuel : ℕ} (enough : l.length ≤ fuel) :
    find link node test fuel head = some (l.find? (meets node test)) := by
  induction l generalizing head fuel with
  | nil =>
    rw [show head = none from h]
    exact untilLoop_stopped rfl
  | cons a l ih =>
    obtain ⟨x, at_a⟩ := allocated a List.mem_cons_self
    rw [h.1]
    by_cases met : test x = true
    · rw [List.find?_cons_of_pos (by rw [meets_eq at_a]; exact met)]
      refine untilLoop_stopped ?_
      dsimp only
      rw [at_a, Option.bind_eq_bind, Option.bind_some, met]
      rfl
    · obtain ⟨fuel, rfl⟩ : ∃ f, fuel = f + 1 := ⟨fuel - 1, by simp at enough; omega⟩
      rw [List.find?_cons_of_neg (by rw [meets_eq at_a]; exact met)]
      have rest := h.2
      rw [nextOf_eq at_a] at rest
      have tail := ih rest (fun b member => allocated b (List.mem_cons_of_mem a member))
        (show l.length ≤ fuel by simpa using enough)
      unfold find at tail ⊢
      rw [untilLoop]
      simp only [Option.bind_eq_bind, Option.bind_some, at_a, Bool.eq_false_iff.mpr met,
        Option.pure_def, Bool.false_eq_true, if_false]
      exact tail

/-- The walk that keeps the node before comes to the first node that meets the test, if
there is one. -/
theorem findAfter_eq (h : Chain (nextOf link node) head l)
    (allocated : ∀ a ∈ l, ∃ x, node a = some x) {fuel : ℕ} (enough : l.length ≤ fuel)
    (previous : ℕ) :
    Returns (findAfter link node test fuel previous head) fun s =>
      s.2 = l.find? (meets node test) ∧
        ∀ a, s.2 = some a → ∃ l₁ l₂, previous :: l = l₁ ++ s.1 :: a :: l₂ := by
  induction l generalizing head fuel previous with
  | nil =>
    rw [show head = none from h]
    refine ⟨_, untilLoop_stopped rfl, rfl, fun a found => ?_⟩
    cases found
  | cons a l ih =>
    obtain ⟨x, at_a⟩ := allocated a List.mem_cons_self
    rw [h.1]
    by_cases met : test x = true
    · refine ⟨(previous, some a), untilLoop_stopped ?_, ?_, fun b found => ?_⟩
      · dsimp only
        rw [at_a, Option.bind_eq_bind, Option.bind_some, met]
        rfl
      · rw [List.find?_cons_of_pos (by rw [meets_eq at_a]; exact met)]
      · cases found
        exact ⟨[], l, rfl⟩
    · obtain ⟨fuel, rfl⟩ : ∃ f, fuel = f + 1 := ⟨fuel - 1, by simp at enough; omega⟩
      rw [List.find?_cons_of_neg (by rw [meets_eq at_a]; exact met)]
      have rest := h.2
      rw [nextOf_eq at_a] at rest
      have tail := ih rest (fun b member => allocated b (List.mem_cons_of_mem a member))
        (show l.length ≤ fuel by simpa using enough) a
      unfold findAfter at tail ⊢
      rw [untilLoop]
      simp only [Option.bind_eq_bind, Option.bind_some, at_a, Bool.eq_false_iff.mpr met,
        Option.pure_def, Bool.false_eq_true, if_false]
      refine tail.mono ?_
      rintro s ⟨found, split⟩
      refine ⟨found, fun b at_b => ?_⟩
      obtain ⟨l₁, l₂, eq⟩ := split b at_b
      exact ⟨previous :: l₁, l₂, by rw [eq]; rfl⟩

end LinkedNodes
