import Liberty.Storage.AvlTreeCommands
import Mathlib.Data.List.Nodup

/-!
# The node objects of an AVL container

An AVL container that is enumerated keeps references to its nodes in `map`, so its nodes are
told apart here: a node has an address, which it keeps when its value is set or when it takes
the item of another node.  The nodes that are discarded go to a pool of the node type.
-/

namespace Liberty

open SortedAssoc

/-- What a node holds beside its item. -/
structure AvlCell (V : Type) where
  address : ℕ
  value : V

/-- `lost_nodes`, the top of the stack first, and the next address of a new object. -/
structure AvlPool where
  lostNodes : List ℕ
  fresh : ℕ

namespace AvlPool

/-- `new_node` -/
def newNode (pool : AvlPool) : ℕ × AvlPool :=
  match pool.lostNodes with
  | [] => (pool.fresh, { pool with fresh := pool.fresh + 1 })
  | a :: rest => (a, { pool with lostNodes := rest })

/-- `discard_node` -/
def discardNode (pool : AvlPool) (a : ℕ) : AvlPool :=
  { pool with lostNodes := a :: pool.lostNodes }

/-- The nodes `used` are those of a container, the lost ones those of none. -/
structure Apart (pool : AvlPool) (used : List ℕ) : Prop where
  nodup : (pool.lostNodes ++ used).Nodup
  less : ∀ a ∈ pool.lostNodes ++ used, a < pool.fresh

variable {pool : AvlPool} {used used' : List ℕ}

theorem Apart.perm (h : pool.Apart used) (perm : used'.Perm used) : pool.Apart used' := by
  have all : (pool.lostNodes ++ used').Perm (pool.lostNodes ++ used) := perm.append_left _
  exact ⟨all.nodup_iff.mpr h.nodup, fun a member => h.less a (all.mem_iff.mp member)⟩

theorem Apart.newNode (h : pool.Apart used) : pool.newNode.2.Apart (pool.newNode.1 :: used) := by
  obtain ⟨lostNodes, fresh⟩ := pool
  cases lostNodes with
  | nil =>
    refine ⟨List.nodup_cons.mpr ⟨fun member => ?_, h.nodup⟩, fun a member => ?_⟩
    · exact absurd (h.less fresh member) (Nat.lt_irrefl fresh)
    · rcases List.mem_cons.mp member with rfl | member
      · exact Nat.lt_succ_self _
      · exact Nat.lt_succ_of_lt (h.less a member)
  | cons b rest =>
    have perm : (rest ++ b :: used).Perm (b :: rest ++ used) := List.perm_middle
    exact ⟨perm.nodup_iff.mpr h.nodup, fun a member => h.less a (perm.mem_iff.mp member)⟩

theorem Apart.discardNode {a : ℕ} (h : pool.Apart (a :: used)) : (pool.discardNode a).Apart used := by
  have perm : (a :: pool.lostNodes ++ used).Perm (pool.lostNodes ++ a :: used) :=
    List.perm_middle.symm
  exact ⟨perm.nodup_iff.mpr h.nodup, fun b member => h.less b (perm.mem_iff.mp member)⟩

end AvlPool

namespace AvlTreeNode

variable {V K : Type}

/-! ## The source -/

/-- `do_insert` -/
def insertNode (C : AvlItems K) (itemMemory : K) (valueMemory : V) :
    AvlTreeNode (AvlCell V) K → AvlFlags → AvlPool →
      Option (AvlTreeNode (AvlCell V) K × AvlFlags × AvlPool)
  | void, flags, pool =>
    some (freshNode itemMemory ⟨pool.newNode.1, valueMemory⟩,
      { rebalance := true, count := flags.count + 1, mapDirty := true }, pool.newNode.2)
  | node left item cell balance right, flags, pool =>
    if C.ordered itemMemory item then do
      let (left', flags', pool') ← insertNode C itemMemory valueMemory left flags pool
      let (result, flags'') ←
        whenRebalance leftGrown (node left' item cell balance right) flags'
      return (result, flags'', pool')
    else if C.ordered item itemMemory then do
      let (right', flags', pool') ← insertNode C itemMemory valueMemory right flags pool
      let (result, flags'') ←
        whenRebalance rightGrown (node left item cell balance right') flags'
      return (result, flags'', pool')
    else
      some (node left item { cell with value := valueMemory } balance right,
        { flags with rebalance := false }, pool)

/-- `fast_do_insert` -/
def fastInsertNode (C : AvlItems K) (itemMemory : K) (valueMemory : V) :
    AvlTreeNode (AvlCell V) K → AvlFlags → AvlPool →
      Option (AvlTreeNode (AvlCell V) K × AvlFlags × AvlPool)
  | void, flags, pool =>
    some (freshNode itemMemory ⟨pool.newNode.1, valueMemory⟩,
      { rebalance := true, count := flags.count + 1, mapDirty := true }, pool.newNode.2)
  | node left item cell balance right, flags, pool =>
    if C.identical itemMemory item then
      some (node left item { cell with value := valueMemory } balance right,
        { flags with rebalance := false }, pool)
    else if C.ordered itemMemory item then do
      let (left', flags', pool') ← fastInsertNode C itemMemory valueMemory left flags pool
      let (result, flags'') ←
        whenRebalance leftGrown (node left' item cell balance right) flags'
      return (result, flags'', pool')
    else if C.ordered item itemMemory then do
      -- the `check` of the source
      let (right', flags', pool') ← fastInsertNode C itemMemory valueMemory right flags pool
      let (result, flags'') ←
        whenRebalance rightGrown (node left item cell balance right') flags'
      return (result, flags'', pool')
    else none

/-- The removal of the node itself: it takes the item and the value of the rightmost node on
its left, which is discarded in its place. -/
def removeFoundNode :
    AvlTreeNode (AvlCell V) K → AvlFlags → AvlPool →
      Option (AvlTreeNode (AvlCell V) K × AvlFlags × AvlPool)
  | void, _, _ => none
  | node void _ cell _ right, flags, pool =>
    some (right, discarded flags, pool.discardNode cell.address)
  | node (node ll li lc lb lr) _ cell _ void, flags, pool =>
    some (node ll li lc lb lr, discarded flags, pool.discardNode cell.address)
  | node (node ll li lc lb lr) _ cell balance (node rl ri rc rb rr), flags, pool => do
      let (left', (item', cell'), flags') ← removeRight (node ll li lc lb lr) flags
      let (result, flags'') ← whenRebalance leftShrunk
        (node left' item' { cell with value := cell'.value } balance (node rl ri rc rb rr)) flags'
      return (result, flags'', pool.discardNode cell'.address)

/-- `do_remove` -/
def removeNode (C : AvlItems K) (e : K) :
    AvlTreeNode (AvlCell V) K → AvlFlags → AvlPool →
      Option (AvlTreeNode (AvlCell V) K × AvlFlags × AvlPool)
  | void, flags, pool => some (void, { flags with rebalance := false }, pool)
  | node left item cell balance right, flags, pool =>
    if C.ordered e item then do
      let (left', flags', pool') ← removeNode C e left flags pool
      let (result, flags'') ←
        whenRebalance leftShrunk (node left' item cell balance right) flags'
      return (result, flags'', pool')
    else if C.ordered item e then do
      let (right', flags', pool') ← removeNode C e right flags pool
      let (result, flags'') ←
        whenRebalance rightShrunk (node left item cell balance right') flags'
      return (result, flags'', pool')
    else removeFoundNode (node left item cell balance right) flags pool

/-- `fast_do_remove` -/
def fastRemoveNode (C : AvlItems K) (e : K) :
    AvlTreeNode (AvlCell V) K → AvlFlags → AvlPool →
      Option (AvlTreeNode (AvlCell V) K × AvlFlags × AvlPool)
  | void, flags, pool => some (void, { flags with rebalance := false }, pool)
  | node left item cell balance right, flags, pool =>
    if C.identical e item then
      removeFoundNode (node left item cell balance right) flags pool
    else if C.ordered e item then do
      let (left', flags', pool') ← removeNode C e left flags pool
      let (result, flags'') ←
        whenRebalance leftShrunk (node left' item cell balance right) flags'
      return (result, flags'', pool')
    else if C.ordered item e then do
      -- the `check` of the source
      let (right', flags', pool') ← removeNode C e right flags pool
      let (result, flags'') ←
        whenRebalance rightShrunk (node left item cell balance right') flags'
      return (result, flags'', pool')
    else none

/-- `clear_nodes` -/
def clearNodes : AvlTreeNode (AvlCell V) K → AvlPool → AvlPool
  | void, pool => pool
  | node left _ cell _ right, pool =>
    (clearNodes right (clearNodes left pool)).discardNode cell.address

/-- `map_in` -/
def mapIn : AvlTreeNode (AvlCell V) K → List ℕ → List ℕ
  | void, map => map
  | node left _ cell _ right, map => mapIn right (mapIn left map ++ [cell.address])

/-- `set_value` of the node at an address. -/
def setValue (a : ℕ) (v : V) : AvlTreeNode (AvlCell V) K → AvlTreeNode (AvlCell V) K
  | void => void
  | node left item cell balance right =>
    node (setValue a v left) item (if cell.address = a then { cell with value := v } else cell)
      balance (setValue a v right)

/-- The item and the value of the node at an address; `none` for a node that is not in the
tree any more. -/
def nodeAt (a : ℕ) (n : AvlTreeNode (AvlCell V) K) : Option (K × V) :=
  (n.entries.find? fun e => e.2.address == a).map fun e => (e.1, e.2.value)

/-- `has` of a node, false on Void. -/
def has (C : AvlItems K) (e : K) : AvlTreeNode (AvlCell V) K → Bool
  | void => false
  | node left item _ _ right =>
    if !C.ordered item e && !C.ordered e item then true
    else if C.ordered e item then has C e left
    else has C e right

/-- `fast_has` -/
def fastHas (C : AvlItems K) (e : K) : AvlTreeNode (AvlCell V) K → Bool
  | void => false
  | node left item _ _ right =>
    if C.identical item e then true
    else if !C.ordered item e && !C.ordered e item then false
    else if C.ordered e item then fastHas C e left
    else fastHas C e right

/-- `at`: the value of the node of `e`. -/
def at' (C : AvlItems K) (e : K) : AvlTreeNode (AvlCell V) K → Option V
  | void => none
  | node left item cell _ right =>
    if !C.ordered item e && !C.ordered e item then some cell.value
    else if C.ordered e item then at' C e left
    else at' C e right

/-- `fast_at` -/
def fastAt (C : AvlItems K) (e : K) : AvlTreeNode (AvlCell V) K → Option V
  | void => none
  | node left item cell _ right =>
    if C.identical item e then some cell.value
    else if !C.ordered item e && !C.ordered e item then none
    else if C.ordered e item then fastAt C e left
    else fastAt C e right

/-! ## The entries of a tree -/

/-- The items and their values, in the order of the nodes. -/
def bindings (n : AvlTreeNode (AvlCell V) K) : List (K × V) :=
  n.entries.map fun e => (e.1, e.2.value)

/-- The nodes in their order. -/
def addresses (n : AvlTreeNode (AvlCell V) K) : List ℕ :=
  n.entries.map fun e => e.2.address

@[simp] theorem bindings_void : (void : AvlTreeNode (AvlCell V) K).bindings = [] := rfl

@[simp] theorem addresses_void : (void : AvlTreeNode (AvlCell V) K).addresses = [] := rfl

theorem bindings_node (l r : AvlTreeNode (AvlCell V) K) (i : K) (c : AvlCell V) (b : Int) :
    (node l i c b r).bindings = l.bindings ++ (i, c.value) :: r.bindings := by
  unfold bindings
  rw [entries_node, List.map_append, List.map_cons]

theorem addresses_node (l r : AvlTreeNode (AvlCell V) K) (i : K) (c : AvlCell V) (b : Int) :
    (node l i c b r).addresses = l.addresses ++ c.address :: r.addresses := by
  unfold addresses
  rw [entries_node, List.map_append, List.map_cons]

theorem bindings_congr {n n' : AvlTreeNode (AvlCell V) K} (same : n'.entries = n.entries) :
    n'.bindings = n.bindings := by
  unfold bindings
  rw [same]

theorem addresses_congr {n n' : AvlTreeNode (AvlCell V) K} (same : n'.entries = n.entries) :
    n'.addresses = n.addresses := by
  unfold addresses
  rw [same]

theorem count_eq_addresses (n : AvlTreeNode (AvlCell V) K) : n.count = n.addresses.length := by
  rw [count_eq_length]
  unfold addresses
  rw [List.length_map]

/-! ## Flags -/

theorem leftGrown_mapDirty {W : Type} {flags : AvlFlags} {n : AvlTreeNode W K}
    {result : AvlTreeNode W K × AvlFlags} (run : leftGrown flags n = some result) :
    result.2.mapDirty = flags.mapDirty := by
  unfold leftGrown at run
  repeat' split at run
  all_goals simp only [reduceCtorEq, Option.some.injEq, Option.bind_eq_bind,
    Option.bind_eq_some_iff, Option.pure_def] at run
  all_goals
    obtain ⟨_, -, rfl⟩ := run
    rfl

theorem rightGrown_mapDirty {W : Type} {flags : AvlFlags} {n : AvlTreeNode W K}
    {result : AvlTreeNode W K × AvlFlags} (run : rightGrown flags n = some result) :
    result.2.mapDirty = flags.mapDirty := by
  unfold rightGrown at run
  repeat' split at run
  all_goals simp only [reduceCtorEq, Option.some.injEq, Option.bind_eq_bind,
    Option.bind_eq_some_iff, Option.pure_def] at run
  all_goals
    obtain ⟨_, -, rfl⟩ := run
    rfl

theorem leftShrunk_mapDirty {W : Type} {flags : AvlFlags} {n : AvlTreeNode W K}
    {result : AvlTreeNode W K × AvlFlags} (run : leftShrunk flags n = some result) :
    result.2.mapDirty = flags.mapDirty := by
  unfold leftShrunk at run
  repeat' split at run
  all_goals simp only [reduceCtorEq, Option.some.injEq, Option.bind_eq_bind,
    Option.bind_eq_some_iff, Option.pure_def] at run
  all_goals
    obtain ⟨_, -, rfl⟩ := run
    rfl

theorem rightShrunk_mapDirty {W : Type} {flags : AvlFlags} {n : AvlTreeNode W K}
    {result : AvlTreeNode W K × AvlFlags} (run : rightShrunk flags n = some result) :
    result.2.mapDirty = flags.mapDirty := by
  unfold rightShrunk at run
  repeat' split at run
  all_goals simp only [reduceCtorEq, Option.some.injEq, Option.bind_eq_bind,
    Option.bind_eq_some_iff, Option.pure_def] at run
  all_goals
    obtain ⟨_, -, rfl⟩ := run
    rfl

/-- Rebalancing does not touch `map_dirty`. -/
theorem whenRebalance_mapDirty {W : Type} {flags : AvlFlags} {n : AvlTreeNode W K}
    {adjust : AvlFlags → AvlTreeNode W K → Option (AvlTreeNode W K × AvlFlags)}
    (keeps : ∀ {result}, adjust flags n = some result → result.2.mapDirty = flags.mapDirty)
    {result : AvlTreeNode W K × AvlFlags} (run : whenRebalance adjust n flags = some result) :
    result.2.mapDirty = flags.mapDirty := by
  unfold whenRebalance at run
  split at run
  · exact keeps run
  · cases run
    rfl

/-! ## Insertion -/

/-- The nodes of `n` after an insertion: those that were there, or one more. -/
def NodesInserted (n : AvlTreeNode (AvlCell V) K) (flags : AvlFlags) (pool : AvlPool)
    (result : AvlTreeNode (AvlCell V) K × AvlFlags × AvlPool) : Prop :=
  (result.1.addresses = n.addresses ∧ result.2.1.mapDirty = flags.mapDirty ∧ result.2.2 = pool) ∨
    (result.1.addresses.Perm (pool.newNode.1 :: n.addresses) ∧ result.2.1.mapDirty = true ∧
      result.2.2 = pool.newNode.2)

/-- The outcome of an insertion in the subtree `n`. -/
structure Inserted (C : AvlItems K) (k : K) (w : V) (n : AvlTreeNode (AvlCell V) K)
    (flags : AvlFlags) (pool : AvlPool)
    (result : AvlTreeNode (AvlCell V) K × AvlFlags × AvlPool) : Prop where
  grown : Grown n flags (result.1, result.2.1)
  bindings : Sorted C.ordered n.bindings →
    result.1.bindings = SortedAssoc.insert C.ordered k w n.bindings
  nodes : NodesInserted n flags pool result

variable (C : AvlItems K) {l r : AvlTreeNode (AvlCell V) K} {i k : K} {c : AvlCell V} {b : Int}

/-- A key that is not below the item of a node is above all items on its left. -/
theorem above_left (sorted : Sorted C.ordered (node l i c b r).bindings)
    (notBelow : C.ordered k i = false) : Above C.ordered k l.bindings := by
  rw [bindings_node] at sorted
  cases above : C.ordered i k with
  | true => exact sorted.above_left C.ordered_irrefl C.ordered_trans above
  | false =>
    intro entry member
    have belowItem : C.ordered entry.1 i = true :=
      (List.pairwise_append.mp sorted).2.2 entry member (i, c.value) (by simp)
    have belowKey := C.ordered_same _ _ _ belowItem above notBelow
    exact ⟨asymm C.ordered_irrefl C.ordered_trans belowKey, belowKey⟩

theorem sorted_bindings_left (sorted : Sorted C.ordered (node l i c b r).bindings) :
    Sorted C.ordered l.bindings := by
  rw [bindings_node] at sorted
  exact (List.pairwise_append.mp sorted).1

theorem sorted_bindings_right (sorted : Sorted C.ordered (node l i c b r).bindings) :
    Sorted C.ordered r.bindings := by
  rw [bindings_node] at sorted
  exact (List.pairwise_cons.mp (List.pairwise_append.mp sorted).2.1).2

theorem insertNode_spec (k : K) (w : V) (n : AvlTreeNode (AvlCell V) K) (flags : AvlFlags)
    (pool : AvlPool) (hn : Balanced n) :
    ∃ result, insertNode C k w n flags pool = some result ∧ Inserted C k w n flags pool result := by
  induction n generalizing flags with
  | void =>
    refine ⟨_, rfl, ⟨⟨trivial, trivial, rfl, by simp⟩, by simp [freshNode], ?_, ?_⟩,
      fun _ => rfl, Or.inr ⟨.refl _, rfl, rfl⟩⟩
    · exact fun _ => Or.inr ⟨rfl, rfl⟩
    · simp [freshNode]
  | node l i c b r ihl ihr =>
    cases below : C.ordered k i with
    | true =>
      obtain ⟨⟨sub, flags', pool'⟩, run, grown, bindingsSub, nodes⟩ := ihl flags hn.1
      obtain ⟨⟨result, flags''⟩, run', grown', entries'⟩ := whenRebalance_leftGrown hn grown
      have dirty := whenRebalance_mapDirty leftGrown_mapDirty run'
      refine ⟨(result, flags'', pool'), by simp [insertNode, below, run, run'], grown',
        fun sorted => ?_, ?_⟩
      · rw [bindings_congr entries', bindings_node, bindings_node,
          bindingsSub (sorted_bindings_left C sorted), insert_append_of_lt below]
      · unfold NodesInserted
        rw [addresses_congr entries', addresses_node, addresses_node]
        rcases nodes with ⟨same, dirty', pool⟩ | ⟨perm, dirty', pool⟩
        · exact Or.inl ⟨by rw [same], dirty.trans dirty', pool⟩
        · exact Or.inr ⟨perm.append_right _, dirty.trans dirty', pool⟩
    | false =>
      cases above : C.ordered i k with
      | true =>
        obtain ⟨⟨sub, flags', pool'⟩, run, grown, bindingsSub, nodes⟩ := ihr flags hn.2.1
        obtain ⟨⟨result, flags''⟩, run', grown', entries'⟩ :=
          whenRebalance_rightGrown hn grown
        have dirty := whenRebalance_mapDirty rightGrown_mapDirty run'
        refine ⟨(result, flags'', pool'), by simp [insertNode, below, above, run, run'],
          grown', fun sorted => ?_, ?_⟩
        · rw [bindings_congr entries', bindings_node, bindings_node,
            bindingsSub (sorted_bindings_right C sorted),
            insert_append_of_above (above_left C sorted below)]
          simp [SortedAssoc.insert, below, above]
        · unfold NodesInserted
          rw [addresses_congr entries', addresses_node, addresses_node]
          rcases nodes with ⟨same, dirty', pool⟩ | ⟨perm, dirty', pool⟩
          · exact Or.inl ⟨by rw [same], dirty.trans dirty', pool⟩
          · refine Or.inr ⟨?_, dirty.trans dirty', pool⟩
            refine ((perm.cons _).append_left _).trans ?_
            refine ((List.Perm.swap _ _ _).append_left _).trans ?_
            exact List.perm_middle
      | false =>
        refine ⟨(node l i { c with value := w } b r, { flags with rebalance := false }, pool),
          by simp [insertNode, below, above], ⟨hn, by simp, by simp, rfl⟩,
          fun sorted => ?_, Or.inl ⟨?_, rfl, rfl⟩⟩
        · rw [bindings_node, bindings_node, insert_append_of_above (above_left C sorted below)]
          simp [SortedAssoc.insert, below, above]
        · rw [addresses_node, addresses_node]

/-- Where `=` coincides with `is_equal`, `fast_do_insert` is `do_insert`. -/
theorem fastInsertNode_eq (discriminating : C.Discriminating) (k : K) (w : V)
    (n : AvlTreeNode (AvlCell V) K) (flags : AvlFlags) (pool : AvlPool) :
    fastInsertNode C k w n flags pool = insertNode C k w n flags pool := by
  induction n generalizing flags with
  | void => rfl
  | node l i c b r ihl ihr =>
    simp only [fastInsertNode, insertNode, ihl, ihr]
    cases same : C.identical k i with
    | true =>
      obtain ⟨notBelow, notAbove⟩ := C.identical_not_ordered k i same
      simp [notBelow, notAbove]
    | false =>
      rcases discriminating k i same with below | above
      · simp [below]
      · simp [above]

/-! ## Removal -/

/-- The nodes of `n` after a removal: those that were there, or all but one. -/
def NodesRemoved (n : AvlTreeNode (AvlCell V) K) (flags : AvlFlags) (pool : AvlPool)
    (result : AvlTreeNode (AvlCell V) K × AvlFlags × AvlPool) : Prop :=
  (result.1.addresses = n.addresses ∧ result.2.1.mapDirty = flags.mapDirty ∧ result.2.2 = pool) ∨
    ∃ a, n.addresses.Perm (a :: result.1.addresses) ∧ result.2.1.mapDirty = true ∧
      result.2.2 = pool.discardNode a

/-- The outcome of a removal in the subtree `n`. -/
structure Removed (C : AvlItems K) (e : K) (n : AvlTreeNode (AvlCell V) K) (flags : AvlFlags)
    (pool : AvlPool) (result : AvlTreeNode (AvlCell V) K × AvlFlags × AvlPool) : Prop where
  shrunk : Shrunk n flags (result.1, result.2.1)
  bindings : Sorted C.ordered n.bindings →
    result.1.bindings = SortedAssoc.erase C.ordered e n.bindings
  nodes : NodesRemoved n flags pool result

theorem removeRight_mapDirty (n : AvlTreeNode V K) (flags : AvlFlags)
    {result : AvlTreeNode V K × (K × V) × AvlFlags} (run : removeRight n flags = some result) :
    result.2.2.mapDirty = true := by
  induction n generalizing flags result with
  | void => cases run
  | node l i v b r _ ihr =>
    cases r with
    | void =>
      cases run
      rfl
    | node rl ri rv rb rr =>
      simp only [removeRight, Option.bind_eq_bind, Option.bind_eq_some_iff] at run
      obtain ⟨⟨right', kept, flags'⟩, run, ⟨n', flags''⟩, run', done⟩ := run
      cases done
      exact (whenRebalance_mapDirty rightShrunk_mapDirty run').trans (ihr flags run)

/-- The node itself: its neighbours keep their bindings and one node is discarded. -/
theorem removeFoundNode_spec (l r : AvlTreeNode (AvlCell V) K) (i : K) (c : AvlCell V) (b : Int)
    (flags : AvlFlags) (pool : AvlPool) (hn : Balanced (node l i c b r)) :
    ∃ result, removeFoundNode (node l i c b r) flags pool = some result ∧
      Shrunk (node l i c b r) flags (result.1, result.2.1) ∧
      result.1.bindings = l.bindings ++ r.bindings ∧
      ∃ a, (node l i c b r).addresses.Perm (a :: result.1.addresses) ∧
        result.2.1.mapDirty = true ∧ result.2.2 = pool.discardNode a := by
  have leftNonneg := height_nonneg l
  have rightNonneg := height_nonneg r
  cases l with
  | void =>
    refine ⟨_, rfl, ⟨hn.2.1, ?_, ?_⟩, rfl, c.address, .refl _, rfl, rfl⟩
    · simp only [discarded, if_true, height_node, height_void]
      omega
    · simp only [discarded, count_node, count_void]
      omega
  | node ll li lc lb lr =>
    cases r with
    | void =>
      refine ⟨_, rfl, ⟨hn.1, ?_, ?_⟩, by simp, c.address, ?_, rfl, rfl⟩
      · simp only [discarded, if_true, height_node, height_void] at leftNonneg ⊢
        omega
      · simp only [discarded, count_node, count_void]
        omega
      · rw [addresses_node]
        refine List.perm_middle.trans ?_
        rw [addresses_void, List.append_nil]
    | node rl ri rc rb rr =>
      obtain ⟨sub, ⟨i', c'⟩, flags', run, shrunk, entriesSub⟩ :=
        removeRight_spec _ flags hn.1 (by simp)
      obtain ⟨⟨result, flags''⟩, run', shrunk', entries'⟩ :=
        whenRebalance_leftShrunk hn shrunk i' { c with value := c'.value }
      have dirty := whenRebalance_mapDirty leftShrunk_mapDirty run'
      have dirty' := removeRight_mapDirty _ _ run
      have bindingsLeft := congrArg (List.map fun e => (e.1, e.2.value)) entriesSub
      have addressesLeft := congrArg (List.map fun e => e.2.address) entriesSub
      rw [List.map_append] at bindingsLeft addressesLeft
      refine ⟨(result, flags'', pool.discardNode c'.address),
        by simp [removeFoundNode, run, run'], shrunk', ?_, c'.address, ?_,
        dirty.trans dirty', rfl⟩
      · rw [bindings_congr entries', bindings_node]
        refine Eq.symm ((congrArg (· ++ _) bindingsLeft).trans ?_)
        rw [List.append_assoc]
        rfl
      · dsimp only
        rw [addresses_congr entries', addresses_node, addresses_node sub]
        refine List.Perm.trans (List.Perm.of_eq (congrArg (· ++ _) addressesLeft)) ?_
        rw [List.append_assoc]
        exact List.perm_middle

theorem removeNode_spec (e : K) (n : AvlTreeNode (AvlCell V) K) (flags : AvlFlags) (pool : AvlPool)
    (hn : Balanced n) :
    ∃ result, removeNode C e n flags pool = some result ∧ Removed C e n flags pool result := by
  induction n generalizing flags with
  | void => exact ⟨_, rfl, ⟨trivial, by simp, rfl⟩, fun _ => rfl, Or.inl ⟨rfl, rfl, rfl⟩⟩
  | node l i c b r ihl ihr =>
    cases below : C.ordered e i with
    | true =>
      obtain ⟨⟨sub, flags', pool'⟩, run, shrunk, bindingsSub, nodes⟩ := ihl flags hn.1
      obtain ⟨⟨result, flags''⟩, run', shrunk', entries'⟩ :=
        whenRebalance_leftShrunk hn shrunk i c
      have dirty := whenRebalance_mapDirty leftShrunk_mapDirty run'
      refine ⟨(result, flags'', pool'), by simp [removeNode, below, run, run'], shrunk',
        fun sorted => ?_, ?_⟩
      · rw [bindings_congr entries', bindings_node, bindings_node,
          bindingsSub (sorted_bindings_left C sorted), erase_append_of_lt below]
      · unfold NodesRemoved
        rw [addresses_congr entries', addresses_node, addresses_node]
        rcases nodes with ⟨same, dirty', pool⟩ | ⟨a, perm, dirty', pool⟩
        · exact Or.inl ⟨by rw [same], dirty.trans dirty', pool⟩
        · exact Or.inr ⟨a, perm.append_right _, dirty.trans dirty', pool⟩
    | false =>
      cases above : C.ordered i e with
      | true =>
        obtain ⟨⟨sub, flags', pool'⟩, run, shrunk, bindingsSub, nodes⟩ := ihr flags hn.2.1
        obtain ⟨⟨result, flags''⟩, run', shrunk', entries'⟩ :=
          whenRebalance_rightShrunk hn shrunk
        have dirty := whenRebalance_mapDirty rightShrunk_mapDirty run'
        refine ⟨(result, flags'', pool'), by simp [removeNode, below, above, run, run'],
          shrunk', fun sorted => ?_, ?_⟩
        · rw [bindings_congr entries', bindings_node, bindings_node,
            bindingsSub (sorted_bindings_right C sorted),
            erase_append_of_above (above_left C sorted below)]
          simp [SortedAssoc.erase, below, above]
        · unfold NodesRemoved
          rw [addresses_congr entries', addresses_node, addresses_node]
          rcases nodes with ⟨same, dirty', pool⟩ | ⟨a, perm, dirty', pool⟩
          · exact Or.inl ⟨by rw [same], dirty.trans dirty', pool⟩
          · refine Or.inr ⟨a, ?_, dirty.trans dirty', pool⟩
            refine ((perm.cons _).append_left _).trans ?_
            refine ((List.Perm.swap _ _ _).append_left _).trans ?_
            exact List.perm_middle
      | false =>
        obtain ⟨result, run, shrunk, bindings', nodes⟩ :=
          removeFoundNode_spec l r i c b flags pool hn
        refine ⟨result, by simp [removeNode, below, above, run], shrunk, fun sorted => ?_,
          Or.inr nodes⟩
        rw [bindings', bindings_node, erase_append_of_above (above_left C sorted below)]
        simp [SortedAssoc.erase, below, above]

/-- Where `=` coincides with `is_equal`, `fast_do_remove` is `do_remove`. -/
theorem fastRemoveNode_eq (discriminating : C.Discriminating) (e : K)
    (n : AvlTreeNode (AvlCell V) K) (flags : AvlFlags) (pool : AvlPool) :
    fastRemoveNode C e n flags pool = removeNode C e n flags pool := by
  cases n with
  | void => rfl
  | node l i c b r =>
    simp only [fastRemoveNode, removeNode]
    cases same : C.identical e i with
    | true =>
      obtain ⟨notBelow, notAbove⟩ := C.identical_not_ordered e i same
      simp [notBelow, notAbove]
    | false =>
      rcases discriminating e i same with below | above
      · simp [below]
      · simp [above]

/-! ## Clearing and enumerating -/

theorem mapIn_eq (n : AvlTreeNode (AvlCell V) K) (map : List ℕ) :
    n.mapIn map = map ++ n.addresses := by
  induction n generalizing map with
  | void => exact (List.append_nil map).symm
  | node l i c b r ihl ihr =>
    rw [mapIn, ihl, ihr, addresses_node]
    simp only [List.append_assoc, List.singleton_append]

theorem Apart_clearNodes (n : AvlTreeNode (AvlCell V) K) (pool : AvlPool) (used : List ℕ)
    (h : pool.Apart (n.addresses ++ used)) : (n.clearNodes pool).Apart used := by
  induction n generalizing pool used with
  | void => exact h
  | node l i c b r ihl ihr =>
    rw [addresses_node, List.append_assoc, List.cons_append] at h
    refine AvlPool.Apart.discardNode (ihr _ _ (AvlPool.Apart.perm ?_ List.perm_middle))
    exact ihl _ _ h

theorem entries_setValue (a : ℕ) (v : V) (n : AvlTreeNode (AvlCell V) K) :
    (n.setValue a v).entries = n.entries.map fun e =>
      (e.1, if e.2.address = a then { e.2 with value := v } else e.2) := by
  induction n with
  | void => rfl
  | node l i c b r ihl ihr =>
    rw [setValue, entries_node, entries_node, ihl, ihr, List.map_append, List.map_cons]

theorem addresses_setValue (a : ℕ) (v : V) (n : AvlTreeNode (AvlCell V) K) :
    (n.setValue a v).addresses = n.addresses := by
  unfold addresses
  rw [entries_setValue, List.map_map]
  refine List.map_congr_left fun e _ => ?_
  dsimp only [Function.comp]
  split <;> rfl

theorem height_setValue (a : ℕ) (v : V) (n : AvlTreeNode (AvlCell V) K) :
    (n.setValue a v).height = n.height := by
  induction n with
  | void => rfl
  | node l i c b r ihl ihr => rw [setValue, height_node, height_node, ihl, ihr]

theorem Balanced.setValue {n : AvlTreeNode (AvlCell V) K} (h : Balanced n) (a : ℕ) (v : V) :
    Balanced (n.setValue a v) := by
  induction n with
  | void => exact h
  | node l i c b r ihl ihr =>
    refine ⟨ihl h.1, ihr h.2.1, ?_, h.2.2.2⟩
    rw [height_setValue, height_setValue]
    exact h.2.2.1

/-- The node at the `i`-th address is the `i`-th binding. -/
theorem nodeAt_getElem {n : AvlTreeNode (AvlCell V) K} (nodup : n.addresses.Nodup) {i a : ℕ}
    (at_i : n.addresses[i]? = some a) : n.nodeAt a = n.bindings[i]? := by
  unfold addresses at nodup at_i
  unfold nodeAt bindings
  rw [List.getElem?_map] at at_i ⊢
  obtain ⟨e, at_e, rfl⟩ := Option.map_eq_some_iff.mp at_i
  rw [at_e]
  have member := List.mem_of_getElem? at_e
  have found : n.entries.find? (fun e' => e'.2.address == e.2.address) = some e := by
    cases search : n.entries.find? (fun e' => e'.2.address == e.2.address) with
    | none =>
      have fails := List.find?_eq_none.mp search e member
      rw [beq_self_eq_true] at fails
      exact absurd rfl fails
    | some e' =>
      have met := List.find?_some search
      have same : e'.2.address = e.2.address := beq_iff_eq.mp met
      rw [List.inj_on_of_nodup_map nodup (List.mem_of_find?_eq_some search) member same]
  rw [found]

/-! ## Searching -/

variable {C}

theorem binds_node_iff {e : K} {v : V} (sorted : Sorted C.ordered (node l i c b r).bindings) :
    Binds C.ordered (node l i c b r).bindings e v ↔
      if C.ordered e i then Binds C.ordered l.bindings e v
      else if C.ordered i e then Binds C.ordered r.bindings e v
      else c.value = v := by
  rw [bindings_node] at sorted ⊢
  have leftBelow : ∀ p ∈ l.bindings, C.ordered p.1 i = true := fun p member =>
    (List.pairwise_append.mp sorted).2.2 p member (i, c.value) List.mem_cons_self
  have rightAbove : ∀ p ∈ r.bindings, C.ordered i p.1 = true := fun p member =>
    (List.pairwise_cons.mp (List.pairwise_append.mp sorted).2.1).1 p member
  -- an item on the far side of a key differs from it
  have leftOut : ∀ p ∈ l.bindings, C.ordered e i = false → ¬Same C.ordered p.1 e := by
    intro p member notBelow equal
    rw [lt_of_same_of_lt C.ordered_trans C.ordered_same equal.symm (leftBelow p member)] at notBelow
    cases notBelow
  have rightOut : ∀ p ∈ r.bindings, C.ordered i e = false → ¬Same C.ordered p.1 e := by
    intro p member notAbove equal
    rw [lt_of_lt_of_same C.ordered_same (rightAbove p member) equal] at notAbove
    cases notAbove
  constructor
  · rintro ⟨p, member, same, value⟩
    rcases List.mem_append.mp member with left | here
    · cases below : C.ordered e i with
      | true =>
        exact ⟨p, left, same, value⟩
      | false => exact absurd same (leftOut p left below)
    · rcases List.mem_cons.mp here with rfl | right
      · rw [same.1, same.2]
        exact value
      · cases above : C.ordered i e with
        | true =>
          rw [asymm C.ordered_irrefl C.ordered_trans above, if_neg Bool.false_ne_true, if_pos rfl]
          exact ⟨p, right, same, value⟩
        | false => exact absurd same (rightOut p right above)
  · intro found
    split at found
    · obtain ⟨p, member, rest⟩ := found
      exact ⟨p, List.mem_append_left _ member, rest⟩
    · rename_i notBelow
      split at found
      · obtain ⟨p, member, rest⟩ := found
        exact ⟨p, List.mem_append_right _ (List.mem_cons_of_mem _ member), rest⟩
      · rename_i notAbove
        exact ⟨(i, c.value), List.mem_append_right _ List.mem_cons_self,
          ⟨Bool.eq_false_iff.mpr notAbove, Bool.eq_false_iff.mpr notBelow⟩, found⟩

theorem at_eq_some_iff {n : AvlTreeNode (AvlCell V) K} (sorted : Sorted C.ordered n.bindings)
    {e : K} {v : V} : n.at' C e = some v ↔ Binds C.ordered n.bindings e v := by
  induction n with
  | void =>
    constructor
    · intro h
      cases h
    · intro h
      exact absurd h binds_nil
  | node l i c b r ihl ihr =>
    rw [binds_node_iff sorted, at']
    cases below : C.ordered e i with
    | true => simpa [below] using ihl (sorted_bindings_left C sorted)
    | false =>
      cases above : C.ordered i e with
      | true => simpa [below, above] using ihr (sorted_bindings_right C sorted)
      | false => simp

theorem has_eq_isSome (n : AvlTreeNode (AvlCell V) K) (e : K) :
    n.has C e = (n.at' C e).isSome := by
  induction n with
  | void => rfl
  | node l i c b r ihl ihr =>
    rw [has, at']
    split
    · rfl
    · split
      · exact ihl
      · exact ihr

/-- Where `=` coincides with `is_equal`, the fast searches are the slow ones. -/
theorem fastAt_eq (discriminating : C.Discriminating) (n : AvlTreeNode (AvlCell V) K) (e : K) :
    n.fastAt C e = n.at' C e := by
  induction n with
  | void => rfl
  | node l i c b r ihl ihr =>
    rw [fastAt, at', ihl, ihr]
    cases same : C.identical i e with
    | true =>
      obtain ⟨notBelow, notAbove⟩ := C.identical_not_ordered i e same
      simp [notBelow, notAbove]
    | false => rcases discriminating i e same with below | above <;> simp [*]

theorem fastHas_eq (discriminating : C.Discriminating) (n : AvlTreeNode (AvlCell V) K) (e : K) :
    n.fastHas C e = n.has C e := by
  induction n with
  | void => rfl
  | node l i c b r ihl ihr =>
    rw [fastHas, has, ihl, ihr]
    cases same : C.identical i e with
    | true =>
      obtain ⟨notBelow, notAbove⟩ := C.identical_not_ordered i e same
      simp [notBelow, notAbove]
    | false => rcases discriminating i e same with below | above <;> simp [*]

end AvlTreeNode

end Liberty
