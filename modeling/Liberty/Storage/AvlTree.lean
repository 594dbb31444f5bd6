import Mathlib.Data.List.Basic

/-!
# AVL trees with an in-place rebalancing flag

The node functions of `AVL_TREE` and `AVL_TREE_NODE`.  A node owns its two
subtrees, so an assignment through `n.left` or `n.left.right` is a rebuilt node
here; the attributes shared by all recursive calls (`rebalance`, `count`,
`map_dirty`) are threaded as a `Flags` record.

Every function returns an `Option`: `none` is a call that does not return, either
because it is made on a `Void` target, because an `inspect` meets a value that no
`when` clause lists, or because a `check` instruction fails.
-/

namespace Liberty

/-- What an AVL container knows about its items: `ordered` (usually `<`, a strict
order in which two items that are not ordered either way are interchangeable) and
the basic comparison `=`, which may be finer than `is_equal` when items are
references. -/
structure AvlItems (K : Type) where
  ordered : K → K → Bool
  identical : K → K → Bool
  ordered_irrefl : ∀ a, ordered a a = false
  ordered_trans : ∀ a b c, ordered a b = true → ordered b c = true → ordered a c = true
  ordered_same : ∀ a b c, ordered a b = true →
    ordered b c = false → ordered c b = false → ordered a c = true
  identical_not_ordered : ∀ a b, identical a b = true →
    ordered a b = false ∧ ordered b a = false

/-- `=` coincides with `is_equal`: two items that are not the same object are
ordered one way or the other. -/
def AvlItems.Discriminating {K : Type} (C : AvlItems K) : Prop :=
  ∀ a b, C.identical a b = false → C.ordered a b = true ∨ C.ordered b a = true

/-! ## Nodes -/

/-- `balanced` of `AVL_CONSTANTS`. -/
def balanced : Int := 0

/-- `imbalanced_left` of `AVL_CONSTANTS`. -/
def imbalancedLeft : Int := -1

/-- `imbalanced_right` of `AVL_CONSTANTS`. -/
def imbalancedRight : Int := 1

@[simp] theorem imbalancedLeft_ne_balanced : imbalancedLeft ≠ balanced := by decide

@[simp] theorem imbalancedRight_ne_balanced : imbalancedRight ≠ balanced := by decide

@[simp] theorem balanced_ne_imbalancedLeft : balanced ≠ imbalancedLeft := by decide

@[simp] theorem balanced_ne_imbalancedRight : balanced ≠ imbalancedRight := by decide

@[simp] theorem imbalancedLeft_ne_imbalancedRight :
    imbalancedLeft ≠ imbalancedRight := by decide

@[simp] theorem imbalancedRight_ne_imbalancedLeft :
    imbalancedRight ≠ imbalancedLeft := by decide

/-- A reference to an `AVL_TREE_NODE`.  A set has no use for `value`; a dictionary
keeps the entry of its key there. -/
inductive AvlTreeNode (V K : Type) where
  | void : AvlTreeNode V K
  | node (left : AvlTreeNode V K) (item : K) (value : V) (balance : Int)
      (right : AvlTreeNode V K) : AvlTreeNode V K
  deriving DecidableEq, Repr

/-- The attributes of the container that the recursive node functions update. -/
structure AvlFlags where
  rebalance : Bool
  count : Int
  mapDirty : Bool
  deriving DecidableEq, Repr

namespace AvlTreeNode

variable {V K : Type}

/-- `node_height`: the height of a node, 0 on `Void`. -/
def height : AvlTreeNode V K → Int
  | void => 0
  | node left _ _ _ right => max left.height right.height + 1

/-- `count` of a node, 0 on `Void`. -/
def count : AvlTreeNode V K → Int
  | void => 0
  | node left _ _ _ right => 1 + left.count + right.count

/-- The items and their values, in the order `map_in` visits the nodes. -/
def entries : AvlTreeNode V K → List (K × V)
  | void => []
  | node left item value _ right => left.entries ++ (item, value) :: right.entries

def rotateRight : AvlTreeNode V K → Option (AvlTreeNode V K)
  | node (node ll li lv lb lr) item value balance right =>
    some (node ll li lv lb (node lr item value balance right))
  | _ => none

def rotateLeft : AvlTreeNode V K → Option (AvlTreeNode V K)
  | node left item value balance (node rl ri rv rb rr) =>
    some (node (node left item value balance rl) ri rv rb rr)
  | _ => none

/-- The `inspect` on the inner grandchild that precedes a double rotation: the
balances given to the node and to its heavy child when the grandchild leans
`toOuter`, is balanced, or leans `toInner`. -/
def doubleRotationBalances (toOuter toInner grandchild : Int) : Option (Int × Int) :=
  if grandchild = toOuter then some (toInner, balanced)
  else if grandchild = balanced then some (balanced, balanced)
  else if grandchild = toInner then some (balanced, toOuter)
  else none

/-- The double rotation under a node whose left child leans right. -/
def rotateLeftRight : AvlTreeNode V K → Option (AvlTreeNode V K)
  | node (node ll li lv _ (node lrl lri lrv lrb lrr)) item value _ right => do
      let (nb, lb) ← doubleRotationBalances imbalancedLeft imbalancedRight lrb
      let left ← rotateLeft (node ll li lv lb (node lrl lri lrv balanced lrr))
      rotateRight (node left item value nb right)
  | _ => none

/-- The double rotation under a node whose right child leans left. -/
def rotateRightLeft : AvlTreeNode V K → Option (AvlTreeNode V K)
  | node left item value _ (node (node rll rli rlv rlb rlr) ri rv _ rr) => do
      let (nb, rb) ← doubleRotationBalances imbalancedRight imbalancedLeft rlb
      let right ← rotateRight (node (node rll rli rlv balanced rlr) ri rv rb rr)
      rotateLeft (node left item value nb right)
  | _ => none

/-! ## Rebalancing -/

/-- `left_grown`: the left subtree of the node is one higher than its `balance`
says. -/
def leftGrown (flags : AvlFlags) :
    AvlTreeNode V K → Option (AvlTreeNode V K × AvlFlags)
  | void => none
  | node left item value balance right =>
    if balance = imbalancedLeft then
      match left with
      | void => none
      | node ll li lv lb lr =>
        if lb = imbalancedLeft then do
          let result ← rotateRight
            (node (node ll li lv balanced lr) item value balanced right)
          return (result, { flags with rebalance := false })
        else do
          let result ← rotateLeftRight
            (node (node ll li lv lb lr) item value balance right)
          return (result, { flags with rebalance := false })
    else if balance = balanced then
      some (node left item value imbalancedLeft right, flags)
    else if balance = imbalancedRight then
      some (node left item value balanced right, { flags with rebalance := false })
    else none

/-- `right_grown`: the mirror image of `left_grown`. -/
def rightGrown (flags : AvlFlags) :
    AvlTreeNode V K → Option (AvlTreeNode V K × AvlFlags)
  | void => none
  | node left item value balance right =>
    if balance = imbalancedRight then
      match right with
      | void => none
      | node rl ri rv rb rr =>
        if rb = imbalancedRight then do
          let result ← rotateLeft
            (node left item value balanced (node rl ri rv balanced rr))
          return (result, { flags with rebalance := false })
        else do
          let result ← rotateRightLeft
            (node left item value balance (node rl ri rv rb rr))
          return (result, { flags with rebalance := false })
    else if balance = balanced then
      some (node left item value imbalancedRight right, flags)
    else if balance = imbalancedLeft then
      some (node left item value balanced right, { flags with rebalance := false })
    else none

/-- `left_shrunk`: the left subtree of the node is one lower than its `balance`
says. -/
def leftShrunk (flags : AvlFlags) :
    AvlTreeNode V K → Option (AvlTreeNode V K × AvlFlags)
  | void => none
  | node left item value balance right =>
    if balance = imbalancedLeft then
      some (node left item value balanced right, flags)
    else if balance = balanced then
      some (node left item value imbalancedRight right,
        { flags with rebalance := false })
    else if balance = imbalancedRight then
      match right with
      | void => none
      | node rl ri rv rb rr =>
        if rb = imbalancedLeft then do
          let result ← rotateRightLeft
            (node left item value balance (node rl ri rv rb rr))
          return (result, flags)
        else if rb = balanced then do
          let result ← rotateLeft
            (node left item value imbalancedRight
              (node rl ri rv imbalancedLeft rr))
          return (result, { flags with rebalance := false })
        else if rb = imbalancedRight then do
          let result ← rotateLeft
            (node left item value balanced (node rl ri rv balanced rr))
          return (result, flags)
        else none
    else none

/-- `right_shrunk`: the mirror image of `left_shrunk`. -/
def rightShrunk (flags : AvlFlags) :
    AvlTreeNode V K → Option (AvlTreeNode V K × AvlFlags)
  | void => none
  | node left item value balance right =>
    if balance = imbalancedRight then
      some (node left item value balanced right, flags)
    else if balance = balanced then
      some (node left item value imbalancedLeft right,
        { flags with rebalance := false })
    else if balance = imbalancedLeft then
      match left with
      | void => none
      | node ll li lv lb lr =>
        if lb = imbalancedRight then do
          let result ← rotateLeftRight
            (node (node ll li lv lb lr) item value balance right)
          return (result, flags)
        else if lb = balanced then do
          let result ← rotateRight
            (node (node ll li lv imbalancedRight lr) item value
              imbalancedLeft right)
          return (result, { flags with rebalance := false })
        else if lb = imbalancedLeft then do
          let result ← rotateRight
            (node (node ll li lv balanced lr) item value balanced right)
          return (result, flags)
        else none
    else none

/-- `exchange_and_discard` sets the flags; its callers below give the discarded
node's item and value to the node that stays. -/
def discarded (flags : AvlFlags) : AvlFlags :=
  { rebalance := true, count := flags.count - 1, mapDirty := true }

/-- The tail of every recursive step: `adjust` runs only when the processed subtree
reported a change of height. -/
def whenRebalance
    (adjust : AvlFlags → AvlTreeNode V K → Option (AvlTreeNode V K × AvlFlags))
    (n : AvlTreeNode V K) (flags : AvlFlags) :
    Option (AvlTreeNode V K × AvlFlags) :=
  if flags.rebalance then adjust flags n else some (n, flags)

/-! ## Insertion -/

/-- `new_node` followed by `set_value_and_key`. -/
def freshNode (item : K) (value : V) : AvlTreeNode V K :=
  node void item value balanced void

def doInsert (C : AvlItems K) (itemMemory : K) (valueMemory : V) :
    AvlTreeNode V K → AvlFlags → Option (AvlTreeNode V K × AvlFlags)
  | void, flags =>
    some (freshNode itemMemory valueMemory,
      { rebalance := true, count := flags.count + 1, mapDirty := true })
  | node left item value balance right, flags =>
    if C.ordered itemMemory item then do
      let (left', flags') ← doInsert C itemMemory valueMemory left flags
      whenRebalance leftGrown (node left' item value balance right) flags'
    else if C.ordered item itemMemory then do
      let (right', flags') ← doInsert C itemMemory valueMemory right flags
      whenRebalance rightGrown (node left item value balance right') flags'
    else
      some (node left item valueMemory balance right,
        { flags with rebalance := false })

def fastDoInsert (C : AvlItems K) (itemMemory : K) (valueMemory : V) :
    AvlTreeNode V K → AvlFlags → Option (AvlTreeNode V K × AvlFlags)
  | void, flags =>
    some (freshNode itemMemory valueMemory,
      { rebalance := true, count := flags.count + 1, mapDirty := true })
  | node left item value balance right, flags =>
    if C.identical itemMemory item then
      some (node left item valueMemory balance right,
        { flags with rebalance := false })
    else if C.ordered itemMemory item then do
      let (left', flags') ← fastDoInsert C itemMemory valueMemory left flags
      whenRebalance leftGrown (node left' item value balance right) flags'
    else if C.ordered item itemMemory then do
      -- the `check` of the source
      let (right', flags') ← fastDoInsert C itemMemory valueMemory right flags
      whenRebalance rightGrown (node left item value balance right') flags'
    else none

/-! ## Removal -/

/-- `remove_right (n1, n2)`: unlink the rightmost node of `n2`.  Its item and value,
which `exchange_and_discard` stores in `n1`, are returned for the caller to store. -/
def removeRight : AvlTreeNode V K → AvlFlags →
    Option (AvlTreeNode V K × (K × V) × AvlFlags)
  | void, _ => none
  | node left item value _ void, flags =>
    some (left, (item, value), discarded flags)
  | node left item value balance (node rl ri rv rb rr), flags => do
      let (right', kept, flags') ← removeRight (node rl ri rv rb rr) flags
      let (result, flags'') ←
        whenRebalance rightShrunk (node left item value balance right') flags'
      return (result, kept, flags'')

/-- The removal of the node itself, once the item has been found. -/
def removeFound : AvlTreeNode V K → AvlFlags → Option (AvlTreeNode V K × AvlFlags)
  | void, _ => none
  | node void _ _ _ right, flags => some (right, discarded flags)
  | node (node ll li lv lb lr) _ _ _ void, flags =>
    some (node ll li lv lb lr, discarded flags)
  | node (node ll li lv lb lr) _ _ balance (node rl ri rv rb rr), flags => do
      let (left', (item', value'), flags') ← removeRight (node ll li lv lb lr) flags
      whenRebalance leftShrunk
        (node left' item' value' balance (node rl ri rv rb rr)) flags'

def doRemove (C : AvlItems K) (e : K) :
    AvlTreeNode V K → AvlFlags → Option (AvlTreeNode V K × AvlFlags)
  | void, flags => some (void, { flags with rebalance := false })
  | node left item value balance right, flags =>
    if C.ordered e item then do
      let (left', flags') ← doRemove C e left flags
      whenRebalance leftShrunk (node left' item value balance right) flags'
    else if C.ordered item e then do
      let (right', flags') ← doRemove C e right flags
      whenRebalance rightShrunk (node left item value balance right') flags'
    else removeFound (node left item value balance right) flags

/-- `fast_do_remove` compares with `=` at its first node only: below it the source
calls `do_remove`. -/
def fastDoRemove (C : AvlItems K) (e : K) :
    AvlTreeNode V K → AvlFlags → Option (AvlTreeNode V K × AvlFlags)
  | void, flags => some (void, { flags with rebalance := false })
  | node left item value balance right, flags =>
    if C.identical e item then
      removeFound (node left item value balance right) flags
    else if C.ordered e item then do
      let (left', flags') ← doRemove C e left flags
      whenRebalance leftShrunk (node left' item value balance right) flags'
    else if C.ordered item e then do
      -- the `check` of the source
      let (right', flags') ← doRemove C e right flags
      whenRebalance rightShrunk (node left item value balance right') flags'
    else none

end AvlTreeNode

/-! ## The container -/

/-- The attributes of an `AVL_TREE` that its insertions and removals use. -/
structure AvlTree (V K : Type) extends AvlFlags where
  root : AvlTreeNode V K
  deriving DecidableEq, Repr

namespace AvlTree

variable {V K : Type}

/-- A newly created container. -/
def empty : AvlTree V K where
  root := .void
  rebalance := false
  count := 0
  mapDirty := false

/-- Install the result of a recursive node function as the new `root`. -/
def install (result : Option (AvlTreeNode V K × AvlFlags)) : Option (AvlTree V K) :=
  result.map fun (root, flags) => { flags with root := root }

/-- The insertions and removals of an AVL container. -/
inductive Command (V K : Type) where
  | add (value : V) (item : K)
  | fastAdd (value : V) (item : K)
  | remove (item : K)
  | fastRemove (item : K)

def execute (C : AvlItems K) (t : AvlTree V K) : Command V K → Option (AvlTree V K)
  | .add value item => install (t.root.doInsert C item value t.toAvlFlags)
  | .fastAdd value item => install (t.root.fastDoInsert C item value t.toAvlFlags)
  | .remove item => install (t.root.doRemove C item t.toAvlFlags)
  | .fastRemove item => install (t.root.fastDoRemove C item t.toAvlFlags)

/-- The containers that a finite sequence of insertions and removals builds. -/
inductive Reachable (C : AvlItems K) : AvlTree V K → Prop
  | empty : Reachable C empty
  | step {t t' : AvlTree V K} (command : Command V K) :
      Reachable C t → t.execute C command = some t' → Reachable C t'

end AvlTree

end Liberty
