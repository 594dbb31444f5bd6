import Mathlib.Tactic.Basic
import Liberty.Library.SortedAssoc
import Liberty.Storage.AvlTree

/-!
# Balance of the AVL node functions

What one call of each recursive function does: it returns, the result is balanced,
`rebalance` says whether the height of the processed subtree changed, `count`
follows the number of nodes, and the entries change as the sorted association
list does.
-/

namespace Liberty

open SortedAssoc

namespace AvlTreeNode

variable {V K : Type}

/-- Every `balance` attribute is `height(right) - height(left)` and one of the
three constants. -/
def Balanced : AvlTreeNode V K → Prop
  | void => True
  | node left _ _ balance right =>
    Balanced left ∧ Balanced right ∧ balance = right.height - left.height ∧
      (balance = imbalancedLeft ∨ balance = balanced ∨ balance = imbalancedRight)

/-- A subtree that has just grown is a fresh node or leans to one side; this is
what rules out a balanced child in `left_grown` and `right_grown`. -/
def Leans : AvlTreeNode V K → Prop
  | void => False
  | node left _ _ balance right =>
    balance ≠ balanced ∨ (left.height = 0 ∧ right.height = 0)

@[simp] theorem height_void : (void : AvlTreeNode V K).height = 0 := rfl

@[simp] theorem height_node (l r : AvlTreeNode V K) (i : K) (v : V) (b : Int) :
    (node l i v b r).height = max l.height r.height + 1 := rfl

@[simp] theorem count_void : (void : AvlTreeNode V K).count = 0 := rfl

@[simp] theorem count_node (l r : AvlTreeNode V K) (i : K) (v : V) (b : Int) :
    (node l i v b r).count = 1 + l.count + r.count := rfl

@[simp] theorem entries_void : (void : AvlTreeNode V K).entries = [] := rfl

@[simp] theorem entries_node (l r : AvlTreeNode V K) (i : K) (v : V) (b : Int) :
    (node l i v b r).entries = l.entries ++ (i, v) :: r.entries := rfl

theorem height_nonneg (n : AvlTreeNode V K) : 0 ≤ n.height := by
  induction n with
  | void => exact Int.le_refl 0
  | node l i v b r ihl ihr =>
    rw [height_node]
    omega

theorem count_eq_length (n : AvlTreeNode V K) : n.count = n.entries.length := by
  induction n with
  | void => rfl
  | node l i v b r ihl ihr =>
    simp only [count_node, entries_node, List.length_append, List.length_cons,
      ihl, ihr]
    omega

/-! ## Double rotations -/

/-- The double rotation of a node two too high on the left, whose left child leans
right: the entries stay and the height drops by one. -/
theorem rotateLeftRight_spec {ll lr r : AvlTreeNode V K} {li i : K} {lv v : V}
    {b : Int}
    (left : Balanced (node ll li lv imbalancedRight lr)) (right : Balanced r)
    (tooHigh : (node ll li lv imbalancedRight lr).height = r.height + 2) :
    ∃ n', rotateLeftRight (node (node ll li lv imbalancedRight lr) i v b r) =
        some n' ∧
      Balanced n' ∧ n'.height = r.height + 2 ∧
      n'.entries = (node (node ll li lv imbalancedRight lr) i v b r).entries := by
  obtain ⟨hll, hlr, hlb, -⟩ := left
  cases lr with
  | void =>
    have := height_nonneg ll
    simp only [imbalancedRight, height_void] at hlb
    omega
  | node lrl lri lrv lrb lrr =>
    obtain ⟨hlrl, hlrr, hlrb, inner⟩ := hlr
    simp only [height_node, imbalancedRight] at tooHigh hlb
    simp only [imbalancedLeft, balanced, imbalancedRight] at inner
    rcases inner with rfl | rfl | rfl
    all_goals
      simp only [rotateLeftRight, doubleRotationBalances, imbalancedLeft,
        imbalancedRight, balanced, rotateLeft, rotateRight, Option.bind_eq_bind,
        Option.bind_some, reduceCtorEq, if_true, if_false, Int.reduceNeg,
        Int.reduceEq, Option.some.injEq, exists_eq_left']
      refine ⟨⟨⟨hll, hlrl, ?_, by simp [imbalancedLeft, imbalancedRight, balanced]⟩,
        ⟨hlrr, right, ?_, by simp [imbalancedLeft, imbalancedRight, balanced]⟩,
        ?_, by simp [balanced]⟩, ?_, ?_⟩
      all_goals first
        | omega
        | (simp only [height_node]; omega)
        | simp

/-- The mirror image of `rotateLeftRight_spec`. -/
theorem rotateRightLeft_spec {l rl rr : AvlTreeNode V K} {ri i : K} {rv v : V}
    {b : Int}
    (left : Balanced l) (right : Balanced (node rl ri rv imbalancedLeft rr))
    (tooHigh : (node rl ri rv imbalancedLeft rr).height = l.height + 2) :
    ∃ n', rotateRightLeft (node l i v b (node rl ri rv imbalancedLeft rr)) =
        some n' ∧
      Balanced n' ∧ n'.height = l.height + 2 ∧
      n'.entries = (node l i v b (node rl ri rv imbalancedLeft rr)).entries := by
  obtain ⟨hrl, hrr, hrb, -⟩ := right
  cases rl with
  | void =>
    have := height_nonneg rr
    simp only [imbalancedLeft, height_void] at hrb
    omega
  | node rll rli rlv rlb rlr =>
    obtain ⟨hrll, hrlr, hrlb, inner⟩ := hrl
    simp only [height_node, imbalancedLeft] at tooHigh hrb
    simp only [imbalancedLeft, balanced, imbalancedRight] at inner
    rcases inner with rfl | rfl | rfl
    all_goals
      simp only [rotateRightLeft, doubleRotationBalances, imbalancedLeft,
        imbalancedRight, balanced, rotateLeft, rotateRight, Option.bind_eq_bind,
        Option.bind_some, reduceCtorEq, if_true, if_false, Int.reduceNeg,
        Int.reduceEq, Option.some.injEq, exists_eq_left']
      refine ⟨⟨⟨left, hrll, ?_, by simp [imbalancedLeft, imbalancedRight, balanced]⟩,
        ⟨hrlr, hrr, ?_, by simp [imbalancedLeft, imbalancedRight, balanced]⟩,
        ?_, by simp [balanced]⟩, ?_, ?_⟩
      all_goals first
        | omega
        | (simp only [height_node]; omega)
        | simp

/-! ## Rebalancing after a change of height -/

variable {l r : AvlTreeNode V K} {i : K} {v : V} {b : Int}

/-- What rebalancing a node returns: a balanced node with the same entries, whose
height is `before` plus one exactly when `rebalance` still stands; `count` and
`map_dirty` are left alone. -/
def Rebalanced (n : AvlTreeNode V K) (flags : AvlFlags)
    (result : AvlTreeNode V K × AvlFlags) : Prop :=
  Balanced result.1 ∧ result.1.entries = n.entries ∧
    result.2 = { flags with rebalance := result.2.rebalance }

/-- `left_grown` on a node whose left subtree is one higher than its `balance`
records. -/
theorem leftGrown_spec {flags : AvlFlags} (grown : flags.rebalance = true)
    (left : Balanced l) (right : Balanced r) (leans : Leans l)
    (stale : b = r.height - (l.height - 1))
    (range : b = imbalancedLeft ∨ b = balanced ∨ b = imbalancedRight) :
    ∃ result, leftGrown flags (node l i v b r) = some result ∧
      Rebalanced (node l i v b r) flags result ∧
      result.1.height = max (l.height - 1) r.height + 1 +
        (if result.2.rebalance then 1 else 0) ∧
      (result.2.rebalance = true → Leans result.1) := by
  rcases range with rfl | rfl | rfl
  · -- the left subtree is now two too high
    cases l with
    | void => exact leans.elim
    | node ll li lv lb lr =>
      obtain ⟨hll, hlr, hlb, lrange⟩ := left
      simp only [imbalancedLeft, height_node] at stale
      have notLevel : lb ≠ balanced := by
        rcases leans with h | ⟨h1, h2⟩
        · exact h
        · have := height_nonneg r
          omega
      rcases lrange with rfl | rfl | rfl
      · simp only [imbalancedLeft] at hlb
        refine ⟨(node ll li lv balanced (node lr i v balanced r),
          { flags with rebalance := false }), ?_, ⟨?_, ?_, rfl⟩, ?_, by simp⟩
        · simp [leftGrown, rotateRight]
        · refine ⟨hll, ⟨hlr, right, ?_, by simp⟩, ?_, by simp⟩ <;>
            simp only [balanced, height_node] <;> omega
        · simp
        · simp only [height_node, Bool.false_eq_true, if_false]
          omega
      · exact absurd rfl notLevel
      · have tooHigh :
            (node ll li lv imbalancedRight lr).height = r.height + 2 := by
          simp only [height_node]
          omega
        obtain ⟨n', run, hn', height', entries'⟩ :=
          rotateLeftRight_spec (i := i) (v := v) (b := imbalancedLeft)
            ⟨hll, hlr, hlb, by simp⟩ right tooHigh
        refine ⟨(n', { flags with rebalance := false }), ?_,
          ⟨hn', entries', rfl⟩, ?_, by simp⟩
        · simp [leftGrown, run]
        · simp only [height_node] at tooHigh height' ⊢
          simp only [Bool.false_eq_true, if_false]
          omega
  · simp only [balanced] at stale
    refine ⟨(node l i v imbalancedLeft r, flags), ?_, ⟨?_, rfl, rfl⟩, ?_, ?_⟩
    · simp [leftGrown]
    · refine ⟨left, right, ?_, by simp⟩
      simp only [imbalancedLeft]
      omega
    · simp only [height_node, grown, if_true]
      omega
    · exact fun _ => Or.inl (by simp)
  · simp only [imbalancedRight] at stale
    refine ⟨(node l i v balanced r, { flags with rebalance := false }), ?_,
      ⟨⟨left, right, ?_, by simp⟩, rfl, rfl⟩, ?_, by simp⟩
    · simp [leftGrown]
    · simp only [balanced]
      omega
    · simp only [height_node, Bool.false_eq_true, if_false]
      omega

theorem rightGrown_spec {flags : AvlFlags} (grown : flags.rebalance = true)
    (left : Balanced l) (right : Balanced r) (leans : Leans r)
    (stale : b = r.height - 1 - l.height)
    (range : b = imbalancedLeft ∨ b = balanced ∨ b = imbalancedRight) :
    ∃ result, rightGrown flags (node l i v b r) = some result ∧
      Rebalanced (node l i v b r) flags result ∧
      result.1.height = max l.height (r.height - 1) + 1 +
        (if result.2.rebalance then 1 else 0) ∧
      (result.2.rebalance = true → Leans result.1) := by
  rcases range with rfl | rfl | rfl
  · simp only [imbalancedLeft] at stale
    refine ⟨(node l i v balanced r, { flags with rebalance := false }), ?_,
      ⟨⟨left, right, ?_, by simp⟩, rfl, rfl⟩, ?_, by simp⟩
    · simp [rightGrown]
    · simp only [balanced]
      omega
    · simp only [height_node, Bool.false_eq_true, if_false]
      omega
  · simp only [balanced] at stale
    refine ⟨(node l i v imbalancedRight r, flags), ?_, ⟨?_, rfl, rfl⟩, ?_, ?_⟩
    · simp [rightGrown]
    · refine ⟨left, right, ?_, by simp⟩
      simp only [imbalancedRight]
      omega
    · simp only [height_node, grown, if_true]
      omega
    · exact fun _ => Or.inl (by simp)
  · -- the right subtree is now two too high
    cases r with
    | void => exact leans.elim
    | node rl ri rv rb rr =>
      obtain ⟨hrl, hrr, hrb, rrange⟩ := right
      simp only [imbalancedRight, height_node] at stale
      have notLevel : rb ≠ balanced := by
        rcases leans with h | ⟨h1, h2⟩
        · exact h
        · have := height_nonneg l
          omega
      rcases rrange with rfl | rfl | rfl
      · have tooHigh :
            (node rl ri rv imbalancedLeft rr).height = l.height + 2 := by
          simp only [height_node]
          omega
        obtain ⟨n', run, hn', height', entries'⟩ :=
          rotateRightLeft_spec (i := i) (v := v) (b := imbalancedRight)
            left ⟨hrl, hrr, hrb, by simp⟩ tooHigh
        refine ⟨(n', { flags with rebalance := false }), ?_,
          ⟨hn', entries', rfl⟩, ?_, by simp⟩
        · simp [rightGrown, run]
        · simp only [height_node] at tooHigh height' ⊢
          simp only [Bool.false_eq_true, if_false]
          omega
      · exact absurd rfl notLevel
      · simp only [imbalancedRight] at hrb
        refine ⟨(node (node l i v balanced rl) ri rv balanced rr,
          { flags with rebalance := false }), ?_, ⟨?_, ?_, rfl⟩, ?_, by simp⟩
        · simp [rightGrown, rotateLeft]
        · refine ⟨⟨left, hrl, ?_, by simp⟩, hrr, ?_, by simp⟩ <;>
            simp only [balanced, height_node] <;> omega
        · simp
        · simp only [height_node, Bool.false_eq_true, if_false]
          omega

/-- `left_shrunk` on a node whose left subtree is one lower than its `balance`
records. -/
theorem leftShrunk_spec {flags : AvlFlags} (shrunk : flags.rebalance = true)
    (left : Balanced l) (right : Balanced r)
    (stale : b = r.height - (l.height + 1))
    (range : b = imbalancedLeft ∨ b = balanced ∨ b = imbalancedRight) :
    ∃ result, leftShrunk flags (node l i v b r) = some result ∧
      Rebalanced (node l i v b r) flags result ∧
      result.1.height + (if result.2.rebalance then 1 else 0) =
        max (l.height + 1) r.height + 1 := by
  rcases range with rfl | rfl | rfl
  · simp only [imbalancedLeft] at stale
    refine ⟨(node l i v balanced r, flags), ?_,
      ⟨⟨left, right, ?_, by simp⟩, rfl, rfl⟩, ?_⟩
    · simp [leftShrunk]
    · simp only [balanced]
      omega
    · simp only [height_node, shrunk, if_true]
      omega
  · simp only [balanced] at stale
    refine ⟨(node l i v imbalancedRight r, { flags with rebalance := false }), ?_,
      ⟨⟨left, right, ?_, by simp⟩, rfl, rfl⟩, ?_⟩
    · simp [leftShrunk]
    · simp only [imbalancedRight]
      omega
    · simp only [height_node, Bool.false_eq_true, if_false]
      omega
  · -- the right subtree is now two too high
    simp only [imbalancedRight] at stale
    cases r with
    | void =>
      have := height_nonneg l
      simp only [height_void] at stale
      omega
    | node rl ri rv rb rr =>
      obtain ⟨hrl, hrr, hrb, rrange⟩ := right
      have tooHigh : (node rl ri rv rb rr).height = l.height + 2 := by omega
      simp only [height_node] at stale
      rcases rrange with rfl | rfl | rfl
      · obtain ⟨n', run, hn', height', entries'⟩ :=
          rotateRightLeft_spec (i := i) (v := v) (b := imbalancedRight)
            left ⟨hrl, hrr, hrb, by simp⟩ tooHigh
        refine ⟨(n', flags), ?_, ⟨hn', entries', rfl⟩, ?_⟩
        · simp [leftShrunk, run]
        · simp only [height_node] at tooHigh
          simp only [height_node, shrunk, height', if_true]
          omega
      · simp only [balanced] at hrb
        refine ⟨(node (node l i v imbalancedRight rl) ri rv imbalancedLeft rr,
          { flags with rebalance := false }), ?_, ⟨?_, ?_, rfl⟩, ?_⟩
        · simp [leftShrunk, rotateLeft]
        · refine ⟨⟨left, hrl, ?_, by simp⟩, hrr, ?_, by simp⟩ <;>
            simp only [imbalancedLeft, imbalancedRight, height_node] <;> omega
        · simp
        · simp only [height_node, Bool.false_eq_true, if_false]
          omega
      · simp only [imbalancedRight] at hrb
        refine ⟨(node (node l i v balanced rl) ri rv balanced rr, flags), ?_,
          ⟨?_, ?_, rfl⟩, ?_⟩
        · simp [leftShrunk, rotateLeft]
        · refine ⟨⟨left, hrl, ?_, by simp⟩, hrr, ?_, by simp⟩ <;>
            simp only [balanced, height_node] <;> omega
        · simp
        · simp only [height_node, shrunk, if_true]
          omega

theorem rightShrunk_spec {flags : AvlFlags} (shrunk : flags.rebalance = true)
    (left : Balanced l) (right : Balanced r)
    (stale : b = r.height + 1 - l.height)
    (range : b = imbalancedLeft ∨ b = balanced ∨ b = imbalancedRight) :
    ∃ result, rightShrunk flags (node l i v b r) = some result ∧
      Rebalanced (node l i v b r) flags result ∧
      result.1.height + (if result.2.rebalance then 1 else 0) =
        max l.height (r.height + 1) + 1 := by
  rcases range with rfl | rfl | rfl
  · -- the left subtree is now two too high
    simp only [imbalancedLeft] at stale
    cases l with
    | void =>
      have := height_nonneg r
      simp only [height_void] at stale
      omega
    | node ll li lv lb lr =>
      obtain ⟨hll, hlr, hlb, lrange⟩ := left
      have tooHigh : (node ll li lv lb lr).height = r.height + 2 := by omega
      simp only [height_node] at stale
      rcases lrange with rfl | rfl | rfl
      · simp only [imbalancedLeft] at hlb
        refine ⟨(node ll li lv balanced (node lr i v balanced r), flags), ?_,
          ⟨?_, ?_, rfl⟩, ?_⟩
        · simp [rightShrunk, rotateRight]
        · refine ⟨hll, ⟨hlr, right, ?_, by simp⟩, ?_, by simp⟩ <;>
            simp only [balanced, height_node] <;> omega
        · simp
        · simp only [height_node, shrunk, if_true]
          omega
      · simp only [balanced] at hlb
        refine ⟨(node ll li lv imbalancedRight (node lr i v imbalancedLeft r),
          { flags with rebalance := false }), ?_, ⟨?_, ?_, rfl⟩, ?_⟩
        · simp [rightShrunk, rotateRight]
        · refine ⟨hll, ⟨hlr, right, ?_, by simp⟩, ?_, by simp⟩ <;>
            simp only [imbalancedLeft, imbalancedRight, height_node] <;> omega
        · simp
        · simp only [height_node, Bool.false_eq_true, if_false]
          omega
      · obtain ⟨n', run, hn', height', entries'⟩ :=
          rotateLeftRight_spec (i := i) (v := v) (b := imbalancedLeft)
            ⟨hll, hlr, hlb, by simp⟩ right tooHigh
        refine ⟨(n', flags), ?_, ⟨hn', entries', rfl⟩, ?_⟩
        · simp [rightShrunk, run]
        · simp only [height_node] at tooHigh
          simp only [height_node, shrunk, height', if_true]
          omega
  · simp only [balanced] at stale
    refine ⟨(node l i v imbalancedLeft r, { flags with rebalance := false }), ?_,
      ⟨⟨left, right, ?_, by simp⟩, rfl, rfl⟩, ?_⟩
    · simp [rightShrunk]
    · simp only [imbalancedLeft]
      omega
    · simp only [height_node, Bool.false_eq_true, if_false]
      omega
  · simp only [imbalancedRight] at stale
    refine ⟨(node l i v balanced r, flags), ?_,
      ⟨⟨left, right, ?_, by simp⟩, rfl, rfl⟩, ?_⟩
    · simp [rightShrunk]
    · simp only [balanced]
      omega
    · simp only [height_node, shrunk, if_true]
      omega

end AvlTreeNode

end Liberty
