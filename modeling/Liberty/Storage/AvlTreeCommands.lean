import Liberty.Storage.AvlTreeBalance

/-!
# Insertions and removals of an AVL tree

The recursive functions, by induction on the subtree they process, and from them
every container that a run of commands reaches.
-/

namespace Liberty

open SortedAssoc

namespace AvlTreeNode

variable {V K : Type}

/-- The outcome of an insertion in the subtree `n`. -/
structure Grown (n : AvlTreeNode V K) (flags : AvlFlags)
    (result : AvlTreeNode V K × AvlFlags) : Prop where
  balanced : Balanced result.1
  height : result.1.height = n.height + (if result.2.rebalance then 1 else 0)
  leans : result.2.rebalance = true → Leans result.1
  count : result.2.count - result.1.count = flags.count - n.count

/-- The outcome of a removal in the subtree `n`. -/
structure Shrunk (n : AvlTreeNode V K) (flags : AvlFlags)
    (result : AvlTreeNode V K × AvlFlags) : Prop where
  balanced : Balanced result.1
  height : result.1.height + (if result.2.rebalance then 1 else 0) = n.height
  count : result.2.count - result.1.count = flags.count - n.count

theorem Rebalanced.count {n : AvlTreeNode V K} {flags : AvlFlags}
    {result : AvlTreeNode V K × AvlFlags} (h : Rebalanced n flags result) :
    result.2.count - result.1.count = flags.count - n.count := by
  obtain ⟨-, entries, flagsEq⟩ := h
  rw [count_eq_length, count_eq_length, entries, flagsEq]

/-! ## One level of the recursion -/

section Level

variable {n n' : AvlTreeNode V K} {flags flags' : AvlFlags}
  {adjust : AvlFlags → AvlTreeNode V K → Option (AvlTreeNode V K × AvlFlags)}

/-- The tail of an insertion step: `n'` is `n` with one subtree replaced. -/
theorem whenRebalance_grown
    (adjusted : flags'.rebalance = true →
      ∃ result, adjust flags' n' = some result ∧ Rebalanced n' flags' result ∧
        result.1.height = n.height + (if result.2.rebalance then 1 else 0) ∧
        (result.2.rebalance = true → Leans result.1))
    (kept : flags'.rebalance = false → Balanced n' ∧ n'.height = n.height)
    (count : flags'.count - n'.count = flags.count - n.count) :
    ∃ result, whenRebalance adjust n' flags' = some result ∧
      Grown n flags result ∧ result.1.entries = n'.entries := by
  cases flag : flags'.rebalance with
  | true =>
    obtain ⟨result, run, rebalanced, height, leans⟩ := adjusted flag
    exact ⟨result, by simp [whenRebalance, flag, run],
      ⟨rebalanced.1, height, leans, rebalanced.count.trans count⟩, rebalanced.2.1⟩
  | false =>
    obtain ⟨isBalanced, height⟩ := kept flag
    exact ⟨(n', flags'), by simp [whenRebalance, flag],
      ⟨isBalanced, by simp [flag, height], by simp [flag], count⟩, rfl⟩

/-- The tail of a removal step: `n'` is `n` with one subtree replaced, and perhaps
with the item and the value of the node that was removed. -/
theorem whenRebalance_shrunk
    (adjusted : flags'.rebalance = true →
      ∃ result, adjust flags' n' = some result ∧ Rebalanced n' flags' result ∧
        result.1.height + (if result.2.rebalance then 1 else 0) = n.height)
    (kept : flags'.rebalance = false → Balanced n' ∧ n'.height = n.height)
    (count : flags'.count - n'.count = flags.count - n.count) :
    ∃ result, whenRebalance adjust n' flags' = some result ∧
      Shrunk n flags result ∧ result.1.entries = n'.entries := by
  cases flag : flags'.rebalance with
  | true =>
    obtain ⟨result, run, rebalanced, height⟩ := adjusted flag
    exact ⟨result, by simp [whenRebalance, flag, run],
      ⟨rebalanced.1, height, rebalanced.count.trans count⟩, rebalanced.2.1⟩
  | false =>
    obtain ⟨isBalanced, height⟩ := kept flag
    exact ⟨(n', flags'), by simp [whenRebalance, flag],
      ⟨isBalanced, by simp [flag, height], count⟩, rfl⟩

end Level

variable {l r sub : AvlTreeNode V K} {i : K} {v : V} {b : Int}
  {flags flags' : AvlFlags}

/-- Coming back from an insertion in the left subtree. -/
theorem whenRebalance_leftGrown (whole : Balanced (node l i v b r))
    (grown : Grown l flags (sub, flags')) :
    ∃ result, whenRebalance leftGrown (node sub i v b r) flags' = some result ∧
      Grown (node l i v b r) flags result ∧
      result.1.entries = (node sub i v b r).entries := by
  obtain ⟨left, right, balance, range⟩ := whole
  obtain ⟨subBalanced, subHeight, subLeans, subCount⟩ := grown
  dsimp only at subBalanced subHeight subLeans subCount
  refine whenRebalance_grown (fun flag => ?_) (fun flag => ?_) ?_
  · simp only [flag, if_true] at subHeight
    obtain ⟨result, run, rebalanced, height, leans⟩ :=
      leftGrown_spec (i := i) (v := v) flag subBalanced right (subLeans flag)
        (by omega) range
    refine ⟨result, run, rebalanced, ?_, leans⟩
    rw [height, height_node, subHeight, Int.add_sub_cancel]
  · simp only [flag, Bool.false_eq_true, if_false, Int.add_zero] at subHeight
    refine ⟨⟨subBalanced, right, ?_, range⟩, ?_⟩
    · rw [subHeight, balance]
    · rw [height_node, height_node, subHeight]
  · simp only [count_node]
    omega

/-- Coming back from an insertion in the right subtree. -/
theorem whenRebalance_rightGrown (whole : Balanced (node l i v b r))
    (grown : Grown r flags (sub, flags')) :
    ∃ result, whenRebalance rightGrown (node l i v b sub) flags' = some result ∧
      Grown (node l i v b r) flags result ∧
      result.1.entries = (node l i v b sub).entries := by
  obtain ⟨left, right, balance, range⟩ := whole
  obtain ⟨subBalanced, subHeight, subLeans, subCount⟩ := grown
  dsimp only at subBalanced subHeight subLeans subCount
  refine whenRebalance_grown (fun flag => ?_) (fun flag => ?_) ?_
  · simp only [flag, if_true] at subHeight
    obtain ⟨result, run, rebalanced, height, leans⟩ :=
      rightGrown_spec (i := i) (v := v) flag left subBalanced (subLeans flag)
        (by omega) range
    refine ⟨result, run, rebalanced, ?_, leans⟩
    rw [height, height_node, subHeight, Int.add_sub_cancel]
  · simp only [flag, Bool.false_eq_true, if_false, Int.add_zero] at subHeight
    refine ⟨⟨left, subBalanced, ?_, range⟩, ?_⟩
    · rw [subHeight, balance]
    · rw [height_node, height_node, subHeight]
  · simp only [count_node]
    omega

/-- Coming back from a removal in the left subtree. -/
theorem whenRebalance_leftShrunk (whole : Balanced (node l i v b r))
    (shrunk : Shrunk l flags (sub, flags')) (i' : K) (v' : V) :
    ∃ result, whenRebalance leftShrunk (node sub i' v' b r) flags' = some result ∧
      Shrunk (node l i v b r) flags result ∧
      result.1.entries = (node sub i' v' b r).entries := by
  obtain ⟨left, right, balance, range⟩ := whole
  obtain ⟨subBalanced, subHeight, subCount⟩ := shrunk
  dsimp only at subBalanced subHeight subCount
  refine whenRebalance_shrunk (fun flag => ?_) (fun flag => ?_) ?_
  · simp only [flag, if_true] at subHeight
    obtain ⟨result, run, rebalanced, height⟩ :=
      leftShrunk_spec (i := i') (v := v') flag subBalanced right (by omega) range
    exact ⟨result, run, rebalanced, by rw [height, height_node, subHeight]⟩
  · simp only [flag, Bool.false_eq_true, if_false, Int.add_zero] at subHeight
    refine ⟨⟨subBalanced, right, ?_, range⟩, ?_⟩
    · rw [subHeight, balance]
    · rw [height_node, height_node, subHeight]
  · simp only [count_node]
    omega

/-- Coming back from a removal in the right subtree. -/
theorem whenRebalance_rightShrunk (whole : Balanced (node l i v b r))
    (shrunk : Shrunk r flags (sub, flags')) :
    ∃ result, whenRebalance rightShrunk (node l i v b sub) flags' = some result ∧
      Shrunk (node l i v b r) flags result ∧
      result.1.entries = (node l i v b sub).entries := by
  obtain ⟨left, right, balance, range⟩ := whole
  obtain ⟨subBalanced, subHeight, subCount⟩ := shrunk
  dsimp only at subBalanced subHeight subCount
  refine whenRebalance_shrunk (fun flag => ?_) (fun flag => ?_) ?_
  · simp only [flag, if_true] at subHeight
    obtain ⟨result, run, rebalanced, height⟩ :=
      rightShrunk_spec (i := i) (v := v) flag left subBalanced (by omega) range
    exact ⟨result, run, rebalanced, by rw [height, height_node, subHeight]⟩
  · simp only [flag, Bool.false_eq_true, if_false, Int.add_zero] at subHeight
    refine ⟨⟨left, subBalanced, ?_, range⟩, ?_⟩
    · rw [subHeight, balance]
    · rw [height_node, height_node, subHeight]
  · simp only [count_node]
    omega

/-! ## Sorted entries around a node -/

variable (C : AvlItems K)

theorem sorted_left (sorted : Sorted C.ordered (node l i v b r).entries) :
    Sorted C.ordered l.entries :=
  (List.pairwise_append.mp sorted).1

theorem sorted_right (sorted : Sorted C.ordered (node l i v b r).entries) :
    Sorted C.ordered r.entries :=
  (List.pairwise_cons.mp (List.pairwise_append.mp sorted).2.1).2

/-- A key that is not below the item of a node is looked for at that item and then
on its right. -/
theorem above_left_of_sorted {k : K}
    (sorted : Sorted C.ordered (node l i v b r).entries)
    (above : C.ordered i k = true) : Above C.ordered k l.entries :=
  sorted.above_left C.ordered_irrefl C.ordered_trans above

/-- A key that is neither below nor above the item of a node is above every item
left of it. -/
theorem above_left_of_same {k : K}
    (sorted : Sorted C.ordered (node l i v b r).entries)
    (notBelow : C.ordered k i = false) (notAbove : C.ordered i k = false) :
    Above C.ordered k l.entries := by
  intro entry member
  have belowItem : C.ordered entry.1 i = true :=
    (List.pairwise_append.mp sorted).2.2 entry member (i, v) (by simp)
  have belowKey := C.ordered_same _ _ _ belowItem notAbove notBelow
  exact ⟨asymm C.ordered_irrefl C.ordered_trans belowKey, belowKey⟩

/-! ## Insertion -/

theorem doInsert_spec (k : K) (w : V) (n : AvlTreeNode V K) (flags : AvlFlags)
    (hn : Balanced n) :
    ∃ result, doInsert C k w n flags = some result ∧ Grown n flags result ∧
      (Sorted C.ordered n.entries →
        result.1.entries = SortedAssoc.insert C.ordered k w n.entries) := by
  induction n generalizing flags with
  | void =>
    refine ⟨_, rfl, ⟨⟨trivial, trivial, rfl, by simp⟩, by simp [freshNode], ?_, ?_⟩,
      fun _ => rfl⟩
    · exact fun _ => Or.inr ⟨rfl, rfl⟩
    · simp [freshNode]
  | node l i v b r ihl ihr =>
    cases below : C.ordered k i with
    | true =>
      obtain ⟨⟨sub, flags'⟩, run, grown, entriesSub⟩ := ihl flags hn.1
      obtain ⟨result, run', grown', entries'⟩ := whenRebalance_leftGrown hn grown
      refine ⟨result, by simp [doInsert, below, run, run'], grown',
        fun sorted => ?_⟩
      rw [entries', entries_node, entries_node, entriesSub (sorted_left C sorted),
        insert_append_of_lt below]
    | false =>
      cases above : C.ordered i k with
      | true =>
        obtain ⟨⟨sub, flags'⟩, run, grown, entriesSub⟩ := ihr flags hn.2.1
        obtain ⟨result, run', grown', entries'⟩ :=
          whenRebalance_rightGrown hn grown
        refine ⟨result, by simp [doInsert, below, above, run, run'], grown',
          fun sorted => ?_⟩
        rw [entries', entries_node, entries_node,
          entriesSub (sorted_right C sorted),
          insert_append_of_above (above_left_of_sorted C sorted above)]
        simp [SortedAssoc.insert, below, above]
      | false =>
        refine ⟨(node l i w b r, { flags with rebalance := false }),
          by simp [doInsert, below, above], ⟨hn, by simp, by simp, rfl⟩,
          fun sorted => ?_⟩
        rw [entries_node, entries_node,
          insert_append_of_above (above_left_of_same C sorted below above)]
        simp [SortedAssoc.insert, below, above]

/-- A `fast_do_insert` that returns has done what `do_insert` does: the `check`
rules out the other path. -/
theorem doInsert_of_fastDoInsert {k : K} {w : V} {n : AvlTreeNode V K}
    {flags : AvlFlags} {result : AvlTreeNode V K × AvlFlags}
    (run : fastDoInsert C k w n flags = some result) :
    doInsert C k w n flags = some result := by
  induction n generalizing flags result with
  | void => exact run
  | node l i v b r ihl ihr =>
    simp only [fastDoInsert, doInsert] at run ⊢
    cases same : C.identical k i with
    | true =>
      obtain ⟨notBelow, notAbove⟩ := C.identical_not_ordered k i same
      simpa [same, notBelow, notAbove] using run
    | false =>
      cases below : C.ordered k i with
      | true =>
        simp only [same, below, Bool.false_eq_true, if_false, if_true,
          Option.bind_eq_bind, Option.bind_eq_some_iff] at run ⊢
        obtain ⟨sub, runSub, runTail⟩ := run
        exact ⟨sub, ihl runSub, runTail⟩
      | false =>
        cases above : C.ordered i k with
        | true =>
          simp only [same, below, above, Bool.false_eq_true, if_false,
            if_true, Option.bind_eq_bind, Option.bind_eq_some_iff] at run ⊢
          obtain ⟨sub, runSub, runTail⟩ := run
          exact ⟨sub, ihr runSub, runTail⟩
        | false => simp [same, below, above] at run

/-- Where `=` coincides with `is_equal`, `fast_do_insert` is `do_insert`. -/
theorem fastDoInsert_eq (discriminating : C.Discriminating) (k : K) (w : V)
    (n : AvlTreeNode V K) (flags : AvlFlags) :
    fastDoInsert C k w n flags = doInsert C k w n flags := by
  induction n generalizing flags with
  | void => rfl
  | node l i v b r ihl ihr =>
    simp only [fastDoInsert, doInsert, ihl, ihr]
    cases same : C.identical k i with
    | true =>
      obtain ⟨notBelow, notAbove⟩ := C.identical_not_ordered k i same
      simp [notBelow, notAbove]
    | false =>
      rcases discriminating k i same with below | above
      · simp [below]
      · simp [above]

/-! ## Removal -/

/-- `remove_right` unlinks the last entry of the subtree. -/
theorem removeRight_spec (n : AvlTreeNode V K) (flags : AvlFlags) (hn : Balanced n)
    (nonVoid : n ≠ void) :
    ∃ n' kept flags', removeRight n flags = some (n', kept, flags') ∧
      Shrunk n flags (n', flags') ∧ n.entries = n'.entries ++ [kept] := by
  induction n generalizing flags with
  | void => exact absurd rfl nonVoid
  | node l i v b r _ ihr =>
    cases r with
    | void =>
      refine ⟨l, (i, v), discarded flags, rfl, ⟨hn.1, ?_, ?_⟩, by simp⟩
      · have := height_nonneg l
        simp only [discarded, if_true, height_node, height_void]
        omega
      · simp only [discarded, count_node, count_void]
        omega
    | node rl ri rv rb rr =>
      obtain ⟨sub, kept, flags', run, shrunk, entriesSub⟩ :=
        ihr flags hn.2.1 (by simp)
      obtain ⟨⟨n', flags''⟩, run', shrunk', entries'⟩ :=
        whenRebalance_rightShrunk hn shrunk
      refine ⟨n', kept, flags'', by simp [removeRight, run, run'], shrunk', ?_⟩
      rw [entries', entries_node l, entriesSub, entries_node l, List.append_assoc,
        List.cons_append]

/-- The removal of a node keeps the entries on both sides of it. -/
theorem removeFound_spec (l r : AvlTreeNode V K) (i : K) (v : V) (b : Int)
    (flags : AvlFlags) (hn : Balanced (node l i v b r)) :
    ∃ result, removeFound (node l i v b r) flags = some result ∧
      Shrunk (node l i v b r) flags result ∧
      result.1.entries = l.entries ++ r.entries := by
  have leftNonneg := height_nonneg l
  have rightNonneg := height_nonneg r
  cases l with
  | void =>
    refine ⟨_, rfl, ⟨hn.2.1, ?_, ?_⟩, rfl⟩
    · simp only [discarded, if_true, height_node, height_void]
      omega
    · simp only [discarded, count_node, count_void]
      omega
  | node ll li lv lb lr =>
    cases r with
    | void =>
      refine ⟨_, rfl, ⟨hn.1, ?_, ?_⟩, by simp⟩
      · simp only [discarded, if_true, height_node, height_void] at leftNonneg ⊢
        omega
      · simp only [discarded, count_node, count_void]
        omega
    | node rl ri rv rb rr =>
      obtain ⟨sub, ⟨i', v'⟩, flags', run, shrunk, entriesSub⟩ :=
        removeRight_spec _ flags hn.1 (by simp)
      obtain ⟨result, run', shrunk', entries'⟩ :=
        whenRebalance_leftShrunk hn shrunk i' v'
      refine ⟨result, by simp [removeFound, run, run'], shrunk', ?_⟩
      rw [entries', entriesSub, entries_node, List.append_assoc,
        List.singleton_append]

theorem doRemove_spec (e : K) (n : AvlTreeNode V K) (flags : AvlFlags)
    (hn : Balanced n) :
    ∃ result, doRemove C e n flags = some result ∧ Shrunk n flags result ∧
      (Sorted C.ordered n.entries →
        result.1.entries = SortedAssoc.erase C.ordered e n.entries) := by
  induction n generalizing flags with
  | void => exact ⟨_, rfl, ⟨trivial, by simp, rfl⟩, fun _ => rfl⟩
  | node l i v b r ihl ihr =>
    cases below : C.ordered e i with
    | true =>
      obtain ⟨⟨sub, flags'⟩, run, shrunk, entriesSub⟩ := ihl flags hn.1
      obtain ⟨result, run', shrunk', entries'⟩ :=
        whenRebalance_leftShrunk hn shrunk i v
      refine ⟨result, by simp [doRemove, below, run, run'], shrunk',
        fun sorted => ?_⟩
      rw [entries', entries_node, entries_node, entriesSub (sorted_left C sorted),
        erase_append_of_lt below]
    | false =>
      cases above : C.ordered i e with
      | true =>
        obtain ⟨⟨sub, flags'⟩, run, shrunk, entriesSub⟩ := ihr flags hn.2.1
        obtain ⟨result, run', shrunk', entries'⟩ :=
          whenRebalance_rightShrunk hn shrunk
        refine ⟨result, by simp [doRemove, below, above, run, run'], shrunk',
          fun sorted => ?_⟩
        rw [entries', entries_node, entries_node,
          entriesSub (sorted_right C sorted),
          erase_append_of_above (above_left_of_sorted C sorted above)]
        simp [SortedAssoc.erase, below, above]
      | false =>
        obtain ⟨result, run, shrunk, entries'⟩ :=
          removeFound_spec l r i v b flags hn
        refine ⟨result, by simp [doRemove, below, above, run], shrunk,
          fun sorted => ?_⟩
        rw [entries', entries_node,
          erase_append_of_above (above_left_of_same C sorted below above)]
        simp [SortedAssoc.erase, below, above]

/-- A `fast_do_remove` that returns has done what `do_remove` does. -/
theorem doRemove_of_fastDoRemove {e : K} {n : AvlTreeNode V K} {flags : AvlFlags}
    {result : AvlTreeNode V K × AvlFlags}
    (run : fastDoRemove C e n flags = some result) :
    doRemove C e n flags = some result := by
  cases n with
  | void => exact run
  | node l i v b r =>
    simp only [fastDoRemove, doRemove] at run ⊢
    cases same : C.identical e i with
    | true =>
      obtain ⟨notBelow, notAbove⟩ := C.identical_not_ordered e i same
      simpa [same, notBelow, notAbove] using run
    | false =>
      cases below : C.ordered e i with
      | true => simpa [same, below] using run
      | false =>
        cases above : C.ordered i e with
        | true => simpa [same, below, above] using run
        | false => simp [same, below, above] at run

/-- Where `=` coincides with `is_equal`, `fast_do_remove` is `do_remove`. -/
theorem fastDoRemove_eq (discriminating : C.Discriminating) (e : K)
    (n : AvlTreeNode V K) (flags : AvlFlags) :
    fastDoRemove C e n flags = doRemove C e n flags := by
  cases n with
  | void => rfl
  | node l i v b r =>
    simp only [fastDoRemove, doRemove]
    cases same : C.identical e i with
    | true =>
      obtain ⟨notBelow, notAbove⟩ := C.identical_not_ordered e i same
      simp [notBelow, notAbove]
    | false =>
      rcases discriminating e i same with below | above
      · simp [below]
      · simp [above]

/-! ## Every recursive call -/

/-- One call of a recursive function on the subtree `n`. -/
inductive RecursiveCall (C : AvlItems K) (n : AvlTreeNode V K) (flags : AvlFlags) :
    AvlTreeNode V K × AvlFlags → Prop
  | doInsert {k : K} {w : V} {result} :
      n.doInsert C k w flags = some result → RecursiveCall C n flags result
  | fastDoInsert {k : K} {w : V} {result} :
      n.fastDoInsert C k w flags = some result → RecursiveCall C n flags result
  | doRemove {e : K} {result} :
      n.doRemove C e flags = some result → RecursiveCall C n flags result
  | fastDoRemove {e : K} {result} :
      n.fastDoRemove C e flags = some result → RecursiveCall C n flags result
  | removeRight {kept : K × V} {n' : AvlTreeNode V K} {flags' : AvlFlags} :
      n.removeRight flags = some (n', kept, flags') → RecursiveCall C n flags (n', flags')

theorem Grown.rebalance_iff {n : AvlTreeNode V K} {flags : AvlFlags}
    {result : AvlTreeNode V K × AvlFlags} (grown : Grown n flags result) :
    result.2.rebalance = true ↔ result.1.height ≠ n.height := by
  have height := grown.height
  cases flag : result.2.rebalance with
  | true =>
    simp only [flag, if_true] at height
    simp only [true_iff]
    omega
  | false =>
    simp only [flag, Bool.false_eq_true, if_false, Int.add_zero] at height
    simp [height]

theorem Shrunk.rebalance_iff {n : AvlTreeNode V K} {flags : AvlFlags}
    {result : AvlTreeNode V K × AvlFlags} (shrunk : Shrunk n flags result) :
    result.2.rebalance = true ↔ result.1.height ≠ n.height := by
  have height := shrunk.height
  cases flag : result.2.rebalance with
  | true =>
    simp only [flag, if_true] at height
    simp only [true_iff]
    omega
  | false =>
    simp only [flag, Bool.false_eq_true, if_false, Int.add_zero] at height
    simp [height]

/-- After a recursive call on a balanced subtree, `rebalance` says whether the
height of that subtree changed. -/
theorem RecursiveCall.rebalance_iff {n : AvlTreeNode V K} {flags : AvlFlags}
    {result : AvlTreeNode V K × AvlFlags} (hn : Balanced n)
    (call : RecursiveCall C n flags result) :
    result.2.rebalance = true ↔ result.1.height ≠ n.height := by
  have insertion : ∀ {k w result}, n.doInsert C k w flags = some result →
      (result.2.rebalance = true ↔ result.1.height ≠ n.height) := by
    intro k w result run
    obtain ⟨_, run', grown, _⟩ := doInsert_spec C k w n flags hn
    cases run.symm.trans run'
    exact grown.rebalance_iff
  have removal : ∀ {e result}, n.doRemove C e flags = some result →
      (result.2.rebalance = true ↔ result.1.height ≠ n.height) := by
    intro e result run
    obtain ⟨_, run', shrunk, _⟩ := doRemove_spec C e n flags hn
    cases run.symm.trans run'
    exact shrunk.rebalance_iff
  cases call with
  | doInsert run => exact insertion run
  | fastDoInsert run => exact insertion (doInsert_of_fastDoInsert C run)
  | doRemove run => exact removal run
  | fastDoRemove run => exact removal (doRemove_of_fastDoRemove C run)
  | removeRight run =>
    have nonVoid : n ≠ void := by
      rintro rfl
      simp [AvlTreeNode.removeRight] at run
    obtain ⟨_, _, _, run', shrunk, _⟩ := removeRight_spec n flags hn nonVoid
    cases run.symm.trans run'
    exact shrunk.rebalance_iff

/-- `n` is the node `root` or a node below it. -/
inductive Within (n : AvlTreeNode V K) : AvlTreeNode V K → Prop
  | here : Within n n
  | left {l r : AvlTreeNode V K} {i : K} {v : V} {b : Int} :
      Within n l → Within n (node l i v b r)
  | right {l r : AvlTreeNode V K} {i : K} {v : V} {b : Int} :
      Within n r → Within n (node l i v b r)

theorem Balanced.within {n root : AvlTreeNode V K} (hroot : Balanced root)
    (within : Within n root) : Balanced n := by
  induction within with
  | here => exact hroot
  | left _ ih => exact ih hroot.1
  | right _ ih => exact ih hroot.2.1

end AvlTreeNode

/-! ## The container -/

namespace AvlTree

open AvlTreeNode

variable {V K : Type} (C : AvlItems K)

/-- The invariant of an AVL container. -/
structure Valid (t : AvlTree V K) : Prop where
  sorted : Sorted C.ordered t.root.entries
  balanced : Balanced t.root
  count : t.count = t.root.count

/-- `add` and `remove` compare with `is_equal` only. -/
def Command.Slow : Command V K → Prop
  | .add _ _ | .remove _ => True
  | .fastAdd _ _ | .fastRemove _ => False

theorem empty_valid : Valid C (empty : AvlTree V K) :=
  ⟨List.Pairwise.nil, trivial, rfl⟩

theorem add_valid {t : AvlTree V K} (ht : t.Valid C) (w : V) (k : K) :
    ∃ t', t.execute C (.add w k) = some t' ∧ t'.Valid C ∧
      t'.root.entries = SortedAssoc.insert C.ordered k w t.root.entries := by
  obtain ⟨⟨root, flags⟩, run, grown, entries⟩ :=
    doInsert_spec C k w t.root t.toAvlFlags ht.balanced
  refine ⟨{ flags with root := root }, by simp [execute, install, run], ⟨?_, ?_, ?_⟩,
    entries ht.sorted⟩
  · exact entries ht.sorted ▸ ht.sorted.insert C.ordered_trans
  · exact grown.balanced
  · have sameCount := grown.count
    have before := ht.count
    dsimp only at sameCount ⊢
    omega

theorem remove_valid {t : AvlTree V K} (ht : t.Valid C) (e : K) :
    ∃ t', t.execute C (.remove e) = some t' ∧ t'.Valid C ∧
      t'.root.entries = SortedAssoc.erase C.ordered e t.root.entries := by
  obtain ⟨⟨root, flags⟩, run, shrunk, entries⟩ :=
    doRemove_spec C e t.root t.toAvlFlags ht.balanced
  refine ⟨{ flags with root := root }, by simp [execute, install, run], ⟨?_, ?_, ?_⟩,
    entries ht.sorted⟩
  · exact entries ht.sorted ▸ ht.sorted.erase
  · exact shrunk.balanced
  · have sameCount := shrunk.count
    have before := ht.count
    dsimp only at sameCount ⊢
    omega

theorem add_of_fastAdd {t t' : AvlTree V K} {w : V} {k : K}
    (run : t.execute C (.fastAdd w k) = some t') :
    t.execute C (.add w k) = some t' := by
  simp only [execute, install, Option.map_eq_some_iff] at run ⊢
  obtain ⟨result, inner, same⟩ := run
  exact ⟨result, doInsert_of_fastDoInsert C inner, same⟩

theorem remove_of_fastRemove {t t' : AvlTree V K} {e : K}
    (run : t.execute C (.fastRemove e) = some t') :
    t.execute C (.remove e) = some t' := by
  simp only [execute, install, Option.map_eq_some_iff] at run ⊢
  obtain ⟨result, inner, same⟩ := run
  exact ⟨result, doRemove_of_fastDoRemove C inner, same⟩

theorem execute_valid {t t' : AvlTree V K} (ht : t.Valid C) (command : Command V K)
    (run : t.execute C command = some t') : t'.Valid C := by
  have adding : ∀ {w k}, t.execute C (.add w k) = some t' → t'.Valid C := by
    intro w k run
    obtain ⟨_, run', valid, _⟩ := add_valid C ht w k
    cases run.symm.trans run'
    exact valid
  have removing : ∀ {e}, t.execute C (.remove e) = some t' → t'.Valid C := by
    intro e run
    obtain ⟨_, run', valid, _⟩ := remove_valid C ht e
    cases run.symm.trans run'
    exact valid
  cases command with
  | add w k => exact adding run
  | fastAdd w k => exact adding (add_of_fastAdd C run)
  | remove e => exact removing run
  | fastRemove e => exact removing (remove_of_fastRemove C run)

theorem Reachable.valid {t : AvlTree V K} (reached : Reachable C t) : t.Valid C := by
  induction reached with
  | empty => exact empty_valid C
  | step command _ run ih => exact execute_valid C ih command run

theorem execute_returns {t : AvlTree V K} (ht : t.Valid C) (command : Command V K)
    (comparison : command.Slow ∨ C.Discriminating) :
    ∃ t', t.execute C command = some t' := by
  cases command with
  | add w k =>
    obtain ⟨t', run, _⟩ := add_valid C ht w k
    exact ⟨t', run⟩
  | remove e =>
    obtain ⟨t', run, _⟩ := remove_valid C ht e
    exact ⟨t', run⟩
  | fastAdd w k =>
    have discriminating := comparison.resolve_left not_false
    obtain ⟨t', run, _⟩ := add_valid C ht w k
    exact ⟨t', by simpa only [execute, fastDoInsert_eq C discriminating] using run⟩
  | fastRemove e =>
    have discriminating := comparison.resolve_left not_false
    obtain ⟨t', run, _⟩ := remove_valid C ht e
    exact ⟨t', by simpa only [execute, fastDoRemove_eq C discriminating] using run⟩

/-- **AVL rebalancing.**  Whatever sequence of commands built the container, the
next command returns (a fast one when `=` and `is_equal` coincide), whatever
returns leaves sorted items, exact balances and an exact `count`, and every
recursive call on a subtree leaves `rebalance` saying whether its height changed. -/
theorem reachable_rebalancing {t : AvlTree V K} (reached : Reachable C t)
    (command : Command V K) :
    (command.Slow ∨ C.Discriminating → ∃ t', t.execute C command = some t') ∧
      (∀ t', t.execute C command = some t' →
        Sorted C.ordered t'.root.entries ∧ Balanced t'.root ∧
          t'.count = t'.root.count) ∧
      (∀ n, Within n t.root → ∀ flags result, RecursiveCall C n flags result →
        (result.2.rebalance = true ↔ result.1.height ≠ n.height)) := by
  have valid := reached.valid
  refine ⟨execute_returns C valid command, fun t' run => ?_,
    fun n within flags result call => ?_⟩
  · obtain ⟨sorted, isBalanced, count⟩ := execute_valid C valid command run
    exact ⟨sorted, isBalanced, count⟩
  · exact call.rebalance_iff C (valid.balanced.within within)

/-- Natural numbers under `<`. -/
def natItems : AvlItems Nat where
  ordered a b := decide (a < b)
  identical a b := decide (a = b)
  ordered_irrefl a := by simp
  ordered_trans a b c := by
    simp only [decide_eq_true_eq]
    exact Nat.lt_trans
  ordered_same a b c := by
    simp only [decide_eq_true_eq, decide_eq_false_iff_not]
    omega
  identical_not_ordered a b := by
    simp only [decide_eq_true_eq, decide_eq_false_iff_not]
    omega

/-- The tree of 1 with 3 on its right, before the insertion of 2 that needs a double
rotation. -/
theorem reachable_rebalancing_double_rotation :
    ∃ t : AvlTree Nat Nat, Reachable natItems t ∧
      (∃ t', t.execute natItems (.add 0 2) = some t') ∧
      (∀ t', t.execute natItems (.add 0 2) = some t' →
        Sorted natItems.ordered t'.root.entries ∧ Balanced t'.root ∧
          t'.count = t'.root.count) := by
  have reached := Reachable.step (.add 0 3)
    (Reachable.step (.add 0 1) (Reachable.empty (V := Nat) (C := natItems)) rfl) rfl
  have result := reachable_rebalancing natItems reached (.add 0 2)
  exact ⟨_, reached, result.1 (Or.inl trivial), result.2.1⟩

end AvlTree

end Liberty
