import Liberty.Storage.NodeHeap

/-!
# The iteration cache of the hashed dictionaries

`cache_user`, `cache_node` and `cache_buckets`: an index of the user and the node that it
counts to, along the chains of the buckets.
-/

namespace Liberty

open LinkedNodes NodeHeap

/-- The last index that was asked for, -1 when the cache is not active, with its node and the
bucket of that node. -/
structure NodeCache where
  user : Int
  node : Option ℕ
  buckets : Int

namespace NodeCache

variable {α : Type}

/-! ## The source -/

/-- `cache_user := -1` -/
def deactivate (c : NodeCache) : NodeCache :=
  { c with user := -1 }

/-- The cache of a new dictionary. -/
def initial : NodeCache where
  user := -1
  node := none
  buckets := 0

/-- The loop of `set_cache_user`: on to the next bucket that is not empty. -/
def skipEmpty (buckets : NativeArray (Option ℕ)) (capacity : Int) (c : NodeCache) :
    Option NodeCache :=
  untilLoop (fun c => some c.node.isSome)
    (fun c => do
      return { c with buckets := c.buckets + 1, node := ← buckets.item (c.buckets + 1) })
    capacity.toNat c

/-- `set_cache_user(cache_user + 1)` -/
def next (link : Link α) (node : Memory α) (buckets : NativeArray (Option ℕ)) (capacity : Int)
    (c : NodeCache) : Option NodeCache := do
  let x ← node (← c.node)
  skipEmpty buckets capacity { c with user := c.user + 1, node := link.get x }

/-- `set_cache_user(1)` where the cache is somewhere else. -/
def first (buckets : NativeArray (Option ℕ)) (capacity : Int) : Option NodeCache := do
  skipEmpty buckets capacity { user := 1, node := ← buckets.item 0, buckets := 0 }

/-- `set_cache_user` but for its last branch, which calls it again. -/
def setNear (link : Link α) (node : Memory α) (buckets : NativeArray (Option ℕ)) (capacity : Int)
    (c : NodeCache) (index : Int) (far : Option NodeCache) : Option NodeCache :=
  if index = c.user + 1 then c.next link node buckets capacity
  else if index = c.user then some c
  else if index = 1 then first buckets capacity
  else far

/-- `set_cache_user` -/
def set (link : Link α) (node : Memory α) (buckets : NativeArray (Option ℕ)) (capacity : Int)
    (c : NodeCache) (index : Int) : Option NodeCache :=
  c.setNear link node buckets capacity index do
    let c ← c.setNear link node buckets capacity 1 none
    untilLoop (fun c => some (decide (c.user = index)))
      (fun c => c.next link node buckets capacity) index.toNat c

/-! ## The position of the cache -/

/-- The cache is at the node that `user` counts to. -/
def At (c : NodeCache) (n : ℕ) (chain : ℕ → List ℕ) : Prop :=
  ∃ (b a : ℕ) (p q : List ℕ), c.buckets = b ∧ b < n ∧ c.node = some a ∧ chain b = p ++ a :: q ∧
    c.user = (order chain b).length + p.length + 1

/-- The cache is not active, or where it should be. -/
def Valid (c : NodeCache) (n : ℕ) (chain : ℕ → List ℕ) : Prop :=
  c.user = -1 ∨ At c n chain

variable {link : Link α} {node : Memory α} {buckets : NativeArray (Option ℕ)} {n : ℕ}
  {chain : ℕ → List ℕ} {c : NodeCache}

theorem At.exists_node (active : At c n chain) : ∃ a ∈ order chain n, c.node = some a := by
  obtain ⟨b, a, p, q, -, less, cached, split, -⟩ := active
  refine ⟨a, mem_order.mpr ⟨b, less, ?_⟩, cached⟩
  rw [split]
  exact List.mem_append_right _ List.mem_cons_self

section Moves

variable (table : Buckets link node buckets n chain)

include table

/-- On from an empty bucket, or from the end of a chain, to the next chain. -/
theorem returns_skipEmpty {b : ℕ} (less : b < n) (bucket : c.buckets = b)
    (position : (∃ a p q, c.node = some a ∧ chain b = p ++ a :: q ∧
        c.user = (order chain b).length + p.length + 1) ∨
      (c.node = none ∧ c.user = (order chain (b + 1)).length + 1 ∧
        (order chain (b + 1)).length < (order chain n).length)) :
    Returns (c.skipEmpty buckets n) fun c' => c'.user = c.user ∧ At c' n chain := by
  refine returns_untilLoop
    (fun s : NodeCache => s.user = c.user ∧ ∃ b : ℕ, b < n ∧ s.buckets = b ∧
      ((∃ a p q, s.node = some a ∧ chain b = p ++ a :: q ∧
          c.user = (order chain b).length + p.length + 1) ∨
        (s.node = none ∧ c.user = (order chain (b + 1)).length + 1 ∧
          (order chain (b + 1)).length < (order chain n).length)))
    (fun s => ((n : Int) - s.buckets).toNat) ⟨rfl, b, less, bucket, position⟩ (by omega) ?_
  rintro s ⟨user, e, less', bucket', position'⟩
  rw [Returns.some_iff]
  rcases position' with ⟨a, p, q, cached, split, counted⟩ | ⟨cached, counted, more⟩
  · rw [if_pos (by rw [cached]; rfl)]
    exact ⟨user, e, a, p, q, bucket', less', cached, split, user.trans counted⟩
  · have following : e + 1 < n := by
      by_contra last
      rw [show e + 1 = n by omega] at more
      omega
    rw [if_neg (by rw [cached]; exact Bool.false_ne_true), bucket', Returns.bind_iff,
      show (e : Int) + 1 = ((e + 1 : ℕ) : Int) by omega, table.item_eq following,
      Returns.some_iff, Returns.pure_iff]
    have linked := table.chains (e + 1) following
    refine ⟨⟨user, e + 1, following, rfl, ?_⟩, by dsimp only; omega⟩
    cases chain_e : chain (e + 1) with
    | nil =>
      rw [chain_e] at linked
      have length : (order chain (e + 1 + 1)).length = (order chain (e + 1)).length := by
        rw [order_succ, chain_e, List.append_nil]
      exact Or.inr ⟨linked, by rw [length]; exact counted, by rw [length]; exact more⟩
    | cons a q =>
      rw [chain_e] at linked
      exact Or.inl ⟨a, [], q, linked.1, rfl, counted⟩

theorem At.returns_next (active : At c n chain)
    (allocated : ∀ a ∈ order chain n, ∃ x, node a = some x)
    (more : c.user < (order chain n).length) :
    Returns (c.next link node buckets n) fun c' => c'.user = c.user + 1 ∧ At c' n chain := by
  obtain ⟨b, a, p, q, bucket, less, cached, split, counted⟩ := active
  have member : a ∈ chain b := by
    rw [split]
    exact List.mem_append_right _ List.mem_cons_self
  obtain ⟨x, at_a⟩ := allocated a (mem_order.mpr ⟨b, less, member⟩)
  have linked := table.chains b less
  rw [split] at linked
  have after := linked.suffix.2
  rw [nextOf_eq at_a] at after
  unfold next
  rw [cached, Option.bind_eq_bind, Option.bind_some, at_a, Option.bind_eq_bind, Option.bind_some]
  refine returns_skipEmpty table less bucket ?_
  dsimp only
  cases q with
  | nil =>
    have length : (order chain (b + 1)).length = (order chain b).length + p.length + 1 := by
      rw [order_succ, split, List.length_append, List.length_append, List.length_singleton]
      omega
    exact Or.inr ⟨after, by omega, by omega⟩
  | cons a' q' =>
    refine Or.inl ⟨a', p ++ [a], q', after.1, ?_, ?_⟩
    · rw [split, List.append_assoc]
      rfl
    · rw [List.length_append, List.length_singleton]
      omega

theorem returns_first (nonempty : 0 < (order chain n).length) :
    Returns (first buckets n) fun c' => c'.user = 1 ∧ At c' n chain := by
  have pos : 0 < n := by
    rcases Nat.eq_zero_or_pos n with zero | pos
    · rw [zero] at nonempty
      cases nonempty
    · exact pos
  have linked := table.chains 0 pos
  unfold first
  rw [show buckets.item 0 = some (buckets.cell 0) from table.item_eq pos, Option.bind_eq_bind,
    Option.bind_some]
  refine returns_skipEmpty table pos rfl ?_
  cases chain_0 : chain 0 with
  | nil =>
    rw [chain_0] at linked
    have length : (order chain (0 + 1)).length = 0 := by
      rw [order_succ, chain_0]
      rfl
    exact Or.inr ⟨linked, by rw [length]; rfl, by omega⟩
  | cons a q =>
    rw [chain_0] at linked
    exact Or.inl ⟨a, [], q, linked.1, rfl, rfl⟩

theorem Valid.returns_setNear (valid : Valid c n chain)
    (allocated : ∀ a ∈ order chain n, ∃ x, node a = some x) {index : Int} (low : 1 ≤ index)
    (high : index ≤ (order chain n).length) {far : Option NodeCache}
    (otherwise : index ≠ 1 → Returns far fun c' => c'.user = index ∧ At c' n chain) :
    Returns (c.setNear link node buckets n index far) fun c' =>
      c'.user = index ∧ At c' n chain := by
  unfold setNear
  split
  · rename_i following
    have active : At c n chain := valid.resolve_left (by omega)
    refine (active.returns_next table allocated (by omega)).mono fun c' ⟨user, active'⟩ => ?_
    exact ⟨by omega, active'⟩
  · split
    · rename_i here
      exact Returns.some_iff.mpr ⟨here.symm, valid.resolve_left (by omega)⟩
    · split
      · rename_i one
        rw [one]
        exact returns_first table (by omega)
      · rename_i notOne
        exact otherwise notOne

/-- `set_cache_user` comes to the node that the index counts to. -/
theorem Valid.returns_set (valid : Valid c n chain)
    (allocated : ∀ a ∈ order chain n, ∃ x, node a = some x) {index : Int} (low : 1 ≤ index)
    (high : index ≤ (order chain n).length) :
    Returns (c.set link node buckets n index) fun c' => c'.user = index ∧ At c' n chain := by
  refine valid.returns_setNear table allocated low high fun _ => ?_
  rw [Returns.bind_iff]
  refine (valid.returns_setNear table allocated (le_refl 1) (by omega)
    (fun other => absurd rfl other)).mono fun c' ⟨user, active⟩ => ?_
  refine returns_untilLoop (fun s : NodeCache => At s n chain ∧ s.user ≤ index)
    (fun s => (index - s.user).toNat) ⟨active, by omega⟩ (by omega) ?_
  rintro s ⟨active', le⟩
  rw [Returns.some_iff]
  by_cases here : s.user = index
  · rw [if_pos (decide_eq_true here)]
    exact ⟨here, active'⟩
  · rw [if_neg (by rw [decide_eq_false here]; exact Bool.false_ne_true)]
    refine (active'.returns_next table allocated (by omega)).mono ?_
    rintro s' ⟨user', active''⟩
    exact ⟨⟨active'', by omega⟩, by omega⟩

end Moves

end NodeCache

end Liberty
