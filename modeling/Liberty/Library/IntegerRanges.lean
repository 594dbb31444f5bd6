import Mathlib.Data.Int.Notation
import Mathlib.Tactic.Common

/-!
# Canonical lists of ranges

A set of integers as a sorted list of its ranges, with a gap between each two of them.  A range that
meets none of them is inserted at a gap, where it may be joined with the one before or behind it.
-/

namespace IntegerRanges

variable {ranges front gone back : List (ℤ × ℤ)} {l u a d v : ℤ}

/-- Some range has `v`. -/
def Covers (ranges : List (ℤ × ℤ)) (v : ℤ) : Prop :=
  ∃ p ∈ ranges, p.1 ≤ v ∧ v ≤ p.2

/-- The ranges are sorted, and neither meet nor touch. -/
structure Canonical (ranges : List (ℤ × ℤ)) : Prop where
  nonempty : ∀ p ∈ ranges, p.1 ≤ p.2
  apart : ranges.Pairwise fun p q => p.2 + 1 < q.1

/-- The bounds in the order in which they stand. -/
def bounds (ranges : List (ℤ × ℤ)) : List ℤ :=
  ranges.flatMap fun p => [p.1, p.2]

@[simp] theorem bounds_cons (p : ℤ × ℤ) (ranges : List (ℤ × ℤ)) :
    bounds (p :: ranges) = p.1 :: p.2 :: bounds ranges := rfl

@[simp] theorem bounds_append (front back : List (ℤ × ℤ)) :
    bounds (front ++ back) = bounds front ++ bounds back :=
  List.flatMap_append

@[simp] theorem length_bounds (ranges : List (ℤ × ℤ)) : (bounds ranges).length = 2 * ranges.length := by
  induction ranges with
  | nil => rfl
  | cons p ranges ih =>
    rw [bounds_cons, List.length_cons, List.length_cons, List.length_cons, ih]
    omega

theorem covers_append : Covers (front ++ back) v ↔ Covers front v ∨ Covers back v := by
  unfold Covers
  simp only [List.mem_append, or_and_right, exists_or]

theorem covers_cons : Covers ((a, d) :: back) v ↔ (a ≤ v ∧ v ≤ d) ∨ Covers back v := by
  unfold Covers
  simp only [List.mem_cons, or_and_right, exists_or, exists_eq_left]

theorem not_covers_nil : ¬Covers [] v := nofun

/-- The list is the canonical one of what `ranges` cover and the range from `l` to `u`. -/
structure Inserts (ranges : List (ℤ × ℤ)) (l u : ℤ) (ranges' : List (ℤ × ℤ)) : Prop where
  canonical : Canonical ranges'
  covers_iff : ∀ v, Covers ranges' v ↔ Covers ranges v ∨ l ≤ v ∧ v ≤ u

theorem inserts_nil (le : l ≤ u) : Inserts [] l u [(l, u)] where
  canonical := ⟨fun p mem => by rwa [List.mem_singleton.mp mem], List.pairwise_singleton _ _⟩
  covers_iff v := by rw [covers_cons, or_comm]

/-- A range that replaces those which it is joined with. -/
theorem Canonical.inserts (h : Canonical (front ++ gone ++ back)) (le : a ≤ d)
    (joined : ∀ v, a ≤ v ∧ v ≤ d ↔ Covers gone v ∨ l ≤ v ∧ v ≤ u)
    (before : ∀ p ∈ front, p.2 + 1 < a) (after : ∀ q ∈ back, d + 1 < q.1) :
    Inserts (front ++ gone ++ back) l u (front ++ (a, d) :: back) where
  canonical := by
    obtain ⟨nonempty, apart⟩ := h
    obtain ⟨first, second, across⟩ := List.pairwise_append.mp apart
    obtain ⟨first, -, -⟩ := List.pairwise_append.mp first
    constructor
    · intro p mem
      rcases List.mem_append.mp mem with inFront | rest
      · exact nonempty p (List.mem_append_left _ (List.mem_append_left _ inFront))
      · rcases List.mem_cons.mp rest with rfl | inBack
        · exact le
        · exact nonempty p (List.mem_append_right _ inBack)
    · refine List.pairwise_append.mpr ⟨first, List.pairwise_cons.mpr ⟨after, second⟩, ?_⟩
      intro p inFront q mem
      rcases List.mem_cons.mp mem with rfl | inBack
      · exact before p inFront
      · exact across p (List.mem_append_left _ inFront) q inBack
  covers_iff v := by
    rw [covers_append, covers_cons, covers_append, covers_append, joined]
    grind

/-- What stands in front of a range that begins behind `l`, and does not meet the range from `l`. -/
theorem Canonical.before_of_last {b : ℤ} (h : Canonical (front ++ (a, b) :: back)) (less : b + 1 < l) :
    ∀ p ∈ front ++ [(a, b)], p.2 + 1 < l := by
  have le : a ≤ b := h.nonempty (a, b) (List.mem_append_right _ List.mem_cons_self)
  intro p mem
  rcases List.mem_append.mp mem with inFront | last
  · have apart := (List.pairwise_append.mp h.apart).2.2 p inFront (a, b) List.mem_cons_self
    dsimp only at apart
    omega
  · rwa [List.mem_singleton.mp last]

theorem Canonical.after_of_first {c : ℤ} (h : Canonical (front ++ (c, d) :: back)) (less : u + 1 < c) :
    ∀ q ∈ (c, d) :: back, u + 1 < q.1 := by
  have le : c ≤ d := h.nonempty (c, d) (List.mem_append_right _ List.mem_cons_self)
  intro q mem
  rcases List.mem_cons.mp mem with rfl | inBack
  · exact less
  · have apart := (List.pairwise_cons.mp (List.pairwise_append.mp h.apart).2.1).1 q inBack
    dsimp only at apart
    omega

/-! ## The four ways to insert a range -/

section Ways

variable {b c : ℤ}

theorem Canonical.inserts_new (h : Canonical (front ++ back)) (le : l ≤ u)
    (before : ∀ p ∈ front, p.2 + 1 < l) (after : ∀ q ∈ back, u + 1 < q.1) :
    Inserts (front ++ back) l u (front ++ (l, u) :: back) := by
  rw [← List.append_nil front] at h
  have inserted := h.inserts le (fun v => (or_iff_right not_covers_nil).symm) before after
  rwa [List.append_nil] at inserted

theorem Canonical.inserts_left (h : Canonical (front ++ (a, b) :: back)) (touches : l = b + 1) (le : l ≤ u)
    (after : ∀ q ∈ back, u + 1 < q.1) : Inserts (front ++ (a, b) :: back) l u (front ++ (a, u) :: back) := by
  rw [List.append_cons] at h ⊢
  have first := h.nonempty (a, b) (by simp)
  have apart := (List.pairwise_append.mp (List.pairwise_append.mp h.apart).1).2.2
  dsimp only at first
  refine h.inserts (by omega) (fun v => ?_) (fun p mem => apart p mem (a, b) List.mem_cons_self) after
  rw [covers_cons, or_iff_left not_covers_nil]
  omega

theorem Canonical.inserts_right (h : Canonical (front ++ (c, d) :: back)) (touches : u = c - 1) (le : l ≤ u)
    (before : ∀ p ∈ front, p.2 + 1 < l) : Inserts (front ++ (c, d) :: back) l u (front ++ (l, d) :: back) := by
  rw [List.append_cons] at h ⊢
  have first := h.nonempty (c, d) (by simp)
  have apart := (List.pairwise_append.mp h.apart).2.2 (c, d) (by simp)
  dsimp only at first
  refine h.inserts (by omega) (fun v => ?_) before apart
  rw [covers_cons, or_iff_left not_covers_nil]
  omega

theorem Canonical.inserts_both (h : Canonical (front ++ (a, b) :: (c, d) :: back)) (touches : l = b + 1)
    (touches' : u = c - 1) (le : l ≤ u) :
    Inserts (front ++ (a, b) :: (c, d) :: back) l u (front ++ (a, d) :: back) := by
  rw [List.append_cons, List.append_cons, List.append_assoc front] at h ⊢
  have first := h.nonempty (a, b) (by simp)
  have second := h.nonempty (c, d) (by simp)
  have apart := (List.pairwise_append.mp (List.pairwise_append.mp h.apart).1).2.2
  have apart' := (List.pairwise_append.mp h.apart).2.2 (c, d) (by simp)
  dsimp only at first second
  refine h.inserts (by omega) (fun v => ?_) (fun p mem => apart p mem (a, b) List.mem_cons_self) apart'
  change _ ↔ Covers ((a, b) :: [(c, d)]) v ∨ _
  rw [covers_cons, covers_cons, or_iff_left not_covers_nil]
  omega

end Ways

end IntegerRanges
