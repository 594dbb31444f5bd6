import Liberty.Text.UnicodeStringInvariant
import Liberty.Text.Utf8Decoding

/-!
# Strict validation

`utf8_decode_from` against well-formed UTF-8, which is said here by its four classes of first
bytes.  The decoder refuses U+FFFE and U+FFFF besides, which `valid_unicode` excludes.
-/

namespace Liberty

namespace UnicodeString

open Stored

/-! ## Well-formed UTF-8 -/

/-- A Unicode scalar value: a code point that is not a surrogate. -/
def Scalar (c : Int) : Prop :=
  (0 ≤ c ∧ c ≤ 0x10FFFF) ∧ ¬(0xD800 ≤ c ∧ c ≤ 0xDFFF)

/-- A continuation byte. -/
def Trails (b : Int) : Prop :=
  0x80 ≤ b ∧ b ≤ 0xBF

/-- The bytes of one scalar value: a first byte that tells how many there are, then continuation
bytes.  Each class starts where the shorter ones end. -/
inductive WellFormedSequence : List Int → Int → Prop
  | one {b c : Int} (range : 0 ≤ b ∧ b ≤ 0x7F) (value : c = b) : WellFormedSequence [b] c
  | two {b b₁ c : Int} (range : 0xC0 ≤ b ∧ b ≤ 0xDF) (trails : Trails b₁)
      (value : c = (b - 0xC0) * 64 + (b₁ - 0x80)) (shortest : 0x80 ≤ c) :
      WellFormedSequence [b, b₁] c
  | three {b b₁ b₂ c : Int} (range : 0xE0 ≤ b ∧ b ≤ 0xEF) (trails : Trails b₁ ∧ Trails b₂)
      (value : c = ((b - 0xE0) * 64 + (b₁ - 0x80)) * 64 + (b₂ - 0x80)) (shortest : 0x800 ≤ c)
      (notSurrogate : ¬(0xD800 ≤ c ∧ c ≤ 0xDFFF)) : WellFormedSequence [b, b₁, b₂] c
  | four {b b₁ b₂ b₃ c : Int} (range : 0xF0 ≤ b ∧ b ≤ 0xF7)
      (trails : Trails b₁ ∧ Trails b₂ ∧ Trails b₃)
      (value : c = (((b - 0xF0) * 64 + (b₁ - 0x80)) * 64 + (b₂ - 0x80)) * 64 + (b₃ - 0x80))
      (shortest : 0x10000 ≤ c) (most : c ≤ 0x10FFFF) : WellFormedSequence [b, b₁, b₂, b₃] c

/-- The bytes of some scalar values, and no others. -/
inductive WellFormed : List Int → List Int → Prop
  | nil : WellFormed [] []
  | cons {bytes s points : List Int} {c : Int} (first : WellFormedSequence bytes c)
      (rest : WellFormed s points) : WellFormed (bytes ++ s) (c :: points)

section WellFormed

variable {bytes s points : List Int} {c : Int}

theorem validUnicode_iff : ValidUnicode c ↔ Scalar c ∧ c ≠ 0xFFFE ∧ c ≠ 0xFFFF :=
  and_assoc.symm

theorem bytesOf_cases (c : Int) :
    c < 128 ∧ bytesOf c = [c] ∨
    (128 ≤ c ∧ c < 2048) ∧ bytesOf c = [c / 64 + 192, c % 64 + 128] ∨
    (2048 ≤ c ∧ c < 65536) ∧
      bytesOf c = [c / 4096 + 224, c % 4096 / 64 + 128, c % 4096 % 64 + 128] ∨
    65536 ≤ c ∧ bytesOf c = [c / 262144 + 240, c % 262144 / 4096 + 128,
      c % 262144 % 4096 / 64 + 128, c % 262144 % 4096 % 64 + 128] := by
  unfold bytesOf lead
  split
  · exact .inl ⟨by omega, rfl⟩
  · split
    · exact .inr (.inl ⟨by omega, rfl⟩)
    · split
      · exact .inr (.inr (.inl ⟨by omega, rfl⟩))
      · exact .inr (.inr (.inr ⟨by omega, rfl⟩))

/-- There is one well-formed sequence for a scalar value, which the encoder writes. -/
theorem wellFormedSequence_iff : WellFormedSequence bytes c ↔ Scalar c ∧ bytes = bytesOf c := by
  unfold Scalar
  constructor
  · intro formed
    rcases bytesOf_cases c with ⟨size, list⟩ | ⟨size, list⟩ | ⟨size, list⟩ | ⟨size, list⟩
    all_goals
      rw [list]
      cases formed with
      | one range value =>
        simp only [List.cons.injEq, and_true, reduceCtorEq]
        omega
      | two range trails value shortest =>
        unfold Trails at trails
        simp only [List.cons.injEq, and_true, reduceCtorEq]
        omega
      | three range trails value shortest notSurrogate =>
        unfold Trails at trails
        simp only [List.cons.injEq, and_true, reduceCtorEq]
        omega
      | four range trails value shortest most =>
        unfold Trails at trails
        simp only [List.cons.injEq, and_true, reduceCtorEq]
        omega
  · intro ⟨⟨range, notSurrogate⟩, same⟩
    rw [same]
    rcases bytesOf_cases c with ⟨size, list⟩ | ⟨size, list⟩ | ⟨size, list⟩ | ⟨size, list⟩
    · rw [list]
      exact .one (by omega) rfl
    · rw [list]
      exact .two (by omega) (by unfold Trails; omega) (by omega) (by omega)
    · rw [list]
      exact .three (by omega) (by unfold Trails; omega) (by omega) (by omega) notSurrogate
    · rw [list]
      exact .four (by omega) (by unfold Trails; omega) (by omega) (by omega) range.2

theorem wellFormed_iff :
    WellFormed s points ↔ (∀ c ∈ points, Scalar c) ∧ s = points.flatMap bytesOf := by
  constructor
  · intro formed
    induction formed with
    | nil => exact ⟨nofun, rfl⟩
    | @cons bytes s points c first rest ih =>
      obtain ⟨scalar, same⟩ := wellFormedSequence_iff.mp first
      refine ⟨fun d member => ?_, by rw [List.flatMap_cons, same, ih.2]⟩
      rcases List.mem_cons.mp member with rfl | later
      · exact scalar
      · exact ih.1 d later
  · intro ⟨scalars, same⟩
    subst same
    induction points with
    | nil => exact .nil
    | cons c points ih =>
      exact .cons (wellFormedSequence_iff.mpr ⟨scalars c List.mem_cons_self, rfl⟩)
        (ih fun d member => scalars d (List.mem_cons_of_mem c member))

theorem bytesOf_append_inj {d : Int} {s' : List Int} (scalar : Scalar c) (scalar' : Scalar d)
    (same : bytesOf c ++ s = bytesOf d ++ s') : c = d ∧ s = s' := by
  rcases bytesOf_cases c with ⟨size, list⟩ | ⟨size, list⟩ | ⟨size, list⟩ | ⟨size, list⟩ <;>
    rcases bytesOf_cases d with ⟨size', list'⟩ | ⟨size', list'⟩ | ⟨size', list'⟩ | ⟨size', list'⟩
  all_goals
    rw [list, list'] at same
    simp only [List.cons_append, List.nil_append, List.cons.injEq] at same
    refine ⟨by omega, ?_⟩
    first
    | exact same.2
    | exact same.2.2
    | exact same.2.2.2
    | exact same.2.2.2.2
    | omega

theorem WellFormed.unique {points' : List Int} (formed : WellFormed s points)
    (formed' : WellFormed s points') : points = points' := by
  obtain ⟨scalars, same⟩ := wellFormed_iff.mp formed
  obtain ⟨scalars', same'⟩ := wellFormed_iff.mp formed'
  rw [same] at same'
  clear formed formed' same
  induction points generalizing points' with
  | nil =>
    cases points' with
    | nil => rfl
    | cons d points' => cases same'
  | cons c points ih =>
    cases points' with
    | nil => cases same'
    | cons d points' =>
      obtain ⟨rfl, rest⟩ := bytesOf_append_inj (scalars c List.mem_cons_self)
        (scalars' d List.mem_cons_self) same'
      rw [ih (fun x member => scalars x (List.mem_cons_of_mem c member))
        (fun x member => scalars' x (List.mem_cons_of_mem c member)) rest]

end WellFormed

/-! ## The decoder -/

section Decoder

variable {u : UnicodeString} {before points : List Int}

/-- Code points that one cell holds, behind the characters of any string. -/
theorem Valid.foldlM_extend (valid : Valid u) (codes : Codes u before)
    (short : ∀ c ∈ points, OneCell c) :
    Edited (points.foldlM UnicodeString.extend u) (before ++ points) := by
  induction points generalizing u before with
  | nil =>
    rw [List.append_nil]
    exact Returns.some_iff.mpr ⟨valid, codes⟩
  | cons c points ih =>
    obtain ⟨cs, held, same⟩ := valid.exists_represents codes
    have oneCell := short c List.mem_cons_self
    refine (returns_extend held oneCell).bind fun u' held' => ?_
    have rest := ih (valid_iff.mpr ⟨_, held'⟩) held'.codes fun d member =>
      short d (List.mem_cons_of_mem c member)
    rwa [List.map_append, same, List.map_singleton, oneCell.unicode_stored, List.append_assoc,
      List.singleton_append] at rest

end Decoder

/-- **Strict validation.**  For any bytes, `utf8_decode_from` returns, and its result is true
exactly when they are well-formed UTF-8 without U+FFFE and U+FFFF.  The string is then extended by
the scalar values that they encode, in order; those that one cell holds are then its characters
behind the former ones. -/
theorem utf8DecodeFrom_strict (u : UnicodeString) (before : List Int) (valid : Valid u)
    (codes : Codes u before) (s : List Int) :
    ∃ w result, u.utf8DecodeFrom s = some (w, result) ∧
      (result = true ↔ ∃ points, WellFormed s points ∧ ∀ c ∈ points, c ≠ 0xFFFE ∧ c ≠ 0xFFFF) ∧
      ∀ points, WellFormed s points → result = true →
        points.foldlM UnicodeString.extend u = some w ∧
          ((∀ c ∈ points, c < 0x10000) → Valid w ∧ Codes w (before ++ points)) := by
  have room : u.Room := ⟨valid.size_eq, valid.count_nonneg, valid.count_le⟩
  obtain ⟨⟨w, result⟩, run, decoded⟩ := utf8DecodeFrom_any room s
  refine ⟨w, result, run, ⟨fun ok => ?_, ?_⟩, fun points formed ok => ?_⟩
  · obtain ⟨points, validPoints, bytes, -⟩ := decoded ok
    refine ⟨points, wellFormed_iff.mpr ⟨fun c member => ?_, bytes⟩, fun c member => ?_⟩
    · exact (validUnicode_iff.mp (validPoints c member)).1
    · exact (validUnicode_iff.mp (validPoints c member)).2
  · intro ⟨points, formed, others⟩
    obtain ⟨scalars, bytes⟩ := wellFormed_iff.mp formed
    have accepted := utf8DecodeFrom_bytesOf room fun c member =>
      validUnicode_iff.mpr ⟨scalars c member, others c member⟩
    rw [← bytes] at accepted
    exact (accepted.unique run).1
  · obtain ⟨points', validPoints, bytes, folded⟩ := decoded ok
    have formed' : WellFormed s points' :=
      wellFormed_iff.mpr ⟨fun c member => (validUnicode_iff.mp (validPoints c member)).1, bytes⟩
    obtain rfl := formed.unique formed'
    refine ⟨folded, fun short => ?_⟩
    exact (valid.foldlM_extend codes fun c member =>
      OneCell.of_valid (validPoints c member) (short c member)).unique folded

/-- The three bytes of the euro sign. -/
theorem utf8DecodeFrom_strict_euro :
    ∃ w, (blank.make 3).utf8DecodeFrom [0xE2, 0x82, 0xAC] = some (w, true) ∧ Valid w ∧
      Codes w [0x20AC] := by
  have held := represents_make (show (0 : Int) ≤ 3 by decide)
  have formed : WellFormed [0xE2, 0x82, 0xAC] [0x20AC] :=
    .cons (.three (by decide) ⟨by unfold Trails; decide, by unfold Trails; decide⟩ (by decide)
      (by decide) (by decide)) .nil
  obtain ⟨w, result, run, isTrue, decoded⟩ := utf8DecodeFrom_strict (blank.make 3) []
    (valid_iff.mpr ⟨[], held⟩) held.codes [0xE2, 0x82, 0xAC]
  have ok : result = true := isTrue.mpr ⟨[0x20AC], formed, by decide⟩
  subst ok
  exact ⟨w, run, (decoded _ formed rfl).2 (by decide)⟩

/-- The bytes of U+FFFE are well-formed, and are refused. -/
theorem not_utf8DecodeFrom_strict :
    WellFormed [0xEF, 0xBF, 0xBE] [0xFFFE] ∧ Valid (blank.make 3) ∧
      ∃ w, (blank.make 3).utf8DecodeFrom [0xEF, 0xBF, 0xBE] = some (w, false) :=
  ⟨.cons (.three (by decide) ⟨by unfold Trails; decide, by unfold Trails; decide⟩ (by decide)
      (by decide) (by decide)) .nil,
    valid_iff.mpr ⟨[], represents_make (show (0 : Int) ≤ 3 by decide)⟩, _, rfl⟩

end UnicodeString

end Liberty
