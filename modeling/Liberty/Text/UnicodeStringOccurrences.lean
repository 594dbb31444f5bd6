import Liberty.Text.UnicodeStringSearches
import Mathlib.Data.Nat.Find

/-!
# Occurrences of a code point

The searches of a UNICODE_STRING against the sequence of its code points: which of them find
what occurs in it, and which do not return.
-/

namespace Liberty

namespace UnicodeString

open Stored

/-! ## Code points -/

/-- The code point at the index `i` is `unicode`. -/
def Occurs (points : List Int) (unicode i : Int) : Prop :=
  1 ≤ i ∧ points[(i - 1).toNat]? = some unicode

/-- The first index from `start` on where `p` holds, 0 if none. -/
def FirstWhere (p : Int → Prop) (start result : Int) : Prop :=
  (result = 0 ∧ ∀ i, start ≤ i → ¬p i) ∨
    (1 ≤ start ∧ start ≤ result) ∧ p result ∧ ∀ i, start ≤ i → i < result → ¬p i

section First

variable {p q : Int → Prop} {start r r' : Int}

theorem FirstWhere.unique (first : FirstWhere p start r) (first' : FirstWhere p start r') :
    r = r' := by
  rcases first with ⟨zero, absent⟩ | ⟨low, here, before⟩ <;>
    rcases first' with ⟨zero', absent'⟩ | ⟨low', here', before'⟩
  · rw [zero, zero']
  · exact absurd here' (absent r' low'.2)
  · exact absurd here (absent' r low.2)
  · rcases Int.lt_trichotomy r r' with less | same | more
    · exact absurd here (before' r low.2 less)
    · exact same
    · exact absurd here' (before r' low'.2 more)

theorem exists_firstWhere (p : Int → Prop) (positive : 1 ≤ start) : ∃ r, FirstWhere p start r := by
  classical
  by_cases any : ∃ n : ℕ, p (start + n)
  · refine ⟨start + Nat.find any, .inr ⟨by omega, Nat.find_spec any, fun i low less holds => ?_⟩⟩
    refine Nat.find_min any (m := (i - start).toNat) (by omega) ?_
    rwa [show start + ((i - start).toNat : Int) = i by omega]
  · refine ⟨0, .inl ⟨rfl, fun i low holds => any ⟨(i - start).toNat, ?_⟩⟩⟩
    rwa [show start + ((i - start).toNat : Int) = i by omega]

/-- Looking for `q` finds the first index where `p` holds exactly when `q` holds there. -/
theorem firstWhere_iff (weaker : ∀ i, q i → p i) (positive : 1 ≤ start)
    (first : FirstWhere q start r) :
    FirstWhere p start r ↔ ∀ i, FirstWhere p start i → i ≠ 0 → q i := by
  obtain ⟨i, wanted⟩ := exists_firstWhere p positive
  constructor
  · intro right i' wanted' nonzero
    obtain rfl := right.unique wanted'
    rcases first with ⟨zero, -⟩ | ⟨-, here, -⟩
    · exact absurd zero nonzero
    · exact here
  · intro holds
    have same : i = r := by
      refine FirstWhere.unique (p := q) ?_ first
      rcases wanted with ⟨zero, absent⟩ | ⟨low, here, before⟩
      · exact .inl ⟨zero, fun j le found => absent j le (weaker j found)⟩
      · have here' := holds i (.inr ⟨low, here, before⟩) (by omega)
        exact .inr ⟨low, here', fun j le less found => before j le less (weaker j found)⟩
    rw [← same]
    exact wanted

end First

section Points

variable {u w : UnicodeString} {cs : List Stored} {points points' : List Int}
  {unicode start newCode : Int}

theorem Codes.unique (codes : Codes u points) (codes' : Codes u points') : points = points' := by
  have length := codes.1
  have length' := codes'.1
  refine List.ext_getElem? fun k => ?_
  by_cases inside : k < points.length
  · have here := codes.2 (k + 1) (by omega) (by omega)
    have here' := codes'.2 (k + 1) (by omega) (by omega)
    have index : ((k : Int) + 1 - 1).toNat = k := by omega
    rw [index] at here here'
    exact here.symm.trans here'
  · rw [List.getElem?_eq_none (by omega), List.getElem?_eq_none (by omega)]

/-- A character that is found is an occurrence without an entry in the tables. -/
theorem Represents.found_iff (h : Represents u cs) {k : ℕ} {i : Int} (place : i = k + 1) :
    Occurs (cs.map Stored.unicode) unicode i ∧ ¬Supplementary u i ↔
      ∃ d, cs[k]? = some d ∧ Finds unicode d := by
  have index : (i - 1).toNat = k := by omega
  unfold Occurs
  rw [index, List.getElem?_map, Option.map_eq_some_iff, h.supplementary_iff]
  constructor
  · intro ⟨⟨_, d, at_k, same⟩, plain⟩
    refine ⟨d, at_k, ?_, same⟩
    rw [← Option.not_isSome_iff_eq_none]
    exact fun marked => plain ⟨k, by omega, d, at_k, marked⟩
  · intro ⟨d, at_k, plain, same⟩
    refine ⟨⟨by omega, d, at_k, same⟩, ?_⟩
    intro ⟨k', place', d', at_k', marked⟩
    obtain rfl : k' = k := by omega
    cases at_k.symm.trans at_k'
    rw [plain] at marked
    cases marked

theorem Represents.returns_indexOf_firstWhere (h : Represents u cs) (valid : ValidUnicode unicode)
    (positive : 1 ≤ start) :
    Returns (u.indexOf unicode start) (FirstWhere
      (fun i => Occurs (cs.map Stored.unicode) unicode i ∧ ¬Supplementary u i) start) := by
  have count := h.count_eq
  have inside : ∀ {i : Int}, Occurs (cs.map Stored.unicode) unicode i → i ≤ cs.length := by
    intro i ⟨low, at_i⟩
    have bound := (List.getElem?_eq_some_iff.mp at_i).1
    rw [List.length_map] at bound
    omega
  by_cases beyond : u.count < start
  · rw [indexOf_beyond h valid beyond, Returns.some_iff]
    refine .inl ⟨rfl, fun i le found => ?_⟩
    have high := inside found.1
    omega
  · have split : cs = cs.take (start - 1).toNat ++ cs.drop (start - 1).toNat :=
      (List.take_append_drop _ _).symm
    have length : (cs.take (start - 1).toNat).length = (start - 1).toNat := by
      rw [List.length_take]
      omega
    have read : ∀ {i : Int} (j : ℕ), i = start + j →
        (Occurs (cs.map Stored.unicode) unicode i ∧ ¬Supplementary u i ↔
          ∃ d, (cs.drop (start - 1).toNat)[j]? = some d ∧ Finds unicode d) := by
      intro i j place
      rw [List.getElem?_drop]
      exact h.found_iff (by omega)
    have held := h
    rw [split] at held
    refine (returns_indexOf held valid (show start = _ by omega)).mono fun r found => ?_
    rcases found with ⟨zero, absent⟩ | ⟨a, d, b, rest, passed, here, same⟩
    · refine .inl ⟨zero, fun i le found => ?_⟩
      obtain ⟨d, at_j, here⟩ := (read (i - start).toNat (by omega)).mp found
      exact absent d (List.mem_of_getElem? at_j) here
    · refine .inr ⟨by omega, (read a.length same).mpr ⟨d, ?_, here⟩, fun i le less found => ?_⟩
      · rw [rest]
        simp
      · obtain ⟨x, at_j, found⟩ := (read (i - start).toNat (by omega)).mp found
        rw [rest, List.getElem?_append_left (by omega)] at at_j
        exact passed x (List.mem_of_getElem? at_j) found

theorem mem_iff_occurs : unicode ∈ points ↔ ∃ i, Occurs points unicode i := by
  rw [List.mem_iff_getElem?]
  constructor
  · intro ⟨k, at_k⟩
    refine ⟨k + 1, by omega, ?_⟩
    rwa [show ((k : Int) + 1 - 1).toNat = k by omega]
  · intro ⟨i, _, at_i⟩
    exact ⟨_, at_i⟩

theorem Represents.allPlain_iff (h : Represents u cs) :
    (∀ i, Occurs (cs.map Stored.unicode) unicode i → ¬Supplementary u i) ↔
      ∀ d ∈ cs, d.unicode = unicode → Finds unicode d := by
  constructor
  · intro plain d member same
    obtain ⟨k, at_k⟩ := List.mem_iff_getElem?.mp member
    have occurs : Occurs (cs.map Stored.unicode) unicode (k + 1) := by
      refine ⟨by omega, ?_⟩
      rw [show ((k : Int) + 1 - 1).toNat = k by omega, List.getElem?_map, at_k, Option.map_some,
        same]
    obtain ⟨d', at_k', found⟩ := (h.found_iff rfl).mp ⟨occurs, plain _ occurs⟩
    cases at_k.symm.trans at_k'
    exact found
  · intro plain i occurs
    obtain ⟨low, at_i⟩ := occurs
    rw [List.getElem?_map, Option.map_eq_some_iff] at at_i
    obtain ⟨d, at_i, same⟩ := at_i
    exact ((h.found_iff (show i = ((i - 1).toNat : Int) + 1 by omega)).mpr
      ⟨d, at_i, plain d (List.mem_of_getElem? at_i) same⟩).2

/-! ## Each search -/

theorem Represents.indexOf_iff (h : Represents u cs) (valid : ValidUnicode unicode)
    (positive : 1 ≤ start) :
    Returns (u.indexOf unicode start) (FirstWhere (Occurs (cs.map Stored.unicode) unicode) start) ↔
      ∀ i, FirstWhere (Occurs (cs.map Stored.unicode) unicode) start i → i ≠ 0 →
        ¬Supplementary u i := by
  obtain ⟨r, run, first⟩ := h.returns_indexOf_firstWhere valid positive
  have same := firstWhere_iff (fun i found => found.1) positive first
  rw [run, Returns.some_iff, same]
  refine forall_congr' fun i => forall_congr' fun wanted => forall_congr' fun nonzero => ?_
  rcases wanted with ⟨zero, -⟩ | ⟨-, here, -⟩
  · exact absurd zero nonzero
  · exact and_iff_right here

theorem Represents.has_iff (h : Represents u cs) (valid : ValidUnicode unicode) :
    Returns (u.has unicode) (fun b => b = true ↔ unicode ∈ cs.map Stored.unicode) ↔
      (unicode ∈ cs.map Stored.unicode →
        ∃ i, Occurs (cs.map Stored.unicode) unicode i ∧ ¬Supplementary u i) := by
  obtain ⟨r, run, first⟩ := h.returns_indexOf_firstWhere valid (Int.le_refl 1)
  have found : r ≠ 0 ↔ ∃ i, Occurs (cs.map Stored.unicode) unicode i ∧ ¬Supplementary u i := by
    rcases first with ⟨zero, absent⟩ | ⟨low, here, -⟩
    · refine iff_of_false (not_not.mpr zero) ?_
      intro ⟨i, found⟩
      exact absent i found.1.1 found
    · exact iff_of_true (by omega) ⟨r, here⟩
  unfold has
  rw [run, Returns.some_bind, Returns.pure_iff, decide_eq_true_eq, found]
  constructor
  · exact fun same member => same.mpr member
  · intro any
    refine ⟨fun ⟨i, occurs, _⟩ => mem_iff_occurs.mpr ⟨i, occurs⟩, any⟩

theorem Represents.occurrences_iff (h : Represents u cs) (valid : ValidUnicode unicode) :
    Completes (u.occurrences unicode) ((cs.map Stored.unicode).count unicode) ↔
      unicode ∉ cs.map Stored.unicode := by
  by_cases any : ∃ d ∈ cs, Finds unicode d
  · obtain ⟨d, member, found⟩ := any
    refine iff_of_false (fun completes => ?_) fun absent =>
      absent (List.mem_map.mpr ⟨d, member, found.2⟩)
    obtain ⟨fuel, run⟩ := completes.returns
    rw [occurrences_eq_none h valid member found] at run
    cases run
  · have zero := completes_occurrences_zero h valid fun d member found => any ⟨d, member, found⟩
    constructor
    · intro completes
      have same : (0 : Int) = (cs.map Stored.unicode).count unicode := zero.unique completes
      exact List.count_eq_zero.mp (Int.natCast_eq_zero.mp same.symm)
    · intro absent
      rw [List.count_eq_zero.mpr absent]
      exact zero

/-- `replace_all` leaves a string in which nothing is found as it is. -/
theorem Represents.replaceAll_absent (h : Represents u cs) (valid : ValidUnicode unicode)
    (absent : ∀ d ∈ cs, ¬Finds unicode d) (fuel : Nat) :
    u.replaceAll unicode newCode fuel = some u := by
  unfold replaceAll
  split
  · obtain ⟨r, run, ⟨zero, -⟩ | ⟨a, d, b, split, -, found, -⟩⟩ := returns_indexOf_one h valid
    · have ended : untilLoop (fun t : UnicodeString × Int => some (decide (t.2 = 0)))
          (replaceRound unicode newCode) fuel (u, 0) = some (u, 0) := untilLoop_stopped rfl
      rw [run, zero, Option.bind_eq_bind, Option.bind_some, ended]
      rfl
    · exact absurd found (absent d (by rw [split]; simp))
  · rfl

/-- The code points after the replacement, where every occurrence is in one cell. -/
theorem map_replacement_unicode (short : OneCell newCode)
    (plain : ∀ d ∈ cs, d.unicode = unicode → Finds unicode d) :
    (cs.map (replacement unicode short.stored)).map Stored.unicode =
      (cs.map Stored.unicode).map fun c => if c = unicode then newCode else c := by
  rw [List.map_map, List.map_map]
  refine List.map_congr_left fun d member => ?_
  unfold replacement
  rw [Function.comp_apply, Function.comp_apply]
  by_cases same : d.unicode = unicode
  · rw [if_pos (plain d member same), if_pos same]
    exact short.unicode_stored
  · rw [if_neg fun found => same found.2, if_neg same]

theorem map_if_of_notMem (absent : unicode ∉ points) :
    points.map (fun c => if c = unicode then newCode else c) = points := by
  conv_rhs => rw [← List.map_id points]
  refine List.map_congr_left fun c member => if_neg fun same => ?_
  rw [same] at member
  exact absent member

theorem Represents.replaceAll_iff (h : Represents u cs) (valid : ValidUnicode unicode)
    (validNew : ValidUnicode newCode) :
    (∃ w, Completes (u.replaceAll unicode newCode) w ∧
        Codes w ((cs.map Stored.unicode).map fun c => if c = unicode then newCode else c)) ↔
      unicode = newCode ∨
        (∀ i, Occurs (cs.map Stored.unicode) unicode i → ¬Supplementary u i) ∧
          (unicode ∈ cs.map Stored.unicode → newCode < 0x10000) := by
  rw [h.allPlain_iff]
  constructor
  · intro ⟨w, completes, codes⟩
    by_cases same : unicode = newCode
    · exact .inl same
    · right
      -- what is at a place where `unicode` was
      have read : ∀ {k : ℕ} {d : Stored}, cs[k]? = some d → d.unicode = unicode →
          w.item (k + 1) = some newCode := by
        intro k d at_k here
        have bound := (List.getElem?_eq_some_iff.mp at_k).1
        have length := codes.1
        rw [List.length_map, List.length_map] at length
        have item := codes.2 (k + 1) (by omega) (by omega)
        rw [show ((k : Int) + 1 - 1).toNat = k by omega, List.getElem?_map, List.getElem?_map, at_k,
          Option.map_some, Option.map_some, if_pos here] at item
        exact item
      by_cases any : ∃ d ∈ cs, Finds unicode d
      · obtain ⟨d, member, found⟩ := any
        have short : newCode < 0x10000 := by
          by_contra long
          obtain ⟨fuel, run⟩ := completes.returns
          obtain ⟨k, ⟨c, at_k, here⟩, other⟩ :=
            replaceAll_supplementary h valid validNew (by omega) member found run
          exact other (read at_k here.2)
        refine ⟨fun x mem at_x => ?_, fun _ => short⟩
        have oneCell := OneCell.of_valid validNew short
        obtain ⟨w', completes', held⟩ := completes_replaceAll h valid same oneCell
        obtain rfl := completes.unique completes'
        obtain ⟨k, at_k⟩ := List.mem_iff_getElem?.mp mem
        have bound := (List.getElem?_eq_some_iff.mp at_k).1
        have count := held.count_eq
        rw [List.length_map] at count
        have item := held.codes.2 (k + 1) (by omega) (by omega)
        rw [show ((k : Int) + 1 - 1).toNat = k by omega, List.getElem?_map, List.getElem?_map, at_k,
          Option.map_some, Option.map_some, read at_k at_x] at item
        by_contra other
        rw [replacement, if_neg other, at_x] at item
        exact same (Option.some.inj item).symm
      · have unchanged : ∀ fuel, u.replaceAll unicode newCode fuel = some u :=
          h.replaceAll_absent valid fun d member found => any ⟨d, member, found⟩
        obtain ⟨fuel, run⟩ := completes.returns
        rw [unchanged] at run
        obtain rfl := Option.some.inj run
        have absent : ∀ d ∈ cs, d.unicode ≠ unicode := by
          intro d member here
          obtain ⟨k, at_k⟩ := List.mem_iff_getElem?.mp member
          have bound := (List.getElem?_eq_some_iff.mp at_k).1
          have count := h.count_eq
          have item := h.codes.2 (k + 1) (by omega) (by omega)
          rw [show ((k : Int) + 1 - 1).toNat = k by omega, List.getElem?_map, at_k,
            Option.map_some, read at_k here, here] at item
          exact same (Option.some.inj item).symm
        refine ⟨fun d member here => absurd here (absent d member), fun member => ?_⟩
        obtain ⟨d, mem, here⟩ := List.mem_map.mp member
        exact absurd here (absent d mem)
  · intro holds
    by_cases same : unicode = newCode
    · refine ⟨u, .of_eq fun fuel => if_neg (not_not.mpr same), ?_⟩
      have kept : (cs.map Stored.unicode).map (fun c => if c = unicode then newCode else c) =
          cs.map Stored.unicode := by
        conv_rhs => rw [← List.map_id (cs.map Stored.unicode)]
        refine List.map_congr_left fun c _ => ?_
        split
        · rename_i here
          rw [here, same]
          rfl
        · rfl
      rw [kept]
      exact h.codes
    · obtain ⟨plain, short⟩ := holds.resolve_left same
      by_cases member : unicode ∈ cs.map Stored.unicode
      · have oneCell := OneCell.of_valid validNew (short member)
        obtain ⟨w, completes, held⟩ := completes_replaceAll h valid same oneCell
        refine ⟨w, completes, ?_⟩
        rw [← map_replacement_unicode oneCell plain]
        exact held.codes
      · refine ⟨u, .of_eq (h.replaceAll_absent valid fun d mem found => ?_), ?_⟩
        · exact member (List.mem_map.mpr ⟨d, mem, found.2⟩)
        · rw [map_if_of_notMem member]
          exact h.codes

theorem Represents.removeAllOccurrences_iff (h : Represents u cs) (valid : ValidUnicode unicode) :
    (∃ w, Completes (u.removeAllOccurrences unicode) w ∧
        Codes w ((cs.map Stored.unicode).filter fun c => c ≠ unicode)) ↔
      ∀ i, Occurs (cs.map Stored.unicode) unicode i → ¬Supplementary u i := by
  obtain ⟨w, completes, held⟩ := completes_removeAllOccurrences h valid
  rw [h.allPlain_iff]
  constructor
  · intro ⟨w', completes', codes⟩ d member here
    obtain rfl := completes.unique completes'
    by_contra other
    have remains : unicode ∈ (cs.filter fun c => ¬Finds unicode c).map Stored.unicode :=
      List.mem_map.mpr ⟨d, List.mem_filter.mpr ⟨member, decide_eq_true other⟩, here⟩
    rw [held.codes.unique codes] at remains
    exact of_decide_eq_true (List.mem_filter.mp remains).2 rfl
  · intro plain
    refine ⟨w, completes, ?_⟩
    have same : (cs.map Stored.unicode).filter (fun c => c ≠ unicode) =
        (cs.filter fun c => ¬Finds unicode c).map Stored.unicode := by
      rw [List.filter_map]
      congr 1
      refine List.filter_congr fun d member => decide_eq_decide.mpr ?_
      exact not_congr ⟨plain d member, fun found => found.2⟩
    rw [same]
    exact held.codes

end Points

/-- **The searches of a valid string.**  `index_of` and `has` are right unless the occurrence that
they should find has an entry in the tables, `occurrences` only when there is none,
`replace_all` and `remove_all_occurrences` when every occurrence is in one cell and is to be
replaced by a code point of one cell. -/
theorem unicodeSearches_iff (u : UnicodeString) (points : List Int) (invariant : Valid u)
    (codes : Codes u points) (unicode : Int) (valid : ValidUnicode unicode) :
    (∀ start, 1 ≤ start →
      (Returns (u.indexOf unicode start) (FirstWhere (Occurs points unicode) start) ↔
        ∀ i, FirstWhere (Occurs points unicode) start i → i ≠ 0 → ¬Supplementary u i)) ∧
    (Returns (u.has unicode) (fun b => b = true ↔ unicode ∈ points) ↔
      (unicode ∈ points → ∃ i, Occurs points unicode i ∧ ¬Supplementary u i)) ∧
    (Completes (u.occurrences unicode) (points.count unicode) ↔ unicode ∉ points) ∧
    (∀ newCode, ValidUnicode newCode →
      ((∃ w, Completes (u.replaceAll unicode newCode) w ∧
          Codes w (points.map fun c => if c = unicode then newCode else c)) ↔
        unicode = newCode ∨ (∀ i, Occurs points unicode i → ¬Supplementary u i) ∧
          (unicode ∈ points → newCode < 0x10000))) ∧
    ((∃ w, Completes (u.removeAllOccurrences unicode) w ∧
        Codes w (points.filter fun c => c ≠ unicode)) ↔
      ∀ i, Occurs points unicode i → ¬Supplementary u i) := by
  obtain ⟨cs, h, rfl⟩ := invariant.exists_represents codes
  exact ⟨fun start positive => h.indexOf_iff valid positive, h.has_iff valid,
    h.occurrences_iff valid, fun newCode validNew => h.replaceAll_iff valid validNew,
    h.removeAllOccurrences_iff valid⟩

/-- The letter `a`, replaced by `b` or removed. -/
theorem unicodeSearches_iff_letter :
    ∃ u, Valid u ∧ Codes u [0x61] ∧ Returns (u.indexOf 0x61 1) (FirstWhere (Occurs [0x61] 0x61) 1) ∧
      (∃ w, Completes (u.replaceAll 0x61 0x62) w ∧ Codes w [0x62]) ∧
      ∃ w, Completes (u.removeAllOccurrences 0x61) w ∧ Codes w [] := by
  have invariant := single_valid 0x61 0
  have codes := codes_single 0x61 0 (show _ = some 0x61 from rfl)
  have plain : ∀ i, ¬Supplementary (single 0x61 0) i := fun i => List.not_mem_nil
  obtain ⟨index, -, -, replace, remove⟩ :=
    unicodeSearches_iff (single 0x61 0) [0x61] invariant codes 0x61 (by decide)
  exact ⟨_, invariant, codes, (index 1 (Int.le_refl 1)).mpr fun i _ _ => plain i,
    (replace 0x62 (by decide)).mpr (.inr ⟨fun i _ => plain i, fun _ => by decide⟩),
    remove.mpr fun i _ => plain i⟩

/-- The occurrences of `a` in the string `a` are counted for ever. -/
theorem not_unicodeSearches :
    Valid (single 0x61 0) ∧ Codes (single 0x61 0) [0x61] ∧ ValidUnicode 0x61 ∧
      ∀ fuel, (single 0x61 0).occurrences 0x61 fuel = none := by
  have invariant := single_valid 0x61 0
  have codes := codes_single 0x61 0 (show _ = some 0x61 from rfl)
  refine ⟨invariant, codes, by decide, fun fuel => ?_⟩
  have again : (single 0x61 0).indexOf 0x61 1 = some 1 := rfl
  unfold occurrences
  rw [again, Option.bind_eq_bind, Option.bind_some, untilLoop_eq_none (fun t : Int × Int => t.2 = 1) rfl]
  · rfl
  · intro t there stopped
    rw [there] at stopped
    cases stopped
  · intro (result, j) t' there run
    obtain rfl : j = 1 := there
    cases run
    rfl

end UnicodeString

end Liberty
