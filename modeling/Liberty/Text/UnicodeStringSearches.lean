import Liberty.Library.Loops
import Liberty.Text.UnicodeStringInvariant

/-!
# Searches in a UNICODE_STRING

`index_of` and what the class builds on it: `has`, `occurrences`, `replace_all` and
`remove_all_occurrences`.  A character is found when one cell holds it: a marked cell is never
what `index_of` compares it with.
-/

namespace Liberty

namespace UnicodeString

open Stored

/-! ## The source -/

/-- The search for a supplementary character through the tables.  Its first loop is the one of
`low_surrogate_position`. -/
def indexOfSupplementary (u : UnicodeString) (unicode startIndex : Int) : Option Int := do
  let code := low16 (highSurrogate unicode)
  let remainder := lowSurrogate unicode
  let i ← u.lowSurrogatePosition startIndex
  let i ← untilLoop
    (fun i =>
      if i > FastArray.upper u.lowSurrogateIndexes then some true
      else do
        if (← FastArray.item u.lowSurrogateValues i) = remainder then
          return decide ((← u.storage.item ((← FastArray.item u.lowSurrogateIndexes i) - 1)) = code)
        else return false)
    (fun i => some (i + 1))
    u.lowSurrogateIndexes.length i
  if i ≤ FastArray.upper u.lowSurrogateIndexes then FastArray.item u.lowSurrogateIndexes i
  else return 0

/-- The search for a character of one cell. -/
def indexOfCell (u : UnicodeString) (unicode startIndex : Int) : Option Int := do
  let code := low16 unicode
  let (result, _) ← untilLoop
    (fun (result, i) =>
      if result > u.count then some true
      else do return decide ((← u.storage.item i) = code))
    (fun (result, i) => some (result + 1, i + 1))
    u.count.toNat (startIndex, startIndex - 1)
  return if result > u.count then 0 else result

def indexOf (u : UnicodeString) (unicode startIndex : Int) : Option Int :=
  if unicode ≥ 0x10000 then u.indexOfSupplementary unicode startIndex
  else u.indexOfCell unicode startIndex

def has (u : UnicodeString) (unicode : Int) : Option Bool := do
  return (← u.indexOf unicode 1) ≠ 0

def occurrences (u : UnicodeString) (unicode : Int) (fuel : Nat) : Option Int := do
  let i ← u.indexOf unicode 1
  let (result, _) ← untilLoop (fun t => some (decide (t.2 = 0)))
    (fun (result, i) => do return (result + 1, ← u.indexOf unicode i))
    fuel ((0 : Int), i)
  return result

/-- A round of `replace_all`: the string and the index of the next occurrence. -/
def replaceRound (oldCode newCode : Int) : UnicodeString × Int → Option (UnicodeString × Int)
  | (u, i) => do
    let u ← u.put newCode i
    return (u, ← u.indexOf oldCode (i + 1))

def replaceAll (u : UnicodeString) (oldCode newCode : Int) (fuel : Nat) : Option UnicodeString :=
  if oldCode ≠ newCode then do
    let i ← u.indexOf oldCode 1
    let (u, _) ← untilLoop (fun t => some (decide (t.2 = 0))) (replaceRound oldCode newCode)
      fuel (u, i)
    return u
  else some u

def remove (u : UnicodeString) (i : Int) : Option UnicodeString :=
  u.removeBetween i i

/-- A round of `remove_all_occurrences`. -/
def removeRound (unicode : Int) : UnicodeString × Int → Option (UnicodeString × Int)
  | (u, i) => do
    let u ← u.remove i
    return (u, ← u.indexOf unicode i)

def removeAllOccurrences (u : UnicodeString) (unicode : Int) (fuel : Nat) :
    Option UnicodeString := do
  let i ← u.indexOf unicode 1
  let (u, _) ← untilLoop (fun t => some (decide (t.2 = 0))) (removeRound unicode) fuel (u, i)
  return u

/-! ## What is found -/

/-- The character is the code point `unicode`, in one cell. -/
def Finds (unicode : Int) (c : Stored) : Prop :=
  c.low = none ∧ c.unicode = unicode

instance (unicode : Int) (c : Stored) : Decidable (Finds unicode c) :=
  inferInstanceAs (Decidable (_ ∧ _))

section Found

variable {unicode : Int} {c : Stored}

theorem Stored.unicode_of_low (plain : c.low = none) : c.unicode = c.cell.toNat := by
  have ones : (0xFFFF#16).toNat = 2 ^ 16 - 1 := rfl
  unfold Stored.unicode
  rw [plain]
  change (c.cell.signExtend 32 &&& (0xFFFF#16).setWidth 32).toInt = _
  rw [signExtend_and, BitVec.toInt_eq_toNat_of_lt, BitVec.toNat_setWidth, BitVec.toNat_and, ones,
    Nat.and_two_pow_sub_one_eq_mod]
  · omega
  · rw [BitVec.toNat_setWidth]
    omega

theorem finds_iff (short : OneCell unicode) : Finds unicode c ↔ c.cell = low16 unicode := by
  have value := toNat_low16 short.1 short.2.1
  constructor
  · intro ⟨plain, same⟩
    rw [Stored.unicode_of_low plain] at same
    apply BitVec.eq_of_toNat_eq
    omega
  · intro same
    have plain : c.low = none := by
      rw [← Option.not_isSome_iff_eq_none, c.marked_iff, same]
      exact not_isSurrogate_low16 short.1 short.2.1 short.2.2
    refine ⟨plain, ?_⟩
    rw [Stored.unicode_of_low plain, same]
    exact value

theorem not_finds (supplementary : 0x10000 ≤ unicode) : ¬Finds unicode c := by
  intro ⟨plain, same⟩
  rw [Stored.unicode_of_low plain] at same
  omega

end Found

/-! ## Index of -/

/-- What `index_of` tells of the characters `rest` from the index `start` on. -/
def FirstFound (unicode start : Int) (rest : List Stored) (result : Int) : Prop :=
  (result = 0 ∧ ∀ d ∈ rest, ¬Finds unicode d) ∨
    ∃ a d b, rest = a ++ d :: b ∧ (∀ x ∈ a, ¬Finds unicode x) ∧ Finds unicode d ∧
      result = start + a.length

section IndexOf

variable {u : UnicodeString} {cs done rest : List Stored} {unicode start : Int}

theorem Represents.item_storage (h : Represents u cs) {k : ℕ} {c : Stored} (at_k : cs[k]? = some c)
    {i : Int} (place : i = k) : u.storage.item i = some c.cell := by
  have bound := (List.getElem?_eq_some_iff.mp at_k).1
  rw [place, NativeArray.item_of_inBounds (h.inBounds bound), h.cell_eq k c at_k]

/-- The entries of the tables are those of the marked characters. -/
theorem Represents.supplementary_iff (h : Represents u cs) {i : Int} :
    Supplementary u i ↔ ∃ k : ℕ, i = 1 + k ∧ ∃ c, cs[k]? = some c ∧ c.low.isSome := by
  unfold Supplementary
  rw [h.indexes_eq]
  exact Stored.mem_indexes

theorem returns_indexOfCell (h : Represents u (done ++ rest)) (short : OneCell unicode)
    (position : start = done.length + 1) :
    Returns (u.indexOfCell unicode start) (FirstFound unicode start rest) := by
  have count := h.count_eq
  rw [List.length_append] at count
  unfold indexOfCell
  dsimp only
  rw [Returns.bind_iff]
  refine returns_untilLoop
    (fun t : Int × Int => ∃ a b, rest = a ++ b ∧ (∀ x ∈ a, ¬Finds unicode x) ∧
      t = (start + a.length, start + a.length - 1))
    (fun t => (u.count + 1 - t.1).toNat) ⟨[], rest, rfl, nofun, by simp⟩ (by dsimp only; omega) ?_
  intro (result, i) ⟨a, b, split, passed, same⟩
  cases same
  have lengths := congrArg List.length split
  rw [List.length_append] at lengths
  cases b with
  | nil =>
    rw [List.length_nil] at lengths
    rw [if_pos (by omega), Returns.some_iff, if_pos rfl, if_pos (by omega), Returns.pure_iff]
    rw [List.append_nil] at split
    exact .inl ⟨rfl, split ▸ passed⟩
  | cons d b =>
    rw [List.length_cons] at lengths
    have here : (done ++ rest)[done.length + a.length]? = some d := by
      rw [split, List.getElem?_append_right (by omega), Nat.add_sub_cancel_left,
        List.getElem?_append_right (Nat.le_refl _), Nat.sub_self]
      rfl
    rw [if_neg (by omega), h.item_storage here (by omega), Returns.some_bind, Returns.pure_iff]
    split
    · rename_i found
      rw [decide_eq_true_eq] at found
      rw [if_neg (by omega), Returns.pure_iff]
      exact .inr ⟨a, d, b, split, passed, (finds_iff short).mpr found, rfl⟩
    · rename_i other
      rw [decide_eq_true_eq] at other
      rw [Returns.some_iff]
      refine ⟨⟨a ++ [d], b, by rw [split]; simp, fun x member => ?_, ?_⟩, by dsimp only; omega⟩
      · rcases List.mem_append.mp member with before | last
        · exact passed x before
        · rw [List.mem_singleton.mp last]
          exact mt (finds_iff short).mp other
      · rw [List.length_append, List.length_singleton]
        congr 1 <;> omega

theorem indexOfCell_beyond (beyond : u.count < start) : u.indexOfCell unicode start = some 0 := by
  have run : Returns (u.indexOfCell unicode start) fun result => result = 0 := by
    unfold indexOfCell
    rw [Returns.bind_iff]
    apply returns_untilLoop_stopped
    · exact if_pos beyond
    · exact Returns.pure_iff.mpr (if_pos beyond)
  obtain ⟨result, run, rfl⟩ := run
  exact run

theorem returns_lowSurrogatePosition_any (u : UnicodeString) (index : Int) :
    Returns (u.lowSurrogatePosition index) fun i => 0 ≤ i := by
  unfold lowSurrogatePosition FastArray.upper
  refine returns_untilLoop (fun i : Int => 0 ≤ i)
    (fun i : Int => u.lowSurrogateIndexes.length - i.toNat) (Int.le_refl 0) (Nat.sub_le _ _) ?_
  intro i low
  split
  · rw [Returns.some_iff, if_pos rfl]
    exact low
  · rw [FastArray.item_of_lt low (by omega), Returns.some_bind, Returns.pure_iff]
    split
    · exact low
    · rw [Returns.some_iff]
      exact ⟨by omega, by omega⟩

/-- No marked cell is the one that is looked for. -/
theorem indexOfSupplementary_eq_zero (h : Represents u cs) (valid : ValidUnicode unicode)
    (supplementary : 0x10000 ≤ unicode) (start : Int) :
    u.indexOfSupplementary unicode start = some 0 := by
  have most := valid.1.2
  have run : Returns (u.indexOfSupplementary unicode start) fun result => result = 0 := by
    unfold indexOfSupplementary
    rw [Returns.bind_iff]
    apply (returns_lowSurrogatePosition_any u start).mono
    intro position low
    rw [Returns.bind_iff]
    unfold FastArray.upper
    refine returns_untilLoop (fun i : Int => 0 ≤ i)
      (fun i : Int => u.lowSurrogateIndexes.length - i.toNat) low (Nat.sub_le _ _) ?_
    intro i low
    split
    · rename_i past
      rw [Returns.some_iff, if_pos rfl, if_neg (by omega), Returns.pure_iff]
    · rename_i inside
      have lengths : u.lowSurrogateValues.length = u.lowSurrogateIndexes.length := by
        rw [h.indexes_eq, h.values_eq, length_values 1 cs]
      have next : Returns (some (i + 1)) fun i' : Int => 0 ≤ i' ∧
          u.lowSurrogateIndexes.length - i'.toNat < u.lowSurrogateIndexes.length - i.toNat :=
        Returns.some_iff.mpr ⟨by omega, by omega⟩
      rw [FastArray.item_of_lt low (by omega), Returns.some_bind]
      split
      · rw [FastArray.item_of_lt low (by omega), Returns.some_bind]
        -- the character of the entry has a marked cell
        have entry := List.getElem_mem (show i.toNat < u.lowSurrogateIndexes.length by omega)
        obtain ⟨k, place, c, at_k, marked⟩ := h.supplementary_iff.mp entry
        have cell : c.cell ≠ low16 (highSurrogate unicode) := by
          intro same
          refine not_isSurrogate_low16 ?_ ?_ ?_ (same ▸ c.marked_iff.mp marked) <;>
            unfold highSurrogate <;> omega
        rw [h.item_storage at_k (by omega), Returns.some_bind, Returns.pure_iff,
          decide_eq_false cell, if_neg Bool.false_ne_true]
        exact next
      · rw [Returns.pure_iff, if_neg Bool.false_ne_true]
        exact next
  obtain ⟨result, run, rfl⟩ := run
  exact run

theorem returns_indexOf (h : Represents u (done ++ rest)) (valid : ValidUnicode unicode)
    (position : start = done.length + 1) :
    Returns (u.indexOf unicode start) (FirstFound unicode start rest) := by
  unfold indexOf
  split
  · rename_i supplementary
    rw [indexOfSupplementary_eq_zero h valid supplementary, Returns.some_iff]
    exact .inl ⟨rfl, fun d _ => not_finds supplementary⟩
  · rename_i short
    exact returns_indexOfCell h (OneCell.of_valid valid (by omega)) position

theorem indexOf_beyond (h : Represents u cs) (valid : ValidUnicode unicode)
    (beyond : u.count < start) : u.indexOf unicode start = some 0 := by
  unfold indexOf
  split
  · rename_i supplementary
    exact indexOfSupplementary_eq_zero h valid supplementary start
  · exact indexOfCell_beyond beyond

theorem returns_indexOf_one (h : Represents u cs) (valid : ValidUnicode unicode) :
    Returns (u.indexOf unicode 1) (FirstFound unicode 1 cs) :=
  @returns_indexOf u [] cs unicode 1 h valid rfl

end IndexOf

/-! ## Commands -/

section Commands

variable {u : UnicodeString} {cs : List Stored} {unicode newCode : Int}

/-- The loop of `occurrences` comes back to the first character that is found. -/
theorem occurrences_eq_none (h : Represents u cs) (valid : ValidUnicode unicode) {d : Stored}
    (member : d ∈ cs) (found : Finds unicode d) (fuel : Nat) : u.occurrences unicode fuel = none := by
  obtain ⟨i, first, absent | ⟨a, c, b, split, passed, here, same⟩⟩ :=
    returns_indexOf_one h valid
  · exact absurd found (absent.2 d member)
  · have again : u.indexOf unicode i = some i := by
      rw [split] at h
      obtain ⟨i', run, absent' | ⟨a', c', b', split', passed', -, same'⟩⟩ :=
        returns_indexOf h valid (show i = a.length + 1 by omega)
      · exact absurd here (absent'.2 c List.mem_cons_self)
      · cases a' with
        | nil =>
          rw [run]
          congr 1
          simpa using same'
        | cons x a' =>
          cases split'
          exact absurd here (passed' c List.mem_cons_self)
    unfold occurrences
    rw [first, Option.bind_eq_bind, Option.bind_some,
      untilLoop_eq_none (fun t : Int × Int => t.2 = i) rfl]
    · rfl
    · intro t there stopped
      have zero := of_decide_eq_true (Option.some.inj stopped)
      omega
    · intro (result, j) t' there run
      obtain rfl : j = i := there
      dsimp only at run
      rw [again] at run
      cases run
      rfl

theorem completes_occurrences_zero (h : Represents u cs) (valid : ValidUnicode unicode)
    (absent : ∀ d ∈ cs, ¬Finds unicode d) : Completes (u.occurrences unicode) 0 := by
  obtain ⟨i, first, zero | ⟨a, c, b, split, -, here, -⟩⟩ :=
    returns_indexOf_one h valid
  · refine .of_eq fun fuel => ?_
    have run : Returns (u.occurrences unicode fuel) fun result => result = 0 := by
      unfold occurrences
      rw [first, zero.1, Returns.some_bind, Returns.bind_iff]
      exact returns_untilLoop_stopped rfl (Returns.pure_iff.mpr rfl)
    obtain ⟨result, run, rfl⟩ := run
    exact run
  · exact absurd here (absent c (by rw [split]; simp))

/-- A character that is found becomes another one. -/
def replacement (unicode : Int) (new c : Stored) : Stored :=
  if Finds unicode c then new else c

theorem map_replacement {new : Stored} {a : List Stored} (absent : ∀ x ∈ a, ¬Finds unicode x) :
    a.map (replacement unicode new) = a := by
  conv_rhs => rw [← List.map_id a]
  exact List.map_congr_left fun x member => if_neg (absent x member)

/-- The state of `replace_all`: the characters before the next occurrence are replaced. -/
def Replacing (cs : List Stored) (unicode : Int) (new : Stored) (t : UnicodeString × Int) : Prop :=
  ∃ done rest, cs = done ++ rest ∧ Represents t.1 (done.map (replacement unicode new) ++ rest) ∧
    FirstFound unicode (done.length + 1) rest t.2

theorem Replacing.round (valid : ValidUnicode unicode) (short : OneCell newCode)
    {t : UnicodeString × Int} (state : Replacing cs unicode short.stored t) (going : t.2 ≠ 0) :
    Returns (replaceRound unicode newCode t) fun t' => Replacing cs unicode short.stored t' ∧
      t.2.toNat ≤ cs.length ∧ (t'.2 = 0 ∨ t.2.toNat < t'.2.toNat) := by
  obtain ⟨w, i⟩ := t
  obtain ⟨done, rest, split, held, ⟨zero, -⟩ | ⟨a, d, b, split', passed, here, same⟩⟩ := state
  · exact absurd zero going
  · dsimp only at held same ⊢
    have length : cs.length = done.length + (a.length + (b.length + 1)) := by
      rw [split, split', List.length_append, List.length_append, List.length_cons]
    have before : ((done ++ a ++ [d]).length : Int) = i := by
      rw [List.length_append, List.length_append, List.length_singleton]
      omega
    have replaced : (done ++ a ++ [d]).map (replacement unicode short.stored) =
        done.map (replacement unicode short.stored) ++ a ++ [short.stored] := by
      rw [List.map_append, List.map_append, map_replacement passed, List.map_singleton,
        show replacement unicode short.stored d = short.stored from if_pos here]
    rw [split', ← List.append_assoc] at held
    refine (returns_put held short (by rw [List.length_append, List.length_map]; omega)).bind
      fun w' held' => ?_
    rw [List.append_cons, ← replaced] at held'
    refine (returns_indexOf held' valid (show i + 1 = _ by rw [List.length_map]; omega)).bind
      fun j found => ?_
    rw [Returns.pure_iff]
    refine ⟨⟨done ++ a ++ [d], b, by rw [split, split']; simp, held', ?_⟩, by omega, ?_⟩
    · rw [before]
      exact found
    · rcases found with ⟨zero, -⟩ | ⟨a', d', b', -, -, -, same'⟩
      · exact .inl zero
      · exact .inr (by dsimp only; omega)

/-- `replace_all` by a code point of one cell. -/
theorem completes_replaceAll (h : Represents u cs) (valid : ValidUnicode unicode)
    (other : unicode ≠ newCode) (short : OneCell newCode) :
    ∃ w, Completes (u.replaceAll unicode newCode) w ∧
      Represents w (cs.map (replacement unicode short.stored)) := by
  obtain ⟨i, first, found⟩ := returns_indexOf_one h valid
  have step : ∀ t : UnicodeString × Int, Replacing cs unicode short.stored t →
      decide (t.2 = 0) = false → Returns (replaceRound unicode newCode t) fun t' =>
        Replacing cs unicode short.stored t' ∧
          (if t'.2 = 0 then 0 else cs.length + 1 - t'.2.toNat) <
            if t.2 = 0 then 0 else cs.length + 1 - t.2.toNat := by
    intro t state going
    have nonzero := of_decide_eq_false going
    refine (state.round valid short nonzero).mono fun t' ⟨state', inside, next⟩ => ⟨state', ?_⟩
    split <;> omega
  obtain ⟨⟨w, j⟩, completes, ⟨done, rest, split, held, found⟩, stopped⟩ :=
    completes_untilLoop_holds _ _ step (s := (u, i)) ⟨[], cs, rfl, h, found⟩
  refine ⟨w, ?_, ?_⟩
  · refine (@Completes.bind _ _ _ (fun _ t => some t.1) _ w completes (.of_eq fun fuel => rfl)).congr
      fun fuel => ?_
    unfold replaceAll
    rw [if_pos other, first]
    rfl
  · rcases found with ⟨-, absent⟩ | ⟨a, d, b, -, -, -, same⟩
    · rw [split, List.map_append, map_replacement absent]
      exact held
    · have zero : j = 0 := of_decide_eq_true stopped
      omega

/-- The state of `remove_all_occurrences`: nothing is found before the next occurrence. -/
def Removing (cs : List Stored) (unicode : Int) (t : UnicodeString × Int) : Prop :=
  ∃ done rest, Represents t.1 (done ++ rest) ∧
    cs.filter (fun c => ¬Finds unicode c) = done ++ rest.filter (fun c => ¬Finds unicode c) ∧
    FirstFound unicode (done.length + 1) rest t.2

theorem filter_not_finds {a : List Stored} (absent : ∀ x ∈ a, ¬Finds unicode x) :
    a.filter (fun c => ¬Finds unicode c) = a :=
  List.filter_eq_self.mpr fun x member => decide_eq_true (absent x member)

theorem Removing.round (valid : ValidUnicode unicode) {t : UnicodeString × Int}
    (state : Removing cs unicode t) (going : t.2 ≠ 0) :
    Returns (removeRound unicode t) fun t' => Removing cs unicode t' ∧
      t'.1.count.toNat < t.1.count.toNat := by
  obtain ⟨w, i⟩ := t
  obtain ⟨done, rest, held, kept, ⟨zero, -⟩ | ⟨a, d, b, split', passed, here, same⟩⟩ := state
  · exact absurd zero going
  · dsimp only at held same ⊢
    have arranged : done ++ rest = (done ++ a) ++ ([d] ++ b) := by rw [split']; simp
    rw [arranged] at held
    have length : ((done ++ a).length : Int) = done.length + a.length := by
      rw [List.length_append]
      exact Int.natCast_add _ _
    refine (returns_removeBetween held (by omega) (by rw [List.length_singleton]; omega)).bind
      fun w' held' => ?_
    refine (returns_indexOf held' valid (show i = _ by omega)).bind fun j found => ?_
    rw [Returns.pure_iff]
    refine ⟨⟨done ++ a, b, held', ?_, ?_⟩, ?_⟩
    · rw [kept, split', List.filter_append, filter_not_finds passed, List.append_assoc,
        List.filter_cons_of_neg (by simpa using here)]
    · rw [length, show (done.length + a.length + 1 : Int) = i by omega]
      exact found
    · have before := held.count_eq
      have after := held'.count_eq
      rw [List.length_append, List.length_append, List.length_append, List.length_singleton] at before
      rw [List.length_append] at after
      dsimp only
      omega

theorem completes_removeAllOccurrences (h : Represents u cs) (valid : ValidUnicode unicode) :
    ∃ w, Completes (u.removeAllOccurrences unicode) w ∧
      Represents w (cs.filter fun c => ¬Finds unicode c) := by
  obtain ⟨i, first, found⟩ := returns_indexOf_one h valid
  obtain ⟨⟨w, j⟩, completes, ⟨done, rest, held, kept, found⟩, stopped⟩ :=
    completes_untilLoop_holds (Removing cs unicode) (fun t => t.1.count.toNat)
      (fun t state going => state.round valid (of_decide_eq_false going)) (s := (u, i))
      ⟨[], cs, h, rfl, found⟩
  refine ⟨w, ?_, ?_⟩
  · refine (@Completes.bind _ _ _ (fun _ t => some t.1) _ w completes (.of_eq fun fuel => rfl)).congr
      fun fuel => ?_
    unfold removeAllOccurrences
    rw [first]
    rfl
  · rcases found with ⟨-, absent⟩ | ⟨a, d, b, -, -, -, same⟩
    · rw [kept, filter_not_finds absent]
      exact held
    · have zero : j = 0 := of_decide_eq_true stopped
      omega

theorem put_supplementary {i : Int} {w : UnicodeString} (supplementary : 0x10000 ≤ newCode)
    (run : u.put newCode i = some w) :
    w.storage = u.storage.set (low16 (highSurrogate newCode)) (i - 1) := by
  unfold put at run
  rw [if_pos supplementary] at run
  obtain ⟨cell, -, run⟩ := Option.bind_eq_some_iff.mp run
  obtain ⟨v, entered, run⟩ := Option.bind_eq_some_iff.mp run
  have same : v.storage = u.storage := by
    split at entered
    · obtain ⟨values, -, entered⟩ := Option.bind_eq_some_iff.mp entered
      cases entered
      rfl
    · obtain ⟨n, -, entered⟩ := Option.bind_eq_some_iff.mp entered
      obtain ⟨tables, -, entered⟩ := Option.bind_eq_some_iff.mp entered
      obtain ⟨indexes, -, entered⟩ := Option.bind_eq_some_iff.mp entered
      obtain ⟨values, -, entered⟩ := Option.bind_eq_some_iff.mp entered
      cases entered
      rfl
  obtain ⟨storage, written, run⟩ := Option.bind_eq_some_iff.mp run
  cases run
  unfold NativeArray.put at written
  split at written
  · rw [← same]
    exact (Option.some.inj written).symm
  · cases written

theorem indexOfCell_ge {start r : Int} (run : u.indexOfCell unicode start = some r) :
    r = 0 ∨ start ≤ r := by
  obtain ⟨t, loop, run⟩ := Option.bind_eq_some_iff.mp run
  have further := (holds_of_untilLoop (fun t : Int × Int => start ≤ t.1)
    (fun t t' low _ round => by cases round; dsimp only; omega) (Int.le_refl start) loop).1
  cases run
  split
  · exact .inl rfl
  · exact .inr further

/-- A supplementary code point that is put is not read back, whatever follows. -/
theorem replaceAll_supplementary (h : Represents u cs) (valid : ValidUnicode unicode)
    (validNew : ValidUnicode newCode) (supplementary : 0x10000 ≤ newCode) {d : Stored}
    (member : d ∈ cs) (here : Finds unicode d) {fuel : Nat} {w : UnicodeString}
    (run : u.replaceAll unicode newCode fuel = some w) :
    ∃ k : ℕ, (∃ c, cs[k]? = some c ∧ Finds unicode c) ∧ w.item (k + 1) ≠ some newCode := by
  have short : unicode < 0x10000 := by
    by_contra long
    exact not_finds (by omega) here
  have other : unicode ≠ newCode := by omega
  obtain ⟨i, first, ⟨-, absent⟩ | ⟨a, c, b, split, -, found, same⟩⟩ := returns_indexOf_one h valid
  · exact absurd here (absent d member)
  · unfold replaceAll at run
    rw [if_pos other, first, Option.bind_eq_bind, Option.bind_some] at run
    obtain ⟨⟨w', j⟩, loop, ended⟩ := Option.bind_eq_some_iff.mp run
    cases ended
    -- the cell of the first occurrence keeps what the first round writes in it
    obtain ⟨written | ⟨cell, -⟩, stopped⟩ := holds_of_untilLoop
      (fun t : UnicodeString × Int => t = (u, i) ∨
        t.1.storage.cell (i - 1) = low16 (highSurrogate newCode) ∧ (t.2 = 0 ∨ i < t.2))
      (fun t t' state going round => by
        obtain ⟨v', put, round⟩ := Option.bind_eq_some_iff.mp round
        obtain ⟨next, search, round⟩ := Option.bind_eq_some_iff.mp round
        cases round
        have storage := put_supplementary supplementary put
        unfold indexOf at search
        rw [if_neg (by omega)] at search
        have further := indexOfCell_ge search
        have nonzero := of_decide_eq_false (Option.some.inj going)
        right
        rcases state with start | ⟨cell, later⟩
        · cases start
          refine ⟨?_, by dsimp only; omega⟩
          rw [storage, NativeArray.cell_set_self]
        · dsimp only at cell later nonzero ⊢
          refine ⟨?_, by omega⟩
          rw [storage, NativeArray.cell_set_of_ne _ _ (by omega)]
          exact cell) (.inl rfl) loop
    · cases written
      have zero := of_decide_eq_true (Option.some.inj stopped)
      omega
    · refine ⟨a.length, ⟨c, by rw [split]; simp, found⟩, ?_⟩
      apply item_ne_of_highSurrogate validNew supplementary
      rw [← cell]
      congr 1
      omega

end Commands

end UnicodeString

end Liberty
