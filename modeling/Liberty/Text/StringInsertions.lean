import Liberty.Text.StringCommands

/-!
# Insertions in a STRING

The characters before an insertion and those after it are two segments of the storage; the
commands move one of them, towards the free cells at the beginning or to the end.
-/

namespace Liberty

namespace NativelyStoredString

section Insertions

variable {d : NativelyStoredString} {s : Option NativelyStoredString} {xs ys : List Character}
  {c : Character} {i n startIndex endIndex : Int}

/-- `insert_character`, where the characters `front` are before the new one; the first cell of
the string stays when the new character is the last. -/
theorem Represents.returns_insertCharacter {front back : List Character}
    (h : Represents d (front ++ back)) (position : i = front.length + 1) :
    Returns (d.insertCharacter c i) fun d' => Represents d' (front ++ c :: back) ∧
      (back = [] → d'.storageLower = d.storageLower) := by
  have count := h.count_eq
  have size := h.valid.size_eq
  have lower := h.valid.lower_nonneg
  have fits := h.valid.fits
  rw [List.length_append] at count
  obtain ⟨segFront, segBack⟩ := segment_append.mp h.segment
  unfold insertCharacter
  rw [Returns.bind_iff]
  -- in both cases the cell of the new character is free between those of the others
  suffices free : Returns _ fun e : NativelyStoredString => e.storage.size = e.capacity ∧
      (e.isNull = true → e.capacity = 0) ∧ 0 ≤ e.storageLower ∧ e.count = d.count ∧
      e.storageLower + d.count + 1 ≤ e.capacity ∧ Segment e.storage.cell e.storageLower front ∧
      Segment e.storage.cell (e.storageLower + front.length + 1) back ∧
      (back = [] → e.storageLower = d.storageLower) by
    refine free.mono fun e ⟨sizeE, null, lowE, countE, room, left, right, stays⟩ => ?_
    rw [Returns.bind_iff, NativeArray.returns_put]
    refine ⟨by omega, ?_⟩
    rw [Returns.pure_iff]
    refine ⟨⟨⟨sizeE, null, lowE, ?_, ?_⟩, ?_, segment_append.mpr ⟨?_, segment_cons.mpr ⟨?_, ?_⟩⟩⟩, stays⟩
    · dsimp only
      omega
    · dsimp only
      omega
    · rw [List.length_append, List.length_cons]
      dsimp only
      omega
    · exact left.congr fun j _ _ => NativeArray.cell_set_of_ne _ _ (by omega)
    · dsimp only
      rw [show e.storageLower + (front.length : Int) = e.storageLower + i - 1 by omega]
      exact NativeArray.cell_set_self _ _ _
    · exact right.congr fun j _ _ => NativeArray.cell_set_of_ne _ _ (by omega)
  split
  · rename_i shifted
    have last : ∀ n : Int, back = [] → n = d.storageLower := by
      rintro n rfl
      rw [List.length_nil] at count
      omega
    rw [Returns.bind_iff]
    split
    · refine returns_moveStorage (fun _ _ => by omega) fun storage size' moved kept => ?_
      rw [Returns.pure_iff]
      refine ⟨size'.trans size, h.valid.null, ?_, rfl, ?_, ?_, ?_, last _⟩
      · dsimp only
        omega
      · dsimp only
        omega
      · refine segFront.copied fun j from_zero less => ?_
        rw [← moved _ (by omega) (by omega)]
        dsimp only
        congr 1
        omega
      · dsimp only
        rw [show d.storageLower - 1 + (front.length : Int) + 1 = d.storageLower + front.length by omega]
        exact segBack.congr fun j _ _ => kept j (by omega)
    · have none : front = [] := List.length_eq_zero_iff.mp (by omega)
      subst none
      rw [Returns.some_iff, Returns.pure_iff]
      refine ⟨size, h.valid.null, ?_, rfl, ?_, segment_nil, ?_, last _⟩
      · dsimp only
        omega
      · dsimp only
        omega
      · dsimp only
        rwa [show d.storageLower - 1 + (([] : List Character).length : Int) + 1 =
          d.storageLower + (([] : List Character).length : Int) by omega]
  · rename_i appended
    dsimp only
    have grown := h.grown (d.count + d.storageLower + 1) (by omega)
    revert grown
    generalize d.ensureCapacity _ = e
    intro grown
    have sizeE := grown.size_eq
    have lowE := grown.lower_eq
    have countE := grown.count_eq
    have needed := grown.needed_le
    obtain ⟨left, right⟩ := segment_append.mp (h.of_grown grown).segment
    split
    · refine returns_moveStorage (fun _ _ => by omega) fun storage size' moved kept => ?_
      refine ⟨size'.trans sizeE, grown.null, ?_, countE, ?_, ?_, ?_, fun _ => lowE⟩
      · dsimp only
        omega
      · dsimp only
        omega
      · exact left.congr fun j _ _ => kept j (by omega)
      · refine right.copied fun j from_zero less => ?_
        rw [← moved _ (by omega) (by omega)]
        dsimp only
        congr 1
        omega
    · have none : back = [] := List.length_eq_zero_iff.mp (by omega)
      subst none
      rw [Returns.some_iff]
      exact ⟨sizeE, grown.null, by omega, countE, by omega, left, segment_nil, fun _ => lowE⟩

theorem Represents.returns_addFirst (h : Represents d xs) :
    Returns (d.addFirst c) fun d' => Represents d' (c :: xs) := by
  rw [← List.nil_append xs] at h
  exact (h.returns_insertCharacter rfl).mono fun _ added => added.1

theorem Represents.returns_addLast (h : Represents d xs) :
    Returns (d.addLast c) fun d' =>
      Represents d' (xs ++ [c]) ∧ d'.storageLower = d.storageLower := by
  have count := h.count_eq
  rw [← List.append_nil xs] at h
  exact (h.returns_insertCharacter (by omega)).mono fun _ added => ⟨added.1, added.2 rfl⟩

/-- Each round of `extend_multiple` adds a character. -/
theorem Represents.returns_extendMultiple (h : Represents d xs) (nonneg : 0 ≤ n) :
    Returns (d.extendMultiple c n) fun d' =>
      Represents d' (xs ++ List.replicate n.toNat c) ∧ d'.storageLower = d.storageLower := by
  unfold extendMultiple
  rw [Returns.bind_iff]
  refine returns_untilLoop
    (fun t : NativelyStoredString × Int => 0 ≤ t.2 ∧ t.2 ≤ n ∧
      Represents t.1 (xs ++ List.replicate (n - t.2).toNat c) ∧ t.1.storageLower = d.storageLower)
    (fun t => t.2.toNat) ⟨nonneg, Int.le_refl _, ?_, rfl⟩ (Nat.le_refl _) ?_
  · rw [Int.sub_self, Int.toNat_zero, List.replicate_zero, List.append_nil]
    exact h
  rintro ⟨e, i⟩ ⟨low, high, represents, lower⟩
  rw [Returns.some_iff]
  by_cases zero : i = 0
  · rw [if_pos (decide_eq_true zero), Returns.pure_iff]
    rw [zero, Int.sub_zero] at represents
    exact ⟨represents, lower⟩
  · rw [if_neg (by rw [decide_eq_false zero]; exact Bool.false_ne_true), Returns.bind_iff]
    refine represents.returns_addLast.mono fun e' ⟨next, lower'⟩ => ?_
    rw [Returns.pure_iff]
    refine ⟨⟨by omega, by omega, ?_, lower'.trans lower⟩, by omega⟩
    rw [show (n - (i - 1)).toNat = (n - i).toNat + 1 by omega, List.replicate_succ', ← List.append_assoc]
    exact next

theorem Represents.returns_prepend (h : Represents d xs) (argument : Argument s xs ys) :
    Returns (d.prepend s) fun d' => Represents d' (ys ++ xs) := by
  have count := h.count_eq
  have lower := h.valid.lower_nonneg
  cases s with
  | none =>
    cases argument
    unfold prepend
    have grown := h.grown (d.count * 2 + d.storageLower) (by omega)
    revert grown
    generalize d.ensureCapacity _ = e
    intro grown
    have h' := h.of_grown grown
    have countE := h'.count_eq
    have lowE := h'.valid.lower_nonneg
    have sizeE := grown.size_eq
    have needed := grown.needed_le
    have lowerE := grown.lower_eq
    rw [Returns.bind_iff]
    refine returns_sliceCopy_all h' (by omega) (by omega) fun storage size' copied kept => ?_
    rw [Returns.pure_iff]
    refine ⟨⟨size'.trans sizeE, grown.null, lowE, ?_, ?_⟩, ?_, segment_append.mpr
      ⟨h'.segment.congr fun i _ _ => kept i (by omega), ?_⟩⟩
    · dsimp only
      omega
    · dsimp only
      omega
    · rw [List.length_append]
      dsimp only
      omega
    · dsimp only
      rwa [countE, Int.add_comm] at copied
  | some other =>
    have source : Represents other ys := argument
    have countS := source.count_eq
    unfold prepend
    dsimp only
    -- the string with the room that it needs
    obtain ⟨e, chosen, h', lowerE, room⟩ : ∃ e, (if d.storageLower - other.count < 0 then
        d.ensureCapacity (d.count + other.count) else d) = e ∧ Represents e xs ∧
        e.storageLower = d.storageLower ∧
        (d.storageLower - other.count < 0 → d.count + other.count ≤ e.capacity) := by
      split
      · have grown := h.grown (d.count + other.count) (by omega)
        exact ⟨_, rfl, h.of_grown grown, grown.lower_eq, fun _ => grown.needed_le⟩
      · exact ⟨d, rfl, h, rfl, fun found => by omega⟩
    rw [chosen]
    have sizeE := h'.valid.size_eq
    have countE := h'.count_eq
    have fitsE := h'.valid.fits
    rw [Returns.bind_iff]
    suffices free : Returns _ fun f : NativelyStoredString => f.storage.size = f.capacity ∧
        (f.isNull = true → f.capacity = 0) ∧ 0 ≤ f.storageLower ∧
        f.storageLower + (d.count + other.count) ≤ f.capacity ∧
        Segment f.storage.cell (f.storageLower + ys.length) xs by
      refine free.mono fun f ⟨sizeF, null, lowF, roomF, right⟩ => ?_
      rw [Returns.bind_iff]
      refine returns_sliceCopy_all source (by omega) (by omega) fun storage size' copied kept => ?_
      rw [Returns.pure_iff]
      refine ⟨⟨size'.trans sizeF, null, lowF, ?_, ?_⟩, ?_, segment_append.mpr ⟨?_, ?_⟩⟩
      · dsimp only
        omega
      · dsimp only
        omega
      · rw [List.length_append]
        dsimp only
        omega
      · rwa [Int.zero_add] at copied
      · exact right.congr fun i _ _ => kept i (by omega)
    split
    · rename_i edge
      rw [Returns.some_iff]
      refine ⟨sizeE, h'.valid.null, Int.le_refl _, by dsimp only; omega, ?_⟩
      rcases edge with empty | exact'
      · rw [List.length_eq_zero_iff.mp (show xs.length = 0 by omega)]
        exact segment_nil
      · rw [show (0 : Int) + ys.length = e.storageLower by omega]
        exact h'.segment
    · rename_i inner
      split
      · rw [Returns.some_iff]
        refine ⟨sizeE, h'.valid.null, by dsimp only; omega, by dsimp only; omega, ?_⟩
        rw [show d.storageLower - other.count + (ys.length : Int) = e.storageLower by omega]
        exact h'.segment
      · rw [Returns.bind_iff]
        refine returns_moveStorage (fun _ _ => by omega) fun storage size' moved kept => ?_
        rw [Returns.pure_iff]
        refine ⟨size'.trans sizeE, h'.valid.null, Int.le_refl _, by dsimp only; omega, ?_⟩
        refine h'.segment.copied fun i from_zero less => ?_
        rw [← moved _ (by omega) (by omega)]
        dsimp only
        congr 1
        omega

/-- `insert_string` of another string.  At the end of the string it reads one cell further. -/
theorem Represents.returns_insertString {front back : List Character} {source : NativelyStoredString}
    (h : Represents d (front ++ back)) (other : Represents source ys)
    (position : i = front.length + 1)
    (readable : ys.length ≤ d.storageLower → back = [] → ys = [] ∨ d.storageLower + d.count < d.capacity) :
    Returns (d.insertString (some source) i) fun d' => Represents d' (front ++ (ys ++ back)) := by
  have count := h.count_eq
  have size := h.valid.size_eq
  have lower := h.valid.lower_nonneg
  have fits := h.valid.fits
  have countS := other.count_eq
  rw [List.length_append] at count
  obtain ⟨left, right⟩ := segment_append.mp h.segment
  have total : (front ++ (ys ++ back)).length = front.length + (ys.length + back.length) := by
    rw [List.length_append, List.length_append]
  unfold insertString
  dsimp only [Option.getD_some]
  split
  · rename_i behind
    have last : back = [] ∨ 0 < back.length := by
      rcases back with _ | ⟨b, back⟩
      · exact .inl rfl
      · exact .inr (Nat.succ_pos _)
    have emptied : ys = [] → ys.length = 0 := fun none => List.length_eq_zero_iff.mpr none
    rw [Returns.bind_iff]
    refine returns_moveStorage (fun shifted _ => ?_) fun storage size' moved kept => ?_
    · dsimp only
      rcases last with none | more
      · rcases readable (by omega) none with empty | readable
        · have := emptied empty
          omega
        · omega
      · omega
    · refine returns_sliceCopy_all other (by dsimp only; omega) (by dsimp only at size' ⊢; omega)
        fun storage' size'' copied kept' => ?_
      refine ⟨⟨size''.trans (size'.trans size), h.valid.null, ?_, ?_, ?_⟩, ?_,
        segment_append.mpr ⟨?_, segment_append.mpr ⟨?_, ?_⟩⟩⟩
      · dsimp only
        omega
      · dsimp only
        omega
      · dsimp only
        omega
      · dsimp only
        omega
      · refine left.copied fun j from_zero less => ?_
        rw [kept' _ (by dsimp only; omega), ← moved _ (by omega) (by omega)]
        dsimp only
        congr 1
        omega
      · dsimp only at copied ⊢
        rwa [show i - 1 + -(source.count - d.storageLower) =
          -(source.count - d.storageLower) + (front.length : Int) by omega] at copied
      · dsimp only
        rw [show -(source.count - d.storageLower) + (front.length : Int) + ys.length =
          d.storageLower + front.length by omega]
        refine right.congr fun j low high => ?_
        rw [kept' j (by dsimp only; omega)]
        by_cases still : source.count = 0
        · by_cases first : j ≤ i - 1 + d.storageLower
          · have same := moved j (by omega) first
            rwa [still, Int.neg_zero, Int.add_zero] at same
          · exact kept j (by omega)
        · exact kept j (by omega)
  · rename_i ahead
    have grown := grown_ensureCapacity (d := { d with count := d.count + source.count }) size h.capacity_nonneg
      h.valid.null (d.count + source.count) (by omega)
    obtain ⟨e, same⟩ : ∃ e, ensureCapacity { d with count := d.count + source.count }
      (d.count + source.count) = e := ⟨_, rfl⟩
    simp only [same] at grown ⊢
    have sizeE := grown.size_eq
    have lowE : e.storageLower = d.storageLower := grown.lower_eq
    have countE : e.count = d.count + source.count := grown.count_eq
    have needed := grown.needed_le
    have keptE : ∀ j, 0 ≤ j → j < d.capacity → e.storage.cell j = d.storage.cell j := grown.cell_eq
    have leftE : Segment e.storage.cell d.storageLower front :=
      left.congr fun j _ _ => keptE j (by omega) (by omega)
    have rightE : Segment e.storage.cell (d.storageLower + front.length) back :=
      right.congr fun j _ _ => keptE j (by omega) (by omega)
    rw [Returns.bind_iff]
    suffices first : Returns _ fun f : NativelyStoredString => f.storage.size = e.capacity ∧
        f.capacity = e.capacity ∧ f.isNull = e.isNull ∧ f.storageLower = d.storageLower ∧
        f.count = e.count ∧ Segment f.storage.cell 0 front ∧
        Segment f.storage.cell (d.storageLower + front.length) back by
      refine first.mono fun f ⟨sizeF, capacityF, nullF, lowF, countF, leftF, rightF⟩ => ?_
      rw [Returns.bind_iff]
      suffices second : Returns _ fun g : NativelyStoredString => g.storage.size = e.capacity ∧
          g.capacity = e.capacity ∧ g.isNull = e.isNull ∧ g.count = e.count ∧
          Segment g.storage.cell 0 front ∧ Segment g.storage.cell (front.length + ys.length) back by
        refine second.mono fun g ⟨sizeG, capacityG, nullG, countG, leftG, rightG⟩ => ?_
        refine returns_sliceCopy_all other (by dsimp only; omega) (by dsimp only; omega)
          fun storage size' copied kept => ?_
        refine ⟨⟨?_, ?_, Int.le_refl _, ?_, ?_⟩, ?_, segment_append.mpr ⟨?_, segment_append.mpr ⟨?_, ?_⟩⟩⟩
        · dsimp only at size' ⊢
          omega
        · dsimp only
          rw [nullG, capacityG]
          exact grown.null
        · dsimp only
          omega
        · dsimp only
          omega
        · dsimp only
          omega
        · exact leftG.congr fun j _ _ => kept j (by dsimp only; omega)
        · dsimp only at copied ⊢
          rwa [show i - 1 + 0 = 0 + (front.length : Int) by omega] at copied
        · dsimp only
          rw [Int.zero_add]
          exact rightG.congr fun j _ _ => kept j (by dsimp only; omega)
      split
      · refine returns_moveStorage (fun _ _ => by omega) fun storage size' moved kept => ?_
        refine ⟨size'.trans sizeF, capacityF, nullF, countF, ?_, ?_⟩
        · exact leftF.congr fun j _ _ => kept j (by omega)
        · refine rightF.copied fun j from_zero less => ?_
          rw [← moved _ (by omega) (by omega)]
          congr 1
          omega
      · have none : back = [] := List.length_eq_zero_iff.mp (by omega)
        rw [Returns.some_iff]
        refine ⟨sizeF, capacityF, nullF, countF, leftF, ?_⟩
        rw [none]
        exact segment_nil
    split
    · refine returns_moveStorage (fun _ _ => by omega) fun storage size' moved kept => ?_
      refine ⟨size'.trans sizeE, rfl, rfl, lowE, rfl, ?_, ?_⟩
      · refine leftE.copied fun j from_zero less => ?_
        rw [← moved _ (by omega) (by omega)]
        congr 1
        omega
      · exact rightE.congr fun j _ _ => kept j (by omega)
    · rw [Returns.some_iff]
      refine ⟨sizeE, rfl, rfl, lowE, rfl, ?_, rightE⟩
      rwa [show d.storageLower = 0 by omega] at leftE

theorem Represents.returns_insertString_self (h : Represents d []) :
    Returns (d.insertString none 1) fun d' => Represents d' [] := by
  have count : d.count = 0 := h.count_eq
  have size := h.valid.size_eq
  have lower := h.valid.lower_nonneg
  have fits := h.valid.fits
  unfold insertString
  dsimp only [Option.getD_none]
  rw [if_pos (by omega), Returns.bind_iff]
  refine returns_moveStorage (fun shifted => absurd count (by omega)) fun storage size' moved kept => ?_
  unfold sliceCopy
  rw [if_neg (by dsimp only; omega), Returns.some_iff]
  refine ⟨⟨size'.trans size, h.valid.null, ?_, ?_, ?_⟩, ?_, segment_nil⟩
  · dsimp only
    omega
  · dsimp only
    omega
  · dsimp only
    omega
  · dsimp only
    rw [List.length_nil]
    omega

/-- The room that `replace_substring` makes for a longer text: before the substring the moved
cells are told by `start_index`, and after it the free cells of the beginning are not counted. -/
def ReplacesWell (d : NativelyStoredString) (startIndex difference : Int) : Prop :=
  if d.storageLower ≥ difference then
    (startIndex = 1 ∨ d.storageLower ≤ 2) ∧ (d.storageLower ≤ startIndex → startIndex < d.capacity)
  else d.storageLower + d.count + difference ≤ (d.ensureCapacity (d.count + difference)).capacity

/-- `replace_substring` of the characters `mid` by those of another string. -/
theorem Represents.returns_replaceSubstring {front mid back : List Character}
    {source : NativelyStoredString} (h : Represents d (front ++ (mid ++ back)))
    (other : Represents source ys) (start : startIndex = front.length + 1)
    (stop : endIndex = front.length + mid.length)
    (meets : mid.length < ys.length → ReplacesWell d startIndex (ys.length - mid.length)) :
    Returns (d.replaceSubstring (some source) startIndex endIndex) fun d' =>
      Represents d' (front ++ (ys ++ back)) := by
  have count := h.count_eq
  have size := h.valid.size_eq
  have lower := h.valid.lower_nonneg
  have fits := h.valid.fits
  have countS := other.count_eq
  rw [List.length_append, List.length_append] at count
  obtain ⟨left, rest⟩ := segment_append.mp h.segment
  obtain ⟨-, right⟩ := segment_append.mp rest
  have total : (front ++ (ys ++ back)).length = front.length + (ys.length + back.length) := by
    rw [List.length_append, List.length_append]
  have difference : source.count - (endIndex - startIndex + 1) = ys.length - mid.length := by omega
  unfold replaceSubstring
  dsimp only [Option.getD_some]
  rw [difference, Returns.bind_iff]
  suffices free : Returns _ fun e : NativelyStoredString => e.storage.size = e.capacity ∧
      (e.isNull = true → e.capacity = 0) ∧ 0 ≤ e.storageLower ∧ e.count = d.count ∧
      e.storageLower + (front.length + (ys.length + back.length)) ≤ e.capacity ∧
      Segment e.storage.cell e.storageLower front ∧
      Segment e.storage.cell (e.storageLower + front.length + ys.length) back by
    refine free.mono fun e ⟨sizeE, null, lowE, countE, room, leftE, rightE⟩ => ?_
    refine returns_sliceCopy_all other (by dsimp only; omega) (by dsimp only; omega)
      fun storage size' copied kept => ?_
    refine ⟨⟨size'.trans sizeE, null, lowE, ?_, ?_⟩, ?_,
      segment_append.mpr ⟨?_, segment_append.mpr ⟨?_, ?_⟩⟩⟩
    · dsimp only
      omega
    · dsimp only
      omega
    · dsimp only
      omega
    · exact leftE.congr fun j _ _ => kept j (by dsimp only; omega)
    · dsimp only at copied ⊢
      rwa [show startIndex - 1 + e.storageLower = e.storageLower + (front.length : Int) by omega] at copied
    · exact rightE.congr fun j _ _ => kept j (by dsimp only; omega)
  split
  · rename_i longer
    have well := meets (by omega)
    unfold ReplacesWell at well
    split
    · rename_i before
      rw [if_pos before] at well
      obtain ⟨short, readable⟩ := well
      rw [Returns.bind_iff]
      refine returns_moveStorage (fun _ nonempty => ?_) fun storage size' moved kept => ?_
      · have := readable nonempty
        omega
      · rw [Returns.pure_iff]
        refine ⟨size'.trans size, h.valid.null, ?_, rfl, ?_, ?_, ?_⟩
        · dsimp only
          omega
        · dsimp only
          omega
        · refine left.copied fun j from_zero less => ?_
          rw [← moved _ (by omega) (by omega)]
          dsimp only
          congr 1
          omega
        · dsimp only
          rw [show d.storageLower - ((ys.length : Int) - mid.length) + front.length + ys.length =
            d.storageLower + front.length + mid.length by omega]
          exact right.congr fun j _ _ => kept j (by omega)
    · rename_i after
      rw [if_neg after] at well
      have grown := h.grown (d.count + (ys.length - mid.length)) (by omega)
      revert grown well
      generalize d.ensureCapacity (d.count + (ys.length - mid.length)) = e
      intro well grown
      have sizeE := grown.size_eq
      have lowE := grown.lower_eq
      have countE := grown.count_eq
      obtain ⟨leftE, restE⟩ := segment_append.mp (h.of_grown grown).segment
      obtain ⟨-, rightE⟩ := segment_append.mp restE
      split
      · refine returns_moveStorage (fun _ _ => by omega) fun storage size' moved kept => ?_
        refine ⟨size'.trans sizeE, grown.null, ?_, countE, ?_, ?_, ?_⟩
        · dsimp only
          omega
        · dsimp only
          omega
        · exact leftE.congr fun j _ _ => kept j (by omega)
        · refine rightE.copied fun j from_zero less => ?_
          rw [← moved _ (by omega) (by omega)]
          dsimp only
          congr 1
          omega
      · have none : back = [] := List.length_eq_zero_iff.mp (by omega)
        rw [Returns.some_iff]
        refine ⟨sizeE, grown.null, by omega, countE, by omega, leftE, ?_⟩
        rw [none]
        exact segment_nil
  · split
    · split
      · refine returns_moveStorage (fun _ _ => by omega) fun storage size' moved kept => ?_
        refine ⟨size'.trans size, h.valid.null, lower, rfl, ?_, ?_, ?_⟩
        · dsimp only
          omega
        · exact left.congr fun j _ _ => kept j (by omega)
        · refine right.copied fun j from_zero less => ?_
          rw [← moved _ (by omega) (by omega)]
          dsimp only
          congr 1
          omega
      · have none : back = [] := List.length_eq_zero_iff.mp (by omega)
        rw [Returns.some_iff]
        refine ⟨size, h.valid.null, lower, rfl, by omega, left, ?_⟩
        rw [none]
        exact segment_nil
    · rw [Returns.some_iff]
      refine ⟨size, h.valid.null, lower, rfl, by omega, left, ?_⟩
      rwa [show ys.length = mid.length by omega]

/-- `replace_substring` of the whole string by itself. -/
theorem Represents.returns_replaceSubstring_self (h : Represents d xs) :
    Returns (d.replaceSubstring none 1 xs.length) fun d' => Represents d' xs := by
  have count := h.count_eq
  have size := h.valid.size_eq
  have lower := h.valid.lower_nonneg
  have fits := h.valid.fits
  unfold replaceSubstring
  dsimp only [Option.getD_none]
  rw [if_neg (by omega), if_neg (by omega), Returns.bind_iff, Returns.some_iff,
    show d.count + (d.count - ((xs.length : Int) - 1 + 1)) = d.count by omega]
  refine returns_sliceCopy_all h (by dsimp only; omega) (by dsimp only; omega)
    fun storage size' copied kept => ?_
  refine ⟨⟨size'.trans size, h.valid.null, lower, h.valid.count_nonneg, fits⟩, count, ?_⟩
  rwa [show (1 : Int) - 1 + d.storageLower = d.storageLower by omega] at copied

/-- Where `precede_multiple` does not move the characters too far: they start at the first cell
of the storage, or none of the cells that it moves them to holds one of them. -/
def PrecedesWell (d : NativelyStoredString) (n : Int) : Prop :=
  n ≤ 0 ∨ d.count = 0 ∨ d.storageLower = 0 ∨
    n ≤ d.storageLower ∧ d.count ≤ n ∧ d.storageLower + d.count + n ≤ d.capacity

theorem Represents.returns_precedeMultiple (h : Represents d xs) (well : PrecedesWell d n) :
    Returns (d.precedeMultiple c n) fun d' => Represents d' (List.replicate n.toNat c ++ xs) := by
  have count := h.count_eq
  have size := h.valid.size_eq
  have lower := h.valid.lower_nonneg
  have fits := h.valid.fits
  have total : (List.replicate n.toNat c ++ xs).length = n.toNat + xs.length := by
    rw [List.length_append, List.length_replicate]
  unfold PrecedesWell at well
  unfold precedeMultiple
  dsimp only
  split
  · rename_i positive
    split
    · have none : xs = [] := List.length_eq_zero_iff.mp (by omega)
      subst none
      have start : Represents { d with storageLower := 0 } [] := by
        refine ⟨⟨size, h.valid.null, Int.le_refl _, ?_, ?_⟩, count, segment_nil⟩
        · dsimp only
          omega
        · dsimp only
          omega
      refine (start.returns_extendMultiple (by omega)).mono fun e ⟨filled, _⟩ => ?_
      rwa [List.nil_append, ← List.append_nil (List.replicate n.toNat c)] at filled
    · rename_i nonempty
      rw [Returns.bind_iff]
      split
      · rename_i past
        have same : { d with count := d.count + d.storageLower } = d :=
          congrArg (fun count => { d with count := count }) (by omega)
        rw [same, Returns.bind_iff]
        refine (h.returns_extendMultiple (by omega)).mono fun e ⟨h', lowerE⟩ => ?_
        have countE := h'.count_eq
        have sizeE := h'.valid.size_eq
        have fitsE := h'.valid.fits
        rw [List.length_append, List.length_replicate] at countE
        obtain ⟨leftE, -⟩ := segment_append.mp h'.segment
        rw [Returns.pure_iff]
        dsimp only
        rw [Returns.bind_iff]
        refine returns_moveStorage (fun _ _ => by omega) fun storage size' moved kept => ?_
        unfold setSliceWith
        rw [Returns.bind_iff, Returns.bind_iff]
        refine NativeArray.returns_setSliceWith (fun _ => by dsimp only; omega) ?_
        rw [Returns.pure_iff, Returns.pure_iff]
        refine ⟨⟨size'.trans sizeE, h'.valid.null, Int.le_refl _, h'.valid.count_nonneg, ?_⟩, ?_,
          segment_append.mpr ⟨segment_replicate fun j low high => if_pos ?_, ?_⟩⟩
        · dsimp only
          omega
        · dsimp only
          omega
        · dsimp only at low high
          omega
        · rw [List.length_replicate]
          dsimp only
          refine leftE.copied fun j from_zero less => ?_
          rw [if_neg (by omega), ← moved _ (by omega) (by omega)]
          congr 1
          omega
      · rename_i inside
        rw [Returns.some_iff]
        dsimp only
        rw [Returns.bind_iff]
        refine returns_moveStorage (fun _ _ => by dsimp only; omega) fun storage size' moved kept => ?_
        unfold setSliceWith
        rw [Returns.bind_iff, Returns.bind_iff]
        refine NativeArray.returns_setSliceWith (fun _ => by dsimp only at size' ⊢; omega) ?_
        rw [Returns.pure_iff, Returns.pure_iff]
        refine ⟨⟨size'.trans size, h.valid.null, ?_, ?_, ?_⟩, ?_,
          segment_append.mpr ⟨segment_replicate fun j low high => if_pos ?_, ?_⟩⟩
        · dsimp only
          omega
        · dsimp only
          omega
        · dsimp only
          omega
        · dsimp only
          omega
        · dsimp only at low high
          omega
        · rw [List.length_replicate]
          dsimp only
          rw [show d.storageLower - n + (n.toNat : Int) = d.storageLower by omega]
          refine h.segment.congr fun j low high => ?_
          rw [if_neg (by omega)]
          exact kept j (by omega)
  · rw [show n.toNat = 0 by omega, Returns.some_iff]
    exact h

/-- The loop of `remove_between` moves the characters `back` over the removed ones. -/
theorem Represents.returns_removeBetween {front mid back : List Character}
    (h : Represents d (front ++ (mid ++ back))) (start : startIndex = front.length + 1)
    (stop : endIndex = front.length + mid.length) :
    Returns (d.removeBetween startIndex endIndex) fun d' => Represents d' (front ++ back) := by
  have count := h.count_eq
  have size := h.valid.size_eq
  have lower := h.valid.lower_nonneg
  have fits := h.valid.fits
  rw [List.length_append, List.length_append] at count
  obtain ⟨left, rest⟩ := segment_append.mp h.segment
  obtain ⟨-, right⟩ := segment_append.mp rest
  unfold removeBetween
  dsimp only
  split
  · rename_i nonempty
    rw [Returns.bind_iff]
    refine returns_untilLoop
      (fun t : NativelyStoredString × Int => ∃ (storage : NativeArray Character) (done todo : List Character),
        t = ({ d with storage := storage }, endIndex + 1 + done.length) ∧ back = done ++ todo ∧
        storage.size = d.storage.size ∧ Segment storage.cell d.storageLower (front ++ done) ∧
        Segment storage.cell (d.storageLower + endIndex + done.length) todo)
      (fun t => (d.count + 1 - t.2).toNat)
      ⟨d.storage, [], back, ?_, rfl, rfl, ?_, ?_⟩ (by dsimp only; omega) ?_
    · rw [List.length_nil, Int.natCast_zero, Int.add_zero]
    · rwa [List.append_nil]
    · rwa [List.length_nil, Int.natCast_zero, Int.add_zero, stop, ← Int.add_assoc]
    rintro t ⟨storage, done, todo, rfl, split, size', kept, ahead⟩
    rw [Returns.some_iff]
    have lengths := congrArg List.length split
    rw [List.length_append] at lengths
    dsimp only
    rcases todo with _ | ⟨x, todo⟩
    · rw [List.length_nil] at lengths
      rw [if_pos (decide_eq_true (by omega)), Returns.pure_iff, split, List.append_nil]
      refine ⟨⟨size'.trans size, h.valid.null, lower, ?_, ?_⟩, ?_, kept⟩
      · dsimp only
        omega
      · dsimp only
        omega
      · rw [List.length_append]
        dsimp only
        omega
    · rw [List.length_cons] at lengths
      obtain ⟨here, after⟩ := segment_cons.mp ahead
      rw [if_neg (by rw [decide_eq_true_eq]; omega), Returns.bind_iff]
      unfold item
      rw [NativeArray.returns_item]
      refine ⟨by dsimp only; omega, ?_⟩
      unfold put
      rw [Returns.bind_iff, Returns.bind_iff, NativeArray.returns_put]
      refine ⟨by dsimp only; omega, ?_⟩
      rw [Returns.pure_iff, Returns.pure_iff]
      rw [show endIndex + 1 + (done.length : Int) - 1 + d.storageLower =
        d.storageLower + endIndex + done.length by omega, here]
      refine ⟨⟨storage.set x (d.storageLower + (endIndex + 1 + done.length -
        (endIndex - startIndex + 1)) - 1), done ++ [x], todo, ?_, ?_, ?_, ?_, ?_⟩, by dsimp only; omega⟩
      · rw [List.length_append, List.length_singleton]
        rw [show endIndex + 1 + ((done.length + 1 : ℕ) : Int) = endIndex + 1 + done.length + 1 by omega]
      · rw [split, List.append_assoc, List.singleton_append]
      · exact size'
      · rw [← List.append_assoc, segment_append, segment_singleton, List.length_append]
        refine ⟨kept.congr fun j _ less => ?_, ?_⟩
        · rw [List.length_append] at less
          exact NativeArray.cell_set_of_ne _ _ (by omega)
        · rw [show d.storageLower + ((front.length + done.length : ℕ) : Int) =
            d.storageLower + (endIndex + 1 + done.length - (endIndex - startIndex + 1)) - 1 by omega]
          exact NativeArray.cell_set_self _ _ _
      · rw [List.length_append, List.length_singleton,
          show d.storageLower + endIndex + ((done.length + 1 : ℕ) : Int) =
            d.storageLower + endIndex + done.length + 1 by omega]
        exact after.congr fun j _ _ => NativeArray.cell_set_of_ne _ _ (by omega)
  · rw [List.length_eq_zero_iff.mp (show mid.length = 0 by omega), List.nil_append] at h
    exact Returns.some_iff.mpr h

end Insertions

end NativelyStoredString

end Liberty
