import Mathlib.Data.Finmap
import Mathlib.Data.Int.Notation
import Mathlib.Data.Nat.Notation
import Mathlib.Data.List.Nodup

/-!
# What a DICTIONARY is for

Keys are compared with `is_equal`, which `hash_code` respects; a dictionary is a finite map
from the classes of equal keys to values.  `Tabulates` tells that a set of pairs, whatever the
nodes that an implementation keeps them in, is such a map.
-/

namespace Liberty

/-- HASHABLE: a key with its `is_equal` and its `hash_code`. -/
class HashedKey (κ : Type) where
  safeEqual : κ → κ → Bool
  hashCode : κ → Int
  safeEqual_refl : ∀ k, safeEqual k k = true
  safeEqual_symm : ∀ {k l}, safeEqual k l = true → safeEqual l k = true
  safeEqual_trans : ∀ {k l m}, safeEqual k l = true → safeEqual l m = true →
    safeEqual k m = true
  hashCode_eq : ∀ {k l}, safeEqual k l = true → hashCode k = hashCode l
  hashCode_nonneg : ∀ k, 0 ≤ hashCode k
  hashCode_lt : ∀ k, hashCode k < 2 ^ 31

export HashedKey (safeEqual hashCode)

section

variable {κ : Type} [HashedKey κ]

instance keySetoid : Setoid κ where
  r k l := safeEqual k l = true
  iseqv := ⟨HashedKey.safeEqual_refl, HashedKey.safeEqual_symm, HashedKey.safeEqual_trans⟩

instance decidableSame (k l : κ) : Decidable (k ≈ l) :=
  inferInstanceAs (Decidable (safeEqual k l = true))

theorem hashCode_congr {k l : κ} (same : k ≈ l) : hashCode k = hashCode l :=
  HashedKey.hashCode_eq same

end

/-- INTEGER_32 keys. -/
instance : HashedKey (BitVec 32) where
  safeEqual k l := k == l
  hashCode k := (k &&& 0x7FFFFFFF#32).toInt
  safeEqual_refl k := beq_self_eq_true k
  safeEqual_symm same := by rw [beq_iff_eq] at same ⊢; exact same.symm
  safeEqual_trans same same' := by rw [beq_iff_eq] at same same' ⊢; exact same.trans same'
  hashCode_eq same := by rw [beq_iff_eq] at same; rw [same]
  hashCode_nonneg k := by
    have positive : (k &&& 0x7FFFFFFF#32).msb = false := by
      rw [BitVec.msb_and, show (0x7FFFFFFF#32).msb = false by decide, Bool.and_false]
    rw [BitVec.toInt_eq_toNat_of_msb positive]
    exact Int.natCast_nonneg _
  hashCode_lt k := by
    have := BitVec.toInt_lt (x := k &&& 0x7FFFFFFF#32)
    omega

/-- The classes of equal keys. -/
abbrev KeyClass (κ : Type) [HashedKey κ] : Type :=
  Quotient (keySetoid : Setoid κ)

/-- The keys equal to `k`. -/
def keyClass {κ : Type} [HashedKey κ] (k : κ) : KeyClass κ :=
  Quotient.mk _ k

/-- A finite map from the classes of equal keys. -/
abbrev FiniteMap (κ ν : Type) [HashedKey κ] : Type :=
  Finmap fun _ : KeyClass κ => ν

section Tabulates

variable {κ ν : Type} [HashedKey κ]

theorem keyClass_eq {k l : κ} : keyClass k = keyClass l ↔ k ≈ l :=
  Quotient.eq

/-- The pairs `pairs` are the map `m`. -/
def Tabulates (pairs : κ → ν → Prop) (m : FiniteMap κ ν) : Prop :=
  ∀ q v, m.lookup q = some v ↔ ∃ k, pairs k v ∧ keyClass k = q

variable {pairs pairs' : κ → ν → Prop} {m : FiniteMap κ ν} {k : κ} {v : ν}

theorem Tabulates.empty (none : ∀ k v, ¬pairs k v) : Tabulates pairs ∅ := by
  intro q v
  constructor
  · intro h
    cases h
  · rintro ⟨k, pair, -⟩
    exact absurd pair (none k v)

theorem Tabulates.congr (h : Tabulates pairs m) (same : ∀ k v, pairs' k v ↔ pairs k v) :
    Tabulates pairs' m := by
  intro q v
  simp only [h q v, same]

theorem Tabulates.mem (h : Tabulates pairs m) (pair : pairs k v) : keyClass k ∈ m :=
  Finmap.mem_of_lookup_eq_some ((h _ v).mpr ⟨k, pair, rfl⟩)

theorem Tabulates.mem_iff (h : Tabulates pairs m) : keyClass k ∈ m ↔ ∃ l v, pairs l v ∧ l ≈ k := by
  rw [Finmap.mem_iff]
  constructor
  · rintro ⟨v, found⟩
    obtain ⟨l, pair, same⟩ := (h _ v).mp found
    exact ⟨l, v, pair, keyClass_eq.mp same⟩
  · rintro ⟨l, v, pair, same⟩
    exact ⟨v, (h _ v).mpr ⟨l, pair, keyClass_eq.mpr same⟩⟩

/-- The pair `k, v` written over those of the keys equal to `k`. -/
theorem Tabulates.insert (h : Tabulates pairs m) {b : κ} (same : b ≈ k)
    (written : ∀ a w, pairs' a w ↔ (a = b ∧ w = v) ∨ (pairs a w ∧ ¬a ≈ k)) :
    Tabulates pairs' (m.insert (keyClass k) v) := by
  intro q w
  by_cases here : q = keyClass k
  · rw [here, Finmap.lookup_insert]
    constructor
    · intro h
      cases h
      exact ⟨b, (written b v).mpr (Or.inl ⟨rfl, rfl⟩), keyClass_eq.mpr same⟩
    · rintro ⟨a, pair, eq⟩
      rcases (written a w).mp pair with ⟨-, rfl⟩ | ⟨-, other⟩
      · rfl
      · exact absurd (keyClass_eq.mp eq) other
  · rw [Finmap.lookup_insert_of_ne _ here, h]
    constructor
    · rintro ⟨a, pair, rfl⟩
      exact ⟨a, (written a w).mpr (Or.inr ⟨pair, fun eq => here (keyClass_eq.mpr eq)⟩), rfl⟩
    · rintro ⟨a, pair, rfl⟩
      rcases (written a w).mp pair with ⟨rfl, -⟩ | ⟨old, -⟩
      · exact absurd (keyClass_eq.mpr same) here
      · exact ⟨a, old, rfl⟩

theorem Tabulates.erase (h : Tabulates pairs m)
    (left : ∀ a w, pairs' a w ↔ pairs a w ∧ ¬a ≈ k) : Tabulates pairs' (m.erase (keyClass k)) := by
  intro q w
  by_cases here : q = keyClass k
  · rw [here, Finmap.lookup_erase]
    constructor
    · intro h
      cases h
    · rintro ⟨a, pair, eq⟩
      exact absurd (keyClass_eq.mp eq) ((left a w).mp pair).2
  · rw [Finmap.lookup_erase_ne here, h]
    constructor
    · rintro ⟨a, pair, rfl⟩
      exact ⟨a, (left a w).mpr ⟨pair, fun eq => here (keyClass_eq.mpr eq)⟩, rfl⟩
    · rintro ⟨a, pair, rfl⟩
      exact ⟨a, ((left a w).mp pair).1, rfl⟩

/-! ## Sizes -/

theorem keys_insert (m : FiniteMap κ ν) (q : KeyClass κ) (v : ν) :
    (m.insert q v).keys = Insert.insert q m.keys := by
  ext q'
  rw [Finmap.mem_keys, Finmap.mem_insert, Finset.mem_insert, Finmap.mem_keys]

theorem card_insert_of_notMem (v : ν) (absent : keyClass k ∉ m) :
    (m.insert (keyClass k) v).keys.card = m.keys.card + 1 := by
  rw [keys_insert]
  exact Finset.card_insert_of_notMem fun h => absent (Finmap.mem_keys.mp h)

theorem card_insert_of_mem (v : ν) (present : keyClass k ∈ m) :
    (m.insert (keyClass k) v).keys.card = m.keys.card := by
  rw [keys_insert, Finset.insert_eq_of_mem (Finmap.mem_keys.mpr present)]

theorem card_erase_of_mem (present : keyClass k ∈ m) :
    (m.erase (keyClass k)).keys.card + 1 = m.keys.card := by
  rw [Finmap.keys_erase]
  exact Finset.card_erase_add_one (Finmap.mem_keys.mpr present)

theorem erase_of_notMem (absent : keyClass k ∉ m) : m.erase (keyClass k) = m := by
  refine Finmap.ext_lookup fun q => ?_
  by_cases here : q = keyClass k
  · rw [here, Finmap.lookup_erase, Finmap.lookup_eq_none.mpr absent]
  · exact Finmap.lookup_erase_ne here

/-- As many nodes as keys, when every key has one node. -/
theorem Tabulates.card_eq (h : Tabulates pairs m) {σ : Type} (nodes : Finset σ) (key : σ → κ)
    (distinct : ∀ i ∈ nodes, ∀ j ∈ nodes, key i ≈ key j → i = j)
    (paired : ∀ k, (∃ v, pairs k v) ↔ ∃ i ∈ nodes, key i = k) :
    nodes.card = m.keys.card := by
  refine Finset.card_bij (fun i _ => keyClass (key i)) (fun i member => ?_)
    (fun i member j member' same => ?_) (fun q member => ?_)
  · obtain ⟨v, pair⟩ := (paired (key i)).mpr ⟨i, member, rfl⟩
    exact Finmap.mem_keys.mpr (h.mem pair)
  · exact distinct i member j member' (keyClass_eq.mp same)
  · obtain ⟨v, found⟩ := Finmap.mem_iff.mp (Finmap.mem_keys.mp member)
    obtain ⟨k, pair, same⟩ := (h q v).mp found
    obtain ⟨i, member, eq⟩ := (paired k).mp ⟨v, pair⟩
    exact ⟨i, member, by rw [eq]; exact same⟩

end Tabulates

/-! ## Commands -/

namespace Dictionary

variable {κ ν : Type} [HashedKey κ]

inductive Command (κ ν : Type)
  | add (v : ν) (k : κ)
  | put (v : ν) (k : κ)
  | remove (k : κ)
  | setItem (v : ν) (index : Int)
  | clearCount
  | clearCountAndCapacity

/-- The precondition of a command. -/
def Command.Allowed (m : FiniteMap κ ν) : Command κ ν → Prop
  | .add _ k => keyClass k ∉ m
  | .setItem _ index => 1 ≤ index ∧ index ≤ m.keys.card
  | _ => True

/-- What a command does to the map; `keyAt` is the query `key`, which names the pair that
`set_item` writes. -/
def Command.update (m : FiniteMap κ ν) (keyAt : Int → Option κ) : Command κ ν → FiniteMap κ ν
  | .add v k | .put v k => m.insert (keyClass k) v
  | .remove k => m.erase (keyClass k)
  | .setItem v index => (keyAt index).elim m fun k => m.insert (keyClass k) v
  | .clearCount | .clearCountAndCapacity => ∅

end Dictionary

end Liberty
