import Liberty.Numeric.Integer32
import Liberty.Storage.Dictionary
import Liberty.Storage.NodeHeap

/-!
# HASH_TABLE_SIZE

The sizes of the hash tables: the capacity is one of a few primes, and it grows once two
thirds of it are used.
-/

namespace Liberty

namespace HashTableSize

/-- `prime_number_ceiling` -/
def primeNumberCeiling (integer : Int) : Int :=
  if integer ≤ 98317 then
    if integer ≤ 769 then
      if integer ≤ 53 then
        if integer ≤ 11 then
          if integer ≤ 3 then 3 else 11
        else if integer ≤ 23 then 23
        else 53
      else
        if integer ≤ 193 then
          if integer ≤ 97 then 97 else 193
        else
          if integer ≤ 389 then 389 else 769
    else
      if integer ≤ 12289 then
        if integer ≤ 3079 then
          if integer ≤ 1543 then 1543 else 3079
        else
          if integer ≤ 6151 then 6151 else 12289
      else
        if integer ≤ 24593 then 24593
        else if integer ≤ 49157 then 49157
        else 98317
  else
    if integer ≤ 12582917 then
      if integer ≤ 1572869 then
        if integer ≤ 393241 then
          if integer ≤ 196613 then 196613 else 393241
        else
          if integer ≤ 786433 then 786433 else 1572869
      else
        if integer ≤ 3145739 then 3145739
        else if integer ≤ 6291469 then 6291469
        else 12582917
    else
      if integer ≤ 201326611 then
        if integer ≤ 50331653 then
          if integer ≤ 25165843 then 25165843 else 50331653
        else
          if integer ≤ 100663319 then 100663319 else 201326611
      else
        if integer ≤ 805306457 then
          if integer ≤ 402653189 then 402653189 else 805306457
        else
          if integer ≤ 1610612741 then 1610612741 else 2147483647

/-- `prime_capacity` -/
def primeCapacity (aCapacity : Int) : Int :=
  let result := wrap32 (aCapacity + aCapacity / 2)
  if result ≥ 0 then primeNumberCeiling result else primeNumberCeiling maximumInteger

/-- `should_increase_capacity` -/
def shouldIncreaseCapacity (aCapacity aCount : Int) : Bool :=
  decide (aCount > wrap32 (aCapacity / 3 * 2)) && decide (aCapacity < maximumInteger)

/-- `hash_code #\\ capacity`: the bucket of a key. -/
def bucketIndex {κ : Type} [HashedKey κ] (capacity : Int) (k : κ) : Int :=
  (hashCode k).tmod capacity

theorem bucketIndex_congr {κ : Type} [HashedKey κ] {k l : κ} (same : k ≈ l) (c : Int) :
    bucketIndex c k = bucketIndex c l := by
  unfold bucketIndex
  rw [hashCode_congr same]

theorem exists_bucketIndex {κ : Type} [HashedKey κ] (k : κ) {n : ℕ} (pos : 0 < n) :
    ∃ i < n, bucketIndex n k = (i : Int) := by
  have nonneg := HashedKey.hashCode_nonneg k
  have less := Int.emod_lt_of_pos (hashCode k) (show (0 : Int) < n by omega)
  have low := Int.emod_nonneg (hashCode k) (show (n : Int) ≠ 0 by omega)
  refine ⟨(hashCode k % n).toNat, by omega, ?_⟩
  unfold bucketIndex
  rw [Int.tmod_eq_emod_of_nonneg nonneg]
  omega

theorem primeNumberCeiling_ge {integer : Int} (high : integer ≤ 2147483647) :
    integer ≤ primeNumberCeiling integer ∧ 3 ≤ primeNumberCeiling integer ∧
      primeNumberCeiling integer ≤ 2147483647 := by
  unfold primeNumberCeiling
  repeat' split
  all_goals omega

/-- A capacity that is asked for is reached, inside the INTEGER_32 range. -/
theorem primeCapacity_ge {aCapacity : Int} (low : 0 ≤ aCapacity)
    (high : aCapacity ≤ 2147483647) :
    aCapacity ≤ primeCapacity aCapacity ∧ 3 ≤ primeCapacity aCapacity ∧
      primeCapacity aCapacity ≤ 2147483647 := by
  unfold primeCapacity
  dsimp only
  by_cases fits : aCapacity + aCapacity / 2 ≤ 2147483647
  · rw [wrap32_of_inRange (by omega) fits, if_pos (by omega)]
    have := primeNumberCeiling_ge fits
    omega
  · have negative := wrap32_neg (n := aCapacity + aCapacity / 2) (by omega) (by omega)
    have := primeNumberCeiling_ge (le_refl 2147483647)
    unfold maximumInteger
    omega

theorem lt_of_shouldIncreaseCapacity {aCapacity aCount : Int}
    (should : shouldIncreaseCapacity aCapacity aCount = true) : aCapacity < 2147483647 := by
  unfold shouldIncreaseCapacity maximumInteger at should
  rw [Bool.and_eq_true, decide_eq_true_iff, decide_eq_true_iff] at should
  exact should.2

end HashTableSize

end Liberty
