import CFLite.Collections.BasicHashProbes

/-!
# The buckets of `CFBasicHash` as slots

The arrays of a table say, bucket by bucket, what the slots of an open-addressing
table hold. A step that changes one bucket changes one slot, and the two loops
that look for a bucket are the walks along a path of probes.

* `Holds`: the arrays of a table hold the slots;
* `findBucketUnchecked_eq`, `findBucketNoCollision_eq`: the loops;
* `Holds.getValue_live`, `Holds.getKey_live`, `Holds.count_live`: what a live bucket gives.
-/

namespace CFLite.BasicHash

open Framework

/-! ## Words and cells -/

theorem ok_bind {α β : Type} (a : α) (f : α → Except Fault β) : (Except.ok a >>= f) = f a := rfl

theorem pure_eq_ok {α : Type} (a : α) : (pure a : Except Fault α) = .ok a := rfl

theorem stored_ne_zero (word : Word) : stored word ≠ 0 := by
  unfold stored
  split
  · decide
  · split
    · decide
    · assumption

theorem stored_ne_allOnes (word : Word) : stored word ≠ allOnes := by
  unfold stored
  split
  · decide
  · split
    · decide
    · assumption

/-- A word that is not one of the substitutes is read back as it was. -/
theorem unstored_stored {word : Word} (h : reserved word = false) : unstored (stored word) = word := by
  simp only [reserved, Bool.or_eq_false_iff, decide_eq_false_iff_not] at h
  unfold stored
  split
  next h0 => rw [h0]; rfl
  next =>
    split
    next h1 => rw [h1]; rfl
    next => rw [unstored, if_neg h.1, if_neg h.2]

theorem cell_of_getElem? {α : Type} {xs : List α} {j : Nat} {x : α} (h : xs[j]? = some x) : cell xs j = .ok x := by
  show cell xs (.ofNat j) = .ok x
  rw [cell, h]

theorem setCell_of_getElem? {α : Type} {xs : List α} {j : Nat} {x : α} (h : xs[j]? = some x) (new : α) :
    setCell xs j new = .ok (xs.set j new) := by
  rw [setCell, cell_of_getElem? h]
  rfl

/-! ## Slots -/

/-- What a live bucket holds: the key it is found for, its value, its count and
the hash code that is cached for it. -/
structure Entry where
  key : Word
  value : Word
  count : Nat
  hash : Word
  deriving DecidableEq

/-- What stands in the four arrays for a slot. -/
def rawValue : Slot Entry → Word
  | .empty => 0
  | .deleted => allOnes
  | .live e => stored e.value

def rawKey : Slot Entry → Word
  | .empty => 0
  | .deleted => allOnes
  | .live e => stored e.key

def rawCount : Slot Entry → Nat
  | .live e => e.count
  | _ => 0

def rawHash : Slot Entry → Word
  | .live e => e.hash
  | _ => 0

/-- An entry that a table with the flags and the width of `ht` can hold. -/
structure Fits (ht : CFBasicHash) (e : Entry) : Prop where
  key : reserved e.key = false
  value : reserved e.value = false
  keyed : ht.hasKeys = false → e.key = e.value
  pos : 0 < e.count
  count : e.count ≤ if ht.hasCounts then countMax ht.countsWidth else 1

/-- The arrays of `ht` hold `slots`. -/
structure Holds (ht : CFBasicHash) (slots : List (Slot Entry)) : Prop where
  length : slots.length = tableSize ht.numBucketsIdx
  values : ht.values = slots.map rawValue
  keys : ht.hasKeys → ht.keys = slots.map rawKey
  counts : ht.hasCounts → ht.counts = slots.map rawCount
  hashes : ht.hasHashCache → ht.hashes = slots.map rawHash
  fits : ∀ e ∈ entries slots, Fits ht e
  width : ht.countsWidth ≤ 3

section

variable {ht : CFBasicHash} {slots : List (Slot Entry)} {j : Nat} {s : Slot Entry} {e : Entry}

theorem cell_map (hs : slots[j]? = some s) {α : Type} (f : Slot Entry → α) : cell (slots.map f) j = .ok (f s) := by
  refine cell_of_getElem? ?_
  rw [List.getElem?_map, hs]
  rfl

theorem setCell_map (hs : slots[j]? = some s) {α : Type} (f : Slot Entry → α) (new : α) :
    setCell (slots.map f) j new = .ok ((slots.map f).set j new) := by
  refine setCell_of_getElem? (x := f s) ?_ new
  rw [List.getElem?_map, hs]
  rfl

namespace Holds

theorem fits_of_live (h : Holds ht slots) (hs : slots[j]? = some (.live e)) : Fits ht e :=
  h.fits e (mem_entries_iff.mpr ⟨j, hs⟩)

theorem cell_values (h : Holds ht slots) (hs : slots[j]? = some s) : cell ht.values j = .ok (rawValue s) := by
  rw [h.values]
  exact cell_map hs _

theorem cell_keys (h : Holds ht slots) (hk : ht.hasKeys) (hs : slots[j]? = some s) :
    cell ht.keys j = .ok (rawKey s) := by
  rw [h.keys hk]
  exact cell_map hs _

theorem cell_counts (h : Holds ht slots) (hk : ht.hasCounts) (hs : slots[j]? = some s) :
    cell ht.counts j = .ok (rawCount s) := by
  rw [h.counts hk]
  exact cell_map hs _

theorem cell_hashes (h : Holds ht slots) (hk : ht.hasHashCache) (hs : slots[j]? = some s) :
    cell ht.hashes j = .ok (rawHash s) := by
  rw [h.hashes hk]
  exact cell_map hs _

/-- The array that is searched is that of the keys of the entries. -/
theorem probedKeys_eq (h : Holds ht slots) : ht.probedKeys = slots.map rawKey := by
  unfold CFBasicHash.probedKeys
  split
  next hk => exact h.keys hk
  next hk =>
    rw [h.values]
    refine List.map_congr_left fun s hs => ?_
    cases s with
    | empty => rfl
    | deleted => rfl
    | live e =>
      rw [rawValue, rawKey, (h.fits e (mem_entries.mpr hs)).keyed (Bool.eq_false_iff.mpr hk)]

theorem isEmptyOrDeleted_free (h : Holds ht slots) (hs : slots[j]? = some s) (hfree : s.Free) :
    ht.isEmptyOrDeleted j = .ok true := by
  rw [CFBasicHash.isEmptyOrDeleted, h.cell_values hs]
  cases s with
  | empty => rfl
  | deleted => rfl
  | live e => cases hfree

theorem isEmptyOrDeleted_live (h : Holds ht slots) (hs : slots[j]? = some (.live e)) :
    ht.isEmptyOrDeleted j = .ok false := by
  rw [CFBasicHash.isEmptyOrDeleted, h.cell_values hs, ok_bind, rawValue, decide_eq_false (stored_ne_zero _),
    decide_eq_false (stored_ne_allOnes _)]
  rfl

theorem getValue_live (h : Holds ht slots) (hs : slots[j]? = some (.live e)) : ht.getValue j = .ok e.value := by
  rw [CFBasicHash.getValue, h.cell_values hs, ok_bind, rawValue, unstored_stored (h.fits_of_live hs).value]
  rfl

theorem getKey_live (h : Holds ht slots) (hs : slots[j]? = some (.live e)) : ht.getKey j = .ok e.key := by
  unfold CFBasicHash.getKey
  split
  next hk =>
    rw [h.cell_keys hk hs, ok_bind, rawKey, unstored_stored (h.fits_of_live hs).key]
    rfl
  next hk => rw [h.getValue_live hs, (h.fits_of_live hs).keyed (Bool.eq_false_iff.mpr hk)]

/-- The count of a bucket, with or without an array of counts. -/
theorem count_live (h : Holds ht slots) (hs : slots[j]? = some (.live e)) :
    (if ht.hasCounts then ht.getSlotCount j else .ok 1) = .ok e.count := by
  have hfits := h.fits_of_live hs
  split
  next hk => exact h.cell_counts hk hs
  next hk =>
    have hle := hfits.count
    rw [if_neg hk] at hle
    rw [show e.count = 1 from le_antisymm hle hfits.pos]

end Holds

/-! ## Looking for a bucket -/

/-- Whether a lookup for `stackKey` stops at `e`. -/
def sameEntry (ht : CFBasicHash) (stackKey hashCode : Word) (e : Entry) : Bool :=
  e.key = stackKey || (!ht.hasHashCache || e.hash = hashCode) && ht.callbacks.equateKeys e.key stackKey

/-- The index that stands for a bucket, or for none. -/
def idxOf : Option Nat → Int
  | some idx => idx
  | none => kCFNotFound

/-- The result of a lookup as a `CFBasicHashBucket`. -/
def bucketOf : Found Entry → Bucket
  | .found idx e => ⟨idx, e.key, e.value, e.count⟩
  | .vacant idx => ⟨idxOf idx, 0, 0, 0⟩

theorem firstIdx_idxOf (deleted : Option Nat) (probe : Nat) :
    CFBasicHash.firstIdx (idxOf deleted) probe = idxOf (deleted.or (some probe)) := by
  cases deleted with
  | none => rfl
  | some d => exact if_neg (by simp only [idxOf, kCFNotFound]; omega)

theorem sameKey_eq (h : Holds ht slots) (hs : slots[j]? = some (.live e)) (stackKey hashCode : Word) :
    ht.sameKey j e.key stackKey hashCode = .ok (sameEntry ht stackKey hashCode e) := by
  unfold CFBasicHash.sameKey sameEntry
  by_cases heq : e.key = stackKey
  · rw [if_pos heq, decide_eq_true heq, Bool.true_or]
    rfl
  · rw [if_neg heq, decide_eq_false heq, Bool.false_or]
    by_cases hk : ht.hasHashCache
    · rw [if_pos hk, h.cell_hashes hk hs, ok_bind, hk]
      rfl
    · rw [if_neg hk, Bool.eq_false_iff.mpr hk]
      rfl

/-- The loop is the lookup along the probes. -/
theorem findLoop_eq (h : Holds ht slots) (p : Probes) (stackKey hashCode : Word) {rest probe acc : Nat}
    (deleted : Option Nat) (hin : ∀ q ∈ p.walk rest probe acc, q < slots.length) :
    ht.findLoop p stackKey hashCode rest probe acc (idxOf deleted) =
      .ok (bucketOf (search slots (sameEntry ht stackKey hashCode) deleted (p.walk rest probe acc))) := by
  induction rest generalizing probe acc deleted with
  | zero => rfl
  | succ rest ih =>
    have hrest := fun deleted => ih deleted fun q hq => hin q (List.mem_cons_of_mem _ hq)
    obtain ⟨s, hs⟩ : ∃ s, slots[probe]? = some s :=
      ⟨_, List.getElem?_eq_getElem (hin probe List.mem_cons_self)⟩
    rw [CFBasicHash.findLoop, h.probedKeys_eq, cell_map hs, Probes.walk, search, hs]
    simp only [ok_bind, pure_eq_ok]
    cases s with
    | empty => rw [rawKey, if_pos rfl, firstIdx_idxOf]; rfl
    | deleted => rw [rawKey, if_neg (by decide), if_pos rfl, firstIdx_idxOf, hrest]
    | live e =>
      rw [rawKey, if_neg (stored_ne_zero _), if_neg (stored_ne_allOnes _), unstored_stored (h.fits_of_live hs).key,
        sameKey_eq h hs]
      simp only [ok_bind]
      by_cases hsame : sameEntry ht stackKey hashCode e
      · simp only [hsame, if_true, h.getValue_live hs, h.count_live hs, ok_bind]
        rfl
      · rw [if_neg hsame, if_neg hsame, hrest]

theorem findLoopNoCollision_eq (h : Holds ht slots) (p : Probes) {rest probe acc : Nat}
    (hin : ∀ q ∈ p.walk rest probe acc, q < slots.length) :
    ht.findLoopNoCollision p rest probe acc = .ok (idxOf (firstEmpty slots (p.walk rest probe acc))) := by
  induction rest generalizing probe acc with
  | zero => rfl
  | succ rest ih =>
    have hrest := ih fun q hq => hin q (List.mem_cons_of_mem _ hq)
    obtain ⟨s, hs⟩ : ∃ s, slots[probe]? = some s :=
      ⟨_, List.getElem?_eq_getElem (hin probe List.mem_cons_self)⟩
    rw [CFBasicHash.findLoopNoCollision, h.probedKeys_eq, cell_map hs, Probes.walk, firstEmpty, List.find?_cons]
    simp only [ok_bind, isEmptyAt, hs]
    cases s with
    | empty => rw [rawKey, if_pos rfl]; rfl
    | deleted => rw [rawKey, if_neg (by decide), hrest]; rfl
    | live e => rw [rawKey, if_neg (stored_ne_zero _), hrest]; rfl

/-- The probes of `ht` for a hash code. -/
def pathOf (ht : CFBasicHash) (hashCode : Word) : List Nat := path ht.hashStyle ht.numBucketsIdx hashCode

theorem pathOf_lt (h : Holds ht slots) (h0 : 0 < ht.numBucketsIdx) (hidx : ht.numBucketsIdx ≤ lastIdx)
    (hashCode : Word) : ∀ q ∈ pathOf ht hashCode, q < slots.length := by
  rw [h.length]
  exact path_lt h0 hidx

/-- The lookup for `stackKey`; a table without buckets has no free one either. -/
def lookup (ht : CFBasicHash) (slots : List (Slot Entry)) (stackKey : Word) : Found Entry :=
  if ht.numBucketsIdx = 0 then .vacant none
  else search slots (sameEntry ht stackKey (ht.callbacks.hashKey stackKey)) none
    (pathOf ht (ht.callbacks.hashKey stackKey))

theorem findBucketUnchecked_eq (h : Holds ht slots) (hidx : ht.numBucketsIdx ≤ lastIdx) (stackKey : Word) :
    ht.findBucketUnchecked stackKey = .ok (bucketOf (lookup ht slots stackKey)) := by
  unfold CFBasicHash.findBucketUnchecked lookup
  split
  next => rfl
  next h0 =>
    have hpos := Nat.pos_of_ne_zero h0
    rw [if_neg (show ht.getNumBuckets ≠ 0 from (tableSize_prime hpos hidx).ne_zero)]
    exact findLoop_eq h _ _ _ none (pathOf_lt h hpos hidx _)

theorem findBucketNoCollision_eq (h : Holds ht slots) (h0 : 0 < ht.numBucketsIdx) (hidx : ht.numBucketsIdx ≤ lastIdx)
    (stackKey keyHash : Word) :
    ht.findBucketNoCollision stackKey keyHash =
      .ok (idxOf (firstEmpty slots (pathOf ht (if keyHash = 0 then ht.callbacks.hashKey stackKey else keyHash)))) := by
  unfold CFBasicHash.findBucketNoCollision
  rw [if_neg h0.ne', if_neg (show ht.getNumBuckets ≠ 0 from (tableSize_prime h0 hidx).ne_zero)]
  exact findLoopNoCollision_eq h _ (pathOf_lt h h0 hidx _)

end

end CFLite.BasicHash
