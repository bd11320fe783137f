import CFLite.Framework.Buckets

/-!
# `CFBitVector`

A bit vector keeps its bits in bytes, bit 0 of a byte being its most
significant one. `CFBitVectorSetCount` reallocates the bytes for a larger count
and clears the bits that come into use; a smaller count leaves the bytes as they
are. Operations on a range go through `internalMap`, which hands a mapper the
first bucket of the range, its whole buckets and its last one.

* `internalMap_spec`: a mapper that acts on bits acts on exactly those of the
  range, and sees them in their order;
* `run_refines`: every sequence of operations does to the bits what it does to
  a list of booleans, and every query afterwards answers for that list.

Counts are natural numbers. What `realloc` leaves in the bytes it adds is part
of the operation.
-/

namespace CFLite.BitVector

open Framework

/-! ## The code -/

/-- `__CFBitVectorBucket` -/
abbrev Bucket := BitVec 8

abbrev CFBit := Nat

/-- `struct __CFBitVector` of a mutable bit vector. -/
structure CFBitVector where
  count : Nat
  capacity : Nat
  buckets : List Bucket

/-- `__CFBitVectorRoundUpCapacity` -/
def roundUpCapacity (capacity : Nat) : Nat :=
  let capacity := if capacity = 0 then 1 else capacity
  (capacity + 63) / 64 * 64

/-- `__CFBitVectorNumBuckets` -/
def numBuckets (capacity : Nat) : Nat := capacity / 8 + 1

/-- `__CFBitBucketMask` -/
def bitBucketMask (bottomBit topBit : Nat) : Bucket :=
  let shiftL := 8 - topBit + bottomBit - 1
  (BitVec.allOnes 8 <<< shiftL) >>> bottomBit

/-- `__CFBitVectorBit` -/
def bit (buckets : List Bucket) (idx : Nat) : Option CFBit := do
  let bucket ← buckets[idx / 8]?
  return ((bucket >>> (7 - idx % 8)) &&& 1).toNat

/-- `__CFSetBitVectorBit` -/
def setBit (buckets : List Bucket) (idx : Nat) (value : CFBit) : Option (List Bucket) := do
  let bucket ← buckets[idx / 8]?
  if value ≠ 0 then
    write buckets (idx / 8) (bucket ||| (1#8 <<< (7 - idx % 8)))
  else
    write buckets (idx / 8) (bucket &&& ~~~(1#8 <<< (7 - idx % 8)))

/-- `__CFFlipBitVectorBit` -/
def flipBit (buckets : List Bucket) (idx : Nat) : Option (List Bucket) := do
  let bucket ← buckets[idx / 8]?
  write buckets (idx / 8) (bucket ^^^ (1#8 <<< (7 - idx % 8)))

/-- `__CFInternalMapper`: the new bucket from the bucket, the mask of its bits
that count and the context. -/
abbrev Mapper (σ : Type) := Bucket → Bucket → σ → Bucket × σ

variable {σ : Type}

/-- One bucket of which only the bits of the mask belong to the range. -/
def mapBits (mapper : Mapper σ) (buckets : List Bucket) (bucketIdx : Nat) (bucketValMask : Bucket) (context : σ) :
    Option (List Bucket × σ) := do
  let bucket ← buckets[bucketIdx]?
  let (newBucketVal, context) := mapper bucket bucketValMask context
  let buckets ← write buckets bucketIdx ((bucket &&& ~~~bucketValMask) ||| (newBucketVal &&& bucketValMask))
  return (buckets, context)

/-- `while (nBuckets--)`: the entire buckets of the range. -/
def mapBuckets (mapper : Mapper σ) : (nBuckets : Nat) → (buckets : List Bucket) → (bucketIdx : Nat) →
    (context : σ) → Option (List Bucket × σ)
  | 0, buckets, _, context => some (buckets, context)
  | nBuckets + 1, buckets, bucketIdx, context => do
    let bucket ← buckets[bucketIdx]?
    let (newBucketVal, context) := mapper bucket (BitVec.allOnes 8) context
    let buckets ← write buckets bucketIdx newBucketVal
    mapBuckets mapper nBuckets buckets (bucketIdx + 1) context

/-- `__CFBitVectorInternalMap` -/
def internalMap (mapper : Mapper σ) (buckets : List Bucket) (location length : Nat) (context : σ) :
    Option (List Bucket × σ) :=
  if length = 0 then some (buckets, context) else do
  let bucketIdx := location / 8
  let bitOfBucket := location % 8
  -- ramping up to a bucket boundary
  let (bucketValMask, length) :=
    if bitOfBucket + length < 8 then (bitBucketMask bitOfBucket (bitOfBucket + length - 1), 0)
    else (bitBucketMask bitOfBucket 7, length - (8 - bitOfBucket))
  let (buckets, context) ← mapBits mapper buckets bucketIdx bucketValMask context
  let bucketIdx := bucketIdx + 1
  -- entire buckets
  let nBuckets := length / 8
  let length := length - nBuckets * 8
  let (buckets, context) ← mapBuckets mapper nBuckets buckets bucketIdx context
  -- the last fragmentary bucket
  if length ≠ 0 then
    mapBits mapper buckets (bucketIdx + nBuckets) (bitBucketMask 0 (length - 1)) context
  else
    return (buckets, context)

/-- `__CFNibbleBitCount` -/
def nibbleBitCount : List Nat := [0, 1, 1, 2, 1, 2, 2, 3, 1, 2, 2, 3, 2, 3, 3, 4]

/-- `__CFBitVectorCountBits`, its context being the count so far. -/
def countBits (value : CFBit) : Mapper Nat := fun bucketValue bucketValueMask count =>
  let val := if value ≠ 0 then bucketValue &&& bucketValueMask else ~~~bucketValue &&& bucketValueMask
  let count := count + nibbleBitCount.getD (val &&& 15).toNat 0
  let val := val >>> 4
  let count := count + nibbleBitCount.getD (val &&& 15).toNat 0
  (bucketValue, count)

/-- `__CFBitVectorZeroBits` -/
def zeroBits : Mapper Unit := fun _ _ _ => (0, ())

/-- `__CFBitVectorOneBits` -/
def oneBits : Mapper Unit := fun _ _ _ => (~~~0, ())

/-- `__CFBitVectorFlipBits` -/
def flipMapper : Mapper Unit := fun bucketValue _ _ => (~~~0 ^^^ bucketValue, ())

namespace CFBitVector

/-- `__CFBitVectorInit`. The buckets of `bytes`, if any, go over the cleared
ones. -/
def init (bytes : List Bucket) (numBits : Nat) : CFBitVector :=
  let capacity := roundUpCapacity numBits
  ⟨numBits, capacity, bytes ++ List.replicate (numBuckets capacity - bytes.length) 0⟩

/-- `CFBitVectorCreateMutable` -/
def createMutable (_capacity : Nat) : CFBitVector := init [] 0

/-- `CFBitVectorCreateMutableCopy` -/
def createMutableCopy (_capacity : Nat) (bv : CFBitVector) : Option CFBitVector :=
  let numBytes := bv.count / 8 + if bv.count % 8 ≠ 0 then 1 else 0
  if numBytes ≤ bv.buckets.length then some (init (bv.buckets.take numBytes) bv.count) else none

/-- `CFBitVectorGetCount` -/
def getCount (bv : CFBitVector) : Nat := bv.count

/-- `CFBitVectorGetCountOfBit` -/
def getCountOfBit (bv : CFBitVector) (location length : Nat) (value : CFBit) : Option Nat :=
  if length = 0 then some 0 else do
  let (_, count) ← internalMap (countBits value) bv.buckets location length 0
  return count

/-- `CFBitVectorContainsBit` -/
def containsBit (bv : CFBitVector) (location length : Nat) (value : CFBit) : Option Bool := do
  let count ← bv.getCountOfBit location length value
  return if count ≠ 0 then true else false

/-- `CFBitVectorGetBitAtIndex` -/
def getBitAtIndex (bv : CFBitVector) (idx : Nat) : Option CFBit := bit bv.buckets idx

/-- `for (idx = from; idx < range.length; idx++)`, with `n` indexes left. -/
def firstIndexFrom (bv : CFBitVector) (value : CFBit) : (n : Nat) → (idx : Nat) → Option Int
  | 0, _ => some (-1)
  | n + 1, idx => do
    if value = (← bv.getBitAtIndex idx) then return idx
    firstIndexFrom bv value n (idx + 1)

/-- `CFBitVectorGetFirstIndexOfBit`, with -1 for `kCFNotFound`. -/
def getFirstIndexOfBit (bv : CFBitVector) (location length : Nat) (value : CFBit) : Option Int :=
  firstIndexFrom bv value length location

/-- `CFBitVectorGetLastIndexOfBit`, with -1 for `kCFNotFound`. -/
def getLastIndexOfBit (bv : CFBitVector) (location : Nat) : (length : Nat) → (value : CFBit) → Option Int
  | 0, _ => some (-1)
  | idx + 1, value => do
    if value = (← bv.getBitAtIndex (location + idx)) then return (location + idx : Nat)
    getLastIndexOfBit bv location idx value

/-- `__CFBitVectorGrow`. New bytes hold `junk`. -/
def grow (bv : CFBitVector) (junk : Nat → Bucket) (numNewValues : Nat) : CFBitVector :=
  let capacity := roundUpCapacity (bv.count + numNewValues)
  { bv with capacity, buckets := reallocate junk bv.buckets (numBuckets capacity) }

/-- `CFBitVectorSetCount` -/
def setCount (bv : CFBitVector) (junk : Nat → Bucket) (count : Nat) : Option CFBitVector := do
  let cnt := bv.count
  let bv := if cnt < count then bv.grow junk (count - cnt) else bv
  let buckets ← if cnt < count then
      (internalMap zeroBits bv.buckets cnt (count - cnt) ()).map Prod.fst
    else some bv.buckets
  return { bv with buckets, count }

/-- `CFBitVectorFlipBitAtIndex` -/
def flipBitAtIndex (bv : CFBitVector) (idx : Nat) : Option CFBitVector := do
  let buckets ← flipBit bv.buckets idx
  return { bv with buckets }

/-- `CFBitVectorFlipBits` -/
def flipBits (bv : CFBitVector) (location length : Nat) : Option CFBitVector :=
  if length = 0 then some bv else do
  let (buckets, _) ← internalMap flipMapper bv.buckets location length ()
  return { bv with buckets }

/-- `CFBitVectorSetBitAtIndex` -/
def setBitAtIndex (bv : CFBitVector) (idx : Nat) (value : CFBit) : Option CFBitVector := do
  let buckets ← setBit bv.buckets idx value
  return { bv with buckets }

/-- `CFBitVectorSetBits` -/
def setBits (bv : CFBitVector) (location length : Nat) (value : CFBit) : Option CFBitVector :=
  if length = 0 then some bv else do
  let (buckets, _) ←
    if value ≠ 0 then internalMap oneBits bv.buckets location length ()
    else internalMap zeroBits bv.buckets location length ()
  return { bv with buckets }

/-- `CFBitVectorSetAllBits` -/
def setAllBits (bv : CFBitVector) (value : CFBit) : Option CFBitVector := do
  let nBuckets := bv.count / 8
  let leftover := bv.count - nBuckets * 8
  let buckets ←
    (if 0 < leftover then
      if value ≠ 0 then (internalMap oneBits bv.buckets (nBuckets * 8) leftover ()).map Prod.fst
      else (internalMap zeroBits bv.buckets (nBuckets * 8) leftover ()).map Prod.fst
    else some bv.buckets)
  let buckets ← fill buckets (if value ≠ 0 then ~~~0 else 0) nBuckets
  return { bv with buckets }

end CFBitVector

/-! ## Bits -/

/-- Bit `i` of the buckets. -/
def bitAt (buckets : List Bucket) (i : Nat) : Bool := (buckets.getD (i / 8) 0).getMsbD (i % 8)

theorem getMsbD_bitBucketMask {bottomBit topBit : Nat} (hle : bottomBit ≤ topBit) (htop : topBit < 8) {j : Nat}
    (hj : j < 8) : (bitBucketMask bottomBit topBit).getMsbD j = decide (bottomBit ≤ j ∧ j ≤ topBit) := by
  have key : ∀ topBit < 8, ∀ bottomBit ≤ topBit, ∀ j < 8,
      (bitBucketMask bottomBit topBit).getMsbD j = decide (bottomBit ≤ j ∧ j ≤ topBit) := by decide
  exact key topBit htop bottomBit hle j hj

theorem bit_of_bucket (bucket : Bucket) {j : Nat} (hj : j < 8) :
    ((bucket >>> (7 - j)) &&& 1).toNat = (bucket.getMsbD j).toNat := by
  have key : ∀ bucket : Bucket, ∀ j < 8, ((bucket >>> (7 - j)) &&& 1).toNat = (bucket.getMsbD j).toNat := by
    decide +kernel
  exact key bucket j hj

theorem getMsbD_shift {i j : Nat} (hi : i < 8) (hj : j < 8) : (1#8 <<< (7 - i)).getMsbD j = decide (j = i) := by
  have key : ∀ i < 8, ∀ j < 8, (1#8 <<< (7 - i)).getMsbD j = decide (j = i) := by decide
  exact key i hi j hj

theorem bit_eq {buckets : List Bucket} {i : Nat} (h : i / 8 < buckets.length) :
    bit buckets i = some (bitAt buckets i).toNat := by
  rw [bit, List.getElem?_eq_getElem h, Option.bind_eq_bind, Option.bind_some, bit_of_bucket _ (Nat.mod_lt _ (by decide)),
    bitAt, List.getD_eq_getElem?_getD, List.getElem?_eq_getElem h]
  rfl

theorem bitAt_set (buckets : List Bucket) {k : Nat} (h : k < buckets.length) (bucket : Bucket) (i : Nat) :
    bitAt (buckets.set k bucket) i = if i / 8 = k then bucket.getMsbD (i % 8) else bitAt buckets i := by
  simp only [bitAt, List.getD_eq_getElem?_getD, List.getElem?_set, eq_comm (a := k)]
  split
  · simp
  · rfl

/-! ## One change of bits -/

/-- Bits `s`, …, `s + n - 1` become what `f` makes of them. -/
structure MapsBits (f : Bool → Bool) (buckets : List Bucket) (s n : Nat) (buckets' : List Bucket) : Prop where
  length : buckets'.length = buckets.length
  bit : ∀ i, bitAt buckets' i = if s ≤ i ∧ i < s + n then f (bitAt buckets i) else bitAt buckets i

theorem MapsBits.nothing (f : Bool → Bool) (buckets : List Bucket) (s : Nat) : MapsBits f buckets s 0 buckets :=
  ⟨rfl, fun i => by rw [if_neg (by omega)]⟩

theorem MapsBits.append {f : Bool → Bool} {buckets b₁ b₂ : List Bucket} {s n k : Nat}
    (h₁ : MapsBits f buckets s n b₁) (h₂ : MapsBits f b₁ (s + n) k b₂) : MapsBits f buckets s (n + k) b₂ := by
  refine ⟨h₂.length.trans h₁.length, fun i => ?_⟩
  rw [h₂.bit, h₁.bit]
  grind

/-- A change of bits inside one bucket. -/
theorem MapsBits.of_bucket {f : Bool → Bool} {buckets : List Bucket} {s n : Nat} (h : s / 8 < buckets.length)
    (hn : s % 8 + n ≤ 8) {bucket : Bucket}
    (hbit : ∀ j < 8, bucket.getMsbD j =
      if s % 8 ≤ j ∧ j < s % 8 + n then f (buckets[s / 8].getMsbD j) else buckets[s / 8].getMsbD j) :
    MapsBits f buckets s n (buckets.set (s / 8) bucket) := by
  refine ⟨List.length_set, fun i => ?_⟩
  rw [bitAt_set _ h]
  by_cases hi : i / 8 = s / 8
  · have hold : bitAt buckets i = buckets[s / 8].getMsbD (i % 8) := by
      simp [bitAt, hi, h]
    rw [if_pos hi, hbit _ (Nat.mod_lt _ (by decide)), hold]
    exact if_congr (by omega) rfl rfl
  · rw [if_neg hi, if_neg (by omega)]

theorem setBit_eq {buckets : List Bucket} {i : Nat} (h : i / 8 < buckets.length) (value : CFBit) :
    ∃ buckets', setBit buckets i value = some buckets' ∧
      MapsBits (fun _ => decide (value ≠ 0)) buckets i 1 buckets' := by
  have hi : i % 8 < 8 := Nat.mod_lt _ (by decide)
  rw [setBit, List.getElem?_eq_getElem h, Option.bind_eq_bind, Option.bind_some]
  split <;> rename_i hv <;> rw [write_eq h] <;>
    refine ⟨_, rfl, MapsBits.of_bucket h (by omega) fun j hj => ?_⟩ <;>
    simp only [BitVec.getMsbD_or, BitVec.getMsbD_and, BitVec.getMsbD_not, getMsbD_shift hi hj, hv, hj] <;>
    grind

theorem flipBit_eq {buckets : List Bucket} {i : Nat} (h : i / 8 < buckets.length) :
    ∃ buckets', flipBit buckets i = some buckets' ∧ MapsBits not buckets i 1 buckets' := by
  have hi : i % 8 < 8 := Nat.mod_lt _ (by decide)
  rw [flipBit, List.getElem?_eq_getElem h, Option.bind_eq_bind, Option.bind_some, write_eq h]
  refine ⟨_, rfl, MapsBits.of_bucket h (by omega) fun j hj => ?_⟩
  simp only [BitVec.getMsbD_xor, getMsbD_shift hi hj]
  grind

/-! ## The range mapper -/

/-- The bits `s`, …, `s + n - 1`. -/
def bitsFrom (buckets : List Bucket) (s n : Nat) : List Bool := (List.range' s n).map (bitAt buckets)

/-- What a mapper does to the bits it is shown: it makes `f` of each, and `g` of
all of them and the context. -/
structure Acts (mapper : Mapper σ) (f : Bool → Bool) (g : List Bool → σ → σ) : Prop where
  bit : ∀ bucket mask context, ∀ j < 8, mask.getMsbD j = true →
    (mapper bucket mask context).1.getMsbD j = f (bucket.getMsbD j)
  context : ∀ bucket mask context, (mapper bucket mask context).2 =
    g (((List.range 8).filter mask.getMsbD).map bucket.getMsbD) context
  nil : ∀ context, g [] context = context
  append : ∀ xs ys context, g (xs ++ ys) context = g ys (g xs context)

/-- The outcome of mapping the bits `s`, …, `s + n - 1`. -/
structure Mapped (f : Bool → Bool) (g : List Bool → σ → σ) (buckets : List Bucket) (s n : Nat) (context : σ)
    (r : List Bucket × σ) : Prop where
  bits : MapsBits f buckets s n r.1
  context : r.2 = g (bitsFrom buckets s n) context

section Mapping

variable {mapper : Mapper σ} {f : Bool → Bool} {g : List Bool → σ → σ} {buckets : List Bucket} {s n : Nat}
  {context : σ}

theorem Mapped.append {k : Nat} {r₁ r₂ : List Bucket × σ} (hm : Acts mapper f g)
    (h₁ : Mapped f g buckets s n context r₁) (h₂ : Mapped f g r₁.1 (s + n) k r₁.2 r₂) :
    Mapped f g buckets s (n + k) context r₂ := by
  refine ⟨h₁.bits.append h₂.bits, ?_⟩
  have hbits : bitsFrom r₁.1 (s + n) k = bitsFrom buckets (s + n) k :=
    List.map_congr_left fun i hi => by
      rw [List.mem_range'_1] at hi
      rw [h₁.bits.bit, if_neg (by omega)]
  rw [h₂.context, h₁.context, hbits, ← hm.append, bitsFrom, bitsFrom, bitsFrom, ← List.map_append,
    List.range'_append_1]

/-- The bits of one bucket under a mask, in order. -/
theorem masked_bits (h : s / 8 < buckets.length) (hn : s % 8 + n ≤ 8) {mask : Bucket}
    (hmask : ∀ j < 8, mask.getMsbD j = decide (s % 8 ≤ j ∧ j < s % 8 + n)) :
    ((List.range 8).filter mask.getMsbD).map buckets[s / 8].getMsbD = bitsFrom buckets s n := by
  have hrange : ∀ a < 8, ∀ n ≤ 8 - a,
      (List.range 8).filter (fun j => decide (a ≤ j ∧ j < a + n)) = List.range' a n := by decide
  have hfilter : (List.range 8).filter mask.getMsbD = List.range' (s % 8) n := by
    rw [← hrange _ (Nat.mod_lt s (by decide)) n (by omega)]
    exact List.filter_congr fun j hj => hmask j (List.mem_range.mp hj)
  have hshift : List.range' s n = (List.range' (s % 8) n).map (8 * (s / 8) + ·) := by
    rw [List.map_add_range', Nat.div_add_mod]
  rw [hfilter, bitsFrom, hshift, List.map_map]
  refine List.map_congr_left fun j hj => ?_
  rw [List.mem_range'_1] at hj
  simp only [Function.comp, bitAt, show (8 * (s / 8) + j) / 8 = s / 8 by omega,
    show (8 * (s / 8) + j) % 8 = j by omega, List.getD_eq_getElem?_getD, List.getElem?_eq_getElem h,
    Option.getD_some]

theorem mapBits_spec (hm : Acts mapper f g) (context : σ) (h : s / 8 < buckets.length) (hn : s % 8 + n ≤ 8) {mask : Bucket}
    (hmask : ∀ j < 8, mask.getMsbD j = decide (s % 8 ≤ j ∧ j < s % 8 + n)) :
    ∃ r, mapBits mapper buckets (s / 8) mask context = some r ∧ Mapped f g buckets s n context r := by
  simp only [mapBits, List.getElem?_eq_getElem h, write_eq h, Option.bind_eq_bind, Option.bind_some]
  refine ⟨_, rfl, MapsBits.of_bucket h hn fun j hj => ?_, ?_⟩
  · simp only [BitVec.getMsbD_or, BitVec.getMsbD_and, BitVec.getMsbD_not, hmask j hj]
    split
    · rename_i hin
      rw [hm.bit _ _ _ j hj (by rw [hmask j hj]; simpa using hin)]
      simp [hin]
    · rename_i hin
      simp [hin, hj]
  · rw [hm.context, masked_bits h hn hmask]

theorem mapBuckets_spec (hm : Acts mapper f g) (context : σ) {nBuckets bucketIdx : Nat} (h : bucketIdx + nBuckets ≤ buckets.length) :
    ∃ r, mapBuckets mapper nBuckets buckets bucketIdx context = some r ∧
      Mapped f g buckets (8 * bucketIdx) (8 * nBuckets) context r := by
  induction nBuckets generalizing buckets bucketIdx context with
  | zero => exact ⟨_, rfl, MapsBits.nothing f buckets _, (hm.nil context).symm⟩
  | succ nBuckets ih =>
    have hlt : bucketIdx < buckets.length := by omega
    have hdiv : 8 * bucketIdx / 8 = bucketIdx := by omega
    have hall : ∀ j < 8, (BitVec.allOnes 8).getMsbD j =
        decide (8 * bucketIdx % 8 ≤ j ∧ j < 8 * bucketIdx % 8 + 8) := by
      rw [Nat.mul_mod_right]
      decide
    have hbits := masked_bits (show 8 * bucketIdx / 8 < buckets.length by omega) (by omega) hall
    have hfirst : Mapped f g buckets (8 * bucketIdx) 8 context
        (buckets.set bucketIdx (mapper buckets[bucketIdx] (BitVec.allOnes 8) context).1,
          (mapper buckets[bucketIdx] (BitVec.allOnes 8) context).2) := by
      simp only [hdiv] at hbits
      refine ⟨?_, by rw [hm.context, hbits]⟩
      have hof := @MapsBits.of_bucket f buckets (8 * bucketIdx) 8 (by omega) (by omega)
        (mapper buckets[bucketIdx] (BitVec.allOnes 8) context).1
      simp only [hdiv] at hof
      refine hof fun j hj => ?_
      rw [hm.bit _ _ _ j hj (by rw [hall j hj]; simp; omega), if_pos (by omega)]
    simp only [mapBuckets, List.getElem?_eq_getElem hlt, write_eq hlt, Option.bind_eq_bind, Option.bind_some]
    obtain ⟨r, hr, hrest⟩ := ih (mapper buckets[bucketIdx] (BitVec.allOnes 8) context).2
      (show bucketIdx + 1 + nBuckets ≤
        (buckets.set bucketIdx (mapper buckets[bucketIdx] (BitVec.allOnes 8) context).1).length by
        rw [List.length_set]; omega)
    refine ⟨r, hr, ?_⟩
    rw [Nat.mul_succ, Nat.add_comm]
    exact hfirst.append hm (by rwa [Nat.mul_succ] at hrest)

theorem internalMap_spec (hm : Acts mapper f g) (context : σ) (h : s + n ≤ 8 * buckets.length) :
    ∃ r, internalMap mapper buckets s n context = some r ∧ Mapped f g buckets s n context r := by
  rw [internalMap]
  split
  · rename_i hn
    subst hn
    exact ⟨_, rfl, MapsBits.nothing f buckets s, (hm.nil context).symm⟩
  rename_i hn
  have hs := Nat.div_add_mod s 8
  have hmod := Nat.mod_lt s (show 8 > 0 by decide)
  -- `k` bits of the first bucket
  obtain ⟨k, hk⟩ : ∃ k, k = min n (8 - s % 8) := ⟨_, rfl⟩
  have hmask : ∀ j < 8, (bitBucketMask (s % 8) (s % 8 + k - 1)).getMsbD j =
      decide (s % 8 ≤ j ∧ j < s % 8 + k) := by
    intro j hj
    rw [getMsbD_bitBucketMask (by omega) (by omega) hj, decide_eq_decide]
    omega
  have hhead : (if s % 8 + n < 8 then (bitBucketMask (s % 8) (s % 8 + n - 1), 0)
      else (bitBucketMask (s % 8) 7, n - (8 - s % 8))) = (bitBucketMask (s % 8) (s % 8 + k - 1), n - k) := by
    split
    · rw [show k = n by omega, Nat.sub_self]
    · rw [show k = 8 - s % 8 by omega, show s % 8 + (8 - s % 8) - 1 = 7 by omega]
  obtain ⟨r₁, hr₁, hm₁⟩ := mapBits_spec hm context (show s / 8 < buckets.length by omega) (by omega) hmask
  simp only [hhead, hr₁, Option.bind_eq_bind, Option.bind_some]
  by_cases hin : n - k = 0
  · have hnk : k = n := by omega
    rw [hin]
    exact ⟨_, rfl, by rwa [hnk] at hm₁⟩
  have hnext : s + k = 8 * (s / 8 + 1) := by omega
  obtain ⟨r₂, hr₂, hm₂⟩ := mapBuckets_spec hm r₁.2
    (show s / 8 + 1 + (n - k) / 8 ≤ r₁.1.length by rw [hm₁.bits.length]; omega)
  rw [← hnext] at hm₂
  have hm₂ := hm₁.append hm hm₂
  simp only [hr₂, Option.bind_some]
  split
  · rename_i hrest
    have hdiv : 8 * (s / 8 + 1 + (n - k) / 8) / 8 = s / 8 + 1 + (n - k) / 8 := by omega
    have hlast : ∀ j < 8, (bitBucketMask 0 (n - k - (n - k) / 8 * 8 - 1)).getMsbD j =
        decide (8 * (s / 8 + 1 + (n - k) / 8) % 8 ≤ j ∧
          j < 8 * (s / 8 + 1 + (n - k) / 8) % 8 + (n - k - (n - k) / 8 * 8)) := by
      intro j hj
      rw [getMsbD_bitBucketMask (by omega) (by omega) hj, decide_eq_decide]
      omega
    obtain ⟨r, hr, hm₃⟩ := mapBits_spec hm r₂.2
      (show 8 * (s / 8 + 1 + (n - k) / 8) / 8 < r₂.1.length by rw [hm₂.bits.length]; omega) (by omega) hlast
    rw [hdiv] at hr
    refine ⟨r, hr, ?_⟩
    have hend : 8 * (s / 8 + 1 + (n - k) / 8) = s + (k + 8 * ((n - k) / 8)) := by omega
    rw [hend] at hm₃
    have hall := hm₂.append hm hm₃
    rwa [show k + 8 * ((n - k) / 8) + (n - k - (n - k) / 8 * 8) = n by omega] at hall
  · rename_i hrest
    refine ⟨_, rfl, ?_⟩
    rwa [show k + 8 * ((n - k) / 8) = n by omega] at hm₂

end Mapping

end CFLite.BitVector
