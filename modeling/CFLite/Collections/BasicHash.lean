import Mathlib.Algebra.Group.Nat.Defs
import Mathlib.Algebra.Group.Int.Defs
import CFLite.Framework.OpenAddressing

/-!
# `CFBasicHash`

The hash table under dictionaries, sets and bags. Its values stand in an array of
buckets, and next to it, each if the table has them, the keys, the counts and the
cached hash codes. The words 0 and `~0` in a bucket say that it is empty or
deleted; a value or a key that is one of the two is stored as a substitute.

A table without keys takes its values for keys, and no table of the library has
indirect keys. Words are 64 bits. A callback gives the same result whenever it is
called with the same word. A `Fault` ends a run: `HALT`, a division by zero or a
bucket outside the table.
-/

namespace CFLite.BasicHash

open Framework

/-- `uintptr_t` -/
abbrev Word := UInt64

inductive Fault where
  | halt
  | divideByZero
  | outside
  deriving DecidableEq

/-- `hash_style` -/
inductive HashStyle where
  | linear
  | double
  | exponential
  deriving DecidableEq

/-- `__CFBasicHashTableSizes` -/
def tableSizes : List Nat := [
  0, 3, 7, 13, 23, 41, 71, 127, 191, 251, 383, 631, 1087, 1723,
  2803, 4523, 7351, 11959, 19447, 31231, 50683, 81919, 132607,
  214519, 346607, 561109, 907759, 1468927, 2376191, 3845119,
  6221311, 10066421, 16287743, 26354171, 42641881, 68996069,
  111638519, 180634607, 292272623, 472907251,
  765180413, 1238087663, 2003267557, 3241355263, 5244622819]

/-- `__CFBasicHashTableCapacities` -/
def tableCapacities : List Nat := [
  0, 3, 6, 11, 19, 32, 52, 85, 118, 155, 237, 390, 672, 1065,
  1732, 2795, 4543, 7391, 12019, 19302, 31324, 50629, 81956,
  132580, 214215, 346784, 561026, 907847, 1468567, 2376414,
  3844982, 6221390, 10066379, 16287773, 26354132, 42641916,
  68996399, 111638327, 180634415, 292272755,
  472907503, 765180257, 1238087439, 2003267722, 3241355160]

/-- `__CFBasicHashPrimitiveRoots` -/
def primitiveRoots : List Nat := [
  0, 2, 3, 2, 5, 6, 7, 3, 19, 6, 5, 3, 3, 3,
  2, 5, 6, 3, 3, 6, 2, 3, 3,
  3, 5, 10, 3, 3, 22, 3,
  3, 3, 5, 2, 22, 2,
  11, 5, 5, 2,
  3, 10, 2, 3, 10]

/-- The tables have 64 rows; the rest of them is 0. -/
def tableSize (idx : Nat) : Nat := tableSizes.getD idx 0

def tableCapacity (idx : Nat) : Nat := tableCapacities.getD idx 0

def primitiveRoot (idx : Nat) : Nat := primitiveRoots.getD idx 0

/-- `__CFBasicHashSubABZero` -/
def subABZero : Word := 0xa7baadb1

/-- `__CFBasicHashSubABOne` -/
def subABOne : Word := 0xa5baadb9

/-- `~0UL` -/
def allOnes : Word := 0xffffffffffffffff

/-- `kCFNotFound` -/
def kCFNotFound : Int := -1

/-- The word that is stored for a value or a key. -/
def stored (word : Word) : Word := if word = 0 then subABZero else if word = allOnes then subABOne else word

/-- The value or key that a stored word stands for. -/
def unstored (word : Word) : Word := if word = subABZero then 0 else if word = subABOne then allOnes else word

/-- The words that the functions which change a table do not accept. -/
def reserved (word : Word) : Bool := word = subABZero || word = subABOne

/-- What the callbacks were called for. -/
inductive Event where
  | importValue (value : Word)
  | importKey (key : Word)
  | ejectValue (value : Word)
  | ejectKey (key : Word)
  deriving DecidableEq

/-- `CFBasicHashCallbacks`. The retain callbacks return the word to be stored. -/
structure Callbacks where
  retainValue : Word → Word
  retainKey : Word → Word
  equateKeys : Word → Word → Bool
  hashKey : Word → Word

/-- `CFBasicHashBucket`. The words of a bucket that was not found are not set. -/
structure Bucket where
  idx : Int
  weakKey : Word
  weakValue : Word
  count : Nat
  deriving DecidableEq

/-- `struct __CFBasicHash`. A null pointer has no buckets. `log` is what the
callbacks were called for so far. -/
structure CFBasicHash where
  isMutable : Bool
  hashStyle : HashStyle
  fastGrow : Bool
  hasKeys : Bool
  hasCounts : Bool
  hasHashCache : Bool
  countsWidth : Nat
  finalized : Bool
  numBucketsIdx : Nat
  usedBuckets : Nat
  deleted : Nat
  mutations : Nat
  callbacks : Callbacks
  values : List Word
  keys : List Word
  counts : List Nat
  hashes : List Word
  log : List Event

/-- The bucket `idx` of one of the arrays. -/
def cell {α : Type} (buckets : List α) : (idx : Int) → Except Fault α
  | .ofNat idx =>
    match buckets[idx]? with
    | some word => .ok word
    | none => .error .outside
  | .negSucc _ => .error .outside

def setCell {α : Type} (buckets : List α) (idx : Int) (word : α) : Except Fault (List α) := do
  let _ ← cell buckets idx
  return buckets.set idx.toNat word

/-- The greatest count for which there is no wider array, `INT8_MAX` and so on. -/
def countMax (width : Nat) : Nat := 2 ^ (8 * 2 ^ width - 1) - 1

/-- `LONG_MAX` -/
def longMax : Nat := 2 ^ 63 - 1

namespace CFBasicHash

/-- `__CFBasicHashImportValue` -/
def importValue (ht : CFBasicHash) (value : Word) : Word × CFBasicHash :=
  let value := ht.callbacks.retainValue value
  (value, { ht with log := ht.log ++ [.importValue value] })

/-- `__CFBasicHashImportKey` -/
def importKey (ht : CFBasicHash) (key : Word) : Word × CFBasicHash :=
  let key := ht.callbacks.retainKey key
  (key, { ht with log := ht.log ++ [.importKey key] })

/-- `if (ht->bits.keys_offset) stack_key = __CFBasicHashImportKey(ht, stack_key)` -/
def importKeyIf (ht : CFBasicHash) (key : Word) : Word × CFBasicHash :=
  if ht.hasKeys then ht.importKey key else (key, ht)

/-- `__CFBasicHashEjectValue` -/
def ejectValue (ht : CFBasicHash) (value : Word) : CFBasicHash :=
  { ht with log := ht.log ++ [.ejectValue value] }

/-- `__CFBasicHashEjectKey` -/
def ejectKey (ht : CFBasicHash) (key : Word) : CFBasicHash :=
  { ht with log := ht.log ++ [.ejectKey key] }

def mutate (ht : CFBasicHash) : CFBasicHash := { ht with mutations := (ht.mutations + 1) % 2 ^ 16 }

/-- `__CFBasicHashGetValue` -/
def getValue (ht : CFBasicHash) (idx : Int) : Except Fault Word := do
  return unstored (← cell ht.values idx)

/-- `__CFBasicHashSetValue` -/
def setValue (ht : CFBasicHash) (idx : Int) (value : Word) (ignoreOld literal : Bool) :
    Except Fault CFBasicHash := do
  let oldValue ← (if ignoreOld then .ok 0 else cell ht.values idx)
  let values ← setCell ht.values idx (if literal then value else stored value)
  let ht := { ht with values := values }
  if ignoreOld || oldValue = 0 || oldValue = allOnes then return ht
  else return ht.ejectValue (unstored oldValue)

/-- `__CFBasicHashGetKey` -/
def getKey (ht : CFBasicHash) (idx : Int) : Except Fault Word := do
  if ht.hasKeys then return unstored (← cell ht.keys idx)
  else ht.getValue idx

/-- `__CFBasicHashSetKey` -/
def setKey (ht : CFBasicHash) (idx : Int) (key : Word) (ignoreOld literal : Bool) :
    Except Fault CFBasicHash := do
  if !ht.hasKeys then .error .halt
  else
    let oldKey ← (if ignoreOld then .ok 0 else cell ht.keys idx)
    let keys ← setCell ht.keys idx (if literal then key else stored key)
    let ht := { ht with keys := keys }
    if ignoreOld || oldKey = 0 || oldKey = allOnes then return ht
    else return ht.ejectKey (unstored oldKey)

/-- `__CFBasicHashIsEmptyOrDeleted` -/
def isEmptyOrDeleted (ht : CFBasicHash) (idx : Int) : Except Fault Bool := do
  let value ← cell ht.values idx
  return value = 0 || value = allOnes

/-- `__CFBasicHashIsDeleted` -/
def isDeleted (ht : CFBasicHash) (idx : Int) : Except Fault Bool := do
  return (← cell ht.values idx) = allOnes

/-- `__CFBasicHashGetSlotCount` -/
def getSlotCount (ht : CFBasicHash) (idx : Int) : Except Fault Nat := cell ht.counts idx

/-- `__CFBasicHashBumpCounts`. The counts are copied to an array of wider cells. -/
def bumpCounts (ht : CFBasicHash) : Except Fault CFBasicHash :=
  if ht.countsWidth < 3 then return { ht with countsWidth := ht.countsWidth + 1 }
  else .error .halt

/-- `__CFBasicHashIncSlotCount`, for an array that can be widened less than
`widths` times. -/
def incSlotCountWithin (idx : Int) : (widths : Nat) → (ht : CFBasicHash) → Except Fault CFBasicHash
  | 0, _ => .error .halt
  | widths + 1, ht => do
    let count ← ht.getSlotCount idx
    if count < countMax ht.countsWidth then
      let counts ← setCell ht.counts idx (count + 1)
      return { ht with counts := counts }
    else
      let ht ← ht.bumpCounts
      incSlotCountWithin idx widths ht

def incSlotCount (ht : CFBasicHash) (idx : Int) : Except Fault CFBasicHash := incSlotCountWithin idx 4 ht

/-- `__CFBasicHashDecSlotCount` -/
def decSlotCount (ht : CFBasicHash) (idx : Int) : Except Fault CFBasicHash := do
  let count ← ht.getSlotCount idx
  let cells := 2 ^ (8 * 2 ^ ht.countsWidth)
  let counts ← setCell ht.counts idx ((count + cells - 1) % cells)
  return { ht with counts := counts }

/-- `__CFBasicHashGetNumBucketsIndexForCapacity` -/
def getNumBucketsIndexForCapacity (capacity : Nat) : Except Fault Nat :=
  match (List.range 64).find? fun idx => capacity ≤ tableCapacity idx with
  | some idx => .ok idx
  | none => .error .halt

/-- `CFBasicHashGetNumBuckets` -/
def getNumBuckets (ht : CFBasicHash) : Nat := tableSize ht.numBucketsIdx

/-- `CFBasicHashGetCapacity` -/
def getCapacity (ht : CFBasicHash) : Nat := tableCapacity ht.numBucketsIdx

/-- `CFBasicHashGetBucket` -/
def getBucket (ht : CFBasicHash) (idx : Int) : Except Fault Bucket := do
  if ← ht.isEmptyOrDeleted idx then return ⟨idx, 0, 0, 0⟩
  else
    let count ← (if ht.hasCounts then ht.getSlotCount idx else .ok 1)
    let weakValue ← ht.getValue idx
    let weakKey ← ht.getKey idx
    return ⟨idx, weakKey, weakValue, count⟩

end CFBasicHash

/-! ## `FIND_BUCKET_NAME` -/

/-- `h1`, `h2` and `pr` of a key, and the number of buckets. -/
structure Probes where
  style : HashStyle
  numBuckets : Nat
  h1 : Nat
  h2 : Nat
  pr : Nat

/-- The probes for a hash code. -/
def probesFor (style : HashStyle) (numBucketsIdx : Nat) (hashCode : Word) : Probes :=
  let numBuckets := tableSize numBucketsIdx
  let h2 := hashCode.toNat / numBuckets % numBuckets
  ⟨style, numBuckets, hashCode.toNat % numBuckets, if h2 = 0 then numBuckets - 1 else h2,
    primitiveRoot numBucketsIdx⟩

/-- The next `probe` and `acc`, in 64 bits. -/
def Probes.next (p : Probes) (probe acc : Nat) : Nat × Nat :=
  match p.style with
  | .linear =>
    let probe := probe + 1
    (if p.numBuckets ≤ probe then probe - p.numBuckets else probe, acc)
  | .double =>
    let probe := probe + p.h2
    (if p.numBuckets ≤ probe then probe - p.numBuckets else probe, acc)
  | .exponential =>
    let probe := (p.h1 + p.h2 * acc) % 2 ^ 64
    let acc := acc * p.pr % 2 ^ 64
    (if p.numBuckets ≤ probe then probe % p.numBuckets else probe,
      if p.numBuckets ≤ acc then acc % p.numBuckets else acc)

namespace CFBasicHash

/-- The array that is searched for a key. -/
def probedKeys (ht : CFBasicHash) : List Word := if ht.hasKeys then ht.keys else ht.values

/-- `if (kCFNotFound == deleted_idx) deleted_idx = probe` -/
def firstIdx (deletedIdx : Int) (probe : Nat) : Int := if deletedIdx = kCFNotFound then probe else deletedIdx

/-- Whether the key `currKey` of bucket `probe` is the one that is searched. -/
def sameKey (ht : CFBasicHash) (probe : Nat) (currKey stackKey hashCode : Word) : Except Fault Bool := do
  if currKey = stackKey then return true
  else if ht.hasHashCache then
    return (← cell ht.hashes probe) = hashCode && ht.callbacks.equateKeys currKey stackKey
  else return ht.callbacks.equateKeys currKey stackKey

/-- The loop of `FIND_BUCKET_NAME`. -/
def findLoop (ht : CFBasicHash) (p : Probes) (stackKey hashCode : Word) :
    (rest : Nat) → (probe acc : Nat) → (deletedIdx : Int) → Except Fault Bucket
  | 0, _, _, deletedIdx => return ⟨deletedIdx, 0, 0, 0⟩
  | rest + 1, probe, acc, deletedIdx => do
    let next := p.next probe acc
    let currKey ← cell ht.probedKeys probe
    if currKey = 0 then
      return ⟨firstIdx deletedIdx probe, 0, 0, 0⟩
    else if currKey = allOnes then
      ht.findLoop p stackKey hashCode rest next.1 next.2 (firstIdx deletedIdx probe)
    else
      let currKey := unstored currKey
      if ← ht.sameKey probe currKey stackKey hashCode then
        let weakValue ← ht.getValue probe
        let count ← (if ht.hasCounts then ht.getSlotCount probe else .ok 1)
        return ⟨probe, currKey, weakValue, count⟩
      else ht.findLoop p stackKey hashCode rest next.1 next.2 deletedIdx

/-- The loop of `FIND_BUCKET_NAME` for a rehash, in which no bucket is deleted. -/
def findLoopNoCollision (ht : CFBasicHash) (p : Probes) :
    (rest : Nat) → (probe acc : Nat) → Except Fault Int
  | 0, _, _ => return kCFNotFound
  | rest + 1, probe, acc => do
    let next := p.next probe acc
    if (← cell ht.probedKeys probe) = 0 then return probe
    else ht.findLoopNoCollision p rest next.1 next.2

/-- `__CFBasicHashFindBucket` -/
def findBucketUnchecked (ht : CFBasicHash) (stackKey : Word) : Except Fault Bucket :=
  if ht.numBucketsIdx = 0 then return ⟨kCFNotFound, 0, 0, 0⟩
  else if ht.getNumBuckets = 0 then .error .divideByZero
  else
    let hashCode := ht.callbacks.hashKey stackKey
    let p := probesFor ht.hashStyle ht.numBucketsIdx hashCode
    ht.findLoop p stackKey hashCode p.numBuckets p.h1 p.pr kCFNotFound

/-- `__CFBasicHashFindBucket_NoCollision` -/
def findBucketNoCollision (ht : CFBasicHash) (stackKey keyHash : Word) : Except Fault Int :=
  if ht.numBucketsIdx = 0 then return kCFNotFound
  else if ht.getNumBuckets = 0 then .error .divideByZero
  else
    let hashCode := if keyHash = 0 then ht.callbacks.hashKey stackKey else keyHash
    let p := probesFor ht.hashStyle ht.numBucketsIdx hashCode
    ht.findLoopNoCollision p p.numBuckets p.h1 p.pr

/-- `CFBasicHashFindBucket` -/
def findBucket (ht : CFBasicHash) (stackKey : Word) : Except Fault Bucket :=
  if reserved stackKey then return ⟨kCFNotFound, 0, 0, 0⟩
  else ht.findBucketUnchecked stackKey

/-- A `CFIndex` of 64 bits. -/
def toCFIndex (n : Nat) : Int := (n : Int).bmod (2 ^ 64)

/-- `CFBasicHashGetCount` -/
def getCount (ht : CFBasicHash) : Except Fault Int := do
  if ht.hasCounts then
    let total ← (List.range ht.getNumBuckets).foldlM (fun total (idx : Nat) => return total + (← ht.getSlotCount idx)) 0
    return toCFIndex total
  else return ht.usedBuckets

/-- `CFBasicHashGetCountOfKey` -/
def getCountOfKey (ht : CFBasicHash) (stackKey : Word) : Except Fault Int := do
  if reserved stackKey then return 0
  else if ht.usedBuckets = 0 then return 0
  else return toCFIndex (← ht.findBucketUnchecked stackKey).count

/-! ## Changes -/

/-- What `__CFBasicHashDrain` ejects for bucket `idx` of `old`. -/
def drainBucket (old : CFBasicHash) (ht : CFBasicHash) (idx : Nat) : Except Fault CFBasicHash := do
  let value ← cell old.values idx
  if value = 0 || value = allOnes then return ht
  else
    let ht := ht.ejectValue (unstored value)
    if old.hasKeys then
      let key ← cell old.keys idx
      return ht.ejectKey (unstored key)
    else return ht

/-- `__CFBasicHashDrain` -/
def drain (ht : CFBasicHash) : Except Fault CFBasicHash :=
  (List.range ht.getNumBuckets).foldlM ht.drainBucket
    { ht.mutate with numBucketsIdx := 0, usedBuckets := 0, deleted := 0, values := [], keys := [],
                     counts := [], hashes := [] }

/-- Bucket `idx` of `old`, with `value` and `key`, is written to bucket `bktIdx` of
the new arrays. -/
def placeBucket (old : CFBasicHash) (ht : CFBasicHash) (idx : Nat) (bktIdx : Int) (value key : Word) :
    Except Fault CFBasicHash := do
  let ht ← ht.setValue bktIdx value false false
  let ht ← (if ht.hasKeys then ht.setKey bktIdx key false false else .ok ht)
  let ht ← (if ht.hasCounts then
      return { ht with counts := ← setCell ht.counts bktIdx (← cell old.counts idx) } else .ok ht)
  if ht.hasHashCache then
    return { ht with hashes := ← setCell ht.hashes bktIdx (← cell old.hashes idx) }
  else return ht

/-- Bucket `idx` of `old` is moved to the new arrays. -/
def moveBucket (old : CFBasicHash) (ht : CFBasicHash) (idx : Nat) : Except Fault CFBasicHash := do
  let value ← cell old.values idx
  if value = 0 || value = allOnes then return ht
  else
    let value := unstored value
    let key ← (if ht.hasKeys then return unstored (← cell old.keys idx) else .ok value)
    let keyHash ← (if ht.hasHashCache then cell old.hashes idx else .ok 0)
    let bktIdx ← ht.findBucketNoCollision key keyHash
    old.placeBucket ht idx bktIdx value key

/-- The index for the table after a rehash. -/
def rehashedIdx (ht : CFBasicHash) (newItemCount : Int) : Except Fault Nat := do
  if newItemCount = 0 then return ht.numBucketsIdx
  else
    let newItemCount := newItemCount.toNat
    let idx ← getNumBucketsIndexForCapacity (ht.usedBuckets + newItemCount)
    return if newItemCount = 1 ∧ ht.fastGrow then idx + 1 else idx

/-- The table with new arrays, which are all zeros. -/
def withBuckets (ht : CFBasicHash) (idx : Nat) : CFBasicHash :=
  let numBuckets := tableSize idx
  { ht with numBucketsIdx := idx, deleted := 0
            values := List.replicate numBuckets 0
            keys := if ht.hasKeys then List.replicate numBuckets 0 else []
            counts := if ht.hasCounts then List.replicate numBuckets 0 else []
            hashes := if ht.hasHashCache then List.replicate numBuckets 0 else [] }

/-- `__CFBasicHashRehash` -/
def rehash (ht : CFBasicHash) (newItemCount : Int) : Except Fault CFBasicHash := do
  let idx ← ht.rehashedIdx newItemCount
  (List.range ht.getNumBuckets).foldlM ht.moveBucket (ht.withBuckets idx)

/-- `CFBasicHashSetCapacity` -/
def setCapacity (ht : CFBasicHash) (capacity : Int) : Except Fault CFBasicHash :=
  if !ht.isMutable then .error .halt
  else if ht.usedBuckets < capacity then ht.mutate.rehash (capacity - ht.usedBuckets)
  else return ht

/-- The new entry is written to bucket `bktIdx`. -/
def fillBucket (ht : CFBasicHash) (bktIdx : Int) (stackKey stackValue : Word) : Except Fault CFBasicHash := do
  let keyHash := ht.callbacks.hashKey stackKey
  let (value, ht) := ht.importValue stackValue
  let (key, ht) := ht.importKeyIf stackKey
  let ht ← ht.setValue bktIdx value false false
  let ht ← (if ht.hasKeys then ht.setKey bktIdx key false false else .ok ht)
  let ht ← (if ht.hasCounts then ht.incSlotCount bktIdx else .ok ht)
  let ht ← (if ht.hasHashCache then return { ht with hashes := ← setCell ht.hashes bktIdx keyHash } else .ok ht)
  return { ht with usedBuckets := (ht.usedBuckets + 1) % 2 ^ 32 }

/-- `__CFBasicHashAddValue` -/
def addValueAt (ht : CFBasicHash) (bktIdx : Int) (stackKey stackValue : Word) : Except Fault CFBasicHash := do
  let ht := ht.mutate
  if ht.getCapacity < (ht.usedBuckets + 1) % 2 ^ 32 then
    let ht ← ht.rehash 1
    let bktIdx ← ht.findBucketNoCollision stackKey 0
    ht.fillBucket bktIdx stackKey stackValue
  else if ← ht.isDeleted bktIdx then
    let ht := { ht with deleted := (ht.deleted + 2 ^ 16 - 1) % 2 ^ 16 }
    ht.fillBucket bktIdx stackKey stackValue
  else ht.fillBucket bktIdx stackKey stackValue

/-- `__CFBasicHashReplaceValue` -/
def replaceValueAt (ht : CFBasicHash) (bktIdx : Int) (stackKey stackValue : Word) : Except Fault CFBasicHash := do
  let ht := ht.mutate
  let (value, ht) := ht.importValue stackValue
  let (key, ht) := ht.importKeyIf stackKey
  let ht ← ht.setValue bktIdx value false false
  if ht.hasKeys then ht.setKey bktIdx key false false else return ht

/-- Whether the table is to shrink after a removal. -/
def doShrink (ht : CFBasicHash) : Bool :=
  let tiers := if ht.fastGrow then 5 else 2
  tiers < ht.numBucketsIdx && ht.usedBuckets < tableCapacity (ht.numBucketsIdx - tiers)

/-- Whether the deleted buckets are to be cleared after a removal. -/
def doClear (ht : CFBasicHash) : Bool :=
  ht.deleted = 0 || 20 ≤ ht.getNumBuckets && ht.getNumBuckets / 4 ≤ ht.deleted

/-- The bucket `bktIdx` is marked deleted. -/
def clearBucket (ht : CFBasicHash) (bktIdx : Int) : Except Fault CFBasicHash := do
  let ht ← ht.setValue bktIdx allOnes false true
  let ht ← (if ht.hasKeys then ht.setKey bktIdx allOnes false true else .ok ht)
  let ht ← (if ht.hasCounts then ht.decSlotCount bktIdx else .ok ht)
  let ht ← (if ht.hasHashCache then return { ht with hashes := ← setCell ht.hashes bktIdx 0 } else .ok ht)
  return { ht with usedBuckets := (ht.usedBuckets + 2 ^ 32 - 1) % 2 ^ 32, deleted := (ht.deleted + 1) % 2 ^ 16 }

/-- `__CFBasicHashRemoveValue` -/
def removeValueAt (ht : CFBasicHash) (bktIdx : Int) : Except Fault CFBasicHash := do
  let ht ← ht.mutate.clearBucket bktIdx
  if ht.doShrink then ht.rehash (-1)
  else if ht.doClear then ht.rehash 0
  else return ht

/-- `CFBasicHashAddValue` -/
def addValue (ht : CFBasicHash) (stackKey stackValue : Word) : Except Fault (CFBasicHash × Bool) := do
  if !ht.isMutable || reserved stackKey || reserved stackValue then .error .halt
  else
    let bkt ← ht.findBucketUnchecked stackKey
    if 0 < bkt.count then
      if ht.hasCounts ∧ bkt.count < longMax then return (← ht.mutate.incSlotCount bkt.idx, true)
      else return (ht.mutate, false)
    else return (← ht.addValueAt bkt.idx stackKey stackValue, true)

/-- `CFBasicHashReplaceValue` -/
def replaceValue (ht : CFBasicHash) (stackKey stackValue : Word) : Except Fault CFBasicHash := do
  if !ht.isMutable || reserved stackKey || reserved stackValue then .error .halt
  else
    let bkt ← ht.findBucketUnchecked stackKey
    if 0 < bkt.count then ht.replaceValueAt bkt.idx stackKey stackValue
    else return ht

/-- `CFBasicHashSetValue` -/
def setValueForKey (ht : CFBasicHash) (stackKey stackValue : Word) : Except Fault CFBasicHash := do
  if !ht.isMutable || reserved stackKey || reserved stackValue then .error .halt
  else
    let bkt ← ht.findBucketUnchecked stackKey
    if 0 < bkt.count then ht.replaceValueAt bkt.idx stackKey stackValue
    else ht.addValueAt bkt.idx stackKey stackValue

/-- `CFBasicHashRemoveValue` -/
def removeValue (ht : CFBasicHash) (stackKey : Word) : Except Fault (CFBasicHash × Int) := do
  if !ht.isMutable then .error .halt
  else if reserved stackKey then return (ht, 0)
  else
    let bkt ← ht.findBucketUnchecked stackKey
    if 1 < bkt.count then
      if ht.hasCounts ∧ bkt.count < longMax then
        return (← ht.mutate.decSlotCount bkt.idx, toCFIndex bkt.count)
      else return (ht.mutate, toCFIndex bkt.count)
    else if 0 < bkt.count then return (← ht.removeValueAt bkt.idx, toCFIndex bkt.count)
    else return (ht, toCFIndex bkt.count)

/-- `CFBasicHashRemoveAllValues` -/
def removeAllValues (ht : CFBasicHash) : Except Fault CFBasicHash :=
  if !ht.isMutable then .error .halt
  else if ht.numBucketsIdx = 0 then return ht
  else ht.drain

/-- `__CFBasicHashDeallocate` -/
def deallocate (ht : CFBasicHash) : Except Fault CFBasicHash :=
  if ht.finalized then .error .halt
  else { ht with finalized := true }.drain

/-- `CFBasicHashCreate` -/
def create (hashStyle : HashStyle) (fastGrow hasKeys hasCounts hasHashCache : Bool) (callbacks : Callbacks) :
    CFBasicHash :=
  { isMutable := true, hashStyle, fastGrow, hasKeys, hasCounts, hasHashCache, countsWidth := 0,
    finalized := false, numBucketsIdx := 0, usedBuckets := 0, deleted := 0, mutations := 1, callbacks,
    values := [], keys := [], counts := [], hashes := [], log := [] }

/-- Bucket `idx` of `src` is copied. -/
def copyBucket (src : CFBasicHash) (ht : CFBasicHash) (idx : Nat) : Except Fault CFBasicHash := do
  let value ← cell src.values idx
  if value = 0 || value = allOnes then
    let ht ← ht.setValue idx value true true
    if ht.hasKeys then ht.setKey idx value true true else return ht
  else
    let (value, ht) := ht.importValue (unstored value)
    let ht ← ht.setValue idx value true false
    if ht.hasKeys then
      let key ← cell src.keys idx
      let (key, ht) := ht.importKey (unstored key)
      ht.setKey idx key true false
    else return ht

/-- The copy of `src` before its buckets are written. Its callbacks are the same, and
new memory holds `junk`. -/
def newCopy (junk : Nat → Word) (src : CFBasicHash) : CFBasicHash :=
  let words := (List.range src.getNumBuckets).map junk
  { src with isMutable := true, finalized := false, mutations := 1, log := []
             values := words, keys := if src.hasKeys then words else [], counts := [], hashes := [] }

/-- `CFBasicHashCreateCopy` -/
def createCopy (junk : Nat → Word) (src : CFBasicHash) : Except Fault CFBasicHash := do
  let ht := newCopy junk src
  if src.getNumBuckets = 0 then return ht
  else
    let ht ← (List.range src.getNumBuckets).foldlM src.copyBucket ht
    return { ht with counts := if ht.hasCounts then src.counts else []
                     hashes := if ht.hasHashCache then src.hashes else [] }

end CFBasicHash

end CFLite.BasicHash
