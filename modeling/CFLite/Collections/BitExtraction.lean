import CFLite.Collections.BitSequence

/-!
# `CFBitVectorGetBits`

The bits of a range, copied to the front of a buffer. The mapper gets the buckets
of the range one after the other. From a range that does not start at a bucket it
drops the bits before the range and is to give the first bits of every further
bucket to the byte before, but the flag that says not to do so for the first
bucket stays set.

* `internalMap_reading`: what a mapper that leaves the buckets alone is shown;
* `aligned_run`, `copied`: ranges that are copied;
* `overwritten`, `kept_bytes`: the other ranges leave only the first byte of the
  buffer changed, with bits of the last bucket;
* `getBits_extracts_iff`: the ranges whose bits are in the buffer afterwards.
-/

namespace CFLite.BitVector

open Framework

/-! ## The code -/

/-- `struct _getBitsContext`, with the buffer that `curByte` points into. A write
outside the buffer leaves none. -/
structure GetBitsContext where
  bytes : Option (List Bucket)
  curByte : Nat
  initBits : Nat
  totalBits : Int
  ignoreFirstInitBits : Bool

namespace GetBitsContext

/-- `*context->curByte = val` -/
def store (context : GetBitsContext) (val : Bucket) : GetBitsContext :=
  { context with bytes := context.bytes.bind fun bytes => write bytes context.curByte val }

/-- `*context->curByte |= val` -/
def orByte (context : GetBitsContext) (val : Bucket) : GetBitsContext :=
  { context with
    bytes := context.bytes.bind fun bytes => bytes[context.curByte]?.bind fun byte =>
      write bytes context.curByte (byte ||| val) }

/-- The first `initBits` bits. -/
def initialBits (context : GetBitsContext) (val : Bucket) : Bucket × GetBitsContext :=
  if 0 < context.initBits then
    let context :=
      if ¬ context.ignoreFirstInitBits then
        let context := context.orByte (val >>> (8 - context.initBits))
        { context with
          curByte := context.curByte + 1
          totalBits := context.totalBits - context.initBits
          ignoreFirstInitBits := false }
      else context
    (val <<< context.initBits, context)
  else (val, context)

/-- `while (__CF_BITS_PER_BYTE <= nBits)`, with `n` bytes to go. -/
def entireBytes : (n : Nat) → (val : Bucket) → (context : GetBitsContext) → Bucket × GetBitsContext
  | 0, val, context => (val, context)
  | n + 1, val, context =>
    let context := context.store (val >>> 0)
    entireBytes n (val <<< 8)
      { context with curByte := context.curByte + 1, totalBits := context.totalBits - context.initBits }

end GetBitsContext

/-- `__CFBitVectorGetBits` -/
def getBitsMapper : Mapper GetBitsContext := fun bucketValue bucketValueMask context =>
  let val := bucketValue &&& bucketValueMask
  let nBits : Int := min (8 - context.initBits) context.totalBits
  let (val, context) := context.initialBits val
  let (val, context) := context.entireBytes (nBits / 8).toNat val
  let nBits := nBits - 8 * (nBits / 8).toNat
  let context :=
    if 0 < nBits then
      let context := context.store (val >>> 0)
      { context with totalBits := context.totalBits - nBits }
    else context
  (bucketValue, context)

namespace CFBitVector

/-- `CFBitVectorGetBits`, with the bit vector and the buffer afterwards. -/
def getBits (bv : CFBitVector) (location length : Nat) (bytes : List Bucket) : Option (CFBitVector × List Bucket) :=
  if length = 0 then some (bv, bytes) else do
  let context : GetBitsContext :=
    { bytes := some bytes, curByte := 0, initBits := location % 8, totalBits := length, ignoreFirstInitBits := true }
  let (buckets, context) ← internalMap getBitsMapper bv.buckets location length context
  let bytes ← context.bytes
  return ({ bv with buckets }, bytes)

/-- `CFBitVectorCreate`. The bytes of `numBits` bits are read. -/
def create (bytes : List Bucket) (numBits : Nat) : Option CFBitVector :=
  let numBytes := numBits / 8 + if numBits % 8 ≠ 0 then 1 else 0
  if numBytes ≤ bytes.length then some (init (bytes.take numBytes) numBits) else none

end CFBitVector

/-! ## Reading the buckets of a range -/

section Reading

variable {σ : Type} {mapper : Mapper σ} {buckets : List Bucket} {s n : Nat}

/-- The mask of the bits of bucket `i` of a range of `n` bits that starts at bit
`offset` of its first bucket. -/
def rangeMask (offset n i : Nat) : Bucket := bitBucketMask (if i = 0 then offset else 0) (min 7 (offset + n - 8 * i - 1))

theorem getMsbD_rangeMask {offset i j : Nat} (hoffset : offset < 8) (hi : 8 * i < offset + n) (hn : 0 < n) (hj : j < 8) :
    (rangeMask offset n i).getMsbD j = decide (offset ≤ 8 * i + j ∧ 8 * i + j < offset + n) := by
  rw [rangeMask, getMsbD_bitBucketMask (by split <;> omega) (by omega) hj, decide_eq_decide]
  split <;> omega

theorem rangeMask_entire {offset i : Nat} (hi : 0 < i) (hend : 8 * (i + 1) ≤ offset + n) :
    rangeMask offset n i = BitVec.allOnes 8 := by
  rw [rangeMask, if_neg (Nat.ne_of_gt hi), show min 7 (offset + n - 8 * i - 1) = 7 by omega]
  decide

theorem mapBits_reading (hread : ∀ bucket mask context, (mapper bucket mask context).1 = bucket) {i : Nat}
    (h : i < buckets.length) (mask : Bucket) (context : σ) :
    mapBits mapper buckets i mask context = some (buckets, (mapper (buckets.getD i 0) mask context).2) := by
  have hsame : ∀ bucket mask : Bucket, bucket &&& ~~~mask ||| bucket &&& mask = bucket := by
    intro bucket mask
    rw [← BitVec.and_or_distrib_left, BitVec.or_comm, BitVec.or_not_self, BitVec.and_allOnes]
  simp only [mapBits, List.getElem?_eq_getElem h, Option.bind_eq_bind, Option.bind_some, hread, hsame, write_eq h,
    List.set_getElem_self, List.getD_eq_getElem?_getD, Option.getD_some]
  rfl

theorem mapBuckets_reading (hread : ∀ bucket mask context, (mapper bucket mask context).1 = bucket) {nBuckets i : Nat}
    (h : i + nBuckets ≤ buckets.length) (context : σ) :
    mapBuckets mapper nBuckets buckets i context = some (buckets,
      (List.range' i nBuckets).foldl (fun c j => (mapper (buckets.getD j 0) (BitVec.allOnes 8) c).2) context) := by
  induction nBuckets generalizing i context with
  | zero => rfl
  | succ nBuckets ih =>
    have hi : i < buckets.length := by omega
    simp only [mapBuckets, List.getElem?_eq_getElem hi, Option.bind_eq_bind, Option.bind_some, hread, write_eq hi,
      List.set_getElem_self]
    rw [ih (by omega), List.range'_succ, List.foldl_cons]
    simp only [List.getD_eq_getElem?_getD, List.getElem?_eq_getElem hi, Option.getD_some]

/-- A mapper that leaves the buckets alone sees those of the range in turn, with
the masks of their bits in the range. -/
theorem internalMap_reading (hread : ∀ bucket mask context, (mapper bucket mask context).1 = bucket) (hn : 0 < n)
    (h : s + n ≤ 8 * buckets.length) (context : σ) :
    internalMap mapper buckets s n context = some (buckets, (List.range ((s % 8 + n + 7) / 8)).foldl
      (fun c i => (mapper (buckets.getD (s / 8 + i) 0) (rangeMask (s % 8) n i) c).2) context) := by
  have hs := Nat.div_add_mod s 8
  have hmod := Nat.mod_lt s (show 8 > 0 by decide)
  obtain ⟨k, hk⟩ : ∃ k, k = min n (8 - s % 8) := ⟨_, rfl⟩
  have hhead : (if s % 8 + n < 8 then (bitBucketMask (s % 8) (s % 8 + n - 1), 0)
      else (bitBucketMask (s % 8) 7, n - (8 - s % 8))) = (rangeMask (s % 8) n 0, n - k) := by
    rw [rangeMask, if_pos rfl]
    split
    · rw [show min 7 (s % 8 + n - 8 * 0 - 1) = s % 8 + n - 1 by omega, show n - k = 0 by omega]
    · rw [show min 7 (s % 8 + n - 8 * 0 - 1) = 7 by omega, show n - k = n - (8 - s % 8) by omega]
  obtain ⟨m, hm⟩ : ∃ m, m = (n - k) / 8 := ⟨_, rfl⟩
  rw [internalMap, if_neg (Nat.ne_of_gt hn)]
  simp only [hhead, ← hm, mapBits_reading hread (show s / 8 < buckets.length by omega), Option.bind_eq_bind,
    Option.bind_some, mapBuckets_reading hread (show s / 8 + 1 + m ≤ buckets.length by omega)]
  have hm' : 8 * m ≤ n - k ∧ n - k < 8 * (m + 1) := by
    rw [hm]
    exact ⟨Nat.mul_div_le _ 8, Nat.lt_mul_div_succ _ (by decide)⟩
  have hk' : k ≤ n ∧ s % 8 + k ≤ 8 ∧ (k = n ∨ s % 8 + k = 8) := by
    clear hm hm' hhead
    omega
  clear hm hk hhead
  -- the whole buckets of the range
  have hwhole : ∀ c, (List.range' (s / 8 + 1) m).foldl
        (fun c j => (mapper (buckets.getD j 0) (BitVec.allOnes 8) c).2) c =
      (List.range' 1 m).foldl
        (fun c i => (mapper (buckets.getD (s / 8 + i) 0) (rangeMask (s % 8) n i) c).2) c := by
    intro c
    rw [← List.map_add_range' 1 m 1, List.foldl_map]
    refine List.foldl_ext _ _ _ fun c i hi => ?_
    rw [List.mem_range'_1] at hi
    rw [rangeMask_entire (by omega) (by omega)]
  rw [hwhole]
  split
  · rename_i hrest
    rw [mapBits_reading hread (show s / 8 + 1 + m < buckets.length by omega),
      show (s % 8 + n + 7) / 8 = m + 1 + 1 by omega, List.range_succ, List.foldl_append, List.range_eq_range',
      List.range'_succ, List.foldl_cons, List.foldl_cons, List.foldl_nil]
    have hmask : rangeMask (s % 8) n (m + 1) = bitBucketMask 0 (n - k - m * 8 - 1) := by
      have hk' : s % 8 + k = 8 := by omega
      rw [rangeMask, if_neg (Nat.succ_ne_zero m)]
      congr 1
      omega
    rw [hmask, Nat.add_assoc, Nat.add_comm 1 m]
    rfl
  · rename_i hrest
    rw [show (s % 8 + n + 7) / 8 = m + 1 by omega, List.range_eq_range', List.range'_succ, List.foldl_cons]
    rfl

end Reading

/-! ## What the mapper does with a bucket -/

section Mapper

variable {bucket mask : Bucket} {context : GetBitsContext}

theorem initialBits_eq (hignore : context.ignoreFirstInitBits = true) (val : Bucket) :
    context.initialBits val = (val <<< context.initBits, context) := by
  rw [GetBitsContext.initialBits, if_neg (not_not.mpr hignore)]
  split
  · rfl
  · rename_i hzero
    rw [show context.initBits = 0 by omega, BitVec.shiftLeft_zero]

/-- A bucket whose bits make up a byte. -/
theorem getBitsMapper_entire (hignore : context.ignoreFirstInitBits = true) (hinit : context.initBits = 0)
    (htotal : 8 ≤ context.totalBits) : (getBitsMapper bucket mask context).2 =
      { context with
        bytes := context.bytes.bind fun bytes => write bytes context.curByte (bucket &&& mask)
        curByte := context.curByte + 1 } := by
  have hbits : min (8 - (context.initBits : Int)) context.totalBits = 8 := by
    rw [hinit]
    omega
  simp only [getBitsMapper, initialBits_eq hignore, hbits]
  simp [GetBitsContext.entireBytes, GetBitsContext.store, hinit]

/-- A bucket that gives fewer bits: they go over the current byte. -/
theorem getBitsMapper_rest (hignore : context.ignoreFirstInitBits = true) (htotal : 0 < context.totalBits)
    (hinit : context.initBits < 8) (hfew : 0 < context.initBits ∨ context.totalBits < 8) :
    (getBitsMapper bucket mask context).2 =
      { context with
        bytes := context.bytes.bind fun bytes => write bytes context.curByte ((bucket &&& mask) <<< context.initBits)
        totalBits := context.totalBits - min (8 - (context.initBits : Int)) context.totalBits } := by
  obtain ⟨nBits, hbits⟩ : ∃ nBits : Int, nBits = min (8 - (context.initBits : Int)) context.totalBits := ⟨_, rfl⟩
  have hnone : (nBits / 8).toNat = 0 := by omega
  have hrest : nBits - 8 * ((0 : Nat) : Int) = nBits := by omega
  simp only [getBitsMapper, initialBits_eq hignore, ← hbits, hnone, GetBitsContext.entireBytes, hrest,
    if_pos (show 0 < nBits by omega), GetBitsContext.store, BitVec.ushiftRight_zero]

/-- No bits are left to extract. -/
theorem getBitsMapper_done (hignore : context.ignoreFirstInitBits = true) (htotal : context.totalBits ≤ 0) :
    (getBitsMapper bucket mask context).2 = context := by
  obtain ⟨nBits, hbits⟩ : ∃ nBits : Int, nBits = min (8 - (context.initBits : Int)) context.totalBits := ⟨_, rfl⟩
  have hnone : (nBits / 8).toNat = 0 := by omega
  have hrest : nBits - 8 * ((0 : Nat) : Int) = nBits := by omega
  simp only [getBitsMapper, initialBits_eq hignore, ← hbits, hnone, GetBitsContext.entireBytes, hrest,
    if_neg (show ¬ 0 < nBits by omega)]

end Mapper

/-! ## The bits in the buffer -/

/-- The context at the start. -/
def startContext (s n : Nat) (bytes : List Bucket) : GetBitsContext :=
  { bytes := some bytes, curByte := 0, initBits := s % 8, totalBits := n, ignoreFirstInitBits := true }

/-- The context after the first `m` buckets of the range. -/
def contextAfter (buckets : List Bucket) (s n : Nat) (bytes : List Bucket) (m : Nat) : GetBitsContext :=
  (List.range m).foldl (fun c i => (getBitsMapper (buckets.getD (s / 8 + i) 0) (rangeMask (s % 8) n i) c).2)
    (startContext s n bytes)

section Extraction

variable {bv : CFBitVector} {buckets bytes : List Bucket} {s n : Nat}

theorem contextAfter_succ (m : Nat) : contextAfter buckets s n bytes (m + 1) =
    (getBitsMapper (buckets.getD (s / 8 + m) 0) (rangeMask (s % 8) n m) (contextAfter buckets s n bytes m)).2 := by
  rw [contextAfter, List.range_succ, List.foldl_append]
  rfl

theorem getBits_eq (hn : 0 < n) (h : s + n ≤ 8 * bv.buckets.length) : bv.getBits s n bytes =
    (contextAfter bv.buckets s n bytes ((s % 8 + n + 7) / 8)).bytes.map fun out => (bv, out) := by
  rw [CFBitVector.getBits, if_neg (Nat.ne_of_gt hn)]
  have hread : ∀ bucket mask context, (getBitsMapper bucket mask context).1 = bucket := fun _ _ _ => rfl
  have hmap := internalMap_reading hread hn h (startContext s n bytes)
  change (internalMap getBitsMapper bv.buckets s n (startContext s n bytes)).bind _ = _
  rw [hmap, Option.bind_some, ← contextAfter]
  cases hbytes : (contextAfter bv.buckets s n bytes ((s % 8 + n + 7) / 8)).bytes with
  | none => simp [hbytes]
  | some out => simp [hbytes]

/-- A masked bit of a range that starts at a bucket. -/
theorem getMsbD_masked {bucket : Bucket} {k i j : Nat} (hk : k < 8) (hi : 8 * i < k + n) (hn : 0 < n) (hj : j < 8) :
    (bucket &&& rangeMask k n i).getMsbD j =
      (bucket.getMsbD j && decide (k ≤ 8 * i + j ∧ 8 * i + j < k + n)) := by
  rw [BitVec.getMsbD_and, getMsbD_rangeMask hk hi hn hj]

/-- From a bucket on, at least one whole bucket: after `m` buckets their bits are
in the first `m` bytes. -/
theorem aligned_run (buckets : List Bucket) (hs : s % 8 = 0) (hn : 8 ≤ n) (hbytes : (n + 7) / 8 ≤ bytes.length) {m : Nat} (hm : m ≤ (n + 7) / 8) :
    ∃ out, contextAfter buckets s n bytes m = { startContext s n bytes with bytes := some out, curByte := m } ∧
      out.length = bytes.length ∧ ∀ q < 8 * m, q < n → bitAt out q = bitAt buckets (s + q) := by
  induction m with
  | zero => exact ⟨bytes, rfl, rfl, fun q hq => absurd hq (Nat.not_lt_zero q)⟩
  | succ m ih =>
    obtain ⟨out, hcontext, hlen, hbits⟩ := ih (by omega)
    have hroom : m < out.length := by omega
    obtain ⟨bucket, hbucket⟩ : ∃ bucket, bucket = buckets.getD (s / 8 + m) 0 := ⟨_, rfl⟩
    refine ⟨out.set m (bucket &&& rangeMask (s % 8) n m), ?_, by rw [List.length_set, hlen], fun q hq hqn => ?_⟩
    · rw [contextAfter_succ, hcontext, getBitsMapper_entire rfl hs (show (8 : Int) ≤ n by omega), ← hbucket]
      simp only [Option.bind_some, write_eq hroom]
    · rw [bitAt_set _ hroom]
      split
      · rename_i hlast
        rw [getMsbD_masked (Nat.mod_lt s (by decide)) (by omega) (by omega) (Nat.mod_lt q (by decide)),
          decide_eq_true (by omega), Bool.and_true, hbucket, bitAt, show (s + q) / 8 = s / 8 + m by omega,
          show (s + q) % 8 = q % 8 by omega]
      · exact hbits q (by omega) hqn

/-- A range within one bucket, or whole bytes from a bucket on. -/
theorem copied (hn : 0 < n) (hcond : s % 8 = 0 ∨ s % 8 + n ≤ 8) (hbytes : (n + 7) / 8 ≤ bytes.length)
    (h : s + n ≤ 8 * bv.buckets.length) :
    ∃ out, bv.getBits s n bytes = some (bv, out) ∧ out.length = bytes.length ∧
      ∀ q < n, bitAt out q = bitAt bv.buckets (s + q) := by
  rw [getBits_eq hn h]
  by_cases hwhole : s % 8 = 0 ∧ 8 ≤ n
  · obtain ⟨out, hcontext, hlen, hbits⟩ := aligned_run bv.buckets hwhole.1 hwhole.2 hbytes (Nat.le_refl _)
    rw [hwhole.1, Nat.zero_add, hcontext]
    exact ⟨out, rfl, hlen, fun q hq => hbits q (by omega) hq⟩
  have hroom : 0 < bytes.length := by omega
  have hmod := Nat.mod_lt s (show 8 > 0 by decide)
  obtain ⟨bucket, hbucket⟩ : ∃ bucket, bucket = bv.buckets.getD (s / 8) 0 := ⟨_, rfl⟩
  rw [show (s % 8 + n + 7) / 8 = 0 + 1 by omega, contextAfter_succ,
    show contextAfter bv.buckets s n bytes 0 = startContext s n bytes from rfl,
    getBitsMapper_rest rfl (show (0 : Int) < n by omega) hmod
      (show 0 < s % 8 ∨ (n : Int) < 8 by omega), Nat.add_zero, ← hbucket]
  simp only [startContext, Option.bind_some, write_eq hroom, Option.map_some]
  refine ⟨_, rfl, List.length_set, fun q hq => ?_⟩
  rw [bitAt_set _ hroom, if_pos (by omega), BitVec.getMsbD_shiftLeft,
    getMsbD_masked hmod (by omega) hn (by omega), decide_eq_true (by omega), Bool.and_true, hbucket, bitAt,
    show (s + q) / 8 = s / 8 by omega, show (s + q) % 8 = q % 8 + s % 8 by omega]

/-- Off a bucket, every byte but the first stays what it was. -/
theorem kept_bytes (buckets bytes : List Bucket) (n : Nat) (hs : 0 < s % 8) (m : Nat) :
    ∃ out total, contextAfter buckets s n bytes m = { startContext s n bytes with bytes := out, totalBits := total } ∧
      ∀ b ∈ out, ∀ q, 8 ≤ q → bitAt b q = bitAt bytes q := by
  induction m with
  | zero => exact ⟨some bytes, n, rfl, fun b hb q _ => by rw [Option.some.inj hb]⟩
  | succ m ih =>
    obtain ⟨out, total, hcontext, hkept⟩ := ih
    rw [contextAfter_succ, hcontext]
    by_cases htotal : 0 < total
    · rw [getBitsMapper_rest rfl htotal (Nat.mod_lt s (by decide)) (.inl hs)]
      refine ⟨_, _, rfl, fun b hb q hq => ?_⟩
      obtain ⟨b', hb', hwrite⟩ := Option.bind_eq_some_iff.mp hb
      change write b' 0 _ = some b at hwrite
      rw [write] at hwrite
      split at hwrite
      · rename_i hroom
        rw [← Option.some.inj hwrite, bitAt_set _ hroom, if_neg (show ¬ q / 8 = 0 by omega)]
        exact hkept b' hb' q hq
      · cases hwrite
    · rw [getBitsMapper_done rfl (Int.not_lt.mp htotal)]
      exact ⟨out, total, rfl, hkept⟩

/-- Off a bucket, up to eight bits that reach into the next one: both buckets go
to the first byte, and the second one leaves it without bits of the range. -/
theorem overwritten (hs : 8 < s % 8 + n) (hn : n ≤ 8) (hbytes : 0 < bytes.length) (h : s + n ≤ 8 * bv.buckets.length) :
    ∃ out, bv.getBits s n bytes = some (bv, out) ∧ out.length = bytes.length ∧ ∀ q < n, bitAt out q = false := by
  have hmod := Nat.mod_lt s (show 8 > 0 by decide)
  obtain ⟨first, hfirst⟩ : ∃ byte, byte = (bv.buckets.getD (s / 8) 0 &&& rangeMask (s % 8) n 0) <<< (s % 8) := ⟨_, rfl⟩
  have hcontext : contextAfter bv.buckets s n bytes 1 =
      { startContext s n bytes with
        bytes := some (bytes.set 0 first)
        totalBits := n - min (8 - ((s % 8 : Nat) : Int)) n } := by
    rw [show 1 = 0 + 1 from rfl, contextAfter_succ,
      show contextAfter bv.buckets s n bytes 0 = startContext s n bytes from rfl,
      getBitsMapper_rest rfl (show (0 : Int) < n by omega) hmod (.inl (show 0 < s % 8 by omega)), Nat.add_zero]
    simp only [startContext, Option.bind_some, write_eq hbytes, ← hfirst]
  rw [getBits_eq (by omega) h, show (s % 8 + n + 7) / 8 = 1 + 1 by omega, contextAfter_succ, hcontext,
    getBitsMapper_rest rfl (show (0 : Int) < n - min (8 - ((s % 8 : Nat) : Int)) n by omega) hmod
      (.inl (show 0 < s % 8 by omega))]
  have hroom : 0 < (bytes.set 0 first).length := by rw [List.length_set]; exact hbytes
  simp only [startContext, Option.bind_some, write_eq hroom, Option.map_some]
  refine ⟨_, rfl, by rw [List.length_set, List.length_set], fun q hq => ?_⟩
  rw [bitAt_set _ hroom, if_pos (by omega), BitVec.getMsbD_shiftLeft]
  by_cases hj : q % 8 + s % 8 < 8
  · rw [getMsbD_masked hmod (by omega) (by omega) hj, decide_eq_false (by omega), Bool.and_false]
  · rw [BitVec.getMsbD_of_ge _ _ (by omega)]

end Extraction

/-- The bits of the range are in any buffer with room for them afterwards, and a
bit vector created from it holds them. -/
def ExtractsRange (bv : CFBitVector) (l : List Bool) (location length : Nat) : Prop :=
  ∀ bytes : List Bucket, (length + 7) / 8 ≤ bytes.length →
    ∃ out, bv.getBits location length bytes = some (bv, out) ∧
      (∀ i < length, bitAt out i = l.getD (location + i) false) ∧
      ∃ slice, CFBitVector.create out length = some slice ∧ Represents slice ((l.drop location).take length)

section Slices

variable {bv : CFBitVector} {l : List Bool} {location length : Nat}

/-- A bit vector created from bytes that hold the bits of a slice. -/
theorem create_slice {out : List Bucket} (hrange : location + length ≤ l.length) (hroom : (length + 7) / 8 ≤ out.length)
    (hbits : ∀ i < length, bitAt out i = l.getD (location + i) false) :
    ∃ slice, CFBitVector.create out length = some slice ∧ Represents slice ((l.drop location).take length) := by
  obtain ⟨numBytes, hnum⟩ : ∃ numBytes, numBytes = length / 8 + if length % 8 ≠ 0 then 1 else 0 := ⟨_, rfl⟩
  have hbytes : numBytes = (length + 7) / 8 := by
    rw [hnum]
    split <;> omega
  have hcap := roundUpCapacity_ge length
  refine ⟨_, by rw [CFBitVector.create, ← hnum, if_pos (by omega)], ?_⟩
  have hfits : (out.take numBytes).length ≤ numBuckets (roundUpCapacity length) := by
    rw [List.length_take, numBuckets]
    omega
  convert init_represents hfits using 1
  refine List.ext_getElem? fun i => ?_
  rw [List.getElem?_take, List.getElem?_drop, List.getElem?_map]
  split
  · rename_i hi
    rw [List.getElem?_range hi, Option.map_some, bitAt, List.getD_eq_getElem?_getD,
      List.getElem?_take_of_lt (by omega), ← List.getD_eq_getElem?_getD, ← bitAt, hbits i hi, List.getD_eq_getElem?_getD,
      List.getElem?_eq_getElem (by omega), Option.getD_some]
  · rename_i hi
    rw [List.getElem?_eq_none (by simpa using hi), Option.map_none]

/-- The range is extracted if and only if it starts at a bucket, or lies within
one, or has at most eight bits that are all 0. -/
theorem getBits_extracts_iff (h : Represents bv l) (hrange : location + length ≤ l.length) :
    ExtractsRange bv l location length ↔ location % 8 = 0 ∨ location % 8 + length ≤ 8 ∨
      length ≤ 8 ∧ ∀ i < length, l.getD (location + i) false = false := by
  have hroom : location + length ≤ 8 * bv.buckets.length := by
    have := h.room
    have := h.length
    omega
  have hold : ∀ i < length, bitAt bv.buckets (location + i) = l.getD (location + i) false := by
    intro i hi
    rw [List.getD_eq_getElem?_getD, h.bit _ (by rw [← h.length]; omega), Option.getD_some]
  by_cases hcopied : location % 8 = 0 ∨ location % 8 + length ≤ 8
  · refine iff_of_true (fun bytes hbytes => ?_) (by rw [← or_assoc]; exact .inl hcopied)
    rcases Nat.eq_zero_or_pos length with rfl | hlen
    · exact ⟨bytes, rfl, fun i hi => absurd hi (Nat.not_lt_zero i),
        create_slice hrange hbytes fun i hi => absurd hi (Nat.not_lt_zero i)⟩
    · obtain ⟨out, hget, houtlen, hbits⟩ := copied hlen hcopied hbytes hroom
      have hout : ∀ i < length, bitAt out i = l.getD (location + i) false := fun i hi =>
        (hbits i hi).trans (hold i hi)
      exact ⟨out, hget, hout, create_slice hrange (by rw [houtlen]; exact hbytes) hout⟩
  rw [not_or, Nat.not_le] at hcopied
  by_cases hshort : length ≤ 8
  · constructor
    · intro hextracts
      obtain ⟨out, hget, hbits, -⟩ := hextracts (List.replicate 1 0) (by rw [List.length_replicate]; omega)
      obtain ⟨out', hget', -, hzero⟩ := overwritten hcopied.2 hshort
        (show 0 < (List.replicate 1 (0 : Bucket)).length by decide) hroom
      obtain ⟨-, rfl⟩ := Prod.mk.inj (Option.some.inj (hget.symm.trans hget'))
      exact .inr (.inr ⟨hshort, fun i hi => (hbits i hi).symm.trans (hzero i hi)⟩)
    · rintro (hs | hs | ⟨-, hzeros⟩) bytes hbytes
      · exact absurd hs hcopied.1
      · omega
      · have hpos : 0 < bytes.length := by omega
        obtain ⟨out, hget, houtlen, hzero⟩ := overwritten hcopied.2 hshort hpos hroom
        have hout : ∀ i < length, bitAt out i = l.getD (location + i) false := fun i hi => by
          rw [hzero i hi, hzeros i hi]
        exact ⟨out, hget, hout, create_slice hrange (by rw [houtlen]; exact hbytes) hout⟩
  · -- bit 8 of the buffer is not written
    refine iff_of_false (fun hextracts => ?_) (by omega)
    obtain ⟨filler, hfiller⟩ : ∃ filler : Bucket, filler = if l.getD (location + 8) false then 0 else 255 := ⟨_, rfl⟩
    obtain ⟨out, hget, hbits, -⟩ := hextracts (List.replicate ((length + 7) / 8) filler)
      (Nat.le_of_eq List.length_replicate.symm)
    rw [getBits_eq (by omega) hroom] at hget
    obtain ⟨bytes, total, hcontext, hkept⟩ := kept_bytes bv.buckets (List.replicate ((length + 7) / 8) filler) length
      (show 0 < location % 8 by omega) ((location % 8 + length + 7) / 8)
    rw [hcontext] at hget
    obtain ⟨b, hb, hout⟩ := Option.map_eq_some_iff.mp hget
    obtain ⟨-, rfl⟩ := Prod.mk.inj hout
    have hsame := hkept b hb 8 (Nat.le_refl 8)
    have hfilled : (List.replicate ((length + 7) / 8) filler).getD (8 / 8) 0 = filler := by
      rw [List.getD_eq_getElem?_getD, List.getElem?_replicate, if_pos (by omega), Option.getD_some]
    rw [hbits 8 (by omega), bitAt, hfilled, hfiller] at hsame
    revert hsame
    cases l.getD (location + 8) false <;> decide

end Slices

/-- Sixteen bits, of which only bit 1 is set. -/
def oneOfSixteen : List Bool := false :: true :: List.replicate 14 false

theorem oneOfSixteen_represents : Represents (CFBitVector.init [0x40, 0] 16) oneOfSixteen :=
  init_represents (show [(0x40 : Bucket), 0].length ≤ numBuckets (roundUpCapacity 16) by decide)

/-- Eight bits from bit 1 on: the first byte has the bits of the second bucket. -/
theorem getBits_overwrites : 1 + 8 ≤ oneOfSixteen.length ∧
    Represents (CFBitVector.init [0x40, 0] 16) oneOfSixteen ∧
    ¬ ExtractsRange (CFBitVector.init [0x40, 0] 16) oneOfSixteen 1 8 := by
  refine ⟨by decide, oneOfSixteen_represents, fun h => ?_⟩
  obtain ⟨out, hget, hbits, -⟩ := h [0] (by decide)
  have hroom : 1 + 8 ≤ 8 * (CFBitVector.init [0x40, 0] 16).buckets.length := by decide
  obtain ⟨out', hget', -, hzero⟩ := overwritten (by decide) (by decide) (show 0 < [(0 : Bucket)].length by decide) hroom
  obtain ⟨-, rfl⟩ := Prod.mk.inj (Option.some.inj (hget.symm.trans hget'))
  have hfirst := (hbits 0 (by decide)).symm.trans (hzero 0 (by decide))
  revert hfirst
  decide

theorem getBits_extracts_aligned : ExtractsRange (CFBitVector.init [0x40, 0] 16) oneOfSixteen 0 11 :=
  (getBits_extracts_iff oneOfSixteen_represents (by decide)).mpr (.inl rfl)

end CFLite.BitVector
