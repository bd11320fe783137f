import CFLite.Collections.BitVector

/-!
# A bit vector is a list of booleans

What each operation of a mutable bit vector does to the list of its bits, and
that every query answers for that list. A step outside the allocated buckets
would have no result, so the results below say that there is none.

* `setCount_represents`, `mapped_represents`: bits that come into use are 0, and
  a change of a range is one of the list;
* `run_refines`: any operations with arguments in range, one after the other.
-/

namespace CFLite.BitVector

open Framework

/-! ## The list of bits -/

/-- `bv` holds the bits `l`. -/
structure Represents (bv : CFBitVector) (l : List Bool) : Prop where
  allocated : bv.buckets.length = numBuckets bv.capacity
  count_le : bv.count ≤ bv.capacity
  length : l.length = bv.count
  bit : ∀ i < bv.count, l[i]? = some (bitAt bv.buckets i)

/-- `f` of the elements `s`, …, `s + n - 1`. -/
def mapRange (f : Bool → Bool) (s n : Nat) (l : List Bool) : List Bool :=
  l.mapIdx fun i b => if s ≤ i ∧ i < s + n then f b else b

section Represents

variable {bv : CFBitVector} {l : List Bool}

theorem Represents.room (h : Represents bv l) : bv.count < 8 * bv.buckets.length := by
  have := h.allocated
  have := h.count_le
  unfold numBuckets at *
  omega

theorem Represents.div_lt (h : Represents bv l) {i : Nat} (hi : i < l.length) : i / 8 < bv.buckets.length := by
  have := h.room
  have := h.length
  omega

/-- A change of the bits of a range. -/
theorem Represents.maps {f : Bool → Bool} {s n : Nat} {buckets : List Bucket} (h : Represents bv l)
    (hm : MapsBits f bv.buckets s n buckets) : Represents { bv with buckets } (mapRange f s n l) := by
  refine ⟨hm.length.trans h.allocated, h.count_le, by simp [mapRange, h.length], fun i hi => ?_⟩
  rw [mapRange, List.getElem?_mapIdx, h.bit i hi, Option.map_some, hm.bit i]

theorem mapRange_one_const (v : Bool) (i : Nat) (l : List Bool) : mapRange (fun _ => v) i 1 l = l.set i v := by
  refine List.ext_getElem? fun k => ?_
  rw [mapRange, List.getElem?_mapIdx, List.getElem?_set]
  by_cases hk : i = k
  · subst hk
    by_cases hi : i < l.length <;> simp [hi]
  · rw [if_neg hk]
    cases l[k]? with
    | none => rfl
    | some b => rw [Option.map_some, if_neg (by omega)]

theorem mapRange_one (f : Bool → Bool) (i : Nat) (l : List Bool) : mapRange f i 1 l = l.modify i f := by
  refine List.ext_getElem? fun k => ?_
  rw [mapRange, List.getElem?_mapIdx, List.getElem?_modify]
  cases l[k]? with
  | none => simp
  | some b => simp only [Option.map_some, Option.map_eq_map]; exact congrArg some (if_congr (by omega) rfl rfl)

theorem mapRange_zero (f : Bool → Bool) (s : Nat) (l : List Bool) : mapRange f s 0 l = l := by
  refine List.ext_getElem? fun k => ?_
  rw [mapRange, List.getElem?_mapIdx]
  cases l[k]? with
  | none => rfl
  | some b => rw [Option.map_some, if_neg (by omega)]

theorem Represents.bitsFrom_eq (h : Represents bv l) {s n : Nat} (hn : s + n ≤ l.length) :
    bitsFrom bv.buckets s n = (l.drop s).take n := by
  refine List.ext_getElem? fun k => ?_
  have := h.length
  rw [List.getElem?_take, List.getElem?_drop, bitsFrom, List.getElem?_map]
  split
  · rename_i hk
    rw [h.bit (s + k) (by omega), List.getElem?_range' (by omega), Option.map_some, Nat.one_mul]
  · rename_i hk
    rw [List.getElem?_eq_none (by rw [List.length_range']; omega), Option.map_none]

end Represents

/-! ## The mappers -/

theorem getMsbD_ones : ∀ j < 8, (255#8).getMsbD j = true := by decide

theorem oneBits_acts : Acts oneBits (fun _ => true) (fun _ c => c) where
  bit _ _ _ j hj _ := by simp [oneBits, getMsbD_ones j hj]
  context _ _ _ := rfl
  nil _ := rfl
  append _ _ _ := rfl

theorem zeroBits_acts : Acts zeroBits (fun _ => false) (fun _ c => c) where
  bit _ _ _ j _ _ := by simp [zeroBits]
  context _ _ _ := rfl
  nil _ := rfl
  append _ _ _ := rfl

theorem flipMapper_acts : Acts flipMapper not (fun _ c => c) where
  bit _ _ _ j hj _ := by simp [flipMapper, getMsbD_ones j hj]
  context _ _ _ := rfl
  nil _ := rfl
  append _ _ _ := rfl

/-- The two nibbles together count the ones of a bucket. -/
theorem nibbleBitCount_eq (val : Bucket) :
    nibbleBitCount.getD (val &&& 15).toNat 0 + nibbleBitCount.getD (val >>> 4 &&& 15).toNat 0 =
      (List.range 8).countP val.getMsbD := by
  have key : ∀ val : Bucket, nibbleBitCount.getD (val &&& 15).toNat 0 +
      nibbleBitCount.getD (val >>> 4 &&& 15).toNat 0 = (List.range 8).countP val.getMsbD := by
    decide +kernel
  exact key val

theorem countBits_acts (value : CFBit) :
    Acts (countBits value) id (fun bits count => count + bits.count (decide (value ≠ 0))) where
  bit _ _ _ j _ _ := rfl
  context bucket mask count := by
    simp only [countBits, Nat.add_assoc, nibbleBitCount_eq]
    rw [List.count, List.countP_map, List.countP_filter]
    congr 1
    refine List.countP_congr fun j hj => ?_
    have hj : j < 8 := List.mem_range.mp hj
    by_cases hv : value = 0 <;> simp [hv, hj]
  nil count := rfl
  append bits bits' count := by simp only [List.count_append, Nat.add_assoc]

/-! ## The operations -/

section Operations

variable {bv : CFBitVector} {l : List Bool}

theorem roundUpCapacity_ge (n : Nat) : n ≤ roundUpCapacity n := by
  unfold roundUpCapacity
  dsimp only
  split <;> omega

/-- A mapper without a context changes the bits of the range. -/
theorem Represents.internalMap {mapper : Mapper Unit} {f : Bool → Bool} {s n : Nat} (h : Represents bv l)
    (hm : Acts mapper f (fun _ c => c)) (hn : s + n ≤ l.length) :
    ∃ buckets, internalMap mapper bv.buckets s n () = some (buckets, ()) ∧ MapsBits f bv.buckets s n buckets := by
  have := h.room
  have := h.length
  obtain ⟨⟨buckets, _⟩, hr, hbits, -⟩ := internalMap_spec hm ()
    (show s + n ≤ 8 * bv.buckets.length by omega)
  exact ⟨buckets, hr, hbits⟩

theorem init_represents {bytes : List Bucket} {numBits : Nat} (h : bytes.length ≤ numBuckets (roundUpCapacity numBits)) :
    Represents (CFBitVector.init bytes numBits) ((List.range numBits).map (bitAt bytes)) := by
  have := roundUpCapacity_ge numBits
  refine ⟨?_, this, by simp [CFBitVector.init], fun i hi => ?_⟩
  · simp only [CFBitVector.init, List.length_append, List.length_replicate]
    omega
  · have hi : i < numBits := hi
    rw [List.getElem?_map, List.getElem?_range hi, Option.map_some]
    refine congrArg some ?_
    simp only [bitAt, CFBitVector.init, List.getD_eq_getElem?_getD, List.getElem?_append]
    split
    · rfl
    · rename_i hout
      rw [List.getElem?_eq_none (by omega), List.getElem?_replicate]
      split <;> rfl

theorem createMutable_represents (capacity : Nat) : Represents (CFBitVector.createMutable capacity) [] :=
  init_represents (show ([] : List Bucket).length ≤ numBuckets (roundUpCapacity 0) by decide)

theorem createMutableCopy_represents (h : Represents bv l) (capacity : Nat) :
    ∃ bv', bv.createMutableCopy capacity = some bv' ∧ Represents bv' l := by
  have hroom := h.room
  have hlen := h.length
  have hcap := roundUpCapacity_ge bv.count
  have hbytes : bv.count / 8 + (if bv.count % 8 ≠ 0 then 1 else 0) ≤ bv.buckets.length := by split <;> omega
  have hfits : (bv.buckets.take (bv.count / 8 + if bv.count % 8 ≠ 0 then 1 else 0)).length ≤
      numBuckets (roundUpCapacity bv.count) := by
    rw [List.length_take, numBuckets]
    split <;> omega
  refine ⟨_, if_pos hbytes, ?_⟩
  convert init_represents hfits using 1
  refine List.ext_getElem? fun i => ?_
  by_cases hi : i < bv.count
  · rw [h.bit i hi, List.getElem?_map, List.getElem?_range hi, Option.map_some, bitAt, bitAt,
      List.getD_eq_getElem?_getD, List.getD_eq_getElem?_getD, List.getElem?_take_of_lt (by split <;> omega)]
  · rw [List.getElem?_eq_none (by omega), List.getElem?_eq_none (by simp; omega)]

theorem setCount_represents (h : Represents bv l) (junk : Nat → Bucket) (count : Nat) :
    ∃ bv', bv.setCount junk count = some bv' ∧
      Represents bv' (if l.length < count then l ++ List.replicate (count - l.length) false else l.take count) := by
  have hlen := h.length
  have hroom := h.room
  by_cases hlt : bv.count < count
  · have hcap := roundUpCapacity_ge count
    have hroom' : count < 8 * numBuckets (roundUpCapacity count) := by unfold numBuckets; omega
    have hsum : bv.count + (count - bv.count) = count := by omega
    obtain ⟨⟨buckets, _⟩, hr, hm, -⟩ := internalMap_spec zeroBits_acts ()
      (show bv.count + (count - bv.count) ≤
        8 * (reallocate junk bv.buckets (numBuckets (roundUpCapacity count))).length by rw [length_reallocate]; omega)
    refine ⟨⟨count, roundUpCapacity count, buckets⟩, ?_, ?_, hcap, ?_, fun i hi => ?_⟩
    · simp only [CFBitVector.setCount, CFBitVector.grow, hlt, if_true, hsum, hr, Option.map_some, Option.bind_eq_bind,
        Option.bind_some]
      rfl
    · exact hm.length.trans (length_reallocate ..)
    · rw [if_pos (by omega), List.length_append, List.length_replicate]
      show l.length + (count - l.length) = count
      omega
    · have hi : i < count := hi
      rw [if_pos (by omega), hm.bit, List.getElem?_append]
      split
      · rename_i hin
        have hdiv : i / 8 < bv.buckets.length := by omega
        rw [if_neg (by omega), h.bit i (by omega), bitAt, bitAt, List.getD_eq_getElem?_getD,
          List.getD_eq_getElem?_getD, getElem?_reallocate junk _ (by omega) hdiv]
      · rename_i hout
        rw [if_pos (by omega), List.getElem?_replicate, if_pos (by omega)]
  · refine ⟨{ bv with count }, ?_, h.allocated, ?_, ?_, fun i hi => ?_⟩
    · simp only [CFBitVector.setCount, hlt, if_false]
      rfl
    · have := h.count_le
      show count ≤ bv.capacity
      omega
    · rw [if_neg (by omega), List.length_take]
      show min count l.length = count
      omega
    · have hi : i < count := hi
      rw [if_neg (by omega), List.getElem?_take_of_lt hi, h.bit i (by omega)]

theorem setBits_represents (h : Represents bv l) {s n : Nat} (hn : s + n ≤ l.length) (value : CFBit) :
    ∃ bv', bv.setBits s n value = some bv' ∧ Represents bv' (mapRange (fun _ => decide (value ≠ 0)) s n l) := by
  rw [CFBitVector.setBits]
  split
  · rename_i hzero
    rw [hzero, mapRange_zero]
    exact ⟨bv, rfl, h⟩
  · by_cases hv : value = 0
    · obtain ⟨buckets, hr, hm⟩ := h.internalMap zeroBits_acts hn
      refine ⟨_, by rw [if_neg (not_not.mpr hv), hr]; rfl, ?_⟩
      simpa [hv] using h.maps hm
    · obtain ⟨buckets, hr, hm⟩ := h.internalMap oneBits_acts hn
      refine ⟨_, by rw [if_pos hv, hr]; rfl, ?_⟩
      simpa [hv] using h.maps hm

theorem flipBits_represents (h : Represents bv l) {s n : Nat} (hn : s + n ≤ l.length) :
    ∃ bv', bv.flipBits s n = some bv' ∧ Represents bv' (mapRange not s n l) := by
  rw [CFBitVector.flipBits]
  split
  · rename_i hzero
    rw [hzero, mapRange_zero]
    exact ⟨bv, rfl, h⟩
  · obtain ⟨buckets, hr, hm⟩ := h.internalMap flipMapper_acts hn
    exact ⟨_, by rw [hr]; rfl, h.maps hm⟩

theorem getMsbD_filler (value : CFBit) {j : Nat} (hj : j < 8) :
    (if value ≠ 0 then ~~~0 else 0 : Bucket).getMsbD j = decide (value ≠ 0) := by
  split
  · rename_i hv
    simp [hv, getMsbD_ones j hj]
  · rename_i hv
    simp [not_not.mp hv]

theorem setAllBits_represents (h : Represents bv l) (value : CFBit) :
    ∃ bv', bv.setAllBits value = some bv' ∧ Represents bv' (l.map fun _ => decide (value ≠ 0)) := by
  have hroom := h.room
  have hlen := h.length
  -- the bits of the last bucket, then the entire buckets
  obtain ⟨buckets, hr, hm⟩ : ∃ buckets,
      (if 0 < bv.count - bv.count / 8 * 8 then
        if value ≠ 0 then
          (internalMap oneBits bv.buckets (bv.count / 8 * 8) (bv.count - bv.count / 8 * 8) ()).map Prod.fst
        else (internalMap zeroBits bv.buckets (bv.count / 8 * 8) (bv.count - bv.count / 8 * 8) ()).map Prod.fst
      else some bv.buckets) = some buckets ∧
      MapsBits (fun _ => decide (value ≠ 0)) bv.buckets (bv.count / 8 * 8) (bv.count - bv.count / 8 * 8) buckets := by
    split
    · by_cases hv : value = 0
      · obtain ⟨buckets, hr, hm⟩ := h.internalMap (s := bv.count / 8 * 8) (n := bv.count - bv.count / 8 * 8)
          zeroBits_acts (by omega)
        exact ⟨buckets, by rw [if_neg (not_not.mpr hv), hr]; rfl, by simpa [hv] using hm⟩
      · obtain ⟨buckets, hr, hm⟩ := h.internalMap (s := bv.count / 8 * 8) (n := bv.count - bv.count / 8 * 8)
          oneBits_acts (by omega)
        exact ⟨buckets, by rw [if_pos hv, hr]; rfl, by simpa [hv] using hm⟩
    · rename_i hzero
      rw [show bv.count - bv.count / 8 * 8 = 0 by omega]
      exact ⟨bv.buckets, rfl, MapsBits.nothing _ _ _⟩
  have hfill := fill_eq (show bv.count / 8 ≤ buckets.length by rw [hm.length]; omega)
    (if value ≠ 0 then ~~~0 else 0)
  refine ⟨_, by rw [CFBitVector.setAllBits]; simp only [hr, hfill, Option.bind_eq_bind, Option.bind_some]; rfl, ?_⟩
  refine ⟨?_, h.count_le, by rw [List.length_map]; exact hlen, fun i hi => ?_⟩
  · rw [List.length_append, List.length_replicate, List.length_drop, ← h.allocated, hm.length]
    omega
  · have hi : i < bv.count := hi
    rw [List.getElem?_map, h.bit i hi, Option.map_some, bitAt, List.getD_eq_getElem?_getD, List.getElem?_append,
      List.length_replicate]
    split
    · rename_i hin
      rw [List.getElem?_replicate, if_pos hin, Option.getD_some, getMsbD_filler value (Nat.mod_lt i (by decide))]
    · rename_i hout
      have hbit := hm.bit i
      rw [if_pos (by omega), bitAt, List.getD_eq_getElem?_getD] at hbit
      rw [List.getElem?_drop, Nat.add_sub_cancel' (by omega), hbit]

end Operations

/-! ## The queries -/

/-- `kCFNotFound` is -1. -/
def indexOrNotFound : Option Nat → Int
  | some i => i
  | none => -1

/-- The queries of a bit vector answer for a list of booleans. -/
structure Answers (bv : CFBitVector) (l : List Bool) : Prop where
  getCount : bv.getCount = l.length
  getBitAtIndex : ∀ i < l.length, bv.getBitAtIndex i = some (l.getD i false).toNat
  getCountOfBit : ∀ s n value, s + n ≤ l.length →
    bv.getCountOfBit s n value = some (((l.drop s).take n).count (decide (value ≠ 0)))
  containsBit : ∀ s n value, s + n ≤ l.length →
    bv.containsBit s n value = some (((l.drop s).take n).contains (decide (value ≠ 0)))
  getFirstIndexOfBit : ∀ s n value, s + n ≤ l.length → bv.getFirstIndexOfBit s n value =
    some (indexOrNotFound ((List.range' s n).find? fun i => value = (l.getD i false).toNat))
  getLastIndexOfBit : ∀ s n value, s + n ≤ l.length → bv.getLastIndexOfBit s n value =
    some (indexOrNotFound ((List.range' s n).reverse.find? fun i => value = (l.getD i false).toNat))

section Queries

variable {bv : CFBitVector} {l : List Bool}

theorem Represents.getBitAtIndex (h : Represents bv l) {i : Nat} (hi : i < l.length) :
    bv.getBitAtIndex i = some (l.getD i false).toNat := by
  rw [CFBitVector.getBitAtIndex, bit_eq (h.div_lt hi), List.getD_eq_getElem?_getD, h.bit i (h.length ▸ hi),
    Option.getD_some]

theorem Represents.getCountOfBit (h : Represents bv l) {s n : Nat} (value : CFBit) (hn : s + n ≤ l.length) :
    bv.getCountOfBit s n value = some (((l.drop s).take n).count (decide (value ≠ 0))) := by
  rw [CFBitVector.getCountOfBit]
  split
  · rename_i hzero
    rw [hzero]
    rfl
  · have := h.room
    have := h.length
    obtain ⟨r, hr, hm⟩ := internalMap_spec (countBits_acts value) 0
      (show s + n ≤ 8 * bv.buckets.length by omega)
    rw [hr, ← h.bitsFrom_eq hn]
    exact congrArg some (hm.context.trans (Nat.zero_add _))

theorem Represents.firstIndexFrom (h : Represents bv l) (value : CFBit) {s n : Nat} (hn : s + n ≤ l.length) :
    bv.firstIndexFrom value n s =
      some (indexOrNotFound ((List.range' s n).find? fun i => value = (l.getD i false).toNat)) := by
  induction n generalizing s with
  | zero => rfl
  | succ n ih =>
    rw [CFBitVector.firstIndexFrom, h.getBitAtIndex (by omega), List.range'_succ, List.find?_cons]
    simp only [Option.bind_eq_bind, Option.bind_some]
    split <;> rename_i hv
    · rw [decide_eq_true hv]
      rfl
    · rw [decide_eq_false hv, ih (by omega)]

theorem Represents.getLastIndexOfBit (h : Represents bv l) (value : CFBit) {s n : Nat} (hn : s + n ≤ l.length) :
    bv.getLastIndexOfBit s n value =
      some (indexOrNotFound ((List.range' s n).reverse.find? fun i => value = (l.getD i false).toNat)) := by
  induction n with
  | zero => rfl
  | succ n ih =>
    rw [CFBitVector.getLastIndexOfBit, h.getBitAtIndex (by omega), List.range'_concat, List.reverse_append,
      Nat.one_mul, List.reverse_singleton, List.singleton_append, List.find?_cons]
    simp only [Option.bind_eq_bind, Option.bind_some]
    split <;> rename_i hv
    · rw [decide_eq_true hv]
      rfl
    · rw [decide_eq_false hv, ih (by omega)]

theorem Represents.answers (h : Represents bv l) : Answers bv l where
  getCount := h.length.symm
  getBitAtIndex _ hi := h.getBitAtIndex hi
  getCountOfBit _ _ value hn := h.getCountOfBit value hn
  containsBit s n value hn := by
    rw [CFBitVector.containsBit, h.getCountOfBit value hn]
    simp only [Option.bind_eq_bind, Option.bind_some, ne_eq, List.count_eq_zero]
    by_cases hmem : decide (value ≠ 0) ∈ (l.drop s).take n <;> simp_all
  getFirstIndexOfBit _ _ value hn := h.firstIndexFrom value hn
  getLastIndexOfBit _ _ value hn := h.getLastIndexOfBit value hn

end Queries

/-! ## Runs -/

/-- An operation and its arguments, with what `realloc` leaves in new bytes. -/
inductive Operation where
  | setCount (count : Nat) (junk : Nat → Bucket)
  | setBitAtIndex (idx : Nat) (value : CFBit)
  | flipBitAtIndex (idx : Nat)
  | setBits (location length : Nat) (value : CFBit)
  | flipBits (location length : Nat)
  | setAllBits (value : CFBit)
  | createMutableCopy (capacity : Nat)

namespace Operation

def run (bv : CFBitVector) : Operation → Option CFBitVector
  | setCount count junk => bv.setCount junk count
  | setBitAtIndex idx value => bv.setBitAtIndex idx value
  | flipBitAtIndex idx => bv.flipBitAtIndex idx
  | setBits location length value => bv.setBits location length value
  | flipBits location length => bv.flipBits location length
  | setAllBits value => bv.setAllBits value
  | createMutableCopy capacity => bv.createMutableCopy capacity

/-- The operation on a list of booleans. -/
def onList (l : List Bool) : Operation → List Bool
  | setCount count _ => if l.length < count then l ++ List.replicate (count - l.length) false else l.take count
  | setBitAtIndex idx value => l.set idx (decide (value ≠ 0))
  | flipBitAtIndex idx => l.modify idx not
  | setBits location length value => mapRange (fun _ => decide (value ≠ 0)) location length l
  | flipBits location length => mapRange not location length l
  | setAllBits value => l.map fun _ => decide (value ≠ 0)
  | createMutableCopy _ => l

/-- The arguments are in range for a vector of `count` bits. -/
def InRange (count : Nat) : Operation → Prop
  | setBitAtIndex idx _ | flipBitAtIndex idx => idx < count
  | setBits location length _ | flipBits location length => location + length ≤ count
  | _ => True

theorem run_represents {bv : CFBitVector} {l : List Bool} (h : Represents bv l) (op : Operation)
    (hop : op.InRange l.length) : ∃ bv', op.run bv = some bv' ∧ Represents bv' (op.onList l) := by
  cases op with
  | setCount count junk => exact setCount_represents h junk count
  | setBitAtIndex idx value =>
    obtain ⟨buckets, hr, hm⟩ := setBit_eq (h.div_lt hop) value
    refine ⟨{ bv with buckets }, by simp [run, CFBitVector.setBitAtIndex, hr], ?_⟩
    simpa only [onList, mapRange_one_const] using h.maps hm
  | flipBitAtIndex idx =>
    obtain ⟨buckets, hr, hm⟩ := flipBit_eq (h.div_lt hop)
    refine ⟨{ bv with buckets }, by simp [run, CFBitVector.flipBitAtIndex, hr], ?_⟩
    simpa only [onList, mapRange_one] using h.maps hm
  | setBits location length value => exact setBits_represents h hop value
  | flipBits location length => exact flipBits_represents h hop
  | setAllBits value => exact setAllBits_represents h value
  | createMutableCopy capacity => exact createMutableCopy_represents h capacity

end Operation

/-- Each operation has its arguments in range when its turn comes. -/
def InRange : List Bool → List Operation → Prop
  | _, [] => True
  | l, op :: ops => op.InRange l.length ∧ InRange (op.onList l) ops

/-- Operations one after the other. -/
def run (bv : CFBitVector) (ops : List Operation) : Option CFBitVector := ops.foldlM Operation.run bv

/-- Operations in range on a new bit vector do to its bits what they do to the
empty list, without touching a bucket outside the allocation, and so does every
query afterwards. -/
theorem run_refines (capacity : Nat) (ops : List Operation) (h : InRange [] ops) :
    ∃ bv, run (CFBitVector.createMutable capacity) ops = some bv ∧ Represents bv (ops.foldl Operation.onList []) ∧
      Answers bv (ops.foldl Operation.onList []) := by
  have key : ∀ (ops : List Operation) (bv : CFBitVector) (l : List Bool), Represents bv l → InRange l ops →
      ∃ bv', run bv ops = some bv' ∧ Represents bv' (ops.foldl Operation.onList l) := by
    intro ops
    induction ops with
    | nil => exact fun bv l hbv _ => ⟨bv, rfl, hbv⟩
    | cons op ops ih =>
      intro bv l hbv hops
      obtain ⟨bv₁, hr₁, hbv₁⟩ := op.run_represents hbv hops.1
      obtain ⟨bv₂, hr₂, hbv₂⟩ := ih bv₁ _ hbv₁ hops.2
      exact ⟨bv₂, by rw [run, List.foldlM_cons, hr₁]; exact hr₂, hbv₂⟩
  obtain ⟨bv, hr, hbv⟩ := key ops _ _ (createMutable_represents capacity) h
  exact ⟨bv, hr, hbv, hbv.answers⟩

/-- Thirteen bits, all set, cut down to three and grown again. -/
theorem run_refines_regrown :
    InRange [] [.setCount 13 fun _ => 0xA5, .setAllBits 1, .setCount 3 fun _ => 0, .setCount 5 fun _ => 0] ∧
    ∃ bv, run (CFBitVector.createMutable 0)
        [.setCount 13 fun _ => 0xA5, .setAllBits 1, .setCount 3 fun _ => 0, .setCount 5 fun _ => 0] = some bv ∧
      Represents bv [true, true, true, false, false] ∧ Answers bv [true, true, true, false, false] := by
  have h : InRange [] [.setCount 13 fun _ => 0xA5, .setAllBits 1, .setCount 3 fun _ => 0, .setCount 5 fun _ => 0] :=
    ⟨trivial, trivial, trivial, trivial, trivial⟩
  exact ⟨h, run_refines 0 _ h⟩

end CFLite.BitVector
