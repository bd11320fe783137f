import CFLite.Collections.Data

/-!
# Mutable data as a list of bytes

* `grow_spec`: a larger buffer with the same contents;
* `replaceBytes_spec`, `setLength_spec`: the contents after an operation;
* `run_contents`: over any run whose steps leave no stale bytes behind a clear
  flag and do not move the tail over their own source, the contents are the
  list that went through the same operations.
-/

namespace CFLite.Data

open Framework

variable {junk : Nat → UInt8} {data data' : CFMutableData}

/-! ## The contents -/

/-- The bytes of the data. -/
def CFMutableData.contents (data : CFMutableData) : List UInt8 := data.bytes.take data.length

/-- The bytes past the length are zero. -/
def CFMutableData.SpareZero (data : CFMutableData) : Prop :=
  ∀ k, data.length ≤ k → k < data.bytes.length → data.bytes[k]? = some 0

/-- The length is within the capacity, and the spare bytes are zero unless the
flag says that they may not be. -/
structure CFMutableData.WellFormed (data : CFMutableData) : Prop where
  length_le : data.length ≤ data.bytes.length
  spare : data.needsToZero = false → data.SpareZero

theorem getElem?_contents {k : Nat} (h : k < data.length) : data.contents[k]? = data.bytes[k]? :=
  List.getElem?_take_of_lt h

theorem length_contents (h : data.length ≤ data.bytes.length) : data.contents.length = data.length :=
  (List.length_take ..).trans (Nat.min_eq_left h)

/-! ## Growth -/

theorem le_roundUpCapacity {n : Nat} (h : n < 2 ^ 20) : n ≤ (roundUpCapacity n).toNat := by
  unfold roundUpCapacity
  split
  · exact Nat.le_of_lt (by assumption)
  · have hfl : flsl n ≤ 20 := flsl_le_iff.mpr h
    have hself : n < 2 ^ flsl n := flsl_le_iff.mp le_rfl
    rw [if_pos (show n < lowThreshold from h)]
    dsimp only
    have hidx : ∀ b, b ≤ 1 → n ≤ (oneShl (flsl n + b)).toNat := by
      intro b hb
      rw [oneShl_eq (by omega), show ((2 : Int) ^ (flsl n + b)) = ((2 ^ (flsl n + b) : Nat) : Int) by push_cast; rfl,
        Int.toNat_natCast]
      exact hself.le.trans (Nat.pow_le_pow_right (by decide) (Nat.le_add_right _ _))
    split
    · exact hidx 0 (Nat.zero_le 1)
    · exact hidx 1 le_rfl

/-- `data'` is `data` with room for `n` more bytes. -/
structure Grown (data data' : CFMutableData) (n : Nat) (clear : Bool) : Prop where
  length_eq : data'.length = data.length
  isGrowable_eq : data'.isGrowable = data.isGrowable
  room : data.length + n ≤ data'.bytes.length
  kept : ∀ k < data.length, data'.bytes[k]? = data.bytes[k]?
  cleared : clear = true → ∀ k, data.length ≤ k → k < data.length + n → data'.bytes[k]? = some 0
  spare : data'.needsToZero = false → data'.SpareZero

theorem grow_of_room (junk : Nat → UInt8) (h : data.length ≤ data.bytes.length) {n : Nat} (hmax : ¬ data.length + n > dataMaxSize)
    (hroom : data.length + n ≤ (roundUpCapacity (data.length + n)).toNat) (clear : Bool) :
    ∃ data', grow junk data n clear = some data' ∧ Grown data data' n clear := by
  unfold grow
  dsimp only
  rw [if_neg hmax]
  simp only [Option.pure_def, Option.bind_eq_bind, Option.bind_some]
  generalize (roundUpCapacity (data.length + n)).toNat = numBytes at hroom
  split
  · -- cleared memory, with the old contents moved in
    obtain ⟨old, hread, hlen, hold⟩ := readRange_spec (Nat.le_trans (Nat.le_of_eq (Nat.zero_add data.length)) h)
    have hfits : 0 + old.length ≤ (allocate junk numBytes true).length := by
      rw [allocate, if_pos rfl, List.length_replicate]
      omega
    obtain ⟨bytes, hwrite, hsize, hget⟩ := writeRange_spec hfits
    rw [Nat.cast_zero] at hread hwrite
    rw [hread, Option.bind_some, hwrite]
    have hzero : ∀ k, data.length ≤ k → k < numBytes → bytes[k]? = some 0 := by
      intro k hk hlt
      rw [hget, if_neg (by omega), allocate, if_pos rfl, List.getElem?_replicate_of_lt hlt]
    rw [allocate, if_pos rfl, List.length_replicate] at hsize
    refine ⟨_, rfl, rfl, rfl, hsize ▸ hroom, ?_, ?_, ?_⟩
    · intro k hk
      dsimp only
      rw [hget, if_pos ⟨Nat.zero_le k, by omega⟩, hold _ (by omega), Nat.zero_add, Nat.sub_zero]
    · exact fun _ k hk hlt => hzero k hk (by omega)
    · exact fun _ k hk hlt => hzero k hk (hsize ▸ hlt)
  · have hkept : ∀ k < data.length, (reallocate junk data.bytes numBytes)[k]? = data.bytes[k]? :=
      fun k hk => getElem?_reallocate junk data.bytes (by omega) (by omega)
    split
    · rename_i hclear
      rw [Bool.and_eq_true, decide_eq_true_iff] at hclear
      have hfits : data.length + (List.replicate (data.length + n - data.length) (0 : UInt8)).length ≤
          (reallocate junk data.bytes numBytes).length := by
        rw [List.length_replicate, length_reallocate]
        omega
      obtain ⟨bytes, hwrite, hsize, hget⟩ := writeRange_spec hfits
      rw [length_reallocate] at hsize
      rw [List.length_replicate] at hget
      rw [zeroRange, hwrite]
      refine ⟨_, rfl, rfl, rfl, hsize ▸ hroom, ?_, ?_, fun hflag => absurd hflag.symm Bool.false_ne_true⟩
      · intro k hk
        dsimp only
        rw [hget, if_neg (by omega), hkept k hk]
      · intro _ k hk hlt
        dsimp only
        rw [hget, if_pos ⟨hk, by omega⟩, List.getElem?_replicate_of_lt (by omega)]
    · rename_i hclear
      refine ⟨_, rfl, rfl, rfl, ?_, hkept, ?_, fun hflag => absurd hflag.symm Bool.false_ne_true⟩
      · rw [length_reallocate]
        exact hroom
      · rintro rfl k hk hlt
        exact absurd (by simpa using Nat.lt_of_le_of_lt hk hlt) hclear

theorem grow_spec (junk : Nat → UInt8) (h : data.length ≤ data.bytes.length) {n : Nat} (hn : data.length + n < 2 ^ 20) (clear : Bool) :
    ∃ data', grow junk data n clear = some data' ∧ Grown data data' n clear := by
  refine grow_of_room junk h ?_ (le_roundUpCapacity hn) clear
  rw [dataMaxSize]
  omega

/-! ## Raising and lowering the length -/

theorem contents_eq {list : List UInt8} (h : data.length ≤ data.bytes.length) (hlen : list.length = data.length)
    (hget : ∀ k < data.length, data.bytes[k]? = list[k]?) : data.contents = list := by
  refine List.ext_getElem? fun k => ?_
  by_cases hk : k < data.length
  · rw [getElem?_contents hk, hget k hk]
  · rw [List.getElem?_eq_none (by rw [length_contents h]; omega), List.getElem?_eq_none (by omega)]

/-- The list that is cut or filled up with zeros to a length. -/
def setLengthOf (list : List UInt8) (n : Nat) : List UInt8 := list.take n ++ List.replicate (n - list.length) 0

theorem length_setLengthOf (list : List UInt8) (n : Nat) : (setLengthOf list n).length = n := by
  rw [setLengthOf, List.length_append, List.length_take, List.length_replicate]
  omega

theorem getElem?_setLengthOf (h : data.length ≤ data.bytes.length) {n k : Nat} (hk : k < n) :
    (setLengthOf data.contents n)[k]? = if k < data.length then data.bytes[k]? else some 0 := by
  rw [setLengthOf, List.getElem?_append, List.length_take, length_contents h]
  split
  · rw [if_pos (by omega), List.getElem?_take_of_lt hk, getElem?_contents (by omega)]
  · rw [if_neg (by omega), List.getElem?_replicate_of_lt (by omega)]

theorem setLength_spec (junk : Nat → UInt8) (h : data.WellFormed) {n : Nat} (hn : n < 2 ^ 20)
    (hfixed : data.isGrowable = false → n ≤ data.bytes.length) :
    ∃ data', setLength junk data n = some data' ∧ data'.WellFormed ∧ data'.isGrowable = data.isGrowable ∧
      data'.contents = setLengthOf data.contents n := by
  have hlen := h.length_le
  have hnew := length_setLengthOf data.contents n
  unfold setLength
  dsimp only
  split
  · rename_i hroom
    have hgrow : data.isGrowable = true := by
      by_contra hg
      have := hfixed (Bool.eq_false_iff.mpr hg)
      omega
    have hsum : data.length + (n - data.length) = n := by omega
    obtain ⟨data', heq, hgrown⟩ := grow_spec junk hlen (hsum.symm ▸ hn) true
    have hsize := hgrown.room
    rw [hsum] at hsize
    rw [if_pos hgrow, heq]
    refine ⟨_, rfl, ⟨hsize, fun hflag k hk => hgrown.spare hflag k ?_⟩, hgrown.isGrowable_eq, ?_⟩
    · rw [hgrown.length_eq]
      exact Nat.le_trans (by omega) (show n ≤ k from hk)
    · refine contents_eq hsize hnew fun k hk => ?_
      rw [getElem?_setLengthOf hlen hk]
      split
      · rename_i hold
        exact hgrown.kept k hold
      · rename_i hold
        exact hgrown.cleared rfl k (by omega) (by rw [hsum]; exact hk)
  · rename_i hroom
    split
    · rename_i hzero
      rw [Bool.and_eq_true, decide_eq_true_iff] at hzero
      have hfits : data.length + (List.replicate (n - data.length) (0 : UInt8)).length ≤ data.bytes.length := by
        rw [List.length_replicate]
        omega
      obtain ⟨bytes, hwrite, hsize, hget⟩ := writeRange_spec hfits
      rw [List.length_replicate] at hget
      rw [zeroRange, hwrite]
      refine ⟨_, rfl, ⟨?_, fun hflag => absurd (hzero.2.symm.trans hflag) (by decide)⟩, rfl, ?_⟩
      · dsimp only
        omega
      · refine contents_eq (by dsimp only; omega) hnew fun k hk => ?_
        rw [getElem?_setLengthOf hlen hk]
        dsimp only at hk ⊢
        rw [hget]
        split
        · rw [if_neg (by omega), List.getElem?_replicate_of_lt (by omega)]
        · rw [if_pos (by omega)]
    · rename_i hzero
      rw [Bool.and_eq_true, decide_eq_true_iff, not_and, Bool.not_eq_true] at hzero
      split
      · rename_i hless
        refine ⟨_, rfl, ⟨by dsimp only; omega, fun hflag => absurd hflag.symm Bool.false_ne_true⟩, rfl, ?_⟩
        refine contents_eq (by dsimp only; omega) hnew fun k hk => ?_
        dsimp only at hk ⊢
        rw [getElem?_setLengthOf hlen hk, if_pos (by omega)]
      · rename_i hless
        refine ⟨_, rfl, ⟨by dsimp only; omega, fun hflag k hk => h.spare hflag k (by dsimp only at hk; omega)⟩, rfl, ?_⟩
        refine contents_eq (by dsimp only; omega) hnew fun k hk => ?_
        dsimp only at hk ⊢
        rw [getElem?_setLengthOf hlen hk]
        split
        · rfl
        · exact h.spare (hzero (by omega)) k (by omega) (by omega)

/-! ## Replacing -/

theorem length_read {bytes values : List UInt8} {n : Nat} {source : Source} (h : source.read bytes n = some values) :
    values.length = n := by
  have hlen : ∀ {bs : List UInt8} {i : Int}, readRange bs i n = some values → values.length = n := by
    intro bs i hread
    obtain ⟨hi, hfits, rfl⟩ := readRange_eq_some hread
    rw [List.length_take, List.length_drop]
    omega
  cases source with
  | external _ => exact hlen h
  | internal _ => exact hlen h
  | freed => exact absurd h.symm (Option.some_ne_none values)

/-- A source survives the growth of the buffer, unless nothing is read. -/
theorem sourceBuffer_spec {n : Nat} {newBytes : Source} {values : List UInt8}
    (hread : newBytes.read data.bytes n = some values) :
    ∃ srcBuf, sourceBuffer data n newBytes = some srcBuf ∧ (n = 0 ∨ ∀ bytes, srcBuf.read bytes n = some values) := by
  unfold sourceBuffer
  split
  · have hfits : 0 + n ≤ values.length := by rw [length_read hread, Nat.zero_add]
    have hcopy := readRange_eq hfits
    rw [List.drop_zero, List.take_of_length_le (length_read hread).le] at hcopy
    rw [hread]
    exact ⟨.external values, rfl, Or.inr fun _ => hcopy⟩
  · rename_i hover
    cases newBytes with
    | external bytes => exact ⟨.external bytes, rfl, Or.inr fun _ => hread⟩
    | internal offset =>
      obtain ⟨-, hfits, -⟩ := readRange_eq_some hread
      refine ⟨.freed, rfl, Or.inl ?_⟩
      simp only [overlaps, Bool.and_eq_true, decide_eq_true_iff] at hover
      omega
    | freed => exact absurd hread.symm (Option.some_ne_none values)

/-- Room for the tail and the new bytes. The source is read later from where it
is, or was copied before the buffer was given back. -/
theorem makeRoom_spec (junk : Nat → UInt8) (h : data.WellFormed) {rangeLength n newCount : Nat} {newBytes : Source} {values : List UInt8}
    (hcount : newCount + rangeLength = data.length + n) (hnew : newCount < 2 ^ 20)
    (hfixed : data.isGrowable = false → newCount ≤ data.bytes.length) (hread : newBytes.read data.bytes n = some values) :
    ∃ data' srcBuf, makeRoom junk data rangeLength n newCount newBytes = some (data', srcBuf) ∧
      ((data' = data ∧ srcBuf = newBytes ∧ newCount ≤ data.bytes.length) ∨
        (data.bytes.length < newCount ∧ Grown data data' (n - rangeLength) false ∧
          (n = 0 ∨ ∀ bytes, srcBuf.read bytes n = some values))) := by
  have hlen := h.length_le
  unfold makeRoom
  split
  · split
    · rename_i hroom
      have hsmall : data.length + (n - rangeLength) < 2 ^ 20 := by omega
      obtain ⟨data', hgrow, hgrown⟩ := grow_spec junk hlen hsmall false
      obtain ⟨srcBuf, hsource, hlater⟩ := sourceBuffer_spec hread
      refine ⟨data', srcBuf, ?_, Or.inr ⟨hroom, hgrown, hlater⟩⟩
      simp only [hsource, hgrow, Option.bind_eq_bind, Option.bind_some, Option.pure_def]
    · rename_i hroom
      exact ⟨data, newBytes, rfl, Or.inl ⟨rfl, rfl, by omega⟩⟩
  · rename_i hgrowable
    have hle := hfixed (Bool.eq_false_iff.mpr hgrowable)
    exact ⟨data, newBytes, if_neg (by omega), Or.inl ⟨rfl, rfl, hle⟩⟩

/-- The tail is moved to its new place. -/
theorem moveTail_spec {bytes : List UInt8} {location rangeLength n len newCount : Nat}
    (hcount : newCount + rangeLength = len + n) (hin : location + rangeLength ≤ len) (hlen : len ≤ bytes.length)
    (hroom : newCount ≤ bytes.length) :
    ∃ bytes', moveTail bytes location rangeLength n len = some bytes' ∧ bytes'.length = bytes.length ∧
      ∀ k, bytes'[k]? = if location + n ≤ k ∧ k < newCount then bytes[k - n + rangeLength]? else bytes[k]? := by
  unfold moveTail
  split
  · have hfrom : location + rangeLength + (len - location - rangeLength) ≤ bytes.length := by omega
    obtain ⟨tail, hread, hsize, htail⟩ := readRange_spec hfrom
    have hto : location + n + tail.length ≤ bytes.length := by omega
    obtain ⟨bytes', hwrite, hsize', hget⟩ := writeRange_spec hto
    refine ⟨bytes', ?_, hsize', fun k => ?_⟩
    · rw [moveRange, hread, Option.bind_some, hwrite]
    · rw [hget, hsize]
      by_cases hk : location + n ≤ k ∧ k < newCount
      · rw [if_pos (by omega), if_pos hk, htail _ (by omega), show location + rangeLength + (k - (location + n)) =
          k - n + rangeLength by omega]
      · rw [if_neg (by omega), if_neg hk]
  · refine ⟨bytes, rfl, rfl, fun k => ?_⟩
    split
    · rw [show k - n + rangeLength = k by omega]
    · rfl

/-- The new bytes are stored where the range was. -/
theorem storeBytes_spec {bytes values : List UInt8} {location n : Nat} {srcBuf : Source} (hvalues : values.length = n)
    (hfits : location + n ≤ bytes.length) (hsource : n = 0 ∨ srcBuf.read bytes n = some values) :
    ∃ bytes', storeBytes bytes location srcBuf n = some bytes' ∧ bytes'.length = bytes.length ∧
      ∀ k, bytes'[k]? = if location ≤ k ∧ k < location + n then values[k - location]? else bytes[k]? := by
  unfold storeBytes
  split
  · rename_i hpos
    obtain ⟨bytes', hwrite, hsize, hget⟩ := writeRange_spec (hvalues.symm ▸ hfits : location + values.length ≤ bytes.length)
    rw [hvalues] at hget
    refine ⟨bytes', ?_, hsize, hget⟩
    rw [hsource.resolve_left hpos.ne', Option.bind_some, hwrite]
  · refine ⟨bytes, rfl, rfl, fun k => ?_⟩
    rw [if_neg (by omega)]

/-- The tail is not moved over the source before that is read. -/
def SourceKept (data : CFMutableData) (location rangeLength newLength : Nat) : Source → Prop
  | .internal offset =>
    newLength = 0 ∨ newLength = rangeLength ∨ location + rangeLength = data.length ∨
    (data.isGrowable = true ∧ data.bytes.length + rangeLength < data.length + newLength) ∨
    offset ≤ location ∨ data.length + newLength ≤ offset + rangeLength
  | _ => True

/-- No stale bytes are left behind a clear flag. -/
def NoStaleBytes (data : CFMutableData) (rangeLength newLength : Nat) : Prop :=
  newLength < rangeLength →
    data.needsToZero = true ∨
    (data.contents.drop (data.length + newLength - rangeLength)).all (· == 0) = true

theorem NoStaleBytes.getElem? {rangeLength newLength k : Nat} (h : NoStaleBytes data rangeLength newLength)
    (hflag : data.needsToZero = false) (hless : newLength < rangeLength)
    (hk : data.length + newLength - rangeLength ≤ k) (hlt : k < data.length) (hlen : data.length ≤ data.bytes.length) :
    data.bytes[k]? = some 0 := by
  have hall := (h hless).resolve_left fun ht => Bool.false_ne_true (hflag.symm.trans ht)
  have hget : data.contents[k]? = some (data.bytes.get ⟨k, by omega⟩) := by
    rw [getElem?_contents hlt]
    exact List.getElem?_eq_getElem (by omega)
  have hmem : data.bytes.get ⟨k, by omega⟩ ∈ data.contents.drop (data.length + newLength - rangeLength) := by
    refine List.mem_of_getElem? (i := k - (data.length + newLength - rangeLength)) ?_
    rw [List.getElem?_drop, Nat.add_sub_cancel' hk, hget]
  have hzero := List.all_eq_true.mp hall _ hmem
  rw [← getElem?_contents hlt, hget, beq_iff_eq.mp hzero]

theorem replaceBytes_spec (junk : Nat → UInt8) (h : data.WellFormed) {location rangeLength n : Nat} {newBytes : Source} {values : List UInt8}
    (hin : location + rangeLength ≤ data.length) (hnew : data.length + n < 2 ^ 20 + rangeLength)
    (hfixed : data.isGrowable = false → data.length + n ≤ data.bytes.length + rangeLength)
    (hread : newBytes.read data.bytes n = some values) (hkept : SourceKept data location rangeLength n newBytes)
    (hstale : NoStaleBytes data rangeLength n) :
    ∃ data', replaceBytes junk data location rangeLength newBytes n = some data' ∧ data'.WellFormed ∧
      data'.isGrowable = data.isGrowable ∧
      data'.contents = data.contents.take location ++ values ++ data.contents.drop (location + rangeLength) := by
  have hlen := h.length_le
  have hvalues := length_read hread
  obtain ⟨newCount, hcount⟩ : ∃ newCount, newCount + rangeLength = data.length + n :=
    ⟨data.length + n - rangeLength, by omega⟩
  have hsub : data.length + n - rangeLength = newCount := by omega
  unfold replaceBytes
  dsimp only
  rw [if_neg (by omega), hsub]
  obtain ⟨data₁, srcBuf, hmake, hcases⟩ :=
    makeRoom_spec junk h hcount (by omega) (fun hg => by have := hfixed hg; omega) hread
  -- what there is in the buffer, whether it has grown or not
  obtain ⟨hlen₁, hold₁, hgrowable₁, hroom₁, hbytes₁, hspare₁⟩ : data₁.length = data.length ∧
      data.length ≤ data₁.bytes.length ∧ data₁.isGrowable = data.isGrowable ∧ newCount ≤ data₁.bytes.length ∧
      (∀ k < data.length, data₁.bytes[k]? = data.bytes[k]?) ∧
      (data₁.needsToZero = false → ∀ k, newCount ≤ k → k < data₁.bytes.length → data₁.bytes[k]? = some 0) := by
    rcases hcases with ⟨rfl, -, hroom⟩ | ⟨hroom, hgrown, -⟩
    · refine ⟨rfl, hlen, rfl, hroom, fun _ _ => rfl, fun hflag k hk hlt => ?_⟩
      by_cases hold : data₁.length ≤ k
      · exact h.spare hflag k hold hlt
      · exact hstale.getElem? hflag (by omega) (by omega) (by omega) hlen
    · have hsize := hgrown.room
      refine ⟨hgrown.length_eq, by omega, hgrown.isGrowable_eq, by omega, hgrown.kept, fun hflag k hk hlt => ?_⟩
      exact hgrown.spare hflag k (by rw [hgrown.length_eq]; omega) hlt
  obtain ⟨bytes₂, hmove, hsize₂, hget₂⟩ := moveTail_spec hcount hin hold₁ hroom₁
  -- the source still has the values it had before the call
  have hsource : n = 0 ∨ srcBuf.read bytes₂ n = some values := by
    rcases hcases with ⟨rfl, rfl, hroom⟩ | ⟨-, -, hlater⟩
    · cases srcBuf with
      | external bytes => exact Or.inr hread
      | freed => exact absurd hread.symm (Option.some_ne_none values)
      | internal offset =>
        by_cases hn : n = 0
        · exact Or.inl hn
        · obtain ⟨-, hfits, rfl⟩ := readRange_eq_some hread
          have hfits₂ : offset + n ≤ bytes₂.length := by omega
          refine Or.inr ((readRange_eq hfits₂).trans (congrArg some ?_))
          refine List.ext_getElem? fun k => ?_
          by_cases hk : k < n
          · rw [List.getElem?_take_of_lt hk, List.getElem?_take_of_lt hk, List.getElem?_drop, List.getElem?_drop,
              Int.toNat_natCast, hget₂]
            split
            · rename_i hmoved
              have hclear : n = rangeLength := by
                simp only [SourceKept] at hkept
                omega
              rw [hclear, Nat.sub_add_cancel (by omega)]
            · rfl
          · rw [List.getElem?_eq_none (by rw [List.length_take]; omega),
              List.getElem?_eq_none (by rw [List.length_take]; omega)]
    · exact hlater.imp_right fun h => h bytes₂
  have hfits₂ : location + n ≤ bytes₂.length := by omega
  obtain ⟨bytes₃, hwrite, hsize₃, hget₃⟩ := storeBytes_spec hvalues hfits₂ hsource
  have hlater : ∀ k, newCount ≤ k → bytes₃[k]? = data₁.bytes[k]? := by
    intro k hk
    rw [hget₃, if_neg (by omega), hget₂, if_neg (by omega)]
  refine ⟨{ data₁ with bytes := bytes₃, length := newCount }, ?_, ⟨?_, fun hflag k hk hlt => ?_⟩, hgrowable₁, ?_⟩
  · simp only [hmake, hmove, hwrite, Option.bind_eq_bind, Option.bind_some, Option.pure_def]
  · exact hroom₁.trans (by rw [hsize₃, hsize₂])
  · rw [hlater k hk]
    exact hspare₁ hflag k hk (by rw [← hsize₂, ← hsize₃]; exact hlt)
  · have htake : (data.contents.take location).length = location := by
      rw [List.length_take, length_contents hlen]
      omega
    refine contents_eq (hroom₁.trans (by rw [hsize₃, hsize₂])) ?_ fun k hk => ?_
    · simp only [List.length_append, htake, hvalues, List.length_drop, length_contents hlen]
      omega
    · rw [List.append_assoc, List.getElem?_append, htake, List.getElem?_append, hvalues]
      dsimp only at hk ⊢
      rw [hget₃]
      by_cases hbefore : k < location
      · rw [if_pos hbefore, if_neg (by omega), hget₂, if_neg (by omega), List.getElem?_take_of_lt hbefore,
          getElem?_contents (by omega), hbytes₁ k (by omega)]
      · rw [if_neg hbefore]
        by_cases hwithin : k < location + n
        · rw [if_pos ⟨by omega, hwithin⟩, if_pos (by omega)]
        · rw [if_neg (by omega), if_neg (by omega), hget₂, if_pos ⟨by omega, hk⟩, hbytes₁ _ (by omega),
            List.getElem?_drop, ← getElem?_contents (by omega), show k - n + rangeLength =
              location + rangeLength + (k - location - n) by omega]

/-! ## Runs -/

/-- An operation on a data. -/
inductive Operation where
  | appendBytes (bytes : Source) (length : Nat)
  | replaceBytes (location rangeLength : Nat) (newBytes : Source) (newLength : Nat)
  | deleteBytes (location rangeLength : Nat)
  | setLength (newLength : Nat)
  | increaseLength (extraLength : Nat)

namespace Operation

def apply (junk : Nat → UInt8) (data : CFMutableData) : Operation → Option CFMutableData
  | appendBytes bytes length => Data.appendBytes junk data bytes length
  | replaceBytes location rangeLength newBytes newLength => Data.replaceBytes junk data location rangeLength newBytes newLength
  | deleteBytes location rangeLength => Data.deleteBytes junk data location rangeLength
  | setLength newLength => Data.setLength junk data newLength
  | increaseLength extraLength => Data.increaseLength junk data extraLength

/-- What the operation is for. The source has the values from before. -/
def onList (data : CFMutableData) (list : List UInt8) : Operation → List UInt8
  | appendBytes bytes length => list ++ (bytes.read data.bytes length).getD []
  | replaceBytes location rangeLength newBytes newLength =>
    list.take location ++ (newBytes.read data.bytes newLength).getD [] ++ list.drop (location + rangeLength)
  | deleteBytes location rangeLength => list.take location ++ list.drop (location + rangeLength)
  | setLength newLength => setLengthOf list newLength
  | increaseLength extraLength => list ++ List.replicate extraLength 0

/-- The length after the operation. -/
def newLength (data : CFMutableData) : Operation → Nat
  | appendBytes _ length => data.length + length
  | replaceBytes _ rangeLength _ newLength => data.length + newLength - rangeLength
  | deleteBytes _ rangeLength => data.length - rangeLength
  | setLength newLength => newLength
  | increaseLength extraLength => data.length + extraLength

/-- The arguments are in range: the range lies in the data, the source can be
read, and the new length is below 2^20 and within a fixed capacity. -/
def InRange (data : CFMutableData) (op : Operation) : Prop :=
  op.newLength data < 2 ^ 20 ∧ (data.isGrowable = false → op.newLength data ≤ data.bytes.length) ∧
    match op with
    | appendBytes bytes length => (bytes.read data.bytes length).isSome
    | replaceBytes location rangeLength newBytes newLength =>
      location + rangeLength ≤ data.length ∧ (newBytes.read data.bytes newLength).isSome
    | deleteBytes location rangeLength => location + rangeLength ≤ data.length
    | setLength _ | increaseLength _ => True

/-- The operation does not reach a defect: replaced bytes are not moved over
their source, and a shortened data leaves no stale bytes behind a clear flag. -/
def Sound (data : CFMutableData) : Operation → Prop
  | replaceBytes location rangeLength newBytes newLength =>
    SourceKept data location rangeLength newLength newBytes ∧ NoStaleBytes data rangeLength newLength
  | deleteBytes _ rangeLength => NoStaleBytes data rangeLength 0
  | appendBytes _ _ | setLength _ | increaseLength _ => True

end Operation

/-- An operation after another on a data, and on a list beside it. The `i`-th
operation finds the memory `junk i`. -/
def run (junk : Nat → Nat → UInt8) : List Operation → CFMutableData → List UInt8 → Option (CFMutableData × List UInt8)
  | [], data, list => some (data, list)
  | op :: ops, data, list => do
    let data' ← op.apply (junk 0) data
    run (fun i => junk (i + 1)) ops data' (op.onList data list)

/-- Every operation of the run is in range and sound. -/
def AllSound (junk : Nat → Nat → UInt8) : List Operation → CFMutableData → Prop
  | [], _ => True
  | op :: ops, data =>
    op.InRange data ∧ op.Sound data ∧
      ∀ data', op.apply (junk 0) data = some data' → AllSound (fun i => junk (i + 1)) ops data'

theorem apply_spec (junk : Nat → UInt8) (h : data.WellFormed) {op : Operation} (hin : op.InRange data) (hsound : op.Sound data) :
    ∃ data', op.apply junk data = some data' ∧ data'.WellFormed ∧ data'.contents = op.onList data data.contents := by
  have hlen := h.length_le
  obtain ⟨hsmall, hfixed, hrange⟩ := hin
  cases op with
  | appendBytes bytes length =>
    obtain ⟨values, hread⟩ := Option.isSome_iff_exists.mp hrange
    have hend : data.length + 0 ≤ data.length := le_rfl
    have hkept : SourceKept data data.length 0 length bytes := by
      cases bytes with
      | internal offset => exact Or.inr (Or.inr (Or.inl rfl))
      | _ => trivial
    obtain ⟨data', happly, hwf, -, hcontents⟩ :=
      replaceBytes_spec junk h hend hsmall hfixed hread hkept fun hless => absurd hless (Nat.not_lt_zero _)
    refine ⟨data', happly, hwf, ?_⟩
    rw [hcontents, Operation.onList, hread, Option.getD_some, Nat.add_zero, ← length_contents hlen, List.take_length,
      List.drop_length, List.append_nil]
  | replaceBytes location rangeLength newBytes newLength =>
    obtain ⟨hend, hrange⟩ := hrange
    obtain ⟨values, hread⟩ := Option.isSome_iff_exists.mp hrange
    rw [Operation.newLength] at hsmall hfixed
    obtain ⟨data', happly, hwf, -, hcontents⟩ :=
      replaceBytes_spec junk h hend (by omega) (fun hg => by have := hfixed hg; omega) hread hsound.1 hsound.2
    refine ⟨data', happly, hwf, ?_⟩
    rw [hcontents, Operation.onList, hread, Option.getD_some]
  | deleteBytes location rangeLength =>
    rw [Operation.newLength] at hsmall hfixed
    have hread : Source.read data.bytes 0 (.external []) = some [] := rfl
    obtain ⟨data', happly, hwf, -, hcontents⟩ :=
      replaceBytes_spec junk h hrange (by omega) (fun hg => by have := hfixed hg; omega) hread trivial hsound
    refine ⟨data', happly, hwf, ?_⟩
    rw [hcontents, Operation.onList, List.append_nil]
  | setLength newLength =>
    obtain ⟨data', happly, hwf, -, hcontents⟩ := setLength_spec junk h hsmall hfixed
    exact ⟨data', happly, hwf, hcontents⟩
  | increaseLength extraLength =>
    obtain ⟨data', happly, hwf, -, hcontents⟩ := setLength_spec junk h hsmall hfixed
    refine ⟨data', happly, hwf, ?_⟩
    rw [hcontents, Operation.newLength, Operation.onList, setLengthOf, length_contents hlen, Nat.add_sub_cancel_left,
      List.take_of_length_le (by rw [length_contents hlen]; exact Nat.le_add_right _ _)]

theorem run_spec {junk : Nat → Nat → UInt8} {ops : List Operation} (h : data.WellFormed) (hops : AllSound junk ops data) :
    ∃ data' list, run junk ops data data.contents = some (data', list) ∧ data'.WellFormed ∧ data'.contents = list := by
  induction ops generalizing data junk with
  | nil => exact ⟨data, data.contents, rfl, h, rfl⟩
  | cons op ops ih =>
    obtain ⟨hin, hsound, hrest⟩ := hops
    obtain ⟨data₁, happly, hwf, hcontents⟩ := apply_spec (junk 0) h hin hsound
    obtain ⟨data', list, hrun, hend⟩ := ih hwf (hrest data₁ happly)
    refine ⟨data', list, ?_, hend⟩
    rw [run, happly, ← hcontents]
    exact hrun

/-- A new data holds the bytes it was created with. -/
theorem create_spec (settings : Settings) (junk junk' : Nat → UInt8) {isGrowable : Bool} {capacity : Nat}
    {initial : List UInt8} (hsmall : initial.length < 2 ^ 20) (hcapacity : isGrowable = false → initial.length ≤ capacity) :
    ∃ data, create settings junk junk' isGrowable capacity (.external initial) initial.length = some data ∧
      data.WellFormed ∧ data.contents = initial := by
  unfold create
  dsimp only
  generalize hcleared : (!isGrowable && decide (capacity < settings.inlineBytesThreshold) ||
    (!isGrowable && !settings.linkedOnOrAfterSnowLeopard)) = cleared
  generalize hnumBytes : (if isGrowable then (roundUpCapacity 1).toNat else capacity) = numBytes
  have hread : Source.read (allocate junk numBytes cleared) initial.length (.external initial) = some initial := by
    have hall := readRange_eq (Nat.le_of_eq (Nat.zero_add initial.length))
    rwa [List.drop_zero, List.take_length] at hall
  have hsize : (allocate junk numBytes cleared).length = numBytes := by
    unfold allocate
    split
    · exact List.length_replicate
    · exact length_reallocate ..
  have hwf : CFMutableData.WellFormed
      { bytes := allocate junk numBytes cleared, length := 0, needsToZero := !cleared, isGrowable,
        useAllocator := settings.useAllocator } := by
    refine ⟨Nat.zero_le _, fun hflag k _ hk => ?_⟩
    dsimp only at hflag hk ⊢
    rw [Bool.not_eq_false'] at hflag
    rw [hsize] at hk
    rw [hflag, allocate, if_pos rfl, List.getElem?_replicate_of_lt hk]
  have hfixed : isGrowable = false → 0 + initial.length ≤ (allocate junk numBytes cleared).length + 0 := by
    intro hg
    rw [hsize, ← hnumBytes, if_neg (by rw [hg]; exact Bool.false_ne_true), Nat.zero_add]
    exact hcapacity hg
  obtain ⟨data, hreplace, hwf', -, hcontents⟩ :=
    replaceBytes_spec junk' hwf le_rfl (by dsimp only; omega) hfixed hread trivial fun hless =>
      absurd hless (Nat.not_lt_zero _)
  refine ⟨data, hreplace, hwf', ?_⟩
  rw [hcontents, CFMutableData.contents, List.take_zero, List.take_zero, List.drop_nil, List.append_nil, List.nil_append]

/-- Runs on any new data that reach neither defect: nothing is touched outside
the buffer, and the contents are those of the list. -/
theorem run_contents (settings : Settings) (junk junk' : Nat → UInt8) {isGrowable : Bool} {capacity : Nat}
    {initial : List UInt8} (hsmall : initial.length < 2 ^ 20) (hcapacity : isGrowable = false → initial.length ≤ capacity) :
    ∃ data, create settings junk junk' isGrowable capacity (.external initial) initial.length = some data ∧
      ∀ (junk : Nat → Nat → UInt8) (ops : List Operation), AllSound junk ops data →
        ∃ data' list, run junk ops data initial = some (data', list) ∧ data'.contents = list ∧
          data'.length ≤ data'.bytes.length := by
  obtain ⟨data, hcreate, hwf, hcontents⟩ := create_spec settings junk junk' hsmall hcapacity
  refine ⟨data, hcreate, fun junk ops hops => ?_⟩
  obtain ⟨data', list, hrun, hwf', hlist⟩ := run_spec hwf hops
  rw [hcontents] at hrun
  exact ⟨data', list, hrun, hlist, hwf'.length_le⟩

/-- Bytes are deleted from a data whose spare bytes are zero, and come back
when the length is raised; and new bytes are read from where the tail was moved
to. -/
theorem stale_and_moved_bytes :
    let settings : Settings := ⟨16000, true, false⟩
    let junk : Nat → UInt8 := fun _ => 0xAA
    let outcome (isGrowable : Bool) (capacity : Nat) (initial : List UInt8) (ops : List Operation) :=
      (create settings junk junk isGrowable capacity (.external initial) initial.length).bind fun data =>
        (run (fun _ => junk) ops data initial).map fun (data', list) => (data'.contents, list)
    outcome false 16 [] [.appendBytes (.external [1, 2, 3, 4]) 4, .deleteBytes 0 4, .setLength 4] =
      some ([1, 2, 3, 4], [0, 0, 0, 0]) ∧
    outcome true 0 [1, 2, 3, 4, 5] [.replaceBytes 0 0 (.internal 1) 2] =
      some ([2, 1, 1, 2, 3, 4, 5], [2, 3, 1, 2, 3, 4, 5]) :=
  ⟨by decide, by decide⟩

/-- A data of fixed capacity that is filled from its own bytes, and shortened
and raised again. -/
theorem filled_shortened_raised :
    ∃ data, create ⟨16000, true, false⟩ (fun _ => 0xAA) (fun _ => 0xAA) false 4 (.external [1, 2]) 2 = some data ∧
      ∃ data' list, run (fun _ _ => 0xAA) [.appendBytes (.internal 0) 2, .setLength 1, .setLength 3] data [1, 2] =
        some (data', list) ∧ data'.contents = list ∧ data'.length ≤ data'.bytes.length := by
  have hsmall : [(1 : UInt8), 2].length < 2 ^ 20 := by decide
  have hcapacity : false = false → [(1 : UInt8), 2].length ≤ 4 := by decide
  obtain ⟨data, hcreate, hrun⟩ := run_contents ⟨16000, true, false⟩ (fun _ => 0xAA) (fun _ => 0xAA) hsmall hcapacity
  refine ⟨data, hcreate, hrun _ _ ?_⟩
  obtain rfl : data = ⟨[1, 2, 0, 0], 2, false, false, false⟩ := Option.some.inj (hcreate.symm.trans (by decide))
  refine ⟨⟨by decide, by decide, by decide⟩, trivial, fun data₁ happly => ?_⟩
  obtain rfl : data₁ = ⟨[1, 2, 1, 2], 4, false, false, false⟩ := Option.some.inj (happly.symm.trans (by decide))
  refine ⟨⟨by decide, by decide, trivial⟩, trivial, fun data₂ happly => ?_⟩
  obtain rfl : data₂ = ⟨[1, 2, 1, 2], 1, true, false, false⟩ := Option.some.inj (happly.symm.trans (by decide))
  exact ⟨⟨by decide, by decide, trivial⟩, trivial, fun _ _ => trivial⟩

end CFLite.Data
