import CFLite.BinaryPlist.ReadWritten

/-!
# The written trailer is accepted

`__CFBinaryPlistGetTopLevelInfo` on the bytes of an `Output`: every check of
the trailer, the sizes and the offset table passes, and the top object is the
first one written.

* `lt_pow_byteCount`: a number fits the size that `_byteCount` gives it;
* `Written.getTopLevelInfo_result`: what it returns;
* `Written.holdsAt_object`, `Written.offsetOfRef_eq`: where the objects are.
-/

namespace CFLite.BinaryPlist

open CFLite.Framework

/-! ## Sizes -/

theorem byteCountLoop_spec {steps count size : Nat} (h : count < 256 ^ (size + steps)) :
    count < 256 ^ byteCountLoop steps count size := by
  induction steps generalizing size with
  | zero => exact h
  | succ steps ih =>
    simp only [byteCountLoop]
    split
    · exact ih (by rwa [Nat.add_assoc, Nat.add_comm 1])
    · rename_i hzero
      exact Nat.lt_of_div_eq_zero (Nat.pow_pos (by decide)) (not_not.mp hzero)

theorem byteCountLoop_le {steps count size bound : Nat} (h : count < 256 ^ bound) (hsize : size ≤ bound) :
    byteCountLoop steps count size ≤ bound := by
  induction steps generalizing size with
  | zero => exact hsize
  | succ steps ih =>
    simp only [byteCountLoop]
    split
    · rename_i hne
      refine ih (Nat.lt_of_le_of_ne hsize ?_)
      rintro rfl
      exact hne (Nat.div_eq_of_lt h)
    · exact hsize

/-- A number fits the size that `_byteCount` gives it. -/
theorem lt_pow_byteCount {count : Nat} (h : count < 2 ^ 64) : count < 256 ^ byteCount count := by
  have hspec : count < 256 ^ byteCountLoop 8 count 0 := byteCountLoop_spec h
  have hle : byteCountLoop 8 count 0 ≤ 8 := byteCountLoop_le h (Nat.zero_le _)
  refine Nat.lt_of_lt_of_le hspec (Nat.pow_le_pow_right (by decide) ?_)
  simp only [byteCount]
  split
  · omega
  · split
    · omega
    · split <;> omega

theorem byteCount_le_four {count : Nat} (h : count < 2 ^ 32) : byteCount count ≤ 4 := by
  have hle : byteCountLoop 8 count 0 ≤ 4 := byteCountLoop_le h (Nat.zero_le _)
  simp only [byteCount]
  split
  · omega
  · split
    · omega
    · omega

theorem byteCount_pos (count : Nat) : 0 < byteCount count := by
  simp only [byteCount]
  split
  · omega
  · split
    · omega
    · split <;> omega


theorem toNat_ofNat_of_le {size : Nat} (h : size ≤ 8) : (UInt8.ofNat size).toNat = size := by
  rw [UInt8.toNat_ofNat']; omega

theorem not_lt_one {b : UInt8} {n : Nat} (h : b.toNat = n) (hn : 0 < n) : ¬b < 1 := by
  rw [UInt8.lt_iff_toNat_lt, h]
  exact Nat.not_lt.mpr hn

/-! ## The pieces of the output -/

namespace Output

/-- The trailer of the output. -/
def trailer (o : Output) : Trailer :=
  ⟨UInt8.ofNat o.offsetIntSize, UInt8.ofNat o.objectRefSize, o.objects.length, 0, o.offsetTableOffset⟩

/-- The offset of object `r`. -/
def offset (o : Output) (r : Nat) : Nat := 8 + (o.objects.take r).flatten.length

theorem offset_add_length {o : Output} {r : Nat} (hr : r < o.objects.length) :
    o.offset r + o.objects[r].length ≤ o.offsetTableOffset := by
  have hsplit : o.objects.flatten = (o.objects.take (r + 1)).flatten ++ (o.objects.drop (r + 1)).flatten := by
    rw [← List.flatten_append, List.take_append_drop]
  simp only [offset, offsetTableOffset, hsplit, List.take_succ_eq_append_getElem hr, List.flatten_append,
    List.flatten_cons, List.flatten_nil, List.length_append, List.append_nil]
  omega

end Output

/-- The trailer is read back from its bytes. -/
theorem ofBytes_trailerBytes {offsetIntSize objectRefSize cnt ofs : Nat} (hcnt : cnt < 2 ^ 64) (hofs : ofs < 2 ^ 64) :
    Trailer.ofBytes (trailerBytes offsetIntSize objectRefSize cnt ofs) =
      ⟨UInt8.ofNat offsetIntSize, UInt8.ofNat objectRefSize, cnt, 0, ofs⟩ := by
  have htake : ∀ value (bytes : List UInt8), (beBytes 8 value ++ bytes).take 8 = beBytes 8 value :=
    fun value bytes => List.take_left' (length_beBytes ..)
  have hdrop : ∀ value (bytes : List UInt8), (beBytes 8 value ++ bytes).drop 8 = bytes :=
    fun value bytes => List.drop_left' (length_beBytes ..)
  have hall : (trailerBytes offsetIntSize objectRefSize cnt ofs).drop 8 =
      beBytes 8 cnt ++ (beBytes 8 0 ++ beBytes 8 ofs) := by
    simp [trailerBytes]
  have hdrop16 : (trailerBytes offsetIntSize objectRefSize cnt ofs).drop 16 = beBytes 8 0 ++ beBytes 8 ofs := by
    rw [show 16 = 8 + 8 from rfl, ← List.drop_drop, hall, hdrop]
  have hdrop24 : (trailerBytes offsetIntSize objectRefSize cnt ofs).drop 24 = beBytes 8 ofs := by
    rw [show 24 = 16 + 8 from rfl, ← List.drop_drop, hdrop16, hdrop]
  rw [Trailer.ofBytes, hall, hdrop16, hdrop24, htake, htake, List.take_of_length_le (by simp),
    beValue_beBytes_of_lt (show cnt < 256 ^ 8 from hcnt), beValue_beBytes_of_lt (show ofs < 256 ^ 8 from hofs)]
  rfl

/-- A block that holds a written list. -/
structure Written (m : Memory) (o : Output) : Prop where
  bytes_eq : m.bytes = o.bytes
  nonempty : 0 < o.objects.length
  pieces_pos : ∀ piece ∈ o.objects, 0 < piece.length
  objectRefSize_eq : o.objectRefSize = byteCount o.objects.length

namespace Written

variable {m : Memory} {o : Output} (hw : Written m o)

include hw

theorem length_eq : m.bytes.length = o.offsetTableOffset + o.objects.length * o.offsetIntSize + 32 := by
  rw [hw.bytes_eq, Output.bytes, List.length_append, List.length_append, List.length_append, length_encodeOffsets,
    length_trailerBytes, Output.offsets, length_offsetsFrom, Output.offsetTableOffset, trailerSize]
  simp only [header, magic, List.length_append, List.length_cons, List.length_nil]
  omega

/-- The block holds what follows some of the output. -/
theorem holdsAt (pre mid post : List UInt8) (h : o.bytes = pre ++ (mid ++ post)) : m.HoldsAt pre.length mid :=
  Memory.holdsAt_of_append (hw.bytes_eq.trans h)

theorem holdsAt_header : m.HoldsAt 0 header :=
  hw.holdsAt [] header _ (List.append_assoc ..)

theorem holdsAt_offsets : m.HoldsAt o.offsetTableOffset (encodeOffsets o.offsetIntSize o.offsets) := by
  have h := hw.holdsAt (header ++ o.objects.flatten) _ _ rfl
  rwa [List.length_append] at h

theorem holdsAt_trailer : m.HoldsAt (m.bytes.length - 32)
    (trailerBytes o.offsetIntSize o.objectRefSize o.objects.length o.offsetTableOffset) := by
  have h := hw.holdsAt (header ++ o.objects.flatten ++ encodeOffsets o.offsetIntSize o.offsets)
    (trailerBytes o.offsetIntSize o.objectRefSize o.objects.length o.offsetTableOffset) []
    (by simp [Output.bytes])
  have hlen := congrArg List.length hw.bytes_eq
  simp only [Output.bytes, List.length_append, length_trailerBytes, trailerSize] at hlen h
  rwa [show m.bytes.length - 32 = header.length + o.objects.flatten.length +
    (encodeOffsets o.offsetIntSize o.offsets).length by omega]

/-- Object `r` is at its offset. -/
theorem holdsAt_object {r : Nat} (hr : r < o.objects.length) : m.HoldsAt (o.offset r) o.objects[r] := by
  have hsplit : o.objects.flatten =
      (o.objects.take r).flatten ++ (o.objects[r] ++ (o.objects.drop (r + 1)).flatten) := by
    rw [← List.flatten_cons, ← List.flatten_append, List.getElem_cons_drop, List.take_append_drop]
  have h := hw.holdsAt (header ++ (o.objects.take r).flatten) o.objects[r]
    ((o.objects.drop (r + 1)).flatten ++ (encodeOffsets o.offsetIntSize o.offsets ++
      trailerBytes o.offsetIntSize o.objectRefSize o.objects.length o.offsetTableOffset))
    (by rw [Output.bytes, hsplit]; simp only [List.append_assoc])
  rwa [List.length_append] at h

theorem offsetTableOffset_lt : o.offsetTableOffset < 2 ^ 63 := by
  have := hw.length_eq
  have := m.length_lt
  omega

theorem objects_length_lt : o.objects.length < 2 ^ 63 := by
  have := hw.length_eq
  have := m.length_lt
  have := Nat.le_mul_of_pos_right o.objects.length (byteCount_pos o.offsetTableOffset)
  rw [← Output.offsetIntSize] at this
  omega

theorem nine_le_offsetTableOffset : 9 ≤ o.offsetTableOffset := by
  have h := Output.offset_add_length hw.nonempty
  have hpos := hw.pieces_pos _ (List.getElem_mem hw.nonempty)
  simp only [Output.offset, List.take_zero, List.flatten_nil, List.length_nil] at h
  omega

/-- Every offset is before the offset table. -/
theorem offset_lt {r : Nat} (hr : r < o.objects.length) : o.offset r < o.offsetTableOffset := by
  have h := Output.offset_add_length hr
  have hpos := hw.pieces_pos _ (List.getElem_mem hr)
  omega

end Written


/-! ## The offset table -/

/-- Entry `i` of an offset table. -/
theorem holdsAt_entry {m : Memory} {off size : Nat} {offsets : List Nat} (h : m.HoldsAt off (encodeOffsets size offsets))
    {i : Nat} (hi : i < offsets.length) : m.HoldsAt (off + i * size) (beBytes size offsets[i]) := by
  induction offsets generalizing off i with
  | nil => simp at hi
  | cons o offsets ih =>
    rw [encodeOffsets, List.flatMap_cons] at h
    obtain ⟨hfirst, hrest⟩ := Memory.holdsAt_append.mp h
    rw [length_beBytes] at hrest
    cases i with
    | zero => rwa [Nat.zero_mul]
    | succ i =>
      rw [Nat.add_mul, Nat.one_mul, Nat.add_comm (i * size), ← Nat.add_assoc]
      exact ih hrest (by simpa using hi)

/-- A table of offsets up to `maxOff` passes the loop over it. -/
theorem checkOffsets_encodeOffsets {m : Memory} {size maxOff off : Nat} {offsets : List Nat} (hsize : size ≤ 8)
    (h : m.HoldsAt off (encodeOffsets size offsets)) (hu : off + offsets.length * size ≤ m.bytes.length)
    (hmax : ∀ o ∈ offsets, o ≤ maxOff ∧ o < 256 ^ size) :
    (checkOffsets m (UInt8.ofNat size) maxOff offsets.length (m.base + off)).result = .ok () := by
  have hfits := m.fits
  have hpow : 256 ^ size ≤ 2 ^ 64 := Nat.pow_le_pow_right (by decide) hsize
  induction offsets generalizing off with
  | nil => rfl
  | cons o offsets ih =>
    rw [encodeOffsets, List.flatMap_cons] at h
    obtain ⟨hfirst, hrest⟩ := Memory.holdsAt_append.mp h
    rw [length_beBytes] at hrest
    rw [List.forall_mem_cons] at hmax
    rw [List.length_cons, Nat.add_mul, Nat.one_mul] at hu
    have hread := getSizedInt_beBytes (by omega) (by omega) hmax.1.2 hfirst
    rw [List.length_cons, checkOffsets, Read.bind_result, hread]
    simp only [Except.bind]
    rw [Read.failIf_of_not (by omega), Read.pure_bind, toNat_ofNat_of_le hsize, addPtr_of_lt (by omega), Nat.add_assoc]
    exact ih hrest (by omega) hmax.2

namespace Written

variable {m : Memory} {o : Output} (hw : Written m o)

include hw

theorem mem_offsets {off : Nat} (h : off ∈ o.offsets) :
    off ≤ o.trailer.objectsRangeEnd ∧ off < 256 ^ o.offsetIntSize := by
  obtain ⟨r, hr, rfl⟩ := List.getElem_of_mem h
  have hr' : r < o.objects.length := by rwa [Output.offsets, length_offsetsFrom] at hr
  have heq : o.offsets[r] = o.offset r := getElem_offsetsFrom hr' hr
  have hlt := hw.offset_lt hr'
  have htable := hw.offsetTableOffset_lt
  rw [heq]
  refine ⟨?_, Nat.lt_trans hlt (lt_pow_byteCount (by omega))⟩
  simp only [Trailer.objectsRangeEnd, Output.trailer]
  omega

/-- The header and the trailer pass every check of
`__CFBinaryPlistGetTopLevelInfo`. -/
theorem getTopLevelInfo_result :
    (getTopLevelInfo m).result = .ok (m.byteAt (m.base + 8), 8, o.trailer) := by
  have hfits := m.fits
  have hlen := hw.length_eq
  have hnine := hw.nine_le_offsetTableOffset
  have htable := hw.offsetTableOffset_lt
  have hcnt := hw.objects_length_lt
  have hnum := hw.nonempty
  have hint : o.offsetIntSize ≤ 8 := byteCount_le _
  have hintPos : 0 < o.offsetIntSize := byteCount_pos _
  have hrefPos : 0 < o.objectRefSize := hw.objectRefSize_eq ▸ byteCount_pos _
  have href : o.objectRefSize ≤ 8 := hw.objectRefSize_eq ▸ byteCount_le _
  have hsize : 0 < o.objects.length * o.offsetIntSize := Nat.mul_pos hnum hintPos
  have htrailerSize : trailerSize = 32 := rfl
  have hmagic : m.readAt m.base 7 = magic := by
    have h := hw.holdsAt_header
    rw [header] at h
    exact (Memory.holdsAt_append.mp h).1
  have htrail : m.readAt (m.base + (m.bytes.length - trailerSize)) trailerSize =
      trailerBytes o.offsetIntSize o.objectRefSize o.objects.length o.offsetTableOffset := by
    have h := hw.holdsAt_trailer
    rwa [Memory.HoldsAt, length_trailerBytes] at h
  have hint' : (UInt8.ofNat o.offsetIntSize).toNat = o.offsetIntSize := toNat_ofNat_of_le hint
  have href' : (UInt8.ofNat o.objectRefSize).toNat = o.objectRefSize := toNat_ofNat_of_le href
  have hloop := checkOffsets_encodeOffsets hint hw.holdsAt_offsets
    (by rw [Output.offsets, length_offsetsFrom]; omega) fun off h => hw.mem_offsets h
  have htop : (getSizedInt m (m.base + o.offsetTableOffset) (UInt8.ofNat o.offsetIntSize)).result = .ok 8 := by
    have hnum' : 0 < o.offsets.length := by rwa [Output.offsets, length_offsetsFrom]
    have hentry := holdsAt_entry hw.holdsAt_offsets hnum'
    have hfirst : o.offsets[0] = 8 := getElem_offsetsFrom hnum hnum'
    rw [hfirst, Nat.zero_mul] at hentry
    have hpow : 8 < 256 ^ o.offsetIntSize := Nat.lt_of_lt_of_le (by decide) (Nat.pow_le_pow_right (by decide) hintPos)
    exact getSizedInt_beBytes (by omega) (by omega) hpow hentry
  rw [Output.offsets, length_offsetsFrom] at hloop
  have hrefFits : o.objects.length < 2 ^ (8 * o.objectRefSize) := by
    rw [Nat.pow_mul, hw.objectRefSize_eq]; exact lt_pow_byteCount (by omega)
  have hintFits : o.offsetTableOffset < 2 ^ (8 * o.offsetIntSize) := by
    rw [Nat.pow_mul]; exact lt_pow_byteCount (by omega)
  rw [getTopLevelInfo]
  dsimp only
  rw [Read.failIf_of_not (by omega), Read.pure_bind, Read.bind_result, Memory.derefBytes_result, hmagic]
  simp only [Except.bind]
  rw [Read.failIf_of_not (by simp), Read.pure_bind, ptr_eq (by omega), Read.bind_result, Memory.derefBytes_result,
    htrail]
  simp only [Except.bind]
  rw [ofBytes_trailerBytes (by omega) (by omega)]
  have hlongMax : longMax = 2 ^ 63 - 1 := rfl
  dsimp only
  rw [hint', href']
  rw [Read.failIf_of_not (by omega), Read.pure_bind, Read.failIf_of_not (by omega), Read.pure_bind,
    Read.failIf_of_not (by omega), Read.pure_bind, Read.failIf_of_not (by omega), Read.pure_bind,
    Read.failIf_of_not (by omega), Read.pure_bind, Read.failIf_of_not (by omega), Read.pure_bind,
    Read.failIf_of_not (not_lt_one hint' hintPos), Read.pure_bind,
    Read.failIf_of_not (not_lt_one href' hrefPos), Read.pure_bind]
  rw [checkMul_of_lt (by omega), Read.pure_bind, Read.failIf_of_not (by omega), Read.pure_bind,
    checkPtrAdd_of_lt (by omega), Read.pure_bind, checkPtrAdd_of_lt (by omega), Read.pure_bind,
    checkPtrAdd_of_lt (by omega), Read.pure_bind, Read.failIf_of_not (by omega), Read.pure_bind,
    Read.failIf_of_not fun h => Nat.not_le_of_lt hrefFits h.2, Read.pure_bind,
    Read.failIf_of_not fun h => Nat.not_le_of_lt hintFits h.2, Read.pure_bind]
  rw [checkPtrAdd_of_lt (by omega), Read.pure_bind, checkPtrAdd_of_lt (by omega), Read.pure_bind,
    checkPtrAdd_of_lt (by omega), Read.pure_bind, ptr_eq (by omega), Read.bind_result]
  simp only [Trailer.objectsRangeEnd, Output.trailer] at hloop ⊢
  rw [hloop]
  simp only [Except.bind]
  rw [Nat.zero_mul, addPtr_of_lt (by omega), Nat.add_zero, Read.bind_result, htop]
  simp only [Except.bind]
  rw [Read.failIf_of_not (by omega), Read.pure_bind, ptr_eq (by omega)]
  rfl

theorem valid : o.trailer.Valid m := ((getTopLevelInfo_safe m).2 _ hw.getTopLevelInfo_result).1

@[simp] theorem objectRefSize_toNat : o.trailer.objectRefSize.toNat = o.objectRefSize :=
  toNat_ofNat_of_le (hw.objectRefSize_eq ▸ byteCount_le _)

/-- The offset of the object with a reference number. -/
theorem offsetOfRef_eq {r : Nat} (hr : r < o.objects.length) : offsetOfRef m o.trailer r = o.offset r := by
  have hsize : o.trailer.offsetIntSize.toNat = o.offsetIntSize := toNat_ofNat_of_le (byteCount_le _)
  have hr' : r < o.offsets.length := by rwa [Output.offsets, length_offsetsFrom]
  have hentry := holdsAt_entry hw.holdsAt_offsets hr'
  have heq : o.offsets[r] = o.offset r := getElem_offsetsFrom hr hr'
  have hlt := hw.offset_lt hr
  have htable := hw.offsetTableOffset_lt
  have hfits : o.offset r < 256 ^ o.offsetIntSize := Nat.lt_trans hlt (lt_pow_byteCount (by omega))
  rw [heq, Memory.HoldsAt, length_beBytes] at hentry
  rw [offsetOfRef, if_neg (by exact Nat.not_le_of_lt hr), entryAt, hsize, Output.trailer, Nat.add_assoc, hentry,
    beValue_beBytes_of_lt hfits, Nat.mod_eq_of_lt (by omega)]

end Written

end CFLite.BinaryPlist
