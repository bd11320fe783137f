import CFLite.BinaryPlist.ReaderBounds
import CFLite.BinaryPlist.Layout

/-!
# Reading what was written

The object reader on the encoding of an object. Where a block with a valid
trailer holds the bytes of `encodeObject` before its offset table,
`readObject` gives the object back: a primitive's value, or the place of a
container's references. One value does not come back: a string that the
writer took for ASCII because the paragraph separators convert to a newline
(`writtenChars`).
-/

namespace CFLite

namespace BinaryPlist

open CFLite.Framework

/-! ## Values -/

/-- The characters that are read back for a string. -/
def writtenChars (chars : List UInt16) : List UInt16 :=
  match asciiBytes chars with
  | some bytes => bytes.map UInt8.toUInt16
  | none => chars

/-- The value that is read back for a value. -/
def writtenValue : Primitive → Primitive
  | .string chars => .string (writtenChars chars)
  | value => value

theorem bytesOfChars_cons (c : UInt16) (chars : List UInt16) :
    bytesOfChars (c :: chars) = UInt8.ofNat (c.toNat / 256) :: UInt8.ofNat c.toNat :: bytesOfChars chars := by
  simp [bytesOfChars, beBytes]

theorem charsOfBytes_bytesOfChars (chars : List UInt16) : charsOfBytes (bytesOfChars chars) = chars := by
  induction chars with
  | nil => rfl
  | cons c chars ih =>
    have hc := c.toNat_lt
    rw [bytesOfChars_cons, charsOfBytes, ih]
    congr 1
    refine UInt16.toNat_inj.mp ?_
    simp only [UInt8.toNat_ofNat', UInt16.toNat_ofNat']
    omega

@[simp] theorem length_bytesOfChars (chars : List UInt16) : (bytesOfChars chars).length = 2 * chars.length := by
  induction chars with
  | nil => rfl
  | cons c chars ih => rw [bytesOfChars_cons]; simp only [List.length_cons, ih]; omega

/-! ## Integers and counts -/

/-- The markers of objects with a count. -/
def countMarkers : List UInt8 :=
  [markerData, markerASCIIString, markerUnicode16String, markerArray, markerSet, markerDict]

/-- A marker and its low nibble are found again in their byte. -/
theorem marker_or {marker : UInt8} (h : marker ∈ countMarkers) :
    ∀ n < 16, (marker ||| UInt8.ofNat n) &&& 0xf0 = marker ∧ lowNibble (marker ||| UInt8.ofNat n) = n := by
  revert marker
  decide +kernel

theorem encodeInt_eq {value : Nat} (h : value < 2 ^ 64) :
    ∃ marker size, encodeInt value = marker :: beBytes size value ∧ marker &&& 0xf0 = markerInt ∧
      2 ^ lowNibble marker = size ∧ size ≤ 8 ∧ value < 256 ^ size := by
  simp only [encodeInt]
  split
  · exact ⟨_, 1, rfl, by decide, by decide, by omega, by omega⟩
  · split
    · exact ⟨_, 2, rfl, by decide, by decide, by omega, by omega⟩
    · split
      · exact ⟨_, 4, rfl, by decide, by decide, by omega, by omega⟩
      · exact ⟨_, 8, rfl, by decide, by decide, by omega, by omega⟩

theorem encodeUID_eq (uid : UInt32) :
    ∃ marker size, encodeUID uid = marker :: beBytes size uid.toNat ∧ marker &&& 0xf0 = markerUID ∧
      lowNibble marker + 1 = size ∧ size ≤ 4 ∧ uid.toNat < 256 ^ size := by
  have huid := uid.toNat_lt
  simp only [encodeUID]
  split
  · exact ⟨_, 1, rfl, by decide, by decide, by omega, by omega⟩
  · split
    · exact ⟨_, 2, rfl, by decide, by decide, by omega, by omega⟩
    · exact ⟨_, 4, rfl, by decide, by decide, by omega, by omega⟩

theorem length_encodeInt_pos {value : Nat} (h : value < 2 ^ 64) : 0 < (encodeInt value).length := by
  obtain ⟨marker, size, heq, -⟩ := encodeInt_eq h
  simp [heq]

theorem length_encodeCount_pos (marker : UInt8) (count : Nat) : 0 < (encodeCount marker count).length := by
  simp only [encodeCount]
  split <;> simp

/-- Every object that can be written takes at least one byte. -/
theorem length_encodeObject_pos (f : Flattened) (stack : Vector UInt8 4) (objectRefSize : Nat) {x : CFTypeRef}
    (h : isWritable x = true) : 0 < (encodeObject f stack objectRefSize x).length := by
  have hcount : ∀ marker count (bytes : List UInt8), 0 < (encodeCount marker count ++ bytes).length := by
    intro marker count bytes
    have := length_encodeCount_pos marker count
    rw [List.length_append]; omega
  cases x with
  | primitive base value =>
    cases value with
    | null => simp [isWritable] at h
    | boolean value => simp [encodeObject]
    | number value =>
      cases value with
      | sint64 value => exact length_encodeInt_pos value.toUInt64.toNat_lt
      | sint128 low => simp [encodeObject, encodeNumber]
      | float32 bits finite => simp [encodeObject, encodeNumber]
      | float64 bits canonical => simp [encodeObject, encodeNumber]
    | date time => simp [encodeObject]
    | data bytes => exact hcount _ _ _
    | string chars =>
      simp only [encodeObject, encodeString]
      split <;> exact hcount _ _ _
    | uid value =>
      obtain ⟨marker, size, heq, -⟩ := encodeUID_eq value
      simp [encodeObject, heq]
  | container base kind list =>
    cases kind with
    | array => exact hcount _ _ _
    | set => simp [isWritable] at h
    | dictionary => exact hcount _ _ _

section Valid

variable {m : Memory} {t : Trailer} (hv : t.Valid m)

include hv

theorem checkExtent_of_le {p cnt : Nat} (hp : 0 < p) (hu : p + cnt ≤ m.base + t.offsetTableOffset) :
    checkExtent m t p cnt = pure () := by
  have h := hv.offsetTableOffset_lt
  have hfits := m.fits
  rw [checkExtent, checkPtrAdd_of_lt (by omega), Read.pure_bind, hv.ptr_objectsRangeEnd, Read.failIf_of_not (by omega)]

omit hv in
/-- An integer of `size` bytes is read back. -/
theorem getSizedInt_beBytes {off size value : Nat} (hsize : size < 256) (hvalue : value < 2 ^ 64)
    (hlt : value < 256 ^ size) (h : m.HoldsAt off (beBytes size value)) :
    (getSizedInt m (m.base + off) (UInt8.ofNat size)).result = .ok value := by
  rw [Memory.HoldsAt, length_beBytes] at h
  rw [getSizedInt_result, UInt8.toNat_ofNat', Nat.mod_eq_of_lt hsize, h, beValue_beBytes_of_lt hlt,
    Nat.mod_eq_of_lt hvalue]

/-- `_readInt` on a marker and the bytes it announces. -/
theorem readInt_of_marker {off size value : Nat} {marker : UInt8} (hmarker : marker &&& 0xf0 = markerInt)
    (hnibble : 2 ^ lowNibble marker = size) (hsize : size ≤ 8) (hlt : value < 256 ^ size)
    (h : m.HoldsAt off (marker :: beBytes size value)) (hu : off + 1 + size ≤ t.offsetTableOffset) :
    (readInt m (m.base + off) (ptr m t.objectsRangeEnd)).result = .ok (value, m.base + off + 1 + size) := by
  have hofs := hv.offsetTableOffset_lt
  have hfits := m.fits
  have hpos := m.base_pos
  obtain ⟨hbyte, hint⟩ := Memory.holdsAt_cons.mp h
  have hvalue : value < 2 ^ 64 := Nat.lt_of_lt_of_le hlt (Nat.pow_le_pow_right (by omega) hsize)
  have hread := getSizedInt_beBytes (by omega) hvalue hlt hint
  rw [readInt, hv.ptr_objectsRangeEnd, Read.failIf_of_not (by omega), Read.pure_bind]
  simp only [Read.bind_of_ok (Memory.deref_result ..), hbyte]
  rw [addPtr_of_lt (by omega), Read.failIf_of_not (by simp [hmarker]), Read.pure_bind, hnibble,
    checkPtrAdd_of_lt (by omega), Read.pure_bind, Read.failIf_of_not (by omega), Read.pure_bind, Read.bind_result,
    Nat.add_assoc m.base off 1, hread]
  rfl

theorem readInt_encodeInt {off value : Nat} (hvalue : value < 2 ^ 64) (h : m.HoldsAt off (encodeInt value))
    (hu : off + (encodeInt value).length ≤ t.offsetTableOffset) :
    (readInt m (m.base + off) (ptr m t.objectsRangeEnd)).result =
      .ok (value, m.base + off + (encodeInt value).length) := by
  obtain ⟨marker, size, heq, hmarker, hnibble, hsize, hlt⟩ := encodeInt_eq hvalue
  rw [heq] at h hu ⊢
  simp only [List.length_cons, length_beBytes] at hu ⊢
  rw [readInt_of_marker hv hmarker hnibble hsize hlt h (by omega), Nat.add_assoc _ 1, Nat.add_comm 1]

/-- The count of an object is read back. -/
theorem readCount_encodeCount {off count : Nat} {marker : UInt8} (hmarker : marker ∈ countMarkers)
    (hcount : count ≤ longMax) (h : m.HoldsAt off (encodeCount marker count))
    (hu : off + (encodeCount marker count).length ≤ t.offsetTableOffset) :
    m.byteAt (m.base + off) &&& 0xf0 = marker ∧
      (readCount m t (m.byteAt (m.base + off)) (m.base + off + 1)).result =
        .ok (count, m.base + off + (encodeCount marker count).length) := by
  simp only [encodeCount] at h hu ⊢
  simp only [longMax] at hcount
  split at h
  · rename_i hsmall
    obtain ⟨hbyte, -⟩ := Memory.holdsAt_cons.mp h
    obtain ⟨hhigh, hlow⟩ := marker_or hmarker count (by omega)
    rw [hbyte, readCount, hlow, if_neg (by omega), if_pos hsmall]
    exact ⟨hhigh, rfl⟩
  · rename_i hbig
    rw [if_neg hbig] at hu ⊢
    obtain ⟨hbyte, hint⟩ := Memory.holdsAt_cons.mp h
    obtain ⟨hhigh, hlow⟩ := marker_or hmarker 15 (by omega)
    rw [List.length_cons] at hu ⊢
    have hread := readInt_encodeInt hv (by omega) hint (by omega)
    refine ⟨by rw [hbyte]; exact hhigh, ?_⟩
    rw [hbyte, readCount, if_pos (show lowNibble (marker ||| 0xf) = 0xf from hlow), Read.bind_result, Nat.add_assoc, hread]
    simp only [Except.bind]
    rw [Read.failIf_of_not (by simp only [longMax]; omega), Read.pure_bind, Read.pure_result]
    congr 2
    omega

/-! ## Objects -/

/-- The bytes after a count, of an object that ends before the offset
table. -/
theorem holdsAt_count {off count : Nat} {marker : UInt8} {bytes : List UInt8} (hmarker : marker ∈ countMarkers)
    (hcount : count ≤ longMax) (h : m.HoldsAt off (encodeCount marker count ++ bytes))
    (hu : off + (encodeCount marker count ++ bytes).length ≤ t.offsetTableOffset) :
    ∃ p, m.byteAt (m.base + off) &&& 0xf0 = marker ∧
      (readCount m t (m.byteAt (m.base + off)) (m.base + off + 1)).result = .ok (count, p) ∧
      m.readAt p bytes.length = bytes ∧ m.base < p ∧ p + bytes.length ≤ m.base + t.offsetTableOffset ∧
      p = m.base + off + (encodeCount marker count).length := by
  rw [List.length_append] at hu
  obtain ⟨hleft, hright⟩ := Memory.holdsAt_append.mp h
  obtain ⟨hhigh, hread⟩ := readCount_encodeCount hv hmarker hcount hleft (by omega)
  have hpos := length_encodeCount_pos marker count
  exact ⟨_, hhigh, hread, by rw [Nat.add_assoc]; exact hright, by omega, by omega, rfl⟩

/-- The body of the object at `off`, whose bytes are those of `x`, is read as
`node`. -/
theorem readBody_data {off : Nat} {bytes : List UInt8}
    (h : m.HoldsAt off (encodeCount markerData bytes.length ++ bytes))
    (hu : off + (encodeCount markerData bytes.length ++ bytes).length ≤ t.offsetTableOffset) :
    (readBody m t (m.byteAt (m.base + off)) (m.base + off + 1)).result = .ok (.primitive (.data bytes)) := by
  have hofs := hv.offsetTableOffset_lt
  have hlen := m.length_lt
  obtain ⟨p, hhigh, hcount, hbytes, hp, hend, -⟩ := holdsAt_count hv (by decide)
    (by simp only [longMax, List.length_append] at hu ⊢; omega) h hu
  simp +decide only [readBody, hhigh, if_true, if_false]
  simp only [readData, Read.map_eq_bind, Read.bind_result, hcount, Except.bind]
  rw [checkExtent_of_le hv (by omega) hend]
  simp [hbytes]

theorem readBody_string {off : Nat} {chars : List UInt16} (h : m.HoldsAt off (encodeString chars))
    (hu : off + (encodeString chars).length ≤ t.offsetTableOffset) :
    (readBody m t (m.byteAt (m.base + off)) (m.base + off + 1)).result =
      .ok (.primitive (.string (writtenChars chars))) := by
  have hofs := hv.offsetTableOffset_lt
  have hlen := m.length_lt
  have hfits := m.fits
  simp only [encodeString, writtenChars] at h hu ⊢
  cases hascii : asciiBytes chars with
  | some bytes =>
    simp only [hascii] at h hu
    obtain ⟨p, hhigh, hcount, hbytes, hp, hend, -⟩ := holdsAt_count hv (by decide)
      (by simp only [longMax, List.length_append] at hu ⊢; omega) h hu
    simp +decide only [readBody, hhigh, if_true, if_false]
    simp only [readASCIIString, Read.map_eq_bind, Read.bind_result, hcount, Except.bind]
    rw [checkExtent_of_le hv (by omega) hend]
    simp [hbytes]
  | none =>
    simp only [hascii] at h hu
    have hne : chars ≠ [] := by rintro rfl; simp [asciiBytes] at hascii
    have hcharsPos := List.length_pos_iff.mpr hne
    obtain ⟨p, hhigh, hcount, hbytes, hp, hend, -⟩ := holdsAt_count hv (by decide)
      (by simp only [longMax, List.length_append, length_bytesOfChars] at hu ⊢; omega) h hu
    rw [length_bytesOfChars] at hbytes hend
    simp +decide only [readBody, hhigh, if_true, if_false]
    simp only [readUnicode16String, Read.map_eq_bind, Read.bind_result, hcount, Except.bind]
    rw [checkPtrAdd_of_lt (by omega)]
    simp only [Read.pure_result]
    rw [checkPtrAdd_of_lt (by omega)]
    simp only [Read.pure_result]
    rw [hv.ptr_objectsRangeEnd, Read.failIf_of_not (by omega), checkMul_of_lt (by omega)]
    simp only [Read.pure_result]
    rw [Read.failIf_of_not (by omega), Nat.mul_comm]
    simp only [Read.pure_result, Memory.derefBytes_result, hbytes, charsOfBytes_bytesOfChars]

theorem readBody_date {off : Nat} {time : UInt64} (h : m.HoldsAt off (markerDate :: beBytes 8 time.toNat))
    (hu : off + 9 ≤ t.offsetTableOffset) :
    (readBody m t (m.byteAt (m.base + off)) (m.base + off + 1)).result = .ok (.primitive (.date time)) := by
  obtain ⟨hbyte, hbytes⟩ := Memory.holdsAt_cons.mp h
  rw [Memory.HoldsAt, length_beBytes, ← Nat.add_assoc] at hbytes
  have htime := time.toNat_lt
  simp +decide only [hbyte, readBody, if_true, if_false, readDate, Read.map_eq_bind]
  rw [Read.failIf_of_not (by decide), Read.pure_bind, checkExtent_of_le hv (by omega) (by omega)]
  simp only [Read.pure_bind, Read.bind_result, Memory.derefBytes_result, Except.bind, hbytes, Read.pure_result]
  rw [beValue_beBytes_of_lt htime, UInt64.ofNat_toNat]

theorem readIntObject_result {off value : Nat} (marker : UInt8) (size : Nat) (hnibble : 2 ^ lowNibble marker = size)
    (hsize : size ≤ 16) (hvalue : value < 2 ^ 64) (hlt : value < 256 ^ size) (h : m.HoldsAt off (beBytes size value))
    (hu : off + size ≤ t.offsetTableOffset) :
    (readIntObject m t marker (m.base + off)).result =
      .ok (.number (if 8 < size then .sint128 (UInt64.ofNat value) else .sint64 (UInt64.ofNat value).toInt64)) := by
  have hpos := m.base_pos
  have hread := getSizedInt_beBytes (by omega) hvalue hlt h
  simp only [readIntObject, hnibble]
  rw [checkExtent_of_le hv (by omega) (by omega), Read.pure_bind, Read.failIf_of_not (by omega), Read.pure_bind,
    Read.bind_result, hread]
  simp only [Except.bind]
  split <;> rfl

/-- Integers of the narrow types. -/
theorem readBody_sint64 {off : Nat} {value : Int64} (h : m.HoldsAt off (encodeInt value.toUInt64.toNat))
    (hu : off + (encodeInt value.toUInt64.toNat).length ≤ t.offsetTableOffset) :
    (readBody m t (m.byteAt (m.base + off)) (m.base + off + 1)).result =
      .ok (.primitive (.number (.sint64 value))) := by
  have hvalue := value.toUInt64.toNat_lt
  obtain ⟨marker, size, heq, hmarker, hnibble, hsize, hlt⟩ := encodeInt_eq hvalue
  rw [heq] at h hu
  simp only [List.length_cons, length_beBytes] at hu
  obtain ⟨hbyte, hint⟩ := Memory.holdsAt_cons.mp h
  have hread := readIntObject_result hv _ _ hnibble (by omega) hvalue hlt hint (by omega)
  rw [← Nat.add_assoc] at hread
  simp only [hbyte, readBody, hmarker, if_true, Read.map_eq_bind, Read.bind_result, hread, Except.bind,
    Read.pure_result, if_neg (show ¬8 < size by omega), UInt64.ofNat_toNat]
  rfl

theorem readBody_sint128 {off : Nat} {low : UInt64}
    (h : m.HoldsAt off (0x14 :: (beBytes 8 0 ++ beBytes 8 low.toNat))) (hu : off + 17 ≤ t.offsetTableOffset) :
    (readBody m t (m.byteAt (m.base + off)) (m.base + off + 1)).result =
      .ok (.primitive (.number (.sint128 low))) := by
  have hlow := low.toNat_lt
  obtain ⟨hbyte, hint⟩ := Memory.holdsAt_cons.mp h
  rw [show beBytes 8 0 = beBytes 8 (low.toNat / 256 ^ 8) by rw [Nat.div_eq_of_lt (show low.toNat < 256 ^ 8 from hlow)],
    ← beBytes_add] at hint
  have hread := readIntObject_result hv 0x14 16 (by decide) (by omega) hlow
    (Nat.lt_of_lt_of_le hlow (by decide)) hint (by omega)
  rw [← Nat.add_assoc] at hread
  simp +decide only [hbyte, readBody, if_true, Read.map_eq_bind, Read.bind_result, hread, Except.bind,
    Read.pure_result, UInt64.ofNat_toNat]

theorem readBody_float32 {off : Nat} {bits : UInt32} (finite : float32IsFinite bits = true)
    (h : m.HoldsAt off (0x22 :: beBytes 4 bits.toNat)) (hu : off + 5 ≤ t.offsetTableOffset) :
    (readBody m t (m.byteAt (m.base + off)) (m.base + off + 1)).result =
      .ok (.primitive (.number (.float32 bits finite))) := by
  obtain ⟨hbyte, hbytes⟩ := Memory.holdsAt_cons.mp h
  rw [Memory.HoldsAt, length_beBytes, ← Nat.add_assoc] at hbytes
  have hnibble : lowNibble 0x22 = 2 := by decide
  simp +decide only [hbyte, readBody, if_true, if_false, readReal, Read.map_eq_bind, hnibble]
  rw [checkExtent_of_le hv (by omega) (by omega)]
  simp only [Read.pure_bind, Read.bind_result, Memory.derefBytes_result, Except.bind, hbytes, Read.pure_result]
  rw [beValue_beBytes_of_lt bits.toNat_lt, UInt32.ofNat_toNat, CFNumber.createFloat32_of_finite finite]

theorem readBody_float64 {off : Nat} {bits : UInt64} (canonical : float64IsNaN bits = true → bits = bitsForDoubleNaN)
    (h : m.HoldsAt off (0x23 :: beBytes 8 bits.toNat)) (hu : off + 9 ≤ t.offsetTableOffset) :
    (readBody m t (m.byteAt (m.base + off)) (m.base + off + 1)).result =
      .ok (.primitive (.number (.float64 bits canonical))) := by
  obtain ⟨hbyte, hbytes⟩ := Memory.holdsAt_cons.mp h
  rw [Memory.HoldsAt, length_beBytes, ← Nat.add_assoc] at hbytes
  have hnibble : lowNibble 0x23 = 3 := by decide
  simp +decide only [hbyte, readBody, if_true, if_false, readReal, Read.map_eq_bind, hnibble]
  rw [checkExtent_of_le hv (by omega) (by omega)]
  simp only [Read.pure_bind, Read.bind_result, Memory.derefBytes_result, Except.bind, hbytes, Read.pure_result]
  rw [beValue_beBytes_of_lt bits.toNat_lt, UInt64.ofNat_toNat, CFNumber.createFloat64_of_canonical canonical]

theorem readBody_uid {off : Nat} {uid : UInt32} (h : m.HoldsAt off (encodeUID uid))
    (hu : off + (encodeUID uid).length ≤ t.offsetTableOffset) :
    (readBody m t (m.byteAt (m.base + off)) (m.base + off + 1)).result = .ok (.primitive (.uid uid)) := by
  have huid := uid.toNat_lt
  obtain ⟨marker, size, heq, hmarker, hnibble, hsize, hlt⟩ := encodeUID_eq uid
  rw [heq] at h hu
  simp only [List.length_cons, length_beBytes] at hu
  obtain ⟨hbyte, hint⟩ := Memory.holdsAt_cons.mp h
  have hread := getSizedInt_beBytes (by omega) (by omega) hlt hint
  rw [← Nat.add_assoc] at hread
  simp +decide only [hbyte, readBody, hmarker, if_true, if_false, readUID, Read.map_eq_bind, hnibble]
  rw [checkExtent_of_le hv (by omega) (by omega)]
  simp only [Read.pure_bind, Read.bind_result, hread, Except.bind]
  rw [Read.failIf_of_not (by omega), UInt32.ofNat_toNat]
  rfl

/-- The references of a container start after its count. -/
theorem readContainer_result {off cnt count : Nat} (kind : Kind) {marker : UInt8} {bytes : List UInt8}
    (hmarker : marker ∈ countMarkers) (hcount : (refCount kind cnt) = pure count) (hcnt : cnt ≤ longMax)
    (hpointers : count * 8 < 2 ^ 64) (hbytes : bytes.length = count * t.objectRefSize.toNat)
    (h : m.HoldsAt off (encodeCount marker cnt ++ bytes))
    (hu : off + (encodeCount marker cnt ++ bytes).length ≤ t.offsetTableOffset) :
    m.byteAt (m.base + off) &&& 0xf0 = marker ∧
      (readContainer m t kind (m.byteAt (m.base + off)) (m.base + off + 1)).result =
        .ok (.container kind count (m.base + off + (encodeCount marker cnt).length)) := by
  have hofs := hv.offsetTableOffset_lt
  have hfits := m.fits
  obtain ⟨p, hhigh, hread, -, hp, hend, hpeq⟩ := holdsAt_count hv hmarker hcnt h hu
  rw [hbytes] at hend
  refine ⟨hhigh, ?_⟩
  simp only [readContainer, Read.bind_result, hread, Except.bind, hcount, Read.pure_result]
  rw [checkMul_of_lt (by omega)]
  simp only [Read.pure_result]
  rw [checkExtent_of_le hv (by omega) hend, checkMul_of_lt hpointers]
  simp only [Read.pure_result, hpeq]

theorem readBody_array {off : Nat} {f : Flattened} {stack : Vector UInt8 4} {list : List CFTypeRef}
    (hpointers : list.length * 8 < 2 ^ 64)
    (hbytes : (encodeRefs f stack t.objectRefSize.toNat list).length = list.length * t.objectRefSize.toNat)
    (h : m.HoldsAt off (encodeCount markerArray list.length ++ encodeRefs f stack t.objectRefSize.toNat list))
    (hu : off + (encodeCount markerArray list.length ++ encodeRefs f stack t.objectRefSize.toNat list).length ≤
      t.offsetTableOffset) :
    (readBody m t (m.byteAt (m.base + off)) (m.base + off + 1)).result =
      .ok (.container .array list.length (m.base + off + (encodeCount markerArray list.length).length)) := by
  obtain ⟨hhigh, hread⟩ := readContainer_result hv .array (by decide) rfl
    (by simp only [longMax]; omega) hpointers hbytes h hu
  simp +decide only [readBody, hhigh, if_true, if_false, hread]

theorem readBody_dictionary {off : Nat} {f : Flattened} {stack : Vector UInt8 4} {list : List CFTypeRef}
    (heven : list.length / 2 * 2 = list.length) (hpointers : list.length * 8 < 2 ^ 64)
    (hbytes : (encodeRefs f stack t.objectRefSize.toNat list).length = list.length * t.objectRefSize.toNat)
    (h : m.HoldsAt off (encodeCount markerDict (list.length / 2) ++ encodeRefs f stack t.objectRefSize.toNat list))
    (hu : off + (encodeCount markerDict (list.length / 2) ++
      encodeRefs f stack t.objectRefSize.toNat list).length ≤ t.offsetTableOffset) :
    (readBody m t (m.byteAt (m.base + off)) (m.base + off + 1)).result =
      .ok (.container .dictionary list.length
        (m.base + off + (encodeCount markerDict (list.length / 2)).length)) := by
  obtain ⟨hhigh, hread⟩ := readContainer_result hv .dictionary (by decide)
    (by rw [refCount, if_pos rfl, checkMul_of_lt (by omega), heven]) (by simp only [longMax]; omega)
    hpointers hbytes h hu
  simp +decide only [readBody, hhigh, if_true, if_false, hread]

/-! ## The object reader -/

/-- The object reader on an object that is not one of the constants. -/
theorem readObject_of_body {off : Nat} {node : Node} (hu : off < t.offsetTableOffset)
    (h : (readBody m t (m.byteAt (m.base + off)) (m.base + off + 1)).result = .ok node) :
    (readObject m t off).result = .ok node := by
  have hofs := hv.offsetTableOffset_lt
  have hfits := m.fits
  have hnull : m.byteAt (m.base + off) &&& 0xf0 ≠ markerNull := by
    intro hnull
    simp +decide only [readBody, hnull, if_false] at h
    cases h
  rw [readObject, ptr_eq (by omega), Read.bind_of_ok (Memory.deref_result ..), if_neg hnull,
    checkPtrAdd_of_lt (by omega), Read.pure_bind]
  exact h

theorem readObject_boolean {off : Nat} {value : Bool} (hu : off < t.offsetTableOffset)
    (h : m.HoldsAt off [if value then markerTrue else markerFalse]) :
    (readObject m t off).result = .ok (.primitive (.boolean value)) := by
  have hofs := hv.offsetTableOffset_lt
  obtain ⟨hbyte, -⟩ := Memory.holdsAt_cons.mp h
  rw [readObject, ptr_eq (by omega), Read.bind_of_ok (Memory.deref_result ..), hbyte]
  cases value <;> simp +decide only [if_true, if_false]

/-- A primitive that was written is read back. -/
theorem readObject_primitive {off objectRefSize : Nat} {f : Flattened} {stack : Vector UInt8 4} {base : CFRuntimeBase}
    {value : Primitive} (hvalue : value ≠ .null)
    (h : m.HoldsAt off (encodeObject f stack objectRefSize (.primitive base value)))
    (hu : off + (encodeObject f stack objectRefSize (.primitive base value)).length ≤ t.offsetTableOffset) :
    (readObject m t off).result = .ok (.primitive (writtenValue value)) := by
  have hpos := length_encodeObject_pos f stack objectRefSize
    (x := .primitive base value) (by simpa [isWritable] using hvalue)
  have hlt : off < t.offsetTableOffset := by omega
  cases value with
  | null => exact absurd rfl hvalue
  | boolean value => exact readObject_boolean hv hlt h
  | number value =>
    refine readObject_of_body hv hlt ?_
    cases value with
    | sint64 value => exact readBody_sint64 hv h hu
    | sint128 low => exact readBody_sint128 hv h hu
    | float32 bits finite => exact readBody_float32 hv finite h hu
    | float64 bits canonical => exact readBody_float64 hv canonical h hu
  | date time => exact readObject_of_body hv hlt (readBody_date hv h hu)
  | data bytes => exact readObject_of_body hv hlt (readBody_data hv h hu)
  | string chars => exact readObject_of_body hv hlt (readBody_string hv h hu)
  | uid value => exact readObject_of_body hv hlt (readBody_uid hv h hu)

end Valid

end BinaryPlist

end CFLite
