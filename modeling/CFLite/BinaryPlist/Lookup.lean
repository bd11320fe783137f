import CFLite.BinaryPlist.ReaderBounds

/-!
# Keyed lookup in a binary property list

`__CFBinaryPlistGetOffsetForValueFromArray2` and
`__CFBinaryPlistGetOffsetForValueFromDictionary3`, which find the offset of a
value without decoding the container. The dictionary search compares a stored
ASCII key with the bytes of the key in MacRoman, and decodes any other stored
key.

* `getOffsetForValueFromArray2_inside`: the array lookup stays inside the
  block;
* `getOffsetForValueFromDictionary3_inside_iff`: the dictionary lookup does so
  exactly when the search comes to no key reference that is out of range. It
  dereferences the stored key before anything looks at the failure value of
  `_getOffsetOfRefAt`.
-/

namespace CFLite.BinaryPlist

open CFLite.Framework

/-! ## Arrays -/

/-- `__CFBinaryPlistGetOffsetForValueFromArray2`: the offset of the value at
index `idx`, which is compared with the count as an unsigned integer. -/
def getOffsetForValueFromArray2 (m : Memory) (t : Trailer) (startOffset : Nat) (idx : Int64) : Read Nat := do
  Read.failIf (startOffset < 8 ∨ t.objectsRangeEnd < startOffset)
  let p := ptr m startOffset
  let marker ← m.deref p
  Read.failIf (marker &&& 0xf0 ≠ markerArray)
  let p ← checkPtrAdd p 1
  let (cnt, p) ← readCount m t marker p
  let idx := idx.toUInt64.toNat
  Read.failIf (cnt ≤ idx)
  let byteCnt ← checkMul cnt t.objectRefSize.toNat
  checkExtent m t p byteCnt
  getOffsetOfRefAt m t (addPtr p (idx * t.objectRefSize.toNat))

/-! ## Dictionaries -/

/-- The bytes of a key string in `kCFStringEncodingMacRoman`: what
`CFStringGetCStringPtr` returns, and what a 16-byte buffer holds after
`CFStringGetCString`, whose result is not looked at. -/
structure MacRoman where
  pointer : Option (Nat → UInt8)
  buffer : Nat → UInt8

/-- `keyBufferPtr`, for a key string of `stringKeyLen` characters. -/
def keyBufferPtr (macRoman : MacRoman) (stringKeyLen : Nat) : Option (Nat → UInt8) :=
  match macRoman.pointer with
  | some bytes => some bytes
  | none => if stringKeyLen < 16 then some macRoman.buffer else none

/-- `stringKeyLen` and `keyBufferPtr`, if the key is a string and has such a
pointer. -/
def quickKey (key : CFTypeRef) (macRoman : MacRoman) : Option (Nat × (Nat → UInt8)) :=
  match key with
  | .primitive _ (.string chars) => (keyBufferPtr macRoman chars.length).map (chars.length, ·)
  | _ => none

/-- The length and address of a stored ASCII key's bytes. A length of 15 or
more is only read for a key that long. -/
def readASCIIKey (m : Memory) (t : Trailer) (marker : UInt8) (stringKeyLen p : Nat) : Read (Nat × Nat) :=
  if 15 ≤ stringKeyLen then readCount m t marker p else return (lowNibble marker, p)

/-- The comparison of a stored ASCII key at `off` with the bytes of the key. -/
def matchesASCIIKey (m : Memory) (t : Trailer) (marker : UInt8) (off stringKeyLen : Nat)
    (keyBytes : Nat → UInt8) : Read Bool := do
  let p ← checkPtrAdd (ptr m off) 1
  let (len, p) ← readASCIIKey m t marker stringKeyLen p
  if len = stringKeyLen then do
    let extent ← checkPtrAdd p len
    Read.failIf (ptr m t.offsetTableOffset ≤ extent)
    let bytes ← m.derefBytes p stringKeyLen
    return bytes == (List.range stringKeyLen).map keyBytes
  else return false

/-- The comparison of a decoded key, which is a new object. -/
def matchesDecodedKey (m : Memory) (t : Trailer) (key : CFTypeRef) (off : Nat) : Read Bool := do
  let (keyInData, _) ← createObject2 m t .immutable (decodeFuel t 0) off none 0 (Decoder.after key)
  Read.failIf (¬keyInData.isPrimitive)
  return CFEqual key keyInData

/-- One turn of the search: whether the stored key at `off` matches. -/
def keyMatches (m : Memory) (t : Trailer) (key : CFTypeRef) (macRoman : MacRoman) (off : Nat) : Read Bool := do
  let marker ← m.deref (ptr m off)
  match quickKey key macRoman with
  | some (stringKeyLen, keyBytes) =>
    if marker &&& 0xf0 = markerASCIIString then matchesASCIIKey m t marker off stringKeyLen keyBytes
    else matchesDecodedKey m t key off
  | none => matchesDecodedKey m t key off

/-- The linear search of `count` keys from `p` on; the value's reference is
`totalKeySize` bytes after its key's. -/
def searchKeys (m : Memory) (t : Trailer) (key : CFTypeRef) (macRoman : MacRoman) (totalKeySize : Nat) :
    (count p : Nat) → Read (Nat × Nat)
  | 0, _ => Read.fail
  | count + 1, p => do
    let off ← getOffsetOfRefAt m t p
    let found ← keyMatches m t key macRoman off
    if found then do
      let voffset ← getOffsetOfRefAt m t (addPtr p totalKeySize)
      return (off, voffset)
    else searchKeys m t key macRoman totalKeySize count (addPtr p t.objectRefSize.toNat)

/-- The dictionary at `startOffset`: the number of its entries, and the
address of its key references. -/
def readDictionary (m : Memory) (t : Trailer) (startOffset : Nat) : Read (Nat × Nat) := do
  Read.failIf (startOffset < 8 ∨ t.objectsRangeEnd < startOffset)
  let p := ptr m startOffset
  let marker ← m.deref p
  Read.failIf (marker &&& 0xf0 ≠ markerDict)
  let p ← checkPtrAdd p 1
  let (cnt, p) ← readCount m t marker p
  let cnt2 ← checkMul cnt 2
  let byteCnt ← checkMul cnt2 t.objectRefSize.toNat
  checkExtent m t p byteCnt
  return (cnt, p)

/-- `__CFBinaryPlistGetOffsetForValueFromDictionary3`: the offsets of the key
and of its value. -/
def getOffsetForValueFromDictionary3 (m : Memory) (t : Trailer) (startOffset : Nat) (key : CFTypeRef)
    (macRoman : MacRoman) : Read (Nat × Nat) := do
  Read.failIf (¬key.isPrimitive)
  let (cnt, p) ← readDictionary m t startOffset
  searchKeys m t key macRoman (cnt * t.objectRefSize.toNat) cnt p

/-! ## What the lookups read -/

section Valid

variable {m : Memory} {t : Trailer} (hv : t.Valid m)

include hv

theorem getOffsetForValueFromArray2_inside (startOffset : Nat) (idx : Int64) :
    ∀ a ∈ (getOffsetForValueFromArray2 m t startOffset idx).touched, m.Inside a := by
  have h := hv.offsetTableOffset_lt
  have h9 := hv.offsetTableOffset_ge
  have hfits := m.fits
  refine (Read.Safe.failIf_bind (R := fun _ => True) fun hrange => ?_).1
  simp only [Trailer.objectsRangeEnd, not_or, Nat.not_lt] at hrange
  rw [ptr_eq (by omega)]
  refine Read.Safe.bind (Memory.deref_safe (Q := fun _ => True) ⟨by omega, by omega⟩ trivial) fun marker _ => ?_
  refine Read.Safe.failIf_bind fun _ => checkPtrAdd_safe (by omega) fun _ => ?_
  refine Read.Safe.bind (readCount_safe hv (by omega) (by omega)) fun read hread => ?_
  obtain ⟨cnt, p⟩ := read
  obtain ⟨-, hp, -⟩ := hread
  refine Read.Safe.failIf_bind fun hidx => checkMul_safe fun hmul => checkExtent_safe hv (by omega) hmul fun hextent => ?_
  have hlast : (idx.toUInt64.toNat + 1) * t.objectRefSize.toNat ≤ cnt * t.objectRefSize.toNat :=
    Nat.mul_le_mul_right _ (by omega)
  rw [Nat.add_mul, Nat.one_mul] at hlast
  rw [addPtr_of_lt (by omega)]
  exact (getOffsetOfRefAt_safe hv (by omega) (by omega)).mono fun _ _ => trivial

/-- The entries of a dictionary that `readDictionary` accepts lie in the
object table. -/
theorem readDictionary_safe (startOffset : Nat) :
    Read.Safe m.Inside (fun (cnt, p) => m.base + 8 ≤ p ∧
      p + cnt * t.objectRefSize.toNat + cnt * t.objectRefSize.toNat ≤ m.base + t.offsetTableOffset)
      (readDictionary m t startOffset) := by
  have h := hv.offsetTableOffset_lt
  have h9 := hv.offsetTableOffset_ge
  have hfits := m.fits
  refine Read.Safe.failIf_bind fun hrange => ?_
  simp only [Trailer.objectsRangeEnd, not_or, Nat.not_lt] at hrange
  rw [ptr_eq (by omega)]
  refine Read.Safe.bind (Memory.deref_safe (Q := fun _ => True) ⟨by omega, by omega⟩ trivial) fun marker _ => ?_
  refine Read.Safe.failIf_bind fun _ => checkPtrAdd_safe (by omega) fun _ => ?_
  refine Read.Safe.bind (readCount_safe hv (by omega) (by omega)) fun read hread => ?_
  obtain ⟨cnt, p⟩ := read
  obtain ⟨-, hp, -⟩ := hread
  refine checkMul_safe fun _ => checkMul_safe fun hmul => checkExtent_safe hv (by omega) hmul fun hextent => ?_
  refine Read.Safe.pure ⟨by omega, ?_⟩
  rw [Nat.mul_two, Nat.add_mul] at hextent
  omega

/-- The comparison with an ASCII key, at an address in the block. -/
theorem matchesASCIIKey_safe {marker : UInt8} {off stringKeyLen : Nat} {keyBytes : Nat → UInt8}
    (hoff : off < t.offsetTableOffset) :
    Read.Safe m.Inside (fun _ => True) (matchesASCIIKey m t marker off stringKeyLen keyBytes) := by
  have h := hv.offsetTableOffset_lt
  have hfits := m.fits
  simp only [matchesASCIIKey]
  rw [ptr_eq (by omega)]
  refine checkPtrAdd_safe (by omega) fun _ => ?_
  refine Read.Safe.bind (Q := fun key => key.1 ≤ longMax ∧ m.base ≤ key.2) ?_ fun key hkey => ?_
  · simp only [readASCIIKey]
    split
    · exact (readCount_safe hv (by omega) (by omega)).mono fun _ hnext => ⟨hnext.1, by have := hnext.2.1; omega⟩
    · have := lowNibble_lt marker
      exact Read.Safe.pure (show _ ≤ longMax ∧ m.base ≤ m.base + off + 1 from ⟨by simp only [longMax]; omega, by omega⟩)
  · obtain ⟨len, p⟩ := key
    obtain ⟨hlen, hp⟩ := hkey
    simp only [longMax] at hlen
    split
    · rename_i heq
      refine checkPtrAdd_safe (by omega) fun _ => Read.Safe.failIf_bind fun hextent => ?_
      rw [hv.ptr_offsetTableOffset] at hextent
      refine Read.Safe.bind (Memory.derefBytes_safe (Q := fun _ => True) hp (by omega) trivial) fun _ _ => ?_
      exact Read.Safe.pure trivial
    · exact Read.Safe.pure trivial

theorem keyMatches_safe (key : CFTypeRef) (macRoman : MacRoman) {off : Nat} (hoff : off < t.offsetTableOffset) :
    Read.Safe m.Inside (fun _ => True) (keyMatches m t key macRoman off) := by
  have h := hv.offsetTableOffset_lt
  have hdecoded : Read.Safe m.Inside (fun _ => True) (matchesDecodedKey m t key off) :=
    Read.Safe.bind (createObject2_safe hv) fun _ _ => Read.Safe.failIf_bind fun _ => Read.Safe.pure trivial
  simp only [keyMatches]
  rw [ptr_eq (by omega)]
  refine Read.Safe.bind (Memory.deref_safe (Q := fun _ => True) ⟨by omega, by omega⟩ trivial) fun marker _ => ?_
  split
  · split
    · exact matchesASCIIKey_safe hv hoff
    · exact hdecoded
  · exact hdecoded

end Valid

/-- The failure value of `_getOffsetOfRefAt` is the offset of the byte before
the block. -/
theorem not_inside_ptr_maxOffset (m : Memory) : ¬m.Inside (ptr m maxOffset) := by
  have hpos := m.base_pos
  have hfits := m.fits
  simp only [Memory.Inside, ptr, addPtr, maxOffset]
  omega

theorem ptr_mem_keyMatches_touched (m : Memory) (t : Trailer) (key : CFTypeRef) (macRoman : MacRoman) (off : Nat) :
    ptr m off ∈ (keyMatches m t key macRoman off).touched := by
  simp only [keyMatches, Read.bind_of_ok (Memory.deref_result ..), Memory.deref_touched, List.mem_append,
    List.mem_singleton, true_or]

/-- The search for `key` has passed the keys whose references are at `p` up
to the `i`th, and comes to that one. -/
def SearchReaches (m : Memory) (t : Trailer) (key : CFTypeRef) (macRoman : MacRoman) (p i : Nat) : Prop :=
  ∀ j < i, (keyMatches m t key macRoman (offsetOfRef m t (refAt m t (p + j * t.objectRefSize.toNat)))).result =
    .ok false

theorem searchReaches_succ {m : Memory} {t : Trailer} {key : CFTypeRef} {macRoman : MacRoman} {p i : Nat} :
    SearchReaches m t key macRoman p (i + 1) ↔
      (keyMatches m t key macRoman (offsetOfRef m t (refAt m t p))).result = .ok false ∧
        SearchReaches m t key macRoman (p + t.objectRefSize.toNat) i := by
  have hstep : ∀ j, p + (j + 1) * t.objectRefSize.toNat = p + t.objectRefSize.toNat + j * t.objectRefSize.toNat := by
    intro j; rw [Nat.add_mul, Nat.one_mul]; omega
  constructor
  · intro h
    refine ⟨by simpa using h 0 (by omega), fun j hj => ?_⟩
    have := h (j + 1) (by omega)
    rwa [hstep] at this
  · rintro ⟨h₀, h⟩ j hj
    cases j with
    | zero => simpa using h₀
    | succ j => rw [hstep]; exact h j (by omega)

/-- Every key reference that the search for `key` comes to names an object. -/
def KeysInRange (m : Memory) (t : Trailer) (startOffset : Nat) (key : CFTypeRef) (macRoman : MacRoman) : Prop :=
  ∀ cnt p, (readDictionary m t startOffset).result = .ok (cnt, p) → ∀ i < cnt,
    SearchReaches m t key macRoman p i → refAt m t (p + i * t.objectRefSize.toNat) < t.numObjects

section Valid

variable {m : Memory} {t : Trailer} (hv : t.Valid m)

include hv

theorem searchKeys_inside_iff {key : CFTypeRef} {macRoman : MacRoman} {totalKeySize : Nat} :
    ∀ {count p : Nat}, m.base + 8 ≤ p →
      p + count * t.objectRefSize.toNat + totalKeySize ≤ m.base + t.offsetTableOffset →
      count * t.objectRefSize.toNat ≤ totalKeySize →
      ((∀ a ∈ (searchKeys m t key macRoman totalKeySize count p).touched, m.Inside a) ↔
        ∀ i < count, SearchReaches m t key macRoman p i →
          refAt m t (p + i * t.objectRefSize.toNat) < t.numObjects) := by
  have h := hv.offsetTableOffset_lt
  have hfits := m.fits
  intro count
  induction count with
  | zero => simp [searchKeys]
  | succ count ih =>
    intro p hp hu hkeys
    rw [Nat.add_mul, Nat.one_mul] at hu hkeys
    have hoff := getOffsetOfRefAt_result hv hp (by omega)
    have hoffIn := (getOffsetOfRefAt_safe hv (p := p) (by omega) (by omega)).1
    simp only [searchKeys, Read.bind_of_ok hoff, List.forall_mem_append]
    by_cases href : refAt m t p < t.numObjects
    · have hkey := keyMatches_safe hv key macRoman (offsetOfRef_lt hv href)
      generalize hx : keyMatches m t key macRoman (offsetOfRef m t (refAt m t p)) = x at hkey
      cases hr : x.result with
      | error e =>
        -- the search ends here without an answer
        refine iff_of_true ⟨hoffIn, ?_⟩ fun i hi hreach => ?_
        · rw [Read.bind_of_error hr]; exact hkey.1
        · cases i with
          | zero => simpa using href
          | succ i => rw [searchReaches_succ, hx, hr] at hreach; cases hreach.1
      | ok found =>
        simp only [Read.bind_of_ok hr, List.forall_mem_append]
        cases found with
        | true =>
          have hvalue := getOffsetOfRefAt_safe hv (p := p + totalKeySize) (by omega) (by omega)
          rw [if_pos rfl, addPtr_of_lt (by omega)]
          refine iff_of_true ⟨hoffIn, hkey.1, ?_⟩ fun i hi hreach => ?_
          · exact (hvalue.bind (R := fun _ => True) fun _ _ => Read.Safe.pure trivial).1
          · cases i with
            | zero => simpa using href
            | succ i => rw [searchReaches_succ, hx, hr] at hreach; cases hreach.1
        | false =>
          have := t.objectRefSize.toNat_lt
          rw [if_neg (by decide), addPtr_of_lt (by omega), ih (by omega) (by omega) (by omega)]
          constructor
          · rintro ⟨-, -, hrest⟩ i hi hreach
            cases i with
            | zero => simpa using href
            | succ i =>
              have := hrest i (by omega) (searchReaches_succ.mp hreach).2
              rwa [show p + t.objectRefSize.toNat + i * t.objectRefSize.toNat = p + (i + 1) * t.objectRefSize.toNat by
                rw [Nat.add_mul, Nat.one_mul]; omega] at this
          · intro hall
            refine ⟨hoffIn, hkey.1, fun i hi hreach => ?_⟩
            have := hall (i + 1) (by omega) (searchReaches_succ.mpr ⟨by rw [hx, hr], hreach⟩)
            rwa [show p + t.objectRefSize.toNat + i * t.objectRefSize.toNat = p + (i + 1) * t.objectRefSize.toNat by
              rw [Nat.add_mul, Nat.one_mul]; omega]
    · -- the stored key is dereferenced at the failure value of the reference
      have hmax : offsetOfRef m t (refAt m t p) = maxOffset := if_pos (Nat.le_of_not_lt href)
      refine iff_of_false (fun hall => ?_) fun hall => ?_
      · refine not_inside_ptr_maxOffset m (hall.2 _ (Read.mem_touched_bind.mpr (.inl ?_)))
        rw [hmax]
        exact ptr_mem_keyMatches_touched m t key macRoman maxOffset
      · exact href (by simpa using hall 0 (by omega) fun j hj => absurd hj (by omega))

/-- The dictionary lookup of a primitive key stays inside the block exactly
when the search comes to no key reference that is out of range. -/
theorem getOffsetForValueFromDictionary3_inside_iff {startOffset : Nat} {key : CFTypeRef} {macRoman : MacRoman}
    (hkey : key.isPrimitive = true) :
    (∀ a ∈ (getOffsetForValueFromDictionary3 m t startOffset key macRoman).touched, m.Inside a) ↔
      KeysInRange m t startOffset key macRoman := by
  have hdict := readDictionary_safe hv startOffset
  simp only [getOffsetForValueFromDictionary3, KeysInRange]
  rw [Read.failIf_of_not (by simp [hkey]), Read.pure_bind]
  cases hr : (readDictionary m t startOffset).result with
  | error e =>
    rw [Read.bind_of_error hr]
    exact iff_of_true hdict.1 fun cnt p h => by cases h
  | ok entries =>
    obtain ⟨cnt, p⟩ := entries
    obtain ⟨hp, hu⟩ := hdict.2 _ hr
    rw [Read.bind_of_ok hr]
    simp only [List.forall_mem_append, searchKeys_inside_iff hv hp hu (Nat.le_refl _)]
    constructor
    · rintro ⟨-, h⟩ cnt' p' heq
      cases heq
      exact h
    · exact fun h => ⟨hdict.1, h cnt p rfl⟩

end Valid

/-- The lookups in a list whose trailer was accepted: for every offset, key
string and index, all bytes they read are the list's exactly when the search
comes to no key reference that is out of range. -/
theorem lookups_inside_iff {m : Memory} {marker : UInt8} {offset : Nat} {t : Trailer}
    (h : (getTopLevelInfo m).result = .ok (marker, offset, t)) (startOffset : Nat) (base : CFRuntimeBase)
    (chars : List UInt16) (macRoman : MacRoman) (idx : Int64) :
    ((∀ a ∈ (getOffsetForValueFromDictionary3 m t startOffset (.primitive base (.string chars)) macRoman).touched,
        m.Inside a) ∧
      ∀ a ∈ (getOffsetForValueFromArray2 m t startOffset idx).touched, m.Inside a) ↔
      KeysInRange m t startOffset (.primitive base (.string chars)) macRoman := by
  have hv := ((getTopLevelInfo_safe m).2 _ h).1
  rw [getOffsetForValueFromDictionary3_inside_iff hv rfl]
  exact and_iff_left (getOffsetForValueFromArray2_inside hv startOffset idx)

/-- A list whose dictionary has one entry, with reference 5 for its key, and
one object. -/
def keyOutOfRange : Memory where
  base := 4096
  bytes := magic ++ [0x30, 0xd1, 5, 0, 8] ++ [0, 0, 0, 0, 0, 0, 1, 1] ++ beBytes 8 1 ++ beBytes 8 0 ++ beBytes 8 11
  beyond _ := 0
  base_pos := emptyArray.base_pos
  length_lt := by decide
  fits := by decide

/-- The trailer of `keyOutOfRange`. -/
def keyOutOfRangeTrailer : Trailer := ⟨1, 1, 1, 0, 11⟩

theorem lookups_inside_iff_keyOutOfRange :
    (getTopLevelInfo keyOutOfRange).result = .ok (0xd1, 8, keyOutOfRangeTrailer) ∧
      (((∀ a ∈ (getOffsetForValueFromDictionary3 keyOutOfRange keyOutOfRangeTrailer 8
            (.primitive ⟨16, false⟩ (.string [0x61])) ⟨none, fun _ => 0x61⟩).touched, keyOutOfRange.Inside a) ∧
          ∀ a ∈ (getOffsetForValueFromArray2 keyOutOfRange keyOutOfRangeTrailer 8 0).touched,
            keyOutOfRange.Inside a) ↔
        KeysInRange keyOutOfRange keyOutOfRangeTrailer 8 (.primitive ⟨16, false⟩ (.string [0x61]))
          ⟨none, fun _ => 0x61⟩) :=
  ⟨by rfl, lookups_inside_iff
    (show (getTopLevelInfo keyOutOfRange).result = .ok (0xd1, 8, keyOutOfRangeTrailer) by rfl)
    8 ⟨16, false⟩ [0x61] ⟨none, fun _ => 0x61⟩ 0⟩

/-- Looking up the key `a` in it reads the byte before the block. -/
theorem keyOutOfRange_outside :
    (getTopLevelInfo keyOutOfRange).result = .ok (0xd1, 8, keyOutOfRangeTrailer) ∧
      ¬∀ a ∈ (getOffsetForValueFromDictionary3 keyOutOfRange keyOutOfRangeTrailer 8
        (.primitive ⟨16, false⟩ (.string [0x61])) ⟨none, fun _ => 0x61⟩).touched, keyOutOfRange.Inside a := by
  refine ⟨by rfl, fun h => absurd (h 4095 ?_) (by decide)⟩
  decide

end CFLite.BinaryPlist
