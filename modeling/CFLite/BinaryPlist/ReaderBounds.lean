import CFLite.BinaryPlist.Reader

/-!
# The reader stays inside its input

Every byte the binary property list reader dereferences is one of the block
it was given. `getTopLevelInfo_safe` establishes what the rest of the reader
trusts (`Trailer.Valid`): the block is the object data, the offset table and
the trailer, and every entry of the offset table is an offset into the object
data. From it follow the bounds of one object (`readObject_safe`), of a
reference (`getOffsetOfRefAt_safe`), and by induction on the recursion budget
of all objects (`createObject2_safe`).
-/

namespace CFLite.BinaryPlist

open CFLite.Framework

/-- What `__CFBinaryPlistGetTopLevelInfo` has checked of the trailer. -/
structure Trailer.Valid (m : Memory) (t : Trailer) : Prop where
  numObjects_pos : 0 < t.numObjects
  topObject_lt : t.topObject < t.numObjects
  offsetTableOffset_ge : 9 ≤ t.offsetTableOffset
  offsetIntSize_pos : 0 < t.offsetIntSize.toNat
  objectRefSize_pos : 0 < t.objectRefSize.toNat
  length_eq : m.bytes.length = t.offsetTableOffset + t.numObjects * t.offsetIntSize.toNat + 32
  /-- The entries of the offset table are offsets before it. -/
  offsets_lt : ∀ i < t.numObjects,
    beValue (m.readAt (m.base + t.offsetTableOffset + i * t.offsetIntSize.toNat) t.offsetIntSize.toNat) % 2 ^ 64
      < t.offsetTableOffset

theorem ptr_eq {m : Memory} {off : Nat} (h : off ≤ m.bytes.length) : ptr m off = m.base + off :=
  addPtr_of_lt (by have := m.fits; omega)

namespace Trailer.Valid

variable {m : Memory} {t : Trailer} (hv : t.Valid m)

include hv

theorem offsetTableOffset_lt : t.offsetTableOffset + 32 < m.bytes.length := by
  have := Nat.mul_pos hv.numObjects_pos hv.offsetIntSize_pos
  have := hv.length_eq
  omega

theorem ptr_offsetTableOffset : ptr m t.offsetTableOffset = m.base + t.offsetTableOffset :=
  ptr_eq (by have := hv.offsetTableOffset_lt; omega)

theorem ptr_objectsRangeEnd : ptr m t.objectsRangeEnd = m.base + t.offsetTableOffset - 1 := by
  have h := hv.offsetTableOffset_lt
  have h9 := hv.offsetTableOffset_ge
  rw [ptr_eq (by simp only [objectsRangeEnd]; omega), objectsRangeEnd]
  omega

/-- The offset table entries fit before the trailer. -/
theorem entry_le {i : Nat} (hi : i < t.numObjects) :
    m.base + t.offsetTableOffset + i * t.offsetIntSize.toNat + t.offsetIntSize.toNat ≤
      m.base + m.bytes.length := by
  have h : (i + 1) * t.offsetIntSize.toNat ≤ t.numObjects * t.offsetIntSize.toNat :=
    Nat.mul_le_mul_right _ hi
  rw [Nat.add_mul, Nat.one_mul] at h
  have := hv.length_eq
  omega

theorem addPtr_entry {i : Nat} (hi : i < t.numObjects) :
    addPtr (ptr m t.offsetTableOffset) (i * t.offsetIntSize.toNat) =
      m.base + t.offsetTableOffset + i * t.offsetIntSize.toNat := by
  have := hv.entry_le hi
  have := m.fits
  rw [hv.ptr_offsetTableOffset]
  exact addPtr_of_lt (by omega)

end Trailer.Valid

/-! ## The trailer -/

/-- The loop accepts only entries up to `maxOff`. -/
theorem checkOffsets_safe {m : Memory} {size : UInt8} {maxOff : Nat} :
    ∀ {count p : Nat}, m.base ≤ p → p + count * size.toNat ≤ m.base + m.bytes.length →
      Read.Safe m.Inside (fun _ => ∀ i < count, beValue (m.readAt (p + i * size.toNat) size.toNat) % 2 ^ 64 ≤ maxOff)
        (checkOffsets m size maxOff count p) := by
  intro count
  induction count with
  | zero => exact fun _ _ => Read.Safe.pure fun i hi => by omega
  | succ count ih =>
    intro p hl hu
    rw [Nat.add_mul, Nat.one_mul] at hu
    have := m.fits
    refine Read.Safe.bind (getSizedInt_safe hl (by omega)) fun off hoff => ?_
    refine Read.Safe.failIf_bind fun hmax => ?_
    rw [addPtr_of_lt (by omega)]
    refine Read.Safe.mono (ih (by omega) (by omega)) fun _ h i hi => ?_
    rcases Nat.eq_zero_or_pos i with rfl | hpos
    · rw [Nat.zero_mul, Nat.add_zero, ← hoff]; omega
    · obtain ⟨j, rfl⟩ := Nat.exists_eq_add_of_lt hpos
      have := h j (by omega)
      rwa [show p + size.toNat + j * size.toNat = p + (0 + j + 1) * size.toNat by
        rw [Nat.zero_add, Nat.add_mul, Nat.one_mul]; omega] at this

/-- What `__CFBinaryPlistGetTopLevelInfo` reads and what it guarantees. -/
theorem getTopLevelInfo_safe (m : Memory) :
    Read.Safe m.Inside (fun (_, off, t) => t.Valid m ∧ 8 ≤ off ∧ off < t.offsetTableOffset)
      (getTopLevelInfo m) := by
  have hlen := m.length_lt
  have hfits := m.fits
  simp only [getTopLevelInfo, trailerSize]
  refine Read.Safe.failIf_bind fun hsize => ?_
  refine Read.Safe.bind (Memory.derefBytes_safe (Q := fun _ => True) (Nat.le_refl _) (by omega) trivial)
    fun header _ => ?_
  refine Read.Safe.failIf_bind fun _ => ?_
  rw [ptr_eq (by omega)]
  refine Read.Safe.bind (Memory.derefBytes_safe (Q := fun _ => True) (by omega) (by omega) trivial)
    fun trail _ => ?_
  generalize Trailer.ofBytes trail = t
  refine Read.Safe.failIf_bind fun _ => Read.Safe.failIf_bind fun _ => Read.Safe.failIf_bind fun hnum =>
    Read.Safe.failIf_bind fun htop => Read.Safe.failIf_bind fun hnine => Read.Safe.failIf_bind fun _ =>
    Read.Safe.failIf_bind fun hint => Read.Safe.failIf_bind fun href => ?_
  have hint : 0 < t.offsetIntSize.toNat := by
    have := UInt8.lt_iff_toNat_lt.not.mp hint; simp at this; omega
  have href : 0 < t.objectRefSize.toNat := by
    have := UInt8.lt_iff_toNat_lt.not.mp href; simp at this; omega
  refine checkMul_safe fun hmul => Read.Safe.failIf_bind fun _ => ?_
  refine checkPtrAdd_safe (by omega) fun _ => checkPtrAdd_safe hmul fun _ => checkPtrAdd_safe (by omega) fun _ => ?_
  refine Read.Safe.failIf_bind fun hlength => Read.Safe.failIf_bind fun _ => Read.Safe.failIf_bind fun _ => ?_
  have hlength : m.bytes.length = t.offsetTableOffset + t.numObjects * t.offsetIntSize.toNat + 32 := by omega
  refine checkPtrAdd_safe (by omega) fun _ => checkPtrAdd_safe (by omega) fun _ => checkPtrAdd_safe (by omega) fun _ => ?_
  rw [ptr_eq (by omega)]
  refine Read.Safe.bind (checkOffsets_safe (by omega) (by omega)) fun _ hoffsets => ?_
  have hv : t.Valid m :=
    { numObjects_pos := by omega
      topObject_lt := by omega
      offsetTableOffset_ge := by omega
      offsetIntSize_pos := hint
      objectRefSize_pos := href
      length_eq := hlength
      offsets_lt := fun i hi => by have := hoffsets i hi; simp only [Trailer.objectsRangeEnd] at this; omega }
  have hentry := hv.entry_le hv.topObject_lt
  rw [addPtr_of_lt (by omega)]
  refine Read.Safe.bind (getSizedInt_safe (by omega) (by omega)) fun off _ => ?_
  refine Read.Safe.failIf_bind fun hoff => ?_
  rw [ptr_eq (by omega)]
  refine Read.Safe.bind (Memory.deref_safe (Q := fun _ => True) ⟨by omega, by omega⟩ trivial) fun marker _ => ?_
  exact Read.Safe.pure (show t.Valid m ∧ 8 ≤ off ∧ off < t.offsetTableOffset from ⟨hv, by omega, by omega⟩)

/-! ## Integers and references -/

/-- The reference at address `p`. -/
def refAt (m : Memory) (t : Trailer) (p : Nat) : Nat := beValue (m.readAt p t.objectRefSize.toNat) % 2 ^ 64

/-- Entry `i` of the offset table. -/
def entryAt (m : Memory) (t : Trailer) (i : Nat) : Nat :=
  beValue (m.readAt (m.base + t.offsetTableOffset + i * t.offsetIntSize.toNat) t.offsetIntSize.toNat) % 2 ^ 64

/-- The offset of the object that a reference names, or `UINT64_MAX`. -/
def offsetOfRef (m : Memory) (t : Trailer) (ref : Nat) : Nat :=
  if t.numObjects ≤ ref then maxOffset else entryAt m t ref

section Valid

variable {m : Memory} {t : Trailer} {α : Type} {R : α → Prop} (hv : t.Valid m)

include hv

/-- An integer that `_readInt` accepts ends before the offset table. -/
theorem readInt_safe {p : Nat} (hp : m.base ≤ p) :
    Read.Safe m.Inside (fun (_, next) => p ≤ next ∧ next ≤ m.base + t.offsetTableOffset)
      (readInt m p (ptr m t.objectsRangeEnd)) := by
  have h := hv.offsetTableOffset_lt
  have h9 := hv.offsetTableOffset_ge
  have hfits := m.fits
  rw [hv.ptr_objectsRangeEnd]
  simp only [readInt]
  refine Read.Safe.failIf_bind fun hend => ?_
  refine Read.Safe.bind (Memory.deref_safe (Q := fun _ => True) ⟨hp, by omega⟩ trivial) fun marker _ => ?_
  rw [addPtr_of_lt (by omega)]
  refine Read.Safe.failIf_bind fun _ => ?_
  have hcnt : 2 ^ lowNibble marker < 2 ^ 16 := Nat.pow_lt_pow_right (by omega) (lowNibble_lt marker)
  refine checkPtrAdd_safe (by omega) fun _ => Read.Safe.failIf_bind fun hextent => ?_
  have hsize : (UInt8.ofNat (2 ^ lowNibble marker)).toNat ≤ 2 ^ lowNibble marker := by
    rw [UInt8.toNat_ofNat']; exact Nat.mod_le _ _
  refine Read.Safe.bind (getSizedInt_safe (by omega) (by omega)) fun bigint _ => ?_
  exact Read.Safe.pure ⟨by omega, by omega⟩

theorem readCount_safe {marker : UInt8} {p : Nat} (hp : m.base ≤ p) (hu : p ≤ m.base + t.offsetTableOffset) :
    Read.Safe m.Inside (fun (cnt, next) => cnt ≤ longMax ∧ p ≤ next ∧ next ≤ m.base + t.offsetTableOffset)
      (readCount m t marker p) := by
  simp only [readCount]
  split
  · refine Read.Safe.bind (readInt_safe hv hp) fun read hnext => ?_
    obtain ⟨bigint, next⟩ := read
    exact Read.Safe.failIf_bind fun hmax => Read.Safe.pure ⟨by omega, hnext⟩
  · refine Read.Safe.pure ⟨?_, Nat.le_refl _, hu⟩
    have := lowNibble_lt marker
    simp only [longMax]; omega

theorem checkExtent_safe {p cnt : Nat} {f : Unit → Read α} (hp : m.base ≤ p) (hcnt : cnt < 2 ^ 64)
    (hf : p + cnt ≤ m.base + t.offsetTableOffset → Read.Safe m.Inside R (f ())) :
    Read.Safe m.Inside R (checkExtent m t p cnt >>= f) := by
  have hpos := m.base_pos
  simp only [checkExtent]
  refine Read.Safe.bind (Q := fun _ => p + cnt ≤ m.base + t.offsetTableOffset) ?_ fun _ h => hf h
  refine checkPtrAdd_safe hcnt fun _ => ?_
  rw [hv.ptr_objectsRangeEnd, ← Read.bind_pure (Read.failIf _)]
  exact Read.Safe.failIf_bind fun h => Read.Safe.pure (by omega)

/-- A reference that lies in the object table names an entry of the offset
table, so that the offset it gives is one of an object, or `UINT64_MAX`. -/
theorem getOffsetOfRefAt_safe {p : Nat} (hp : m.base ≤ p)
    (hu : p + t.objectRefSize.toNat ≤ m.base + t.offsetTableOffset) :
    Read.Safe m.Inside (fun off => off = maxOffset ∨ off < t.offsetTableOffset) (getOffsetOfRefAt m t p) := by
  have h := hv.offsetTableOffset_lt
  simp only [getOffsetOfRefAt]
  split
  · exact Read.Safe.pure (.inl rfl)
  · refine Read.Safe.bind (getSizedInt_safe hp (by omega)) fun ref _ => ?_
    split
    · exact Read.Safe.pure (.inl rfl)
    · rename_i href
      have hentry := hv.entry_le (Nat.lt_of_not_le href)
      rw [hv.addPtr_entry (Nat.lt_of_not_le href)]
      refine Read.Safe.mono (getSizedInt_safe (by omega) (by omega)) fun off hoff => .inr ?_
      rw [hoff]; exact hv.offsets_lt ref (Nat.lt_of_not_le href)

/-- The pointer test of `_getOffsetOfRefAt` rejects no reference of the object
table, so its result is given by the reference alone. -/
theorem getOffsetOfRefAt_result {p : Nat} (hp : m.base + 8 ≤ p)
    (hu : p + t.objectRefSize.toNat ≤ m.base + t.offsetTableOffset) :
    (getOffsetOfRefAt m t p).result = .ok (offsetOfRef m t (refAt m t p)) := by
  have h := hv.offsetTableOffset_lt
  have hsize := t.objectRefSize.toNat_lt
  have hfits := m.fits
  have hfirst : ¬(p < ptr m 8 ∨ subPtr (ptr m t.offsetTableOffset) t.objectRefSize.toNat < p) := by
    rw [ptr_eq (by omega), hv.ptr_offsetTableOffset, subPtr]
    omega
  simp only [getOffsetOfRefAt, if_neg hfirst, Read.bind_of_ok (getSizedInt_result ..)]
  rw [offsetOfRef, refAt]
  split
  · rfl
  · rename_i href
    rw [hv.addPtr_entry (Nat.lt_of_not_le href), getSizedInt_result, entryAt]

theorem offsetOfRef_lt {ref : Nat} (h : ref < t.numObjects) : offsetOfRef m t ref < t.offsetTableOffset := by
  rw [offsetOfRef, if_neg (Nat.not_le_of_lt h)]
  exact hv.offsets_lt ref h

/-! ## One object -/

theorem readIntObject_safe {marker : UInt8} {p : Nat} (hp : m.base ≤ p) :
    Read.Safe m.Inside (fun _ => True) (readIntObject m t marker p) := by
  have h := hv.offsetTableOffset_lt
  have hcnt : 2 ^ lowNibble marker < 2 ^ 16 := Nat.pow_lt_pow_right (by omega) (lowNibble_lt marker)
  have hsize : (UInt8.ofNat (2 ^ lowNibble marker)).toNat ≤ 2 ^ lowNibble marker := by
    rw [UInt8.toNat_ofNat']; exact Nat.mod_le _ _
  refine checkExtent_safe hv hp (by omega) fun hextent => Read.Safe.failIf_bind fun _ => ?_
  refine Read.Safe.bind (getSizedInt_safe hp (by omega)) fun bigint _ => ?_
  split <;> exact Read.Safe.pure trivial

/-- A value of `n` bytes at `p`. -/
theorem checkExtent_derefBytes_safe {p n : Nat} {f : List UInt8 → Read α} (hp : m.base ≤ p)
    (hn : n < 2 ^ 64) (hf : ∀ bytes, Read.Safe m.Inside R (f bytes)) :
    Read.Safe m.Inside R (do checkExtent m t p n; let bytes ← m.derefBytes p n; f bytes) := by
  have h := hv.offsetTableOffset_lt
  refine checkExtent_safe hv hp hn fun hextent => ?_
  exact Read.Safe.bind (Memory.derefBytes_safe (Q := fun _ => True) hp (by omega) trivial) fun bytes _ => hf bytes

theorem readReal_safe {marker : UInt8} {p : Nat} (hp : m.base ≤ p) :
    Read.Safe m.Inside (fun _ => True) (readReal m t marker p) := by
  simp only [readReal]
  split
  · exact checkExtent_derefBytes_safe hv hp (by omega) fun _ => Read.Safe.pure trivial
  · exact checkExtent_derefBytes_safe hv hp (by omega) fun _ => Read.Safe.pure trivial
  · exact Read.Safe.fail

theorem readDate_safe {marker : UInt8} {p : Nat} (hp : m.base ≤ p) :
    Read.Safe m.Inside (fun _ => True) (readDate m t marker p) :=
  Read.Safe.failIf_bind fun _ =>
    checkExtent_derefBytes_safe hv hp (by omega) fun _ => Read.Safe.pure trivial

theorem readData_safe {marker : UInt8} {p : Nat} (hp : m.base ≤ p) (hu : p ≤ m.base + t.offsetTableOffset) :
    Read.Safe m.Inside (fun _ => True) (readData m t marker p) := by
  refine Read.Safe.bind (readCount_safe hv hp hu) fun ⟨cnt, next⟩ ⟨hcnt, hnext, _⟩ => ?_
  simp only [longMax] at hcnt
  exact checkExtent_derefBytes_safe hv (by omega) (by omega) fun _ => Read.Safe.pure trivial

theorem readASCIIString_safe {marker : UInt8} {p : Nat} (hp : m.base ≤ p)
    (hu : p ≤ m.base + t.offsetTableOffset) :
    Read.Safe m.Inside (fun _ => True) (readASCIIString m t marker p) := by
  refine Read.Safe.bind (readCount_safe hv hp hu) fun ⟨cnt, next⟩ ⟨hcnt, hnext, _⟩ => ?_
  simp only [longMax] at hcnt
  exact checkExtent_derefBytes_safe hv (by omega) (by omega) fun _ => Read.Safe.pure trivial

theorem readUnicode16String_safe {marker : UInt8} {p : Nat} (hp : m.base ≤ p)
    (hu : p ≤ m.base + t.offsetTableOffset) :
    Read.Safe m.Inside (fun _ => True) (readUnicode16String m t marker p) := by
  have h := hv.offsetTableOffset_lt
  have h9 := hv.offsetTableOffset_ge
  have hpos := m.base_pos
  refine Read.Safe.bind (readCount_safe hv hp hu) fun ⟨cnt, next⟩ ⟨hcnt, hnext, _⟩ => ?_
  simp only [longMax] at hcnt
  refine checkPtrAdd_safe (by omega) fun _ => checkPtrAdd_safe (by omega) fun _ => ?_
  rw [hv.ptr_objectsRangeEnd]
  refine Read.Safe.failIf_bind fun hextent => checkMul_safe fun _ => Read.Safe.failIf_bind fun hbyteCnt => ?_
  refine Read.Safe.bind (Memory.derefBytes_safe (Q := fun _ => True) (by omega) (by omega) trivial) fun bytes _ => ?_
  exact Read.Safe.pure trivial

theorem readUID_safe {marker : UInt8} {p : Nat} (hp : m.base ≤ p) :
    Read.Safe m.Inside (fun _ => True) (readUID m t marker p) := by
  have h := hv.offsetTableOffset_lt
  have hcnt := lowNibble_lt marker
  have hsize : (UInt8.ofNat (lowNibble marker + 1)).toNat ≤ lowNibble marker + 1 := by
    rw [UInt8.toNat_ofNat']; exact Nat.mod_le _ _
  refine checkExtent_safe hv hp (by omega) fun hextent => ?_
  refine Read.Safe.bind (getSizedInt_safe hp (by omega)) fun bigint _ => ?_
  exact Read.Safe.failIf_bind fun _ => Read.Safe.pure trivial

/-- The references of a container lie in the object table. -/
def Node.InTable (m : Memory) (t : Trailer) : Node → Prop
  | .primitive _ => True
  | .container _ count refs =>
    m.base + 8 ≤ refs ∧ refs + count * t.objectRefSize.toNat ≤ m.base + t.offsetTableOffset

theorem readContainer_safe {kind : Kind} {marker : UInt8} {p : Nat} (hp : m.base + 8 ≤ p)
    (hu : p ≤ m.base + t.offsetTableOffset) :
    Read.Safe m.Inside (Node.InTable m t) (readContainer m t kind marker p) := by
  refine Read.Safe.bind (readCount_safe hv (by omega) hu) fun ⟨cnt, next⟩ ⟨_, hnext, _⟩ => ?_
  refine Read.Safe.bind (Q := fun _ => True) ?_ fun cnt _ => ?_
  · simp only [refCount]
    split
    · rw [← Read.bind_pure (checkMul cnt 2)]
      exact checkMul_safe fun _ => Read.Safe.pure trivial
    · exact Read.Safe.pure trivial
  · refine checkMul_safe fun hmul => checkExtent_safe hv (by omega) hmul fun hextent => ?_
    exact checkMul_safe fun _ => Read.Safe.pure ⟨by omega, hextent⟩

/-- Reading one object whose offset is in the object table. -/
theorem readObject_safe {startOffset : Nat} (h8 : 8 ≤ startOffset) (hs : startOffset ≤ t.objectsRangeEnd) :
    Read.Safe m.Inside (Node.InTable m t) (readObject m t startOffset) := by
  have h := hv.offsetTableOffset_lt
  have h9 := hv.offsetTableOffset_ge
  have hfits := m.fits
  simp only [Trailer.objectsRangeEnd] at hs
  have hp : m.base ≤ m.base + startOffset + 1 := by omega
  have hp8 : m.base + 8 ≤ m.base + startOffset + 1 := by omega
  have hu : m.base + startOffset + 1 ≤ m.base + t.offsetTableOffset := by omega
  have leaf : ∀ {x : Read Primitive}, Read.Safe m.Inside (fun _ => True) x →
      Read.Safe m.Inside (Node.InTable m t) (Node.primitive <$> x) :=
    fun hx => Read.Safe.bind hx fun _ _ => Read.Safe.pure trivial
  simp only [readObject]
  rw [ptr_eq (by omega)]
  refine Read.Safe.bind (Memory.deref_safe (Q := fun _ => True) ⟨by omega, by omega⟩ trivial) fun marker _ => ?_
  refine .ite ?_ <| checkPtrAdd_safe (by omega) fun _ => ?_
  · exact .ite (.pure trivial) (.ite (.pure trivial) (.ite (.pure trivial) .fail))
  · exact .ite (leaf (readIntObject_safe hv hp)) <| .ite (leaf (readReal_safe hv hp)) <|
      .ite (leaf (readDate_safe hv hp)) <| .ite (leaf (readData_safe hv hp hu)) <|
      .ite (leaf (readASCIIString_safe hv hp hu)) <| .ite (leaf (readUnicode16String_safe hv hp hu)) <|
      .ite (leaf (readUID_safe hv hp)) <| .ite (readContainer_safe hv hp8 hu) <|
      .ite (readContainer_safe hv hp8 hu) <| .ite (readContainer_safe hv hp8 hu) .fail

/-! ## All objects -/

/-- The loop over references that lie in the object table. -/
theorem readRefs_safe {decode : Nat → Decoder → Read (CFTypeRef × Decoder)}
    (hdecode : ∀ off d, Read.Safe m.Inside (fun _ => True) (decode off d)) :
    ∀ {count keys p : Nat} {d : Decoder}, m.base ≤ p →
      p + count * t.objectRefSize.toNat ≤ m.base + t.offsetTableOffset →
      Read.Safe m.Inside (fun _ => True) (readRefs m t decode count keys p d) := by
  intro count
  induction count with
  | zero => exact fun _ _ => Read.Safe.pure trivial
  | succ count ih =>
    intro keys p d hp hu
    have h := hv.offsetTableOffset_lt
    have hfits := m.fits
    rw [Nat.add_mul, Nat.one_mul] at hu
    simp only [readRefs]
    refine Read.Safe.bind (getOffsetOfRefAt_safe hv hp (by omega)) fun off _ => ?_
    refine Read.Safe.bind (hdecode off d) fun ⟨pl, d⟩ _ => Read.Safe.failIf_bind fun _ => ?_
    rw [addPtr_of_lt (by omega)]
    exact Read.Safe.bind (ih (by omega) (by omega)) fun _ _ => Read.Safe.pure trivial

/-- `__CFBinaryPlistCreateObject2` stays inside the block at every level, by
induction on the recursion budget. -/
theorem createObject2_safe {option : Mutability} {fuel startOffset : Nat} {set : Option (List Nat)}
    {curDepth : Int} {d : Decoder} :
    Read.Safe m.Inside (fun _ => True) (createObject2 m t option fuel startOffset set curDepth d) := by
  induction fuel generalizing startOffset set curDepth d with
  | zero => exact Read.Safe.outOfFuel
  | succ fuel ih =>
    simp only [createObject2]
    split
    · exact Read.Safe.pure trivial
    · refine Read.Safe.failIf_bind fun _ => Read.Safe.failIf_bind fun hrange => ?_
      refine Read.Safe.bind (readObject_safe hv (by omega) (by omega)) fun node hnode => ?_
      cases node with
      | primitive value => exact Read.Safe.pure trivial
      | container kind count refs =>
        exact Read.Safe.bind (readRefs_safe hv (fun _ _ => ih) (by have := hnode.1; omega) hnode.2) fun _ _ =>
          Read.Safe.pure trivial

end Valid

/-- Every byte that `__CFTryParseBinaryPlist` reads is one of its data's. -/
theorem tryParseBinaryPlist_inside (m : Memory) (option : Mutability) :
    ∀ a ∈ (tryParseBinaryPlist m option).touched, m.Inside a := by
  refine (Read.Safe.failIf_bind (R := fun _ => True) fun _ => ?_).1
  refine Read.Safe.bind (getTopLevelInfo_safe m) fun ⟨marker, offset, t⟩ ⟨hv, _⟩ => ?_
  have hrun : Read.Safe m.Inside (fun _ => True)
      (createObject2 m t option (decodeFuel t 0) offset none 0 (Decoder.start true)) := createObject2_safe hv
  refine ⟨?_, fun _ _ => trivial⟩
  dsimp only
  split <;> exact hrun.1

/-- A list that is an empty array. -/
def emptyArray : Memory where
  base := 4096
  bytes := magic ++ [0x30, 0xa0, 8] ++ [0, 0, 0, 0, 0, 0, 1, 1] ++ beBytes 8 1 ++ beBytes 8 0 ++ beBytes 8 9
  beyond _ := 0
  base_pos := by decide
  length_lt := by decide
  fits := by decide

/-- The marker of the array is read. -/
theorem tryParseBinaryPlist_inside_emptyArray :
    4104 ∈ (tryParseBinaryPlist emptyArray .immutable).touched ∧ emptyArray.Inside 4104 :=
  have h : 4104 ∈ (tryParseBinaryPlist emptyArray .immutable).touched := by decide +kernel
  ⟨h, tryParseBinaryPlist_inside emptyArray .immutable 4104 h⟩

end CFLite.BinaryPlist
