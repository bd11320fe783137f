import CFLite.BinaryPlist.Writer

/-!
# The bytes that are written

What `__CFBinaryPlistWrite` puts out, without the buffer it writes through:
the header, the encodings of the objects one after the other, the offset table
and the trailer.

* `Appended buf buf' bytes`: writing appended `bytes`, whatever was flushed
  on the way; `bufferWrite_appended` and one lemma for each function that
  writes;
* `writeObjects_eq`: the objects and their offsets;
* `binaryPlistWrite_eq`: the whole output, and the returned length.
-/

namespace CFLite.BinaryPlist

open CFLite.Framework

namespace WriteBuffer

/-- Everything written so far, flushed or not. -/
def contents (buf : WriteBuffer) : List UInt8 := buf.stream ++ buf.buffer

/-- `buf'` is `buf` with `bytes` written to it. -/
structure Appended (buf buf' : WriteBuffer) (bytes : List UInt8) : Prop where
  contents_eq : buf'.contents = buf.contents ++ bytes
  position_eq : buf'.position = buf.position + bytes.length

theorem Appended.refl (buf : WriteBuffer) : Appended buf buf [] := ⟨by simp, by simp⟩

theorem Appended.trans {a b c : WriteBuffer} {xs ys : List UInt8} (h₁ : Appended a b xs) (h₂ : Appended b c ys) :
    Appended a c (xs ++ ys) :=
  ⟨by rw [h₂.contents_eq, h₁.contents_eq, List.append_assoc],
    by rw [h₂.position_eq, h₁.position_eq, List.length_append, Nat.add_assoc]⟩

theorem writeBytes_eq (buf : WriteBuffer) (bytes : List UInt8) :
    buf.writeBytes bytes = { buf with stream := buf.stream ++ bytes, written := buf.written + bytes.length } := by
  simp only [writeBytes]
  split
  · rename_i h; simp [List.length_eq_zero_iff.mp h]
  · rfl

theorem bufferFlush_appended (buf : WriteBuffer) : Appended buf buf.bufferFlush [] := by
  constructor <;> simp [bufferFlush, writeBytes_eq, contents, position]

@[simp] theorem bufferFlush_buffer (buf : WriteBuffer) : buf.bufferFlush.buffer = [] := rfl

theorem bufferWrite_appended (buf : WriteBuffer) (bytes : List UInt8) :
    Appended buf (buf.bufferWrite bytes) bytes := by
  simp only [bufferWrite]
  split
  · rename_i h
    rw [List.length_eq_zero_iff.mp h]
    exact Appended.refl buf
  · split
    · -- too long for the buffer: flushed, and written directly
      refine (bufferFlush_appended buf).trans ⟨?_, ?_⟩
      · simp [writeBytes_eq, contents]
      · simp [writeBytes_eq, position]
    · split
      · -- the buffer is full: what does not fit starts the next one
        rename_i hfull
        constructor
        · simp [writeBytes_eq, contents]
        · rw [List.length_append, List.length_take] at hfull
          simp only [writeBytes_eq, position, List.length_append, List.length_take, List.length_drop]
          omega
      · rename_i hfull
        have hlt := buf.used_lt
        rw [List.length_append, List.length_take] at hfull
        have hlen : min bytes.length (bufferSize - buf.buffer.length) = bytes.length := by omega
        constructor
        · simp only [contents, hlen, List.take_length, List.append_assoc]
        · simp only [position, hlen, List.take_length, List.length_append, Nat.add_assoc]

@[simp] theorem start_contents (stream : List UInt8) : (start stream).contents = stream := by
  simp [start, contents]

@[simp] theorem start_position (stream : List UInt8) : (start stream).position = 0 := rfl

/-- Two writes of one object. -/
theorem bufferWrite_bufferWrite_appended (buf : WriteBuffer) (xs ys : List UInt8) :
    Appended buf ((buf.bufferWrite xs).bufferWrite ys) (xs ++ ys) :=
  (bufferWrite_appended buf xs).trans (bufferWrite_appended _ ys)

end WriteBuffer

open WriteBuffer

/-! ## The encoding of an object -/

/-- The bytes of an integer: a marker with the size, and the size's last
bytes. -/
def encodeInt (bigint : Nat) : List UInt8 :=
  if bigint ≤ 0xff then markerInt :: beBytes 1 bigint
  else if bigint ≤ 0xffff then 0x11 :: beBytes 2 bigint
  else if bigint ≤ 0xffffffff then 0x12 :: beBytes 4 bigint
  else 0x13 :: beBytes 8 bigint

def encodeUID (uid : UInt32) : List UInt8 :=
  if uid.toNat ≤ 0xff then markerUID :: beBytes 1 uid.toNat
  else if uid.toNat ≤ 0xffff then 0x81 :: beBytes 2 uid.toNat
  else 0x83 :: beBytes 4 uid.toNat

def encodeCount (marker : UInt8) (count : Nat) : List UInt8 :=
  if count < 15 then [marker ||| UInt8.ofNat count] else (marker ||| 0xf) :: encodeInt count

def encodeString (chars : List UInt16) : List UInt8 :=
  match asciiBytes chars with
  | some bytes => encodeCount markerASCIIString bytes.length ++ bytes
  | none => encodeCount markerUnicode16String chars.length ++ bytesOfChars chars

def encodeNumber : CFNumber → List UInt8
  | .float32 bits _ => 0x22 :: beBytes 4 bits.toNat
  | .float64 bits _ => 0x23 :: beBytes 8 bits.toNat
  | .sint128 low => 0x14 :: (beBytes 8 0 ++ beBytes 8 low.toNat)
  | .sint64 value => encodeInt value.toUInt64.toNat

def encodeRef (stack : Vector UInt8 4) (objectRefSize refnum : Nat) : List UInt8 :=
  (stack.toList ++ beBytes 4 refnum).drop (8 - objectRefSize)

/-- The references of a container. -/
def encodeRefs (f : Flattened) (stack : Vector UInt8 4) (objectRefSize : Nat) (list : List CFTypeRef) : List UInt8 :=
  list.flatMap fun value => encodeRef stack objectRefSize ((f.lookup value).getD 0)

/-- The bytes of an object. -/
def encodeObject (f : Flattened) (stack : Vector UInt8 4) (objectRefSize : Nat) : CFTypeRef → List UInt8
  | .primitive _ (.string chars) => encodeString chars
  | .primitive _ (.number value) => encodeNumber value
  | .primitive _ (.uid value) => encodeUID value
  | .primitive _ (.boolean value) => [if value then markerTrue else markerFalse]
  | .primitive _ (.data bytes) => encodeCount markerData bytes.length ++ bytes
  | .primitive _ (.date time) => markerDate :: beBytes 8 time.toNat
  | .primitive _ .null => []
  | .container _ .dictionary list =>
    encodeCount markerDict (list.length / 2) ++ encodeRefs f stack objectRefSize list
  | .container _ .array list => encodeCount markerArray list.length ++ encodeRefs f stack objectRefSize list
  | .container _ .set _ => []

/-- A marker, and the last bytes of an integer. -/
theorem bufferWrite_marker_appended (buf : WriteBuffer) (marker : UInt8) (size : Nat) (hsize : size ≤ 8)
    (bigint : Nat) : Appended buf ((buf.bufferWrite [marker]).bufferWrite ((beBytes 8 bigint).drop (8 - size)))
      (marker :: beBytes size bigint) := by
  rw [drop_beBytes hsize]
  exact bufferWrite_bufferWrite_appended buf [marker] _

theorem appendInt_appended (buf : WriteBuffer) (bigint : Nat) :
    Appended buf (appendInt buf bigint) (encodeInt bigint) := by
  simp only [appendInt, encodeInt]
  split
  · exact bufferWrite_marker_appended buf _ 1 (by omega) bigint
  · split
    · exact bufferWrite_marker_appended buf _ 2 (by omega) bigint
    · split
      · exact bufferWrite_marker_appended buf _ 4 (by omega) bigint
      · exact bufferWrite_marker_appended buf _ 8 (by omega) bigint

theorem appendUID_appended (buf : WriteBuffer) (uid : UInt32) :
    Appended buf (appendUID buf uid) (encodeUID uid) := by
  have huid := uid.toNat_lt
  simp only [appendUID, encodeUID]
  split
  · exact bufferWrite_marker_appended buf _ 1 (by omega) uid.toNat
  · split
    · exact bufferWrite_marker_appended buf _ 2 (by omega) uid.toNat
    · rw [if_pos (by omega)]
      exact bufferWrite_marker_appended buf _ 4 (by omega) uid.toNat

theorem appendCount_appended (buf : WriteBuffer) (marker : UInt8) (count : Nat) :
    Appended buf (appendCount buf marker count) (encodeCount marker count) := by
  simp only [appendCount, encodeCount]
  by_cases h : count < 15
  · rw [if_pos h, if_pos h, if_neg (by omega)]
    exact bufferWrite_appended buf _
  · rw [if_neg h, if_neg h, if_pos (by omega)]
    exact (bufferWrite_appended buf _).trans (appendInt_appended _ count)

theorem appendString_appended (buf : WriteBuffer) (chars : List UInt16) :
    Appended buf (appendString buf chars) (encodeString chars) := by
  simp only [appendString, encodeString]
  cases asciiBytes chars with
  | some bytes => exact (appendCount_appended buf _ _).trans (bufferWrite_appended _ _)
  | none => exact (appendCount_appended buf _ _).trans (bufferWrite_appended _ _)

theorem appendNumber_appended (buf : WriteBuffer) (value : CFNumber) :
    Appended buf (appendNumber buf value) (encodeNumber value) := by
  cases value with
  | sint64 value => exact appendInt_appended buf _
  | sint128 low => exact bufferWrite_bufferWrite_appended buf [markerInt ||| 4] _
  | float32 bits finite => exact bufferWrite_bufferWrite_appended buf [markerReal ||| 2] _
  | float64 bits canonical => exact bufferWrite_bufferWrite_appended buf [markerReal ||| 3] _

theorem appendRefs_appended (f : Flattened) (stack : Vector UInt8 4) (objectRefSize : Nat) (list : List CFTypeRef)
    (buf : WriteBuffer) :
    Appended buf (appendRefs f stack objectRefSize list buf) (encodeRefs f stack objectRefSize list) := by
  induction list generalizing buf with
  | nil => exact Appended.refl buf
  | cons x list ih => exact (bufferWrite_appended buf _).trans (ih _)

/-- What is written for an object that can be written. -/
theorem writeObject_appended {f : Flattened} {stack : Vector UInt8 4} {objectRefSize : Nat} {buf buf' : WriteBuffer}
    {x : CFTypeRef} (h : writeObject f stack objectRefSize buf x = some buf') :
    Appended buf buf' (encodeObject f stack objectRefSize x) := by
  cases x with
  | primitive base value =>
    cases value <;> simp only [writeObject, Option.some.injEq, reduceCtorEq] at h <;> subst h
    · exact bufferWrite_appended buf _
    · exact appendNumber_appended buf _
    · exact bufferWrite_bufferWrite_appended buf [markerDate] _
    · exact (appendCount_appended buf _ _).trans (bufferWrite_appended _ _)
    · exact appendString_appended buf _
    · exact appendUID_appended buf _
  | container base kind list =>
    cases kind <;> simp only [writeObject, Option.some.injEq, reduceCtorEq] at h <;> subst h
    · exact (appendCount_appended buf _ _).trans (appendRefs_appended f stack objectRefSize list _)
    · exact (appendCount_appended buf _ _).trans (appendRefs_appended f stack objectRefSize list _)

/-! ## The objects and their offsets -/

/-- Whether an object's class is one that can be written. -/
def isWritable : CFTypeRef → Bool
  | .primitive _ value => value ≠ .null
  | .container _ kind _ => kind ≠ .set

theorem writeObject_isSome (f : Flattened) (stack : Vector UInt8 4) (objectRefSize : Nat) (buf : WriteBuffer)
    {x : CFTypeRef} (h : isWritable x = true) : ∃ buf', writeObject f stack objectRefSize buf x = some buf' := by
  cases x with
  | primitive base value =>
    cases value <;> first | exact ⟨_, rfl⟩ | simp [isWritable] at h
  | container base kind list =>
    cases kind <;> first | exact ⟨_, rfl⟩ | simp [isWritable] at h

/-- The positions at which pieces that are written one after the other
start. -/
def offsetsFrom : (position : Nat) → List (List UInt8) → List Nat
  | _, [] => []
  | position, piece :: pieces => position :: offsetsFrom (position + piece.length) pieces

@[simp] theorem length_offsetsFrom (position : Nat) (pieces : List (List UInt8)) :
    (offsetsFrom position pieces).length = pieces.length := by
  induction pieces generalizing position with
  | nil => rfl
  | cons piece pieces ih => simp only [offsetsFrom, List.length_cons, ih]

theorem getElem_offsetsFrom {position : Nat} {pieces : List (List UInt8)} {i : Nat} (hi : i < pieces.length)
    (hi' : i < (offsetsFrom position pieces).length) :
    (offsetsFrom position pieces)[i] = position + ((pieces.take i).flatten).length := by
  induction pieces generalizing position i with
  | nil => simp at hi
  | cons piece pieces ih =>
    cases i with
    | zero => simp [offsetsFrom]
    | succ i =>
      simp only [offsetsFrom, List.getElem_cons_succ, List.take_succ_cons, List.flatten_cons, List.length_append]
      rw [ih (by simpa using hi) (by simpa using hi), Nat.add_assoc]

theorem writeObjects_eq (f : Flattened) (stack : Vector UInt8 4) (objectRefSize : Nat) {objs : List CFTypeRef}
    (buf : WriteBuffer) (h : ∀ x ∈ objs, isWritable x = true) :
    ∃ buf', writeObjects f stack objectRefSize objs buf =
        (buf', some (offsetsFrom buf.position (objs.map (encodeObject f stack objectRefSize)))) ∧
      Appended buf buf' (objs.flatMap (encodeObject f stack objectRefSize)) := by
  induction objs generalizing buf with
  | nil => exact ⟨buf, rfl, Appended.refl buf⟩
  | cons x objs ih =>
    rw [List.forall_mem_cons] at h
    obtain ⟨buf₁, h₁⟩ := writeObject_isSome f stack objectRefSize buf h.1
    have happ := writeObject_appended h₁
    obtain ⟨buf₂, h₂, happ₂⟩ := ih buf₁ h.2
    refine ⟨buf₂, ?_, happ.trans happ₂⟩
    simp only [writeObjects, h₁, h₂, List.map_cons, offsetsFrom, happ.position_eq, Option.map_some]

/-! ## The whole output -/

/-- The offset table. -/
def encodeOffsets (offsetIntSize : Nat) (offsets : List Nat) : List UInt8 :=
  offsets.flatMap fun off => beBytes offsetIntSize off

theorem foldl_bufferWrite_appended {offsetIntSize : Nat} (hsize : offsetIntSize ≤ 8) (offsets : List Nat)
    (buf : WriteBuffer) :
    Appended buf (offsets.foldl (fun buf off => buf.bufferWrite ((beBytes 8 off).drop (8 - offsetIntSize))) buf)
      (encodeOffsets offsetIntSize offsets) := by
  induction offsets generalizing buf with
  | nil => exact Appended.refl buf
  | cons off offsets ih =>
    refine Appended.trans ?_ (ih _)
    dsimp only
    rw [drop_beBytes hsize]
    exact bufferWrite_appended buf _

theorem byteCount_le (count : Nat) : byteCount count ≤ 8 := by
  simp only [byteCount]
  split
  · omega
  · split
    · omega
    · split <;> omega

theorem length_encodeOffsets (offsetIntSize : Nat) (offsets : List Nat) :
    (encodeOffsets offsetIntSize offsets).length = offsets.length * offsetIntSize := by
  simp [encodeOffsets, List.length_flatMap, List.map_const']

theorem length_trailerBytes (offsetIntSize objectRefSize cnt offsetTableOffset : Nat) :
    (trailerBytes offsetIntSize objectRefSize cnt offsetTableOffset).length = trailerSize := by
  simp [trailerBytes, trailerSize]

theorem writeOffsets_eq {stream pre : List UInt8} {buf : WriteBuffer} (h : Appended (WriteBuffer.start stream) buf pre)
    (objectRefSize : Nat) (offsets : List Nat) :
    let bytes := pre ++ (encodeOffsets (byteCount pre.length) offsets ++
      trailerBytes (byteCount pre.length) objectRefSize offsets.length pre.length)
    writeOffsets buf objectRefSize offsets.length offsets = (stream ++ bytes, bytes.length) := by
  have hpos : buf.position = pre.length := by rw [h.position_eq, start_position, Nat.zero_add]
  have htable := foldl_bufferWrite_appended (byteCount_le pre.length) offsets buf
  have hall := ((h.trans htable).trans (bufferWrite_appended _
    (trailerBytes (byteCount pre.length) objectRefSize offsets.length pre.length))).trans (bufferFlush_appended _)
  have hstream := hall.contents_eq
  rw [WriteBuffer.contents, bufferFlush_buffer, List.append_nil, start_contents, List.append_nil,
    List.append_assoc] at hstream
  simp only [writeOffsets, hpos, hstream, Prod.mk.injEq, true_and]
  rw [List.length_append, List.length_append, length_encodeOffsets, length_trailerBytes, Nat.add_assoc]

/-- The pieces of the output of `__CFBinaryPlistWrite`. -/
structure Output where
  objectRefSize : Nat
  objects : List (List UInt8)

namespace Output

/-- The offset of the offset table. -/
def offsetTableOffset (o : Output) : Nat := 8 + o.objects.flatten.length

def offsetIntSize (o : Output) : Nat := byteCount o.offsetTableOffset

def offsets (o : Output) : List Nat := offsetsFrom 8 o.objects

def bytes (o : Output) : List UInt8 :=
  header ++ o.objects.flatten ++ (encodeOffsets o.offsetIntSize o.offsets ++
    trailerBytes o.offsetIntSize o.objectRefSize o.objects.length o.offsetTableOffset)

end Output

/-- What `__CFBinaryPlistWrite` puts out for flattened objects. -/
def outputOf (stack : Vector UInt8 4) (f : Flattened) : Output :=
  let objectRefSize := byteCount f.objlist.length
  ⟨objectRefSize, f.objlist.map (encodeObject f stack objectRefSize)⟩

/-- The output is appended to the data, and its length returned. -/
theorem binaryPlistWrite_eq {stack : Vector UInt8 4} {plist : CFTypeRef} (stream : List UInt8)
    (h : ∀ x ∈ (flatten plist ⟨[], [], []⟩).objlist, isWritable x = true) :
    let bytes := (outputOf stack (flatten plist ⟨[], [], []⟩)).bytes
    binaryPlistWrite stack plist stream = (stream ++ bytes, bytes.length) := by
  simp only [binaryPlistWrite]
  generalize flatten plist ⟨[], [], []⟩ = f at h
  have hstart := bufferWrite_appended (WriteBuffer.start stream) header
  obtain ⟨buf, hobjs, happ⟩ := writeObjects_eq f stack (byteCount f.objlist.length)
    ((WriteBuffer.start stream).bufferWrite header) h
  have hpos : ((WriteBuffer.start stream).bufferWrite header).position = 8 := hstart.position_eq
  have hpre : header ++ f.objlist.flatMap (encodeObject f stack (byteCount f.objlist.length)) =
      header ++ (outputOf stack f).objects.flatten := by rw [List.flatMap_def]; rfl
  have hlen : (header ++ (outputOf stack f).objects.flatten).length = (outputOf stack f).offsetTableOffset :=
    List.length_append
  have hcnt : (outputOf stack f).offsets.length = (outputOf stack f).objects.length := length_offsetsFrom _ _
  have hcnt' : f.objlist.length = (outputOf stack f).objects.length := (List.length_map _).symm
  have hwrite := writeOffsets_eq (hstart.trans happ) (outputOf stack f).objectRefSize (outputOf stack f).offsets
  rw [hpre] at hwrite
  simp only [hlen] at hwrite
  rw [hcnt] at hwrite
  rw [hobjs, hpos]
  change writeOffsets buf (outputOf stack f).objectRefSize f.objlist.length (outputOf stack f).offsets = _
  rw [hcnt', hwrite]
  rfl

end CFLite.BinaryPlist
