import Mathlib.Data.List.Find
import CFLite.BinaryPlist.Lookup
import CFLite.BinaryPlist.RoundTrip

/-!
# Lookup in what was written

What the lookups find in a list that `__CFBinaryPlistWrite` wrote, compared
with decoding the container. An array lookup always agrees. A dictionary
search ends at the first key that is the one looked for, or that leads it
astray:

* a stored ASCII key of the same length that is the last object of the table
  ends the search without an answer, since its end is where the offset table
  starts (`CutsOff`);
* a key without a form in MacRoman is compared by what the failed conversion
  left in the buffer, and that may be another key (`Misleads`), which then
  starts with a NUL (`Misleads.nul`).

`lookups_agree_iff`: the search agrees exactly when neither happens before it
comes to the key, or has no effect.
-/

namespace CFLite

namespace BinaryPlist

open CFLite.Framework

/-! ## The search on offsets -/

/-- The linear search, on the offsets of keys and values. -/
def findEntry {α : Type} (keyMatch : α → Except Stop Bool) : List α → Except Stop α
  | [] => .error .fail
  | e :: entries =>
    match keyMatch e with
    | .error stop => .error stop
    | .ok true => .ok e
    | .ok false => findEntry keyMatch entries

/-- Whether a comparison ends the search. -/
def endsSearch : Except Stop Bool → Bool
  | .ok false => false
  | _ => true

@[simp] theorem endsSearch_ok (found : Bool) : endsSearch (.ok found) = found := by
  cases found <;> rfl

@[simp] theorem endsSearch_error (stop : Stop) : endsSearch (.error stop) = true := rfl

theorem findEntry_eq_find? {α : Type} (keyMatch : α → Except Stop Bool) (entries : List α) :
    findEntry keyMatch entries =
      match entries.find? fun e => endsSearch (keyMatch e) with
      | none => .error .fail
      | some e => (keyMatch e).map fun _ => e := by
  induction entries with
  | nil => rfl
  | cons e entries ih =>
    rw [List.find?_cons, findEntry]
    cases h : keyMatch e with
    | error stop => simp [endsSearch, h, Except.map]
    | ok found => cases found <;> simp [endsSearch, h, ih, Except.map]

theorem findEntry_map {α β : Type} (f : α → β) (keyMatch : β → Except Stop Bool) (entries : List α) :
    findEntry keyMatch (entries.map f) = (findEntry (fun e => keyMatch (f e)) entries).map f := by
  induction entries with
  | nil => rfl
  | cons e entries ih =>
    rw [List.map_cons, findEntry, findEntry]
    cases keyMatch (f e) with
    | error stop => rfl
    | ok found => cases found <;> simp [ih, Except.map]

section Valid

variable {m : Memory} {t : Trailer} (hv : t.Valid m)

include hv

theorem searchKeys_result {key : CFTypeRef} {macRoman : MacRoman} {totalKeySize : Nat} {count p : Nat}
    (hp : m.base + 8 ≤ p) (hu : p + count * t.objectRefSize.toNat + totalKeySize ≤ m.base + t.offsetTableOffset)
    (hkeys : count * t.objectRefSize.toNat ≤ totalKeySize) :
    (searchKeys m t key macRoman totalKeySize count p).result =
      findEntry (fun e : Nat × Nat => (keyMatches m t key macRoman e.1).result)
        ((childOffsets m t count p).zip (childOffsets m t count (p + totalKeySize))) := by
  have h := hv.offsetTableOffset_lt
  have hfits := m.fits
  induction count generalizing p with
  | zero => rfl
  | succ count ih =>
    rw [Nat.add_mul, Nat.one_mul] at hu hkeys
    have hoff := getOffsetOfRefAt_result hv hp (by omega)
    have hvoff := getOffsetOfRefAt_result hv (p := p + totalKeySize) (by omega) (by omega)
    rw [searchKeys, childOffsets, childOffsets, List.zip_cons_cons, findEntry, Read.bind_result, hoff]
    simp only [Except.bind, Read.bind_result]
    cases (keyMatches m t key macRoman (offsetOfRef m t (refAt m t p))).result with
    | error e => rfl
    | ok found =>
      cases found with
      | true =>
        dsimp only
        rw [if_pos rfl, addPtr_of_lt (by omega), Read.bind_result, hvoff]
        rfl
      | false =>
        have := t.objectRefSize.toNat_lt
        dsimp only
        rw [if_neg (by decide), addPtr_of_lt (by omega), ih (by omega) (by omega) (by omega), Nat.add_right_comm]

/-! ## Written containers -/

/-- The entries of a written dictionary. -/
theorem readDictionary_result {off cnt : Nat} {bytes : List UInt8} (hin : InTable t off) (hcnt : cnt ≤ longMax)
    (hbytes : bytes.length = cnt * 2 * t.objectRefSize.toNat)
    (h : m.HoldsAt off (encodeCount markerDict cnt ++ bytes))
    (hu : off + (encodeCount markerDict cnt ++ bytes).length ≤ t.offsetTableOffset) :
    (readDictionary m t off).result = .ok (cnt, m.base + (off + (encodeCount markerDict cnt).length)) := by
  have hofs := hv.offsetTableOffset_lt
  have hfits := m.fits
  obtain ⟨p, hhigh, hread, -, hp, hend, hpeq⟩ := holdsAt_count hv (by decide) hcnt h hu
  have hlow := hin.1
  have hhigh' := hin.2
  simp only [Trailer.objectsRangeEnd] at hhigh'
  simp only [longMax] at hcnt
  rw [hbytes] at hend
  rw [readDictionary, Read.failIf_of_not (by simp only [Trailer.objectsRangeEnd]; omega), Read.pure_bind, ptr_eq (by omega),
    Read.bind_of_ok (Memory.deref_result ..)]
  dsimp only
  rw [Read.failIf_of_not (by simp [hhigh]), Read.pure_bind, checkPtrAdd_of_lt (by omega), Read.pure_bind,
    Read.bind_result, hread]
  simp only [Except.bind]
  rw [checkMul_of_lt (by omega), Read.pure_bind, checkMul_of_lt (by omega), Read.pure_bind,
    checkExtent_of_le hv (by omega) hend, Read.pure_bind, hpeq, Nat.add_assoc]
  rfl

/-- The array lookup in a written array. -/
theorem getOffsetForValueFromArray2_result {off cnt : Nat} {bytes : List UInt8} {idx : Int64} (hin : InTable t off)
    (hcnt : cnt ≤ longMax) (hbytes : bytes.length = cnt * t.objectRefSize.toNat)
    (h : m.HoldsAt off (encodeCount markerArray cnt ++ bytes))
    (hu : off + (encodeCount markerArray cnt ++ bytes).length ≤ t.offsetTableOffset) :
    (getOffsetForValueFromArray2 m t off idx).result =
      if idx.toUInt64.toNat < cnt then
        .ok (offsetOfRef m t (refAt m t (m.base + (off + (encodeCount markerArray cnt).length) +
          idx.toUInt64.toNat * t.objectRefSize.toNat)))
      else .error .fail := by
  have hofs := hv.offsetTableOffset_lt
  have hfits := m.fits
  obtain ⟨p, hhigh, hread, -, hp, hend, hpeq⟩ := holdsAt_count hv (by decide) hcnt h hu
  have hlow := hin.1
  have hhigh' := hin.2
  simp only [Trailer.objectsRangeEnd] at hhigh'
  simp only [longMax] at hcnt
  rw [hbytes] at hend
  rw [getOffsetForValueFromArray2, Read.failIf_of_not (by simp only [Trailer.objectsRangeEnd]; omega), Read.pure_bind,
    ptr_eq (by omega), Read.bind_of_ok (Memory.deref_result ..)]
  dsimp only
  rw [Read.failIf_of_not (by simp [hhigh]), Read.pure_bind, checkPtrAdd_of_lt (by omega), Read.pure_bind,
    Read.bind_result, hread]
  simp only [Except.bind]
  split
  · rename_i hidx
    have hlast : (idx.toUInt64.toNat + 1) * t.objectRefSize.toNat ≤ cnt * t.objectRefSize.toNat :=
      Nat.mul_le_mul_right _ hidx
    rw [Nat.add_mul, Nat.one_mul] at hlast
    rw [Read.failIf_of_not (by omega), Read.pure_bind, checkMul_of_lt (by omega), Read.pure_bind,
      checkExtent_of_le hv (by omega) hend, Read.pure_bind, addPtr_of_lt (by omega),
      getOffsetOfRefAt_result hv (by omega) (by omega), hpeq, ← Nat.add_assoc]
  · rename_i hidx
    rw [Read.failIf_of (by omega), Read.fail_bind]
    rfl

/-! ## One stored key -/

/-- A decoded key that is a string. -/
theorem matchesDecodedKey_result {off : Nat} {chars : List UInt16} (k : List UInt16) (base : CFRuntimeBase)
    (hu : Unfolds m t off (.primitive () (.string chars))) :
    (matchesDecodedKey m t (.primitive base (.string k)) off).result = .ok (k == chars) := by
  obtain ⟨x, d, hx, hprim, herase⟩ := createObject2_of_unfolds hv .immutable
    (d := Decoder.after (.primitive base (.string k))) hu (by intro off x h; simp [Decoder.after, Decoder.lookup] at h)
  have herase := herase (PList.keyedByValue_primitive _ _)
  rw [PList.collect_primitive] at herase
  rw [matchesDecodedKey, Read.bind_result, hx]
  simp only [Except.bind]
  rw [Read.failIf_of_not (by rw [hprim]; exact not_not.mpr rfl), Read.pure_bind, Read.pure_result,
    CFEqual_eq_cfEqual x (by simp [Primitive.byValue, Primitive.cfEqual]), herase]
  simp [PList.cfEqual, Primitive.cfEqual]

omit hv in
/-- What the comparison of a key with a stored key comes to, where `last` says
that the stored key ends where the offset table starts. -/
def keyOutcome (macRoman : MacRoman) (k stored : List UInt16) (last : Bool) : Except Stop Bool :=
  match keyBufferPtr macRoman k.length, asciiBytes stored with
  | some keyBytes, some bytes =>
    if bytes.length = k.length then
      if last then .error .fail else .ok (bytes == (List.range k.length).map keyBytes)
    else .ok false
  | _, _ => .ok (k == writtenChars stored)

/-- The length and the address of the bytes of a stored ASCII key, as far as
they matter for a key of `stringKeyLen` characters. -/
theorem readASCIIKey_result {off : Nat} (stringKeyLen : Nat) {bytes : List UInt8}
    (h : m.HoldsAt off (encodeCount markerASCIIString bytes.length ++ bytes))
    (hu : off + (encodeCount markerASCIIString bytes.length ++ bytes).length ≤ t.offsetTableOffset) :
    ∃ len p, (readASCIIKey m t (m.byteAt (m.base + off)) stringKeyLen (m.base + off + 1)).result = .ok (len, p) ∧
      (len = stringKeyLen ↔ bytes.length = stringKeyLen) ∧
      (bytes.length = stringKeyLen → m.readAt p bytes.length = bytes ∧
        p + bytes.length = m.base + off + (encodeCount markerASCIIString bytes.length ++ bytes).length) := by
  have hofs := hv.offsetTableOffset_lt
  have hlen := m.length_lt
  obtain ⟨p, hhigh, hread, hbytes, -, -, hpeq⟩ := holdsAt_count hv (by decide)
    (by simp only [longMax, List.length_append] at hu ⊢; omega) h hu
  simp only [readASCIIKey]
  split
  · refine ⟨bytes.length, p, hread, Iff.rfl, fun _ => ⟨hbytes, ?_⟩⟩
    rw [hpeq, List.length_append, Nat.add_assoc]
  · rename_i hshort
    refine ⟨_, _, rfl, ?_⟩
    have hhead := (Memory.holdsAt_append.mp h).1
    simp only [encodeCount] at hhead hpeq ⊢
    by_cases hcount : bytes.length < 15
    · rw [if_pos hcount] at hhead hpeq ⊢
      rw [(Memory.holdsAt_cons.mp hhead).1, (marker_or (by decide) bytes.length (by omega)).2]
      simp only [List.length_singleton] at hpeq
      refine ⟨Iff.rfl, fun _ => ⟨by rw [← hpeq]; exact hbytes, ?_⟩⟩
      simp only [List.cons_append, List.nil_append, List.length_cons]
      omega
    · rw [if_neg hcount] at hhead
      have hnibble : lowNibble (markerASCIIString ||| 0xf) = 15 := by decide
      rw [(Memory.holdsAt_cons.mp hhead).1, hnibble]
      exact ⟨by omega, by omega⟩

/-- The comparison with a stored key, which unfolds to the string that was
written. -/
theorem keyMatches_result {off : Nat} {stored k : List UInt16} {base : CFRuntimeBase} {macRoman : MacRoman}
    {last : Bool} (hin : InTable t off) (h : m.HoldsAt off (encodeString stored))
    (hu : off + (encodeString stored).length ≤ t.offsetTableOffset)
    (hlast : last = true ↔ off + (encodeString stored).length = t.offsetTableOffset) :
    (keyMatches m t (.primitive base (.string k)) macRoman off).result = keyOutcome macRoman k stored last := by
  have hofs := hv.offsetTableOffset_lt
  have hfits := m.fits
  have hbody := readBody_string hv h hu
  have hlt : off < t.offsetTableOffset := by
    have := hin.2; have := hv.offsetTableOffset_ge; simp only [Trailer.objectsRangeEnd] at *; omega
  have hdecoded := matchesDecodedKey_result hv k base
    (Unfolds.primitive hin (readObject_of_body hv hlt hbody))
  rw [keyMatches, ptr_eq (by omega), Read.bind_of_ok (Memory.deref_result ..)]
  simp only [quickKey, keyOutcome]
  cases keyBufferPtr macRoman k.length with
  | none => exact hdecoded
  | some keyBytes =>
    simp only [Option.map_some]
    simp only [encodeString] at h hu hlast
    cases hascii : asciiBytes stored with
    | none =>
      simp only [hascii] at h hu hlast ⊢
      obtain ⟨-, hhigh, -⟩ := holdsAt_count hv (by decide)
        (by have := m.length_lt; simp only [longMax, List.length_append, length_bytesOfChars] at hu ⊢; omega) h hu
      rw [hhigh, if_neg (by decide)]
      exact hdecoded
    | some bytes =>
      simp only [hascii] at h hu hlast ⊢
      obtain ⟨-, hhigh, -⟩ := holdsAt_count hv (by decide)
        (by have := m.length_lt; simp only [longMax, List.length_append] at hu ⊢; omega) h hu
      obtain ⟨len, p, hread, hlen, hbytes⟩ := readASCIIKey_result hv k.length h hu
      rw [hhigh, if_pos rfl, matchesASCIIKey, ptr_eq (by omega), checkPtrAdd_of_lt (by omega), Read.pure_bind,
        Read.bind_result, hread]
      simp only [Except.bind]
      by_cases heq : bytes.length = k.length
      · obtain ⟨hbytes, hend⟩ := hbytes heq
        rw [if_pos (hlen.mpr heq), if_pos heq, hlen.mpr heq, ← heq, checkPtrAdd_of_lt (by omega), Read.pure_bind,
          hv.ptr_offsetTableOffset, hend]
        cases last with
        | true =>
          have := hlast.mp rfl
          rw [Read.failIf_of (by omega), Read.fail_bind]
          rfl
        | false =>
          have := mt hlast.mpr (by decide)
          rw [Read.failIf_of_not (by omega), Read.pure_bind, Read.bind_of_ok (Memory.derefBytes_result ..), hbytes]
          rfl
      · rw [if_neg (fun h => heq (hlen.mp h)), if_neg heq]
        rfl

end Valid

/-! ## Indexes -/

theorem getElem_childOffsets (m : Memory) (t : Trailer) {count p i : Nat} (hi : i < count)
    (hi' : i < (childOffsets m t count p).length) :
    (childOffsets m t count p)[i] = offsetOfRef m t (refAt m t (p + i * t.objectRefSize.toNat)) := by
  induction count generalizing p i with
  | zero => omega
  | succ count ih =>
    cases i with
    | zero => simp [childOffsets]
    | succ i =>
      simp only [childOffsets, List.getElem_cons_succ]
      rw [ih (by omega) (by simp; omega), Nat.add_mul, Nat.one_mul, Nat.add_comm (i * _), Nat.add_assoc]

theorem toUInt64_toNat_of_nonneg {idx : Int64} (h : 0 ≤ idx.toInt) : idx.toUInt64.toNat = idx.toInt.toNat := by
  have hcond : idx.toInt = _ := BitVec.toInt_eq_toNat_cond idx.toBitVec
  have hnat : idx.toUInt64.toNat = idx.toBitVec.toNat := rfl
  have hlt := idx.toBitVec.isLt
  split at hcond <;> omega

/-- A negative index is a large one. -/
theorem toUInt64_toNat_of_neg {idx : Int64} (h : idx.toInt < 0) : 2 ^ 63 ≤ idx.toUInt64.toNat := by
  have hcond : idx.toInt = _ := BitVec.toInt_eq_toNat_cond idx.toBitVec
  have hnat : idx.toUInt64.toNat = idx.toBitVec.toNat := rfl
  split at hcond <;> omega

/-! ## Decoded containers -/

/-- The entries of a dictionary's references. -/
def entriesOf {α : Type} (list : List α) : List (α × α) :=
  (list.take (list.length / 2)).zip (list.drop (list.length / 2))

theorem entriesOf_map {α β : Type} (f : α → β) (list : List α) :
    entriesOf (list.map f) = (entriesOf list).map (Prod.map f f) := by
  rw [entriesOf, entriesOf, List.length_map, ← List.map_take, ← List.map_drop, List.zip_map]

theorem entriesOf_append {α : Type} (entries : List (α × α)) :
    entriesOf (entries.map Prod.fst ++ entries.map Prod.snd) = entries := by
  have hlen : (entries.map Prod.fst ++ entries.map Prod.snd).length / 2 = (entries.map Prod.fst).length := by
    simp; omega
  rw [entriesOf, hlen, List.take_left, List.drop_left, ← List.unzip_fst, ← List.unzip_snd, List.zip_unzip]

/-- The value of a string key in a dictionary. -/
def lookupKey (k : List UInt16) : PList → Option PList
  | .container _ .dictionary list =>
    ((entriesOf list).find? fun e => e.1 = .primitive () (.string k)).map Prod.snd
  | _ => none

/-- The value at an index of an array. -/
def element (idx : Int64) : PList → Option PList
  | .container _ .array list => if idx.toInt < 0 then none else list[idx.toInt.toNat]?
  | _ => none

/-- A value that is not added has an equal that was. -/
theorem find?_foldl_addValue {α : Type} {equal : α → α → Bool} {p : α → Bool}
    (h : ∀ x y, equal y x = true → p x = true → p y = true) (list values : List α) :
    (list.foldl (addValue equal) values).find? p = (values ++ list).find? p := by
  induction list generalizing values with
  | nil => simp
  | cons x list ih =>
    rw [List.foldl_cons, ih, addValue]
    split
    · rename_i hany
      obtain ⟨y, hy, hequal⟩ := List.any_eq_true.mp hany
      rw [List.find?_append, List.find?_append, List.find?_cons]
      cases hx : p x with
      | false => rfl
      | true =>
        obtain ⟨z, hz⟩ := Option.isSome_iff_exists.mp (List.find?_isSome.mpr ⟨y, hy, h x y hequal hx⟩)
        rw [hz]; rfl
    · rw [List.append_assoc]; rfl

theorem eq_string_of_cfEqual {x : PList} {k : List UInt16} (h : x.cfEqual (.primitive () (.string k)) = true) :
    x = .primitive () (.string k) := by
  cases x with
  | primitive base value =>
    cases value <;> simp [PList.cfEqual, Primitive.cfEqual] at h
    rw [h]
  | container base kind list => simp [PList.cfEqual, Object.equalBy] at h

theorem collect_eq_string_iff {x : PList} {k : List UInt16} :
    x.collect = .primitive () (.string k) ↔ x = .primitive () (.string k) := by
  cases x with
  | primitive base value => rw [PList.collect_primitive]
  | container base kind list => simp

/-- A key of a decoded dictionary has the value of its first entry in the
data. -/
theorem lookupKey_collect (base : Unit) (k : List UInt16) (list : List PList) :
    lookupKey k (PList.collect (.container base .dictionary list)) =
      ((entriesOf list).find? fun e => e.1 = .primitive () (.string k)).map fun e => e.2.collect := by
  rw [PList.collect_container, Kind.create, lookupKey, entriesOf_append, find?_foldl_addValue, List.nil_append]
  · change Option.map _ (List.find? _ (entriesOf (list.map PList.collect))) = _
    rw [entriesOf_map, List.find?_map, Option.map_map]
    congr 1
    refine congrArg (List.find? · (entriesOf list)) (funext fun e => ?_)
    simp only [Function.comp, Prod.map_fst, collect_eq_string_iff]
  · intro e e' hequal he
    have he : e.1 = .primitive () (.string k) := by simpa using he
    rw [he] at hequal
    simpa using eq_string_of_cfEqual hequal

/-! ## What leads the search astray -/

/-- What `CFStringGetCStringPtr` and `CFStringGetCString` do for a key in
MacRoman. The ASCII characters have their own bytes and the others have bytes
from `0x80` on, at or before their place, since combining marks may be joined
to their base. When a character has no form in MacRoman, the first byte of the
buffer is set to NUL, and the rest is left as it is. -/
structure MacRoman.Renders (macRoman : MacRoman) (k : List UInt16) : Prop where
  ascii : (∀ c ∈ k, c < 0x80) → ∀ keyBytes, keyBufferPtr macRoman k.length = some keyBytes →
    (List.range k.length).map keyBytes = k.map UInt16.toUInt8
  nonASCII : (∃ c ∈ k, 0x80 ≤ c) → ∀ keyBytes, keyBufferPtr macRoman k.length = some keyBytes →
    (∃ i < k.length, 0x80 ≤ keyBytes i) ∨ (k.length < 16 ∧ keyBytes 0 = 0)

/-- The stored key is compared byte by byte. -/
def comparesBytes (macRoman : MacRoman) (k stored : List UInt16) : Bool :=
  (keyBufferPtr macRoman k.length).isSome && (asciiBytes stored).isSome && stored.length = k.length

/-- The stored key, whose bytes are the last before the offset table, ends the
search. -/
def cutsOff (macRoman : MacRoman) (k stored : List UInt16) (last : Bool) : Bool :=
  comparesBytes macRoman k stored && last

/-- The stored key is another string with the bytes that the key is compared
by. -/
def misleads (macRoman : MacRoman) (k stored : List UInt16) : Bool :=
  match keyBufferPtr macRoman k.length, asciiBytes stored with
  | some keyBytes, some bytes => bytes = (List.range k.length).map keyBytes && writtenChars stored ≠ k
  | _, _ => false

theorem length_asciiBytes {chars : List UInt16} {bytes : List UInt8} (h : asciiBytes chars = some bytes) :
    bytes.length = chars.length := by
  rw [asciiBytes_eq] at h
  split at h <;> cases h
  rw [List.length_map]

theorem lt_of_mem_asciiBytes {chars : List UInt16} {bytes : List UInt8} (h : asciiBytes chars = some bytes) :
    ∀ b ∈ bytes, b < 0x80 := by
  rw [asciiBytes_eq] at h
  split at h <;> cases h
  rename_i hall
  intro b hb
  obtain ⟨c, hc, rfl⟩ := List.mem_map.mp hb
  have := List.all_eq_true.mp hall c hc
  split
  · decide
  · rename_i hsep
    have hlow := UInt16.lt_iff_toNat_lt.mp (by simpa [hsep] using this)
    rw [UInt8.lt_iff_toNat_lt]
    simp at hlow ⊢
    omega

/-- Only a key that has no form in MacRoman is misled, and only by a key that
starts with a NUL. -/
theorem misleads_nul {macRoman : MacRoman} {k stored : List UInt16} (hrenders : macRoman.Renders k)
    (h : misleads macRoman k stored = true) :
    (∃ c ∈ k, 0x80 ≤ c) ∧ k.length < 16 ∧ stored.length = k.length ∧ (writtenChars stored).head? = some 0 := by
  simp only [misleads] at h
  split at h
  · rename_i keyBytes bytes hkey hascii
    simp only [ne_eq, Bool.and_eq_true, decide_eq_true_eq] at h
    obtain ⟨hbytes, hne⟩ := h
    have hwritten : writtenChars stored = bytes.map UInt8.toUInt16 := by rw [writtenChars, hascii]
    have hlow := lt_of_mem_asciiBytes hascii
    have hlen : stored.length = k.length := by
      rw [← length_asciiBytes hascii, hbytes, List.length_map, List.length_range]
    have hhigh : ∃ c ∈ k, 0x80 ≤ c := by
      by_contra hall
      have hall : ∀ c ∈ k, c < 0x80 := fun c hc => by
        by_contra hge
        exact hall ⟨c, hc, UInt16.not_lt.mp hge⟩
      refine hne ?_
      rw [hwritten, hbytes, hrenders.ascii hall keyBytes hkey, List.map_map]
      conv_rhs => rw [← List.map_id k]
      exact List.map_congr_left fun c hc => toUInt16_toUInt8_of_lt (hall c hc)
    refine ⟨hhigh, ?_⟩
    rcases hrenders.nonASCII hhigh keyBytes hkey with ⟨i, hi, hbyte⟩ | ⟨hshort, hnul⟩
    · have := hlow (keyBytes i) (by rw [hbytes]; exact List.mem_map_of_mem (List.mem_range.mpr hi))
      exact absurd hbyte (UInt8.not_le.mpr this)
    · obtain ⟨c, hc, -⟩ := hhigh
      have hpos := List.length_pos_of_mem hc
      refine ⟨hshort, hlen, ?_⟩
      rw [hwritten, hbytes]
      obtain ⟨n, hn⟩ := Nat.exists_eq_succ_of_ne_zero (Nat.ne_of_gt hpos)
      simp [hn, List.range_succ_eq_map, hnul]
  · cases h

/-- The bytes of a key that is stored as ASCII are what it is compared by. -/
theorem renders_stored {macRoman : MacRoman} {stored : List UInt16} (hrenders : macRoman.Renders (writtenChars stored))
    {bytes : List UInt8} {keyBytes : Nat → UInt8} (hascii : asciiBytes stored = some bytes)
    (hkey : keyBufferPtr macRoman (writtenChars stored).length = some keyBytes) :
    (List.range (writtenChars stored).length).map keyBytes = bytes := by
  have hwritten : writtenChars stored = bytes.map UInt8.toUInt16 := by rw [writtenChars, hascii]
  have hlow : ∀ c ∈ writtenChars stored, c < 0x80 := by
    rw [hwritten, List.forall_mem_map]
    intro b hb
    have := UInt8.lt_iff_toNat_lt.mp (lt_of_mem_asciiBytes hascii b hb)
    rw [UInt16.lt_iff_toNat_lt]
    simpa using this
  rw [hrenders.ascii hlow keyBytes hkey, hwritten, List.map_map]
  conv_rhs => rw [← List.map_id bytes]
  exact List.map_congr_left fun b _ => by simp

/-- The search ends at a key that cuts it off or misleads it, and at the key
itself. -/
theorem endsSearch_keyOutcome {macRoman : MacRoman} {k : List UInt16} (hrenders : macRoman.Renders k)
    (stored : List UInt16) (last : Bool) :
    endsSearch (keyOutcome macRoman k stored last) =
      (cutsOff macRoman k stored last || misleads macRoman k stored || decide (writtenChars stored = k)) := by
  simp only [keyOutcome, cutsOff, comparesBytes, misleads]
  cases hkey : keyBufferPtr macRoman k.length with
  | none => simp [beq_eq_decide, eq_comm]
  | some keyBytes =>
    cases hascii : asciiBytes stored with
    | none => simp [beq_eq_decide, eq_comm]
    | some bytes =>
      have hlen := length_asciiBytes hascii
      have hwritten : writtenChars stored = bytes.map UInt8.toUInt16 := by rw [writtenChars, hascii]
      by_cases heq : bytes.length = k.length
      · cases last with
        | true => simp [heq, ← hlen]
        | false =>
          by_cases hbytes : bytes = (List.range k.length).map keyBytes
          · by_cases hk : writtenChars stored = k <;> simp [heq, ← hbytes, hk]
          · have hk : writtenChars stored ≠ k := by
              rintro rfl
              exact hbytes (renders_stored hrenders hascii hkey).symm
            simp [heq, hbytes, hk]
      · have hbytes : bytes ≠ (List.range k.length).map keyBytes := fun h => heq (by simp [h])
        have hk : writtenChars stored ≠ k := fun h => heq (by simp [← h, hwritten])
        simp [heq, ← hlen, hbytes, hk]

/-- A comparison ends the search without an answer only by cutting it off. -/
theorem keyOutcome_map {α : Type} (macRoman : MacRoman) (k stored : List UInt16) (last : Bool) (e : α) :
    (keyOutcome macRoman k stored last).map (fun _ => e) =
      if cutsOff macRoman k stored last then .error .fail else .ok e := by
  simp only [keyOutcome]
  split
  · rename_i keyBytes bytes hkey hascii
    have hlen := length_asciiBytes hascii
    by_cases heq : bytes.length = k.length
    · cases last <;> simp [cutsOff, comparesBytes, hkey, hascii, heq, ← hlen, Except.map]
    · simp [cutsOff, comparesBytes, hkey, hascii, heq, ← hlen, Except.map]
  · rename_i hnone
    have hcut : cutsOff macRoman k stored last = false := by
      simp only [cutsOff, comparesBytes]
      cases hkey : keyBufferPtr macRoman k.length with
      | none => rfl
      | some keyBytes =>
        cases hascii : asciiBytes stored with
        | none => simp
        | some bytes => exact absurd hascii (hnone keyBytes bytes hkey)
    rw [hcut]
    rfl

/-! ## Agreement -/

/-- The characters of a string. -/
def stringOf : CFTypeRef → List UInt16
  | .primitive _ (.string chars) => chars
  | _ => []

/-- The value that is decoded for an object that was written. -/
def decodedValue (x : CFTypeRef) : PList := PList.collect (x.erase.map writtenValue)

/-- Two results of looking something up are the same. -/
def sameResult : Option PList → Option PList → Bool
  | none, none => true
  | some x, some y => x.equal y
  | _, _ => false

theorem sameResult_none_iff (x : Option PList) : sameResult none x = true ↔ x = none := by
  cases x <;> simp [sameResult]

theorem sameResult_refl (x : Option PList) : sameResult x x = true := by
  cases x with
  | none => rfl
  | some x => exact PList.equal_refl x

theorem sameResult_some_iff (x : PList) (y : Option PList) :
    sameResult (some x) y = true ↔ ∃ y', y = some y' ∧ x.equal y' = true := by
  cases y <;> simp [sameResult]

/-- The value decoded at an offset. -/
def decode (m : Memory) (t : Trailer) (option : Mutability) (off : Nat) : Option PList :=
  match (createObject2 m t option (decodeFuel t 0) off none 0 (Decoder.start true)).result with
  | .ok (x, _) => some x.erase
  | .error _ => none

/-- The value decoded at the offset that a lookup finds. -/
def decodeFound (m : Memory) (t : Trailer) (option : Mutability) : Except Stop Nat → Option PList
  | .ok off => decode m t option off
  | .error _ => none

/-- The entry of a dictionary at which a search ends. -/
def endEntry (f : Flattened) (macRoman : MacRoman) (k : List UInt16) (list : List CFTypeRef) :
    Option (CFTypeRef × CFTypeRef) :=
  (entriesOf list).find? fun e =>
    cutsOff macRoman k (stringOf e.1) (f.lookup e.1 = some (f.objlist.length - 1)) ||
      misleads macRoman k (stringOf e.1) || decide (writtenChars (stringOf e.1) = k)

/-- The entry of a dictionary with a key. -/
def keyEntry (k : List UInt16) (list : List CFTypeRef) : Option (CFTypeRef × CFTypeRef) :=
  (entriesOf list).find? fun e => decide (writtenChars (stringOf e.1) = k)

/-- Where a search ends is the key, or makes no difference: it is cut off and
the key is not in the dictionary, or it is misled to a value equal to the
key's. -/
def SearchAgrees (f : Flattened) (macRoman : MacRoman) (k : List UInt16) (list : List CFTypeRef) : Prop :=
  ∀ e, endEntry f macRoman k list = some e →
    if cutsOff macRoman k (stringOf e.1) (f.lookup e.1 = some (f.objlist.length - 1)) then keyEntry k list = none
    else
      writtenChars (stringOf e.1) = k ∨
        ∃ e', keyEntry k list = some e' ∧ (decodedValue e.2).equal (decodedValue e'.2) = true

/-- Only the last object ends where the offset table starts. -/
theorem Written.offset_add_length_eq_iff {m : Memory} {o : Output} (hw : Written m o) {r : Nat}
    (hr : r < o.objects.length) : o.offset r + o.objects[r].length = o.offsetTableOffset ↔ r = o.objects.length - 1 := by
  constructor
  · intro h
    by_contra hne
    have hnext : r + 1 < o.objects.length := by omega
    have hsucc : o.offset (r + 1) = o.offset r + o.objects[r].length := by
      simp only [Output.offset, List.take_succ_eq_append_getElem hr, List.flatten_append, List.flatten_cons,
        List.flatten_nil, List.append_nil, List.length_append]
      omega
    have := hw.offset_lt hnext
    omega
  · intro h
    have htake : o.objects.take r ++ [o.objects[r]] = o.objects := by
      rw [← List.take_succ_eq_append_getElem hr, List.take_of_length_le (by omega)]
    have hflat := congrArg List.length (congrArg List.flatten htake)
    simp only [List.flatten_append, List.flatten_cons, List.flatten_nil, List.append_nil, List.length_append] at hflat
    simp only [Output.offset, Output.offsetTableOffset]
    omega

theorem findEntry_congr {α : Type} {f g : α → Except Stop Bool} {entries : List α} (h : ∀ e ∈ entries, f e = g e) :
    findEntry f entries = findEntry g entries := by
  induction entries with
  | nil => rfl
  | cons e entries ih =>
    rw [List.forall_mem_cons] at h
    rw [findEntry, findEntry, h.1, ih h.2]

/-- The first match of a test is the first of a stronger test that it
passes. -/
theorem find?_of_imp {α : Type} {p q : α → Bool} {l : List α} {e : α} (h : ∀ x, q x = true → p x = true)
    (hp : l.find? p = some e) (hq : q e = true) : l.find? q = some e := by
  obtain ⟨-, as, bs, rfl, has⟩ := List.find?_eq_some_iff_append.mp hp
  refine List.find?_eq_some_iff_append.mpr ⟨hq, as, bs, rfl, fun a ha => ?_⟩
  have hpa := has a ha
  cases hqa : q a with
  | false => rfl
  | true => simp [h a hqa] at hpa

section Written

variable {m : Memory} {f : Flattened} {stack : Vector UInt8 4} (hw : Written m (outputOf stack f))
  (hcnt : f.objlist.length < 2 ^ 32) (hf : f.Ok)
  (hall : ∀ x ∈ f.objlist, f.Closed x ∧ x.erase.isPropertyList = true)

include hw hcnt hf hall

/-- A listed object is decoded to its value as it was written. -/
theorem decode_object {x : CFTypeRef} {r : Nat} (hx : f.objlist[r]? = some x) (option : Mutability) :
    decode m (outputOf stack f).trailer option ((outputOf stack f).offset r) = some (decodedValue x) := by
  have hu := unfolds_object hw hcnt hf hall x hx
  obtain ⟨y, d, hy, -, herase⟩ := createObject2_of_unfolds hw.valid option hu (Decoder.sound_start true)
  rw [decode, hy]
  exact congrArg some (herase (keyedByValue_map (hall x (List.mem_of_getElem? hx)).2))

omit hw in
/-- What a listed container refers to is listed. -/
theorem exists_lookup_of_mem {base : CFRuntimeBase} {kind : Kind} {list : List CFTypeRef} {r : Nat}
    (hx : f.objlist[r]? = some (.container base kind list)) (hkind : kind ≠ .set) {y : CFTypeRef} (hy : y ∈ list) :
    ∃ r', f.lookup y = some r' ∧ f.objlist[r']? = some y := by
  have hrefs : writtenRefs (.container base kind list) = list := by cases kind <;> first | rfl | exact absurd rfl hkind
  obtain ⟨r', hr'⟩ := Option.isSome_iff_exists.mp ((hall _ (List.mem_of_getElem? hx)).1 y (by rwa [hrefs]))
  exact ⟨r', hr', hf.numbered (Nat.le_of_lt hcnt) y r' hr'⟩

omit hcnt hf hall in
/-- The comparison with a key that is listed. -/
theorem keyMatches_object {kbase base : CFRuntimeBase} {k chars : List UInt16} {macRoman : MacRoman} {r : Nat}
    (hr : f.lookup (.primitive base (.string chars)) = some r)
    (hx : f.objlist[r]? = some (.primitive base (.string chars))) :
    (keyMatches m (outputOf stack f).trailer (.primitive kbase (.string k)) macRoman
        ((outputOf stack f).offset r)).result =
      keyOutcome macRoman k chars (f.lookup (.primitive base (.string chars)) = some (f.objlist.length - 1)) := by
  obtain ⟨hin, hholds, hu⟩ := holdsAt_encodeObject hw hx
  have hlen : (outputOf stack f).objects.length = f.objlist.length := List.length_map _
  have hlt : r < (outputOf stack f).objects.length := by rw [hlen]; exact (List.getElem?_eq_some_iff.mp hx).1
  have hget : (outputOf stack f).objects[r] = encodeString chars := by
    simp only [outputOf, List.getElem_map, (List.getElem?_eq_some_iff.mp hx).2]
    rfl
  refine keyMatches_result hw.valid hin hholds hu ?_
  have hiff := hw.offset_add_length_eq_iff hlt
  rw [hget, hlen] at hiff
  rw [hr, decide_eq_true_eq, Option.some_inj, ← hiff]
  rfl

omit hw hcnt hf in
/-- The keys of a listed dictionary are strings. -/
theorem string_of_mem_entriesOf {base : CFRuntimeBase} {list : List CFTypeRef} {r : Nat}
    (hx : f.objlist[r]? = some (.container base .dictionary list)) {e : CFTypeRef × CFTypeRef}
    (he : e ∈ entriesOf list) :
    e.1 ∈ list ∧ e.2 ∈ list ∧ ∃ kbase chars, e.1 = .primitive kbase (.string chars) := by
  have hvalid := (hall _ (List.mem_of_getElem? hx)).2
  rw [Object.erase_container] at hvalid
  obtain ⟨-, -, -, hkeys, -⟩ := (PList.isPropertyList_dictionary _ _).mp hvalid
  rw [List.length_map] at hkeys
  obtain ⟨hkey, hvalue⟩ := List.of_mem_zip he
  obtain ⟨chars, hchars⟩ := hkeys e.1.erase (by rw [← List.map_take]; exact List.mem_map_of_mem hkey)
  refine ⟨List.mem_of_mem_take hkey, List.mem_of_mem_drop hvalue, ?_⟩
  cases h : e.1 with
  | container base kind list => simp [h] at hchars
  | primitive kbase value =>
    rw [h, Object.erase_primitive, Object.primitive.injEq] at hchars
    exact ⟨kbase, chars, by rw [hchars.2]⟩

/-- The search in a written dictionary, on its entries. -/
theorem getOffsetForValueFromDictionary3_result {base kbase : CFRuntimeBase} {list : List CFTypeRef} {r : Nat}
    (hx : f.objlist[r]? = some (.container base .dictionary list)) {k : List UInt16} {macRoman : MacRoman}
    (hrenders : macRoman.Renders k) :
    (getOffsetForValueFromDictionary3 m (outputOf stack f).trailer ((outputOf stack f).offset r)
        (.primitive kbase (.string k)) macRoman).result =
      match endEntry f macRoman k list with
      | none => .error .fail
      | some e =>
        if cutsOff macRoman k (stringOf e.1) (f.lookup e.1 = some (f.objlist.length - 1)) then .error .fail
        else .ok ((outputOf stack f).offset ((f.lookup e.1).getD 0), (outputOf stack f).offset ((f.lookup e.2).getD 0)) := by
  have hv := hw.valid
  have hsize := objectRefSize_le hcnt stack
  have hrefs := length_encodeRefs f stack (hw.objectRefSize_eq ▸ byteCount_le _)
  have hofs := hv.offsetTableOffset_lt
  obtain ⟨hin, hholds, hu⟩ := holdsAt_encodeObject hw hx
  have hvalid := (hall _ (List.mem_of_getElem? hx)).2
  rw [Object.erase_container] at hvalid
  obtain ⟨-, hpointers, heven, hkeys, -⟩ := (PList.isPropertyList_dictionary _ _).mp hvalid
  rw [List.length_map] at hpointers heven hkeys
  simp only [encodeObject] at hholds
  simp only [encodeObject, List.length_append, hrefs] at hu
  have hbytes := (Memory.holdsAt_append.mp hholds).2
  generalize hq : (outputOf stack f).offset r + (encodeCount markerDict (list.length / 2)).length = q at *
  generalize hn : list.length / 2 = n at *
  have hlist : list.length = n * 2 := by omega
  -- the keys' references, and then the values'
  have hsplit : encodeRefs f stack (outputOf stack f).objectRefSize list =
      encodeRefs f stack (outputOf stack f).objectRefSize (list.take n) ++
        encodeRefs f stack (outputOf stack f).objectRefSize (list.drop n) := by
    rw [encodeRefs, encodeRefs, encodeRefs, ← List.flatMap_append, List.take_append_drop]
  rw [hsplit] at hbytes
  obtain ⟨hkeyRefs, hvalueRefs⟩ := Memory.holdsAt_append.mp hbytes
  have hlisted := fun {y} => exists_lookup_of_mem hcnt hf hall hx (by decide) (y := y)
  have hinRange : ∀ y ∈ list, ∃ r, f.lookup y = some r ∧ r < f.objlist.length := fun y hy => by
    obtain ⟨r', hr', hget⟩ := hlisted hy
    exact ⟨r', hr', (List.getElem?_eq_some_iff.mp hget).1⟩
  have hkeyOffsets := childOffsets_encodeRefs hw hcnt (fun y hy => hinRange y (List.mem_of_mem_take hy)) hkeyRefs
  have hvalueOffsets := childOffsets_encodeRefs hw hcnt (fun y hy => hinRange y (List.mem_of_mem_drop hy)) hvalueRefs
  have htake : (list.take n).length = n := by simp; omega
  have hdrop : (list.drop n).length = n := by simp; omega
  rw [htake] at hkeyOffsets
  rw [hrefs, htake, hdrop, ← Nat.add_assoc] at hvalueOffsets
  rw [hlist, Nat.mul_two, Nat.add_mul] at hu
  have hdict := readDictionary_result hv hin (by simp only [longMax]; omega)
    (by rw [hw.objectRefSize_toNat, hrefs, hlist]) hholds
    (by rw [List.length_append, hrefs, hlist, Nat.mul_two, Nat.add_mul]; omega)
  rw [hq] at hdict
  rw [getOffsetForValueFromDictionary3, Read.failIf_of_not (by exact not_not.mpr rfl), Read.pure_bind, Read.bind_result,
    hdict]
  have hq8 := hin.1
  simp only [Except.bind]
  rw [searchKeys_result hv (by omega) (by rw [hw.objectRefSize_toNat]; omega) (Nat.le_refl _), hw.objectRefSize_toNat,
    hkeyOffsets, hvalueOffsets, List.zip_map]
  have hentries : (list.take n).zip (list.drop n) = entriesOf list := by rw [entriesOf, hn]
  rw [hentries, findEntry_map]
  rw [findEntry_congr (g := fun e => keyOutcome macRoman k (stringOf e.1)
    (f.lookup e.1 = some (f.objlist.length - 1))), findEntry_eq_find?]
  · simp only [endsSearch_keyOutcome hrenders, keyOutcome_map]
    rw [endEntry]
    generalize (entriesOf list).find? _ = found
    cases found with
    | none => rfl
    | some e =>
      dsimp only
      split <;> rfl
  · intro e he
    obtain ⟨hmem, -, base', chars, heq⟩ := string_of_mem_entriesOf hall hx he
    obtain ⟨r', hr', hget⟩ := hlisted hmem
    rw [heq] at hr' hget
    simp only [Prod.map_fst, heq, hr', Option.getD_some, stringOf]
    rw [keyMatches_object hw hr' hget, hr']

omit hw hcnt hf in
/-- The value of a key in a decoded dictionary. -/
theorem lookupKey_decodedValue {base : CFRuntimeBase} {list : List CFTypeRef} {r : Nat}
    (hx : f.objlist[r]? = some (.container base .dictionary list)) (k : List UInt16) :
    lookupKey k (decodedValue (.container base .dictionary list)) =
      (keyEntry k list).map fun e => decodedValue e.2 := by
  rw [decodedValue, Object.erase_container, Object.map_container, List.map_map, lookupKey_collect, entriesOf_map,
    List.find?_map, Option.map_map, keyEntry]
  congr 1
  refine List.find?_congr fun e he => ?_
  obtain ⟨-, -, base', chars, heq⟩ := string_of_mem_entriesOf hall hx he
  simp [heq, stringOf, writtenValue]

/-- The array lookup in a written array. -/
theorem getOffsetForValueFromArray2_object {base : CFRuntimeBase} {list : List CFTypeRef} {r : Nat}
    (hx : f.objlist[r]? = some (.container base .array list)) (idx : Int64) :
    (getOffsetForValueFromArray2 m (outputOf stack f).trailer ((outputOf stack f).offset r) idx).result =
      match if idx.toInt < 0 then none else list[idx.toInt.toNat]? with
      | none => .error .fail
      | some y => .ok ((outputOf stack f).offset ((f.lookup y).getD 0)) := by
  have hv := hw.valid
  have hrefs := length_encodeRefs f stack (hw.objectRefSize_eq ▸ byteCount_le _)
  obtain ⟨hin, hholds, hu⟩ := holdsAt_encodeObject hw hx
  have hvalid := (hall _ (List.mem_of_getElem? hx)).2
  rw [Object.erase_container] at hvalid
  have hpointers := ((PList.isPropertyList_array _ _).mp hvalid).2
  rw [List.length_map] at hpointers
  simp only [encodeObject] at hholds hu
  have hbytes := (Memory.holdsAt_append.mp hholds).2
  have hinRange : ∀ y ∈ list, ∃ r, f.lookup y = some r ∧ r < f.objlist.length := fun y hy => by
    obtain ⟨r', hr', hget⟩ := exists_lookup_of_mem hcnt hf hall hx (by decide) hy
    exact ⟨r', hr', (List.getElem?_eq_some_iff.mp hget).1⟩
  have hoffsets := childOffsets_encodeRefs hw hcnt hinRange hbytes
  rw [getOffsetForValueFromArray2_result hv hin (by simp only [longMax]; omega) (by rw [hw.objectRefSize_toNat, hrefs])
    hholds hu]
  by_cases hneg : idx.toInt < 0
  · have := toUInt64_toNat_of_neg hneg
    rw [if_pos hneg, if_neg (by omega)]
  · rw [if_neg hneg, toUInt64_toNat_of_nonneg (Int.not_lt.mp hneg)]
    generalize idx.toInt.toNat = i
    split
    · rename_i hi
      rw [List.getElem?_eq_getElem hi]
      have hget := getElem_childOffsets m (outputOf stack f).trailer (p := m.base + ((outputOf stack f).offset r +
        (encodeCount markerArray list.length).length)) hi (by simpa using hi)
      simp only [hoffsets, List.getElem_map] at hget
      rw [← hget]
    · rename_i hi
      rw [List.getElem?_eq_none (Nat.not_lt.mp hi)]

end Written

/-- A string of one character. -/
def characterRef (character : UInt16) : CFTypeRef := .primitive ⟨5, false⟩ (.string [character])

/-- A dictionary with one entry between strings of one character. -/
def entryList (key value : UInt16) : PropertyList where
  root := .container ⟨6, false⟩ .dictionary [characterRef key, characterRef value]
  valid := by simp [characterRef, PList.isPropertyList_dictionary]

/-- What is written for a dictionary whose key is also its value. -/
def sharedKeyData : Memory where
  base := 4096
  bytes := (binaryPlistWrite (Vector.replicate 4 0) (entryList 0x61 0x61).root []).1
  beyond _ := 0
  base_pos := emptyArray.base_pos
  length_lt := by decide
  fits := by decide

/-- What is written for a dictionary whose key is a NUL. -/
def nulKeyData : Memory where
  base := 4096
  bytes := (binaryPlistWrite (Vector.replicate 4 0) (entryList 0 0x61).root []).1
  beyond _ := 0
  base_pos := emptyArray.base_pos
  length_lt := by decide
  fits := by decide

/-- The bytes of the key `a`. -/
def macRomanA : MacRoman := ⟨none, fun i => if i = 0 then 0x61 else 0⟩

theorem macRomanA_renders : macRomanA.Renders [0x61] where
  ascii _ keyBytes h := by cases h; rfl
  nonASCII h := by revert h; decide

/-- What the buffer holds for a key that has no form in MacRoman. -/
def macRomanFailed : MacRoman := ⟨none, fun _ => 0⟩

end BinaryPlist

end CFLite
