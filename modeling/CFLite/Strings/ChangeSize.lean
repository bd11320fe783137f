import CFLite.Strings.Creation
import CFLite.Framework.Buckets

/-!
# The size of a mutable string

`__CFStringChangeSize` makes room in the contents of a mutable string or takes
characters out of them, and turns bytes into Unicode where that is asked for.

* `rearrangeBlocks_spec`, `copyBlocks_spec`: the two ways blocks are moved;
* `changeSize_spec`: the characters before and after the range are kept.
-/

namespace CFLite.Strings

open Framework

/-! ## The code -/

/-- A mutable string: `struct __notInlineMutable`. The capacity is in bytes. -/
structure MutableString extends CFString where
  capacity : Nat
  desiredCapacity : Nat
  isFixed : Bool
  isExternalMutable : Bool
  capacityProvidedExternally : Bool

/-- Where the contents of mutable strings come from: the size that is preferred
for one asked for, and what a new buffer holds. -/
structure ContentsAllocator where
  preferredSize : Nat → Nat
  le_preferredSize : ∀ size, size ≤ preferredSize size
  bytes : Nat → UInt8
  characters : Nat → UniChar

/-- `GROWFACTOR` -/
def growFactor (c : Nat) : Nat := (c * 3 + 1) % 2 ^ 64 / 2

/-- `SHRINKFACTOR` -/
def shrinkFactor (c : Nat) : Nat := c / 2

namespace MutableString

/-- `__CFStrNewCapacity` -/
def newCapacity (alloc : ContentsAllocator) (str : MutableString) (reqCapacity : Nat) (leaveExtraRoom : Bool)
    (charSize : Nat) : Nat :=
  if (str.capacity ≠ 0 ∨ reqCapacity ≠ 0) ∧
      (str.capacity < reqCapacity ∨ (str.capacityProvidedExternally = false ∧
        (reqCapacity < shrinkFactor str.capacity ∨ (leaveExtraRoom = false ∧ reqCapacity < str.capacity)))) then
    let newCapacity := if leaveExtraRoom then growFactor reqCapacity else reqCapacity
    let desiredCapacity := str.desiredCapacity * charSize
    alloc.preferredSize
      (if newCapacity < desiredCapacity then desiredCapacity
      else if str.isFixed then max desiredCapacity reqCapacity
      else newCapacity)
  else str.capacity

end MutableString

/-- `rearrangeBlocks`, for one range. -/
def rearrangeBlocks {α : Type} (buffer : List α) (numBlocks : Nat) (range : CFRange) (insertLength : Nat) :
    Option (List α) :=
  let beginning := range.location + range.length
  let length := numBlocks - beginning
  if length = 0 ∨ insertLength = range.length then some buffer
  else (readRange buffer beginning length).bind (writeRange buffer (range.location + insertLength : Nat))

/-- `copyBlocks`, for one range. -/
def copyBlocks {α : Type} (srcBuffer dstBuffer : List α) (srcLength : Nat) (range : CFRange) (insertLength : Nat) :
    Option (List α) :=
  let srcLocation := range.location + range.length
  (if 0 < range.location then (readRange srcBuffer 0 range.location).bind (writeRange dstBuffer 0)
    else some dstBuffer).bind fun dstBuffer =>
  if srcLocation < srcLength then
    (readRange srcBuffer srcLocation (srcLength - srcLocation)).bind
      (writeRange dstBuffer (range.location + insertLength : Nat))
  else some dstBuffer

/-- The bytes of a buffer, on a little-endian host. -/
def Contents.asBytes (capacity : Nat) : Contents → List UInt8
  | .eightBit bytes => bytes
  | .unicode characters =>
    characters.flatMap (fun character : UniChar => [character.toUInt8, (character >>> 8).toUInt8]) ++
      List.replicate (capacity % 2) 0

/-- Bytes as the code units they make up. -/
def unitsOfBytes : List UInt8 → List UniChar
  | low :: high :: bytes => (low.toUInt16 ||| high.toUInt16 <<< 8) :: unitsOfBytes bytes
  | _ => []

namespace MutableString

/-- The part of `__CFStringChangeSizeMultiple` for a string that becomes empty. -/
def changeSizeToNothing (alloc : ContentsAllocator) (str : MutableString) : MutableString :=
  if str.newCapacity alloc 0 true 1 ≠ str.capacity then
    { str with
      contents := if str.isExternalMutable then .unicode [] else .eightBit []
      capacity := 0
      capacityProvidedExternally := false
      hasLengthByte := false
      hasNullByte := false
      length := 0 }
  else if str.isExternalMutable then { str with length := 0 }
  else
    let bytes := str.contents.asBytes str.capacity
    if str.capacity ≥ 2 then
      { str with
        contents := .eightBit ((bytes.set 0 0).set 1 0)
        hasLengthByte := true
        hasNullByte := true
        length := 0 }
    else { str with contents := .eightBit bytes, hasLengthByte := false, hasNullByte := false, length := 0 }

/-- The part of `__CFStringChangeSizeMultiple` for a string that is Unicode
then. `buffer` are the new contents before they are set. -/
def changeSizeToUnicode (map : CharToUniChar) (str : MutableString) (range : CFRange) (insertLength : Nat)
    (fresh : Option (List UniChar)) : Option (List UniChar) :=
  match str.contents, fresh with
  | .unicode characters, none => rearrangeBlocks characters str.length range insertLength
  | .unicode characters, some fresh => copyBlocks characters fresh str.length range insertLength
  | .eightBit bytes, none =>
    copyBlocks ((bytes.drop str.skipAnyLengthByte).map map.table) (unitsOfBytes bytes) str.length range insertLength
  | .eightBit bytes, some fresh =>
    copyBlocks ((bytes.drop str.skipAnyLengthByte).map map.table) fresh str.length range insertLength

/-- The part of it that moves bytes, to after the length byte. -/
def moveBytes (str : MutableString) (range : CFRange) (insertLength : Nat) (fresh : Option (List UInt8)) :
    Option (List UInt8) :=
  let bytes := str.contents.asBytes str.capacity
  match fresh, str.hasLengthByte with
  | none, true => rearrangeBlocks (bytes.drop 1) str.length range insertLength
  | none, false => copyBlocks bytes (bytes.drop 1) str.length range insertLength
  | some fresh, _ => copyBlocks (bytes.drop str.skipAnyLengthByte) (fresh.drop 1) str.length range insertLength

/-- The part of it for a string of bytes, whose length byte is the first byte of
the buffer and whose NUL comes after the characters. -/
def changeSizeOfBytes (str : MutableString) (range : CFRange) (insertLength newLength : Nat)
    (fresh : Option (List UInt8)) : Option (List UInt8) := do
  let newContents ← str.moveBytes range insertLength fresh
  let newContents ← write newContents newLength 0
  return (if newLength ≤ 255 then UInt8.ofNat newLength else 0) :: newContents

/-- `__CFStringChangeSizeMultiple` for one range, and `__CFStringChangeSize`.
There is no result where it would write outside a buffer. -/
def changeSize (alloc : ContentsAllocator) (map : CharToUniChar) (str : MutableString) (range : CFRange)
    (insertLength : Nat) (makeUnicode : Bool) : Option MutableString :=
  let newLength := str.length + insertLength - range.length
  if newLength = 0 then some (str.changeSizeToNothing alloc)
  else
    let newIsUnicode := makeUnicode || str.isUnicode || str.isExternalMutable
    let newCharSize := if newIsUnicode then 2 else 1
    let numExtraBytes := if newIsUnicode then 0 else 2
    let capacity := str.newCapacity alloc (newLength * newCharSize + numExtraBytes) true newCharSize
    let allocNewBuffer := capacity ≠ str.capacity ∨ (0 < str.length ∧ str.isUnicode = false ∧ newIsUnicode = true)
    let capacityProvidedExternally := if allocNewBuffer then false else str.capacityProvidedExternally
    if newIsUnicode then
      (str.changeSizeToUnicode map range insertLength
        (if allocNewBuffer then some (reallocate alloc.characters [] (capacity / 2)) else none)).map fun newContents =>
      { str with
        contents := .unicode newContents
        capacity
        capacityProvidedExternally
        hasLengthByte := false
        hasNullByte := false
        length := newLength }
    else
      (str.changeSizeOfBytes range insertLength newLength
        (if allocNewBuffer then some (reallocate alloc.bytes [] capacity) else none)).map fun newContents =>
      { str with
        contents := .eightBit newContents
        capacity
        capacityProvidedExternally
        hasLengthByte := true
        hasNullByte := true
        length := newLength }

end MutableString

/-! ## Blocks that are moved -/

/-- `new` is `old` with the range taken out and `insertLength` blocks in its place. -/
def Spliced {α : Type} (old new : List α) (range : CFRange) (insertLength : Nat) : Prop :=
  ∃ gap, gap.length = insertLength ∧
    new = old.take range.location ++ gap ++ old.drop (range.location + range.length)

section Blocks

variable {α : Type} {range : CFRange} {insertLength : Nat}

theorem Spliced.map {β : Type} (f : α → β) {old new : List α} (h : Spliced old new range insertLength) :
    Spliced (old.map f) (new.map f) range insertLength := by
  obtain ⟨gap, hgap, rfl⟩ := h
  refine ⟨gap.map f, by rw [List.length_map, hgap], ?_⟩
  rw [List.map_append, List.map_append, List.map_take, List.map_drop]

/-- Blocks that are in place before the gap and after it. -/
theorem spliced_of_getElem? (old buffer : List α) (range : CFRange) (insertLength : Nat)
    (hin : range.location + range.length ≤ old.length)
    (hroom : old.length + insertLength - range.length ≤ buffer.length)
    (hbefore : ∀ k < range.location, buffer[k]? = old[k]?)
    (hafter : ∀ k, range.location + range.length + k < old.length →
      buffer[range.location + insertLength + k]? = old[range.location + range.length + k]?) :
    Spliced old (buffer.take (old.length + insertLength - range.length)) range insertLength := by
  refine ⟨(buffer.drop range.location).take insertLength, ?_, List.ext_getElem? fun k => ?_⟩
  · rw [List.length_take, List.length_drop]
    omega
  · have hgap : ((buffer.drop range.location).take insertLength).length = insertLength := by
      rw [List.length_take, List.length_drop]
      omega
    have htake : (old.take range.location).length = range.location := by
      rw [List.length_take]
      omega
    rw [List.append_assoc, List.getElem?_append, List.getElem?_append, htake, hgap, List.getElem?_take,
      List.getElem?_take, List.getElem?_take, List.getElem?_drop, List.getElem?_drop]
    by_cases hk : k < range.location
    · rw [if_pos (by omega), if_pos hk, if_pos hk, hbefore k hk]
    · rw [if_neg hk]
      by_cases hmid : k - range.location < insertLength
      · have heq : range.location + (k - range.location) = k := by omega
        rw [if_pos (by omega), if_pos hmid, if_pos hmid, heq]
      · rw [if_neg hmid]
        by_cases hend : k < old.length + insertLength - range.length
        · have hat := hafter (k - range.location - insertLength) (by omega)
          have heq : range.location + insertLength + (k - range.location - insertLength) = k := by omega
          rw [heq] at hat
          rw [if_pos hend, hat]
        · rw [if_neg hend, List.getElem?_eq_none (by omega)]

/-- The blocks of a range that is moved. -/
theorem moveRange_spec (src dst : List α) (i j n : Nat) (hsrc : i + n ≤ src.length) (hdst : j + n ≤ dst.length) :
    ∃ dst', (readRange src i n).bind (writeRange dst j) = some dst' ∧ dst'.length = dst.length ∧
      ∀ k, dst'[k]? = if j ≤ k ∧ k < j + n then src[i + (k - j)]? else dst[k]? := by
  obtain ⟨vs, hread, hlength, hvs⟩ := readRange_spec hsrc
  obtain ⟨dst', hwrite, hlength', hdst'⟩ := @writeRange_spec _ dst vs j (hlength ▸ hdst)
  refine ⟨dst', by rw [hread, Option.bind_some, hwrite], hlength', fun k => ?_⟩
  rw [hdst' k, hlength]
  by_cases hk : j ≤ k ∧ k < j + n
  · rw [if_pos hk, if_pos hk, hvs _ (by omega)]
  · rw [if_neg hk, if_neg hk]

/-- `rearrangeBlocks` keeps the blocks before the range and those after it. -/
theorem rearrangeBlocks_spec {buffer : List α} {numBlocks : Nat} (insertLength : Nat)
    (hblocks : numBlocks ≤ buffer.length)
    (hin : range.location + range.length ≤ numBlocks)
    (hroom : numBlocks + insertLength - range.length ≤ buffer.length) :
    ∃ buffer', rearrangeBlocks buffer numBlocks range insertLength = some buffer' ∧
      buffer'.length = buffer.length ∧
      Spliced (buffer.take numBlocks) (buffer'.take (numBlocks + insertLength - range.length)) range insertLength := by
  have htake : (buffer.take numBlocks).length = numBlocks := by
    rw [List.length_take]
    omega
  have hspliced : ∀ {buffer' : List α}, buffer'.length = buffer.length →
      (∀ k < range.location, buffer'[k]? = buffer[k]?) →
      (∀ k, range.location + range.length + k < numBlocks →
        buffer'[range.location + insertLength + k]? = buffer[range.location + range.length + k]?) →
      Spliced (buffer.take numBlocks) (buffer'.take (numBlocks + insertLength - range.length)) range insertLength := by
    intro buffer' hlength hbefore hafter
    have h := spliced_of_getElem? (buffer.take numBlocks) buffer' range insertLength
    rw [htake] at h
    refine h hin (by omega) (fun k hk => ?_) (fun k hk => ?_)
    · rw [hbefore k hk, List.getElem?_take_of_lt (by omega)]
    · rw [hafter k hk, List.getElem?_take_of_lt (by omega)]
  rw [rearrangeBlocks]
  by_cases hsame : numBlocks - (range.location + range.length) = 0 ∨ insertLength = range.length
  · rw [if_pos hsame]
    refine ⟨buffer, rfl, rfl, hspliced rfl (fun _ _ => rfl) fun k hk => ?_⟩
    rcases hsame with hnone | rfl
    · omega
    · rfl
  · rw [if_neg hsame]
    obtain ⟨buffer', heq, hlength, hget⟩ := moveRange_spec buffer buffer
      (range.location + range.length) (range.location + insertLength)
      (numBlocks - (range.location + range.length)) (by omega) (by omega)
    refine ⟨buffer', heq, hlength, hspliced hlength (fun k hk => ?_) fun k hk => ?_⟩
    · rw [hget k, if_neg (by omega)]
    · rw [hget _, if_pos (by omega), Nat.add_sub_cancel_left]

/-- `copyBlocks` copies the blocks before the range and those after it. -/
theorem copyBlocks_spec {src : List α} (dst : List α) {srcLength : Nat} (insertLength : Nat)
    (hblocks : srcLength ≤ src.length)
    (hin : range.location + range.length ≤ srcLength)
    (hroom : srcLength + insertLength - range.length ≤ dst.length) :
    ∃ dst', copyBlocks src dst srcLength range insertLength = some dst' ∧ dst'.length = dst.length ∧
      Spliced (src.take srcLength) (dst'.take (srcLength + insertLength - range.length)) range insertLength := by
  have htake : (src.take srcLength).length = srcLength := by
    rw [List.length_take]
    omega
  obtain ⟨first, hfirst, hfirstLength, hfirstGet⟩ : ∃ first,
      (if 0 < range.location then (readRange src 0 range.location).bind (writeRange dst 0) else some dst) = some first ∧
        first.length = dst.length ∧ ∀ k < range.location, first[k]? = src[k]? := by
    by_cases hpos : 0 < range.location
    · rw [if_pos hpos]
      obtain ⟨first, heq, hlength, hget⟩ := moveRange_spec src dst 0 0 range.location (by omega) (by omega)
      refine ⟨first, heq, hlength, fun k hk => ?_⟩
      rw [hget k, if_pos (by omega), Nat.zero_add, Nat.sub_zero]
    · rw [if_neg hpos]
      exact ⟨dst, rfl, rfl, fun k hk => by omega⟩
  obtain ⟨last, hlast, hlastLength, hbefore, hafter⟩ : ∃ last,
      (if range.location + range.length < srcLength then
          (readRange src (range.location + range.length : Nat) (srcLength - (range.location + range.length))).bind
            (writeRange first (range.location + insertLength : Nat))
        else some first) = some last ∧ last.length = dst.length ∧
      (∀ k < range.location, last[k]? = src[k]?) ∧
      ∀ k, range.location + range.length + k < srcLength →
        last[range.location + insertLength + k]? = src[range.location + range.length + k]? := by
    by_cases hmore : range.location + range.length < srcLength
    · rw [if_pos hmore]
      obtain ⟨last, heq, hlength, hget⟩ := moveRange_spec src first
        (range.location + range.length) (range.location + insertLength)
        (srcLength - (range.location + range.length)) (by omega) (by omega)
      refine ⟨last, heq, hlength.trans hfirstLength, fun k hk => ?_, fun k hk => ?_⟩
      · rw [hget k, if_neg (by omega), hfirstGet k hk]
      · rw [hget _, if_pos (by omega), Nat.add_sub_cancel_left]
    · rw [if_neg hmore]
      exact ⟨first, rfl, hfirstLength, hfirstGet, fun k hk => by omega⟩
  refine ⟨last, ?_, hlastLength, ?_⟩
  · rw [copyBlocks, hfirst]
    exact hlast
  · have h := spliced_of_getElem? (src.take srcLength) last range insertLength
    rw [htake] at h
    refine h hin (by omega) (fun k hk => ?_) (fun k hk => ?_)
    · rw [hbefore k hk, List.getElem?_take_of_lt (by omega)]
    · rw [hafter k hk, List.getElem?_take_of_lt (by omega)]

end Blocks

/-! ## Mutable strings in order -/

namespace MutableString

/-- What the operations on mutable strings keep: the length byte and the NUL come
together, and are there where there are bytes; the characters of an external
buffer are Unicode; and the contents are as large as the capacity says. -/
structure WellFormed (str : MutableString) : Prop where
  isMutable : str.isMutable = true
  string : str.toCFString.WellFormed
  nullByte : str.hasNullByte = str.hasLengthByte
  lengthByte : str.isUnicode = false → 0 < str.length → str.hasLengthByte = true
  external : str.isExternalMutable = true → str.isUnicode = true
  capacity : match str.contents with
    | .eightBit bytes => bytes.length = str.capacity
    | .unicode characters => characters.length = str.capacity / 2

theorem WellFormed.getLength {str : MutableString} (h : str.WellFormed) : str.getLength = str.length := by
  rw [CFString.getLength, CFString.hasExplicitLength, h.isMutable, Bool.true_or, if_pos rfl]

theorem WellFormed.characters_unicode {str : MutableString} (h : str.WellFormed) {map : CharToUniChar}
    {units : List UniChar} (hc : str.contents = .unicode units) : str.characters map = units.take str.length := by
  rw [CFString.characters_unicode hc, h.getLength]

theorem WellFormed.characters_eightBit {str : MutableString} (h : str.WellFormed) {map : CharToUniChar}
    {bytes : List UInt8} (hc : str.contents = .eightBit bytes) :
    str.characters map = ((bytes.drop str.skipAnyLengthByte).take str.length).map map.table := by
  rw [CFString.characters_eightBit hc, h.getLength]

/-- A string of Unicode contents in order. -/
theorem wellFormed_unicode {str : MutableString} {characters : List UniChar} (hmutable : str.isMutable = true)
    (hinline : str.isInline = false) (hc : str.contents = .unicode characters)
    (hplain : str.hasLengthByte = false ∧ str.hasNullByte = false) (hlength : str.length ≤ characters.length)
    (hcapacity : characters.length = str.capacity / 2) : str.WellFormed := by
  have hunicode : str.isUnicode = true := by rw [CFString.isUnicode, hc]
  have hget : str.getLength = str.length := by
    rw [CFString.getLength, CFString.hasExplicitLength, hmutable, Bool.true_or, if_pos rfl]
  refine ⟨hmutable, ⟨fun _ => hinline, fun _ => hplain, ?_, fun h => ?_, fun bytes h => ?_⟩,
    hplain.2.trans hplain.1.symm, fun h => ?_, fun _ => hunicode, ?_⟩
  · rw [hc, hget]
    exact hlength
  · rw [hplain.1] at h
    cases h
  · rw [hc] at h
    cases h
  · rw [hunicode] at h
    cases h
  · rw [hc]
    exact hcapacity

/-- A string of bytes in order. -/
theorem wellFormed_eightBit {str : MutableString} {bytes : List UInt8} (hmutable : str.isMutable = true)
    (hinline : str.isInline = false) (hc : str.contents = .eightBit bytes) (hnull : str.hasNullByte = str.hasLengthByte)
    (hexternal : str.isExternalMutable = false) (hcapacity : bytes.length = str.capacity)
    (hempty : str.hasLengthByte = false → str.length = 0)
    (hfull : str.hasLengthByte = true → (str.length ≤ 255 → (bytes.headD 0).toNat = str.length) ∧
      bytes[1 + str.length]? = some 0) : str.WellFormed := by
  have hget : str.getLength = str.length := by
    rw [CFString.getLength, CFString.hasExplicitLength, hmutable, Bool.true_or, if_pos rfl]
  have hunicode : str.isUnicode = false := by rw [CFString.isUnicode, hc]
  refine ⟨hmutable, ⟨fun _ => hinline, fun h => ?_, ?_, fun h hfits => ?_, fun contents h hbyte => ?_⟩, hnull,
    fun _ hpos => ?_, fun h => ?_, ?_⟩
  · rw [hunicode] at h
    cases h
  · rw [hc]
    dsimp only
    rw [hget, hnull, CFString.skipAnyLengthByte]
    cases hbyte : str.hasLengthByte with
    | false =>
      rw [hempty hbyte]
      exact Nat.zero_le _
    | true =>
      obtain ⟨hlt, -⟩ := List.getElem?_eq_some_iff.mp (hfull hbyte).2
      simp only [if_true]
      omega
  · rw [hget] at hfits ⊢
    rw [hc]
    exact (hfull h).1 hfits
  · rw [hc] at h
    cases h
    have hbyte : str.hasLengthByte = true := by rw [← hnull, hbyte]
    rw [hget, CFString.skipAnyLengthByte, hbyte, if_pos rfl]
    exact (hfull hbyte).2
  · by_contra hbyte
    rw [hempty (Bool.eq_false_iff.mpr hbyte)] at hpos
    exact Nat.lt_irrefl 0 hpos
  · rw [hexternal] at h
    cases h
  · rw [hc]
    exact hcapacity

theorem le_growFactor {c : Nat} (h : c * 3 + 1 < 2 ^ 64) : c ≤ growFactor c := by
  rw [growFactor, Nat.mod_eq_of_lt h]
  omega

/-- The new capacity is enough. -/
theorem le_newCapacity (alloc : ContentsAllocator) (str : MutableString) (reqCapacity : Nat)
    (h : reqCapacity * 3 + 1 < 2 ^ 64) (charSize : Nat) :
    reqCapacity ≤ str.newCapacity alloc reqCapacity true charSize := by
  have hgrow := le_growFactor h
  rw [newCapacity]
  by_cases hchange : (str.capacity ≠ 0 ∨ reqCapacity ≠ 0) ∧
      (str.capacity < reqCapacity ∨ (str.capacityProvidedExternally = false ∧
        (reqCapacity < shrinkFactor str.capacity ∨ (true = false ∧ reqCapacity < str.capacity))))
  · rw [if_pos hchange]
    refine Nat.le_trans ?_ (alloc.le_preferredSize _)
    rw [if_pos rfl]
    split
    · omega
    · split
      · exact Nat.le_max_right _ _
      · exact hgrow
  · rw [if_neg hchange]
    by_contra hlt
    exact hchange ⟨by omega, .inl (by omega)⟩

theorem length_unitsOfBytes (bytes : List UInt8) : (unitsOfBytes bytes).length = bytes.length / 2 := by
  induction bytes using unitsOfBytes.induct with
  | case1 low high bytes ih =>
    rw [unitsOfBytes, List.length_cons, ih, List.length_cons, List.length_cons]
    omega
  | case2 bytes hne =>
    rw [unitsOfBytes.eq_def]
    match bytes with
    | [] => rfl
    | [_] => exact (Nat.div_eq_of_lt Nat.one_lt_two).symm
    | low :: high :: bytes => exact absurd rfl (hne low high bytes)

theorem length_asBytes {str : MutableString} (h : str.WellFormed) :
    (str.contents.asBytes str.capacity).length = str.capacity := by
  have hcapacity := h.capacity
  cases hc : str.contents with
  | eightBit bytes =>
    rw [hc] at hcapacity
    exact hcapacity
  | unicode characters =>
    rw [hc] at hcapacity
    have htwo : ∀ units : List UniChar,
        (units.flatMap fun unit : UniChar => [unit.toUInt8, (unit >>> 8).toUInt8]).length = 2 * units.length := by
      intro units
      induction units with
      | nil => rfl
      | cons unit units ih =>
        rw [List.flatMap_cons, List.length_append, ih, List.length_cons]
        simp only [List.length_cons, List.length_nil]
        omega
    rw [Contents.asBytes, List.length_append, List.length_replicate, htwo]
    dsimp only at hcapacity
    omega

variable {map : CharToUniChar} {str : MutableString} {range : CFRange} {insertLength newLength : Nat}

/-- The characters before the range and after it, where the contents are Unicode then. -/
theorem changeSizeToUnicode_spec (map : CharToUniChar) (insertLength : Nat) (h : str.WellFormed)
    (hin : range.location + range.length ≤ str.length)
    (fresh : Option (List UniChar)) (room : Nat) (hroom : (fresh.map List.length).getD (str.capacity / 2) = room)
    (hnew : str.length + insertLength - range.length ≤ room) :
    ∃ new, str.changeSizeToUnicode map range insertLength fresh = some new ∧ new.length = room ∧
      Spliced (str.characters map) (new.take (str.length + insertLength - range.length)) range insertLength := by
  have hholds := h.string.holds
  have hcapacity := h.capacity
  rw [h.getLength] at hholds
  cases hc : str.contents with
  | unicode characters =>
    rw [hc] at hholds hcapacity
    dsimp only at hholds hcapacity
    rw [h.characters_unicode hc]
    simp only [changeSizeToUnicode, hc]
    cases fresh with
    | none =>
      have hroom : str.capacity / 2 = room := hroom
      obtain ⟨new, heq, hlength, hspliced⟩ := rearrangeBlocks_spec insertLength hholds hin (by omega)
      exact ⟨new, heq, by omega, hspliced⟩
    | some fresh =>
      have hroom : fresh.length = room := hroom
      obtain ⟨new, heq, hlength, hspliced⟩ :=
        copyBlocks_spec fresh insertLength hholds hin (by omega)
      exact ⟨new, heq, by omega, hspliced⟩
  | eightBit bytes =>
    rw [hc] at hholds hcapacity
    dsimp only at hholds hcapacity
    have hsrc : str.length ≤ ((bytes.drop str.skipAnyLengthByte).map map.table).length := by
      rw [List.length_map, List.length_drop]
      omega
    rw [h.characters_eightBit hc, List.map_take]
    simp only [changeSizeToUnicode, hc]
    cases fresh with
    | none =>
      have hroom : str.capacity / 2 = room := hroom
      have hdst := length_unitsOfBytes bytes
      obtain ⟨new, heq, hlength, hspliced⟩ :=
        copyBlocks_spec (unitsOfBytes bytes) insertLength hsrc hin (by omega)
      exact ⟨new, heq, by omega, hspliced⟩
    | some fresh =>
      have hroom : fresh.length = room := hroom
      obtain ⟨new, heq, hlength, hspliced⟩ :=
        copyBlocks_spec fresh insertLength hsrc hin (by omega)
      exact ⟨new, heq, by omega, hspliced⟩

/-- The bytes before the range and after it, between the length byte and the NUL. -/
theorem changeSizeOfBytes_spec (h : str.WellFormed) {bytes : List UInt8} (hc : str.contents = .eightBit bytes)
    (hin : range.location + range.length ≤ str.length)
    (hnewLength : newLength = str.length + insertLength - range.length)
    (fresh : Option (List UInt8)) (room : Nat) (hroom : (fresh.map List.length).getD str.capacity = room)
    (hnew : newLength + 2 ≤ room) :
    ∃ new, str.changeSizeOfBytes range insertLength newLength fresh =
        some ((if newLength ≤ 255 then UInt8.ofNat newLength else 0) :: new) ∧
      new.length + 1 = room ∧ new[newLength]? = some 0 ∧
      Spliced ((bytes.drop str.skipAnyLengthByte).take str.length) (new.take newLength) range insertLength := by
  have hholds := h.string.holds
  have hcapacity := h.capacity
  rw [h.getLength] at hholds
  rw [hc] at hholds hcapacity
  dsimp only at hholds hcapacity
  have hsrc : str.length ≤ (bytes.drop str.skipAnyLengthByte).length := by
    rw [List.length_drop]
    omega
  obtain ⟨moved, hmoved, hlength, hspliced⟩ : ∃ moved, str.moveBytes range insertLength fresh = some moved ∧
      moved.length + 1 = room ∧
      Spliced ((bytes.drop str.skipAnyLengthByte).take str.length) (moved.take newLength) range insertLength := by
    rw [hnewLength] at hnew ⊢
    simp only [moveBytes, hc, Contents.asBytes]
    cases fresh with
    | none =>
      have hroom : str.capacity = room := hroom
      have hdrop : (bytes.drop 1).length + 1 = room := by
        rw [List.length_drop]
        omega
      cases hbyte : str.hasLengthByte with
      | true =>
        have hskip : str.skipAnyLengthByte = 1 := by rw [CFString.skipAnyLengthByte, hbyte, if_pos rfl]
        rw [hskip] at hsrc ⊢
        obtain ⟨new, heq, hlength, hspliced⟩ :=
          rearrangeBlocks_spec insertLength hsrc hin (by omega)
        exact ⟨new, heq, by omega, hspliced⟩
      | false =>
        have hskip : str.skipAnyLengthByte = 0 := by
          rw [CFString.skipAnyLengthByte, hbyte, if_neg Bool.false_ne_true]
        rw [hskip, List.drop_zero] at hsrc ⊢
        obtain ⟨new, heq, hlength, hspliced⟩ :=
          copyBlocks_spec (bytes.drop 1) insertLength hsrc hin (by omega)
        exact ⟨new, heq, by omega, hspliced⟩
    | some fresh =>
      have hroom : fresh.length = room := hroom
      have hdrop : (fresh.drop 1).length + 1 = room := by
        rw [List.length_drop]
        omega
      obtain ⟨new, heq, hlength, hspliced⟩ :=
        copyBlocks_spec (fresh.drop 1) insertLength hsrc hin (by omega)
      exact ⟨new, heq, by omega, hspliced⟩
  have hwrite := write_eq (show newLength < moved.length by omega) 0
  refine ⟨moved.set newLength 0, ?_, by rw [List.length_set, hlength], ?_, ?_⟩
  · rw [changeSizeOfBytes, hmoved]
    show (write moved newLength 0).bind _ = _
    rw [hwrite]
    rfl
  · rw [List.getElem?_set_self (by omega)]
  · rw [List.take_set_of_le (Nat.le_refl _)]
    exact hspliced

/-- The string that is left of one that becomes empty. -/
theorem changeSizeToNothing_spec (alloc : ContentsAllocator) (h : str.WellFormed) :
    (str.changeSizeToNothing alloc).WellFormed ∧ (str.changeSizeToNothing alloc).length = 0 := by
  have hinline := h.string.not_inline h.isMutable
  have hcapacity := h.capacity
  have hbytes := length_asBytes h
  rw [changeSizeToNothing]
  by_cases hfree : str.newCapacity alloc 0 true 1 ≠ str.capacity
  · rw [if_pos hfree]
    refine ⟨?_, rfl⟩
    cases hexternal : str.isExternalMutable with
    | true => exact wellFormed_unicode h.isMutable hinline rfl ⟨rfl, rfl⟩ (Nat.zero_le _) (Nat.zero_div 2).symm
    | false => exact wellFormed_eightBit h.isMutable hinline rfl rfl rfl rfl (fun _ => rfl) fun h => by cases h
  · rw [if_neg hfree]
    by_cases hexternal : str.isExternalMutable = true
    · have hunicode := h.external hexternal
      rw [if_pos hexternal]
      cases hc : str.contents with
      | eightBit bytes => simp [CFString.isUnicode, hc] at hunicode
      | unicode characters =>
        rw [hc] at hcapacity
        exact ⟨wellFormed_unicode h.isMutable hinline rfl (h.string.unicode_plain hunicode) (Nat.zero_le _) hcapacity,
          rfl⟩
    · rw [if_neg hexternal]
      by_cases htwo : str.capacity ≥ 2
      · rw [if_pos htwo]
        cases hb : str.contents.asBytes str.capacity with
        | nil => exact absurd hbytes (by rw [hb, List.length_nil]; omega)
        | cons first rest =>
          cases rest with
          | nil => exact absurd hbytes (by rw [hb, List.length_singleton]; omega)
          | cons second bytes =>
            rw [hb] at hbytes
            exact ⟨wellFormed_eightBit h.isMutable hinline rfl rfl (Bool.eq_false_iff.mpr hexternal) hbytes
              (fun h => by cases h) fun _ => ⟨fun _ => rfl, rfl⟩, rfl⟩
      · rw [if_neg htwo]
        exact ⟨wellFormed_eightBit h.isMutable hinline rfl rfl (Bool.eq_false_iff.mpr hexternal) hbytes (fun _ => rfl)
          fun hpos => absurd hpos (by simp), rfl⟩

/-- `__CFStringChangeSize` gives the length that is asked for, and keeps the
characters before the range and those after it. -/
theorem changeSize_spec (alloc : ContentsAllocator) (map : CharToUniChar) (h : str.WellFormed) (range : CFRange)
    (insertLength : Nat) (hin : range.location + range.length ≤ str.length) (makeUnicode : Bool)
    (hfits : 6 * (str.length + insertLength - range.length) + 7 < 2 ^ 64) :
    ∃ new, str.changeSize alloc map range insertLength makeUnicode = some new ∧ new.WellFormed ∧
      new.length = str.length + insertLength - range.length ∧
      Spliced (str.characters map) (new.characters map) range insertLength ∧
      (0 < new.length → new.isUnicode = (makeUnicode || str.isUnicode || str.isExternalMutable)) := by
  have hinline := h.string.not_inline h.isMutable
  have hgetLength := h.getLength
  rw [changeSize]
  generalize hnewLength : str.length + insertLength - range.length = newLength at hfits ⊢
  by_cases hnothing : newLength = 0
  · obtain ⟨hnew, hlength⟩ := changeSizeToNothing_spec alloc h
    rw [if_pos hnothing]
    refine ⟨_, rfl, hnew, hlength.trans hnothing.symm, ⟨[], by rw [List.length_nil]; omega, ?_⟩, fun hpos => by omega⟩
    have hlocation : range.location = 0 := by omega
    have hnone : (str.changeSizeToNothing alloc).characters map = [] := by
      refine List.length_eq_zero_iff.mp ?_
      rw [hnew.string.length_characters, hnew.getLength, hlength]
    rw [hnone, hlocation, List.take_zero, List.nil_append, List.nil_append, List.drop_eq_nil_of_le]
    rw [h.string.length_characters, hgetLength]
    omega
  · rw [if_neg hnothing]
    generalize hunicode : (makeUnicode || str.isUnicode || str.isExternalMutable) = newIsUnicode
    dsimp only
    cases newIsUnicode with
    | true =>
      simp only [if_true, Nat.add_zero]
      have hcapacity := le_newCapacity alloc str (newLength * 2) (by omega) 2
      generalize str.newCapacity alloc (newLength * 2) true 2 = capacity at hcapacity ⊢
      obtain ⟨new, heq, hlength, hspliced⟩ := changeSizeToUnicode_spec map insertLength h hin
        (if capacity ≠ str.capacity ∨ (0 < str.length ∧ str.isUnicode = false ∧ True)
          then some (reallocate alloc.characters [] (capacity / 2)) else none) (capacity / 2)
        (by
          by_cases hfresh : capacity ≠ str.capacity ∨ (0 < str.length ∧ str.isUnicode = false ∧ True)
          · rw [if_pos hfresh, Option.map_some, length_reallocate, Option.getD_some]
          · rw [if_neg hfresh, Option.map_none, Option.getD_none, Classical.not_not.mp (not_or.mp hfresh).1])
        (by omega)
      rw [hnewLength] at hspliced
      rw [heq, Option.map_some]
      refine ⟨_, rfl, And.imp_right (fun hnew => ⟨rfl, ?_, fun _ => rfl⟩) (and_self_iff.mpr
        (wellFormed_unicode h.isMutable hinline rfl ⟨rfl, rfl⟩ (by dsimp only; omega) hlength))⟩
      rw [hnew.characters_unicode rfl]
      exact hspliced
    | false =>
      obtain ⟨⟨-, hold⟩, hexternal⟩ :
          (makeUnicode = false ∧ str.isUnicode = false) ∧ str.isExternalMutable = false := by
        simpa using hunicode
      obtain ⟨bytes, hc⟩ : ∃ bytes, str.contents = .eightBit bytes := by
        cases hc : str.contents with
        | eightBit bytes => exact ⟨bytes, rfl⟩
        | unicode characters => simp [CFString.isUnicode, hc] at hold
      have hcapacity := le_newCapacity alloc str (newLength + 2) (by omega) 1
      simp only [Bool.false_eq_true, if_false, Nat.mul_one, and_false, or_false]
      generalize str.newCapacity alloc (newLength + 2) true 1 = capacity at hcapacity ⊢
      obtain ⟨new, heq, hlength, hnull, hspliced⟩ := changeSizeOfBytes_spec h hc hin hnewLength.symm
        (if capacity ≠ str.capacity then some (reallocate alloc.bytes [] capacity) else none) capacity
        (by
          by_cases hfresh : capacity ≠ str.capacity
          · rw [if_pos hfresh, Option.map_some, length_reallocate, Option.getD_some]
          · rw [if_neg hfresh, Option.map_none, Option.getD_none, Classical.not_not.mp hfresh])
        (by omega)
      rw [heq, Option.map_some]
      have hbyte : newLength ≤ 255 → (if newLength ≤ 255 then UInt8.ofNat newLength else 0).toNat = newLength := by
        intro hfits
        rw [if_pos hfits, UInt8.toNat_ofNat', Nat.mod_eq_of_lt (by omega)]
      have hget : ∀ byte, (byte :: new)[1 + newLength]? = some 0 := fun byte => by
        rw [Nat.add_comm, List.getElem?_cons_succ, hnull]
      refine ⟨_, rfl, And.imp_right (fun hnew => ⟨rfl, ?_, fun _ => rfl⟩) (and_self_iff.mpr
        (wellFormed_eightBit h.isMutable hinline rfl rfl hexternal hlength (fun h => by cases h) fun _ => ⟨hbyte, hget _⟩))⟩
      rw [hnew.characters_eightBit rfl, h.characters_eightBit hc]
      exact hspliced.map map.table

end MutableString

/-- An allocator of buffers that are exactly as large as is asked for. -/
def exactAllocator : ContentsAllocator where
  preferredSize size := size
  le_preferredSize _ := Nat.le_refl _
  bytes _ := 0
  characters _ := 0

/-- A string as `CFStringCreateMutable` makes it. -/
def emptyMutable : MutableString where
  isMutable := true
  isInline := false
  hasLengthByte := false
  hasNullByte := false
  length := 0
  contents := .eightBit []
  capacity := 0
  desiredCapacity := 32
  isFixed := false
  isExternalMutable := false
  capacityProvidedExternally := false

end CFLite.Strings
