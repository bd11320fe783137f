import CFLite.Strings.UTF8Decode

/-!
# UTF-8 conversion

* `toUTF8_characters`, `fromUTF8_items`: what the converters make of the units of
  characters, and of the bytes of characters and stray bytes 0xA9;
* `exists_items`: every byte string begins with such items, up to where neither
  is next;
* `fromUTF8Loop_used`: `__CFFromUTF8Len` counts what `__CFFromUTF8` writes;
* `utf8_conversion`: the four together.
-/

namespace CFLite.Strings

open Framework

variable {decomposition : Decomposition} {flags : ConversionFlags}

/-! ## Strict decoding -/

/-- A conversion without options. -/
def strictFlags : ConversionFlags := ⟨false, false, false, false⟩

/-- What a strict decoder reads at a time: a character, or a byte 0xA9 that it
gives U+FFFD for. -/
inductive Item where
  | character (c : Char)
  | copyright

def Item.bytes : Item → List UInt8
  | .character c => String.utf8EncodeChar c
  | .copyright => [0xA9]

def Item.units : Item → List UniChar
  | .character c => utf16EncodeChar c
  | .copyright => [0xFFFD]

/-- No item is next: the end, a truncated or an ill-formed sequence. -/
def Stops (rest : List UInt8) : Prop := ∀ item : Item, ¬ item.bytes <+: rest

theorem utf8EncodeChar_length_pos (c : Char) : 0 < (String.utf8EncodeChar c).length :=
  List.length_pos_iff.mpr String.utf8EncodeChar_ne_nil

/-- Every byte string is a sequence of items, and a rest where none is next. -/
theorem exists_items (bytes : List UInt8) :
    ∃ (items : List Item) (rest : List UInt8), bytes = items.flatMap Item.bytes ++ rest ∧ Stops rest := by
  induction hn : bytes.length using Nat.strong_induction_on generalizing bytes with
  | _ n ih =>
    by_cases hstops : Stops bytes
    · exact ⟨[], bytes, rfl, hstops⟩
    · obtain ⟨item, hitem⟩ := not_forall.mp hstops
      obtain ⟨tail, rfl⟩ := not_not.mp hitem
      have hpos : 0 < item.bytes.length := by
        cases item with
        | character c => exact utf8EncodeChar_length_pos c
        | copyright => exact Nat.one_pos
      obtain ⟨items, rest, rfl, hrest⟩ := ih tail.length (by rw [← hn, List.length_append]; omega) tail rfl
      exact ⟨item :: items, rest, by rw [List.flatMap_cons, List.append_assoc], hrest⟩

theorem surrogates_eq {c : Char} (h : ¬ c.toNat ≤ 0xFFFF) : surrogates c.toNat = utf16EncodeChar c := by
  have hand : ∀ n, n &&& 0x3FF = n % 1024 := fun n => Nat.and_two_pow_sub_one_eq_mod n 10
  rw [utf16EncodeChar, if_neg h]
  unfold surrogates
  simp only [hand, Nat.shiftRight_eq_div_pow]
  rw [Nat.add_comm 0xD800, Nat.add_comm 0xDC00]

/-- What the units of an item add to what was done. -/
def Conversion.read (maxCharLen : Nat) (item : Item) (done : Conversion UniChar) : Conversion UniChar where
  consumed := done.consumed + item.bytes.length
  used := done.used + item.units.length
  output := if maxCharLen ≠ 0 then done.output ++ item.units else done.output

theorem putUnits_char (c : Char) {maxCharLen : Nat} {done : Conversion UniChar}
    (hroom : maxCharLen = 0 ∨ done.used + (utf16EncodeChar c).length ≤ maxCharLen) :
    putUnits decomposition strictFlags maxCharLen c.toNat done =
      some { done with
        used := done.used + (utf16EncodeChar c).length
        output := if maxCharLen ≠ 0 then done.output ++ utf16EncodeChar c else done.output } := by
  have hvalid := char_valid c
  unfold putUnits strictFlags
  simp only [Bool.or_self, Bool.false_and, Bool.false_eq_true, ↓reduceIte]
  by_cases h : c.toNat ≤ 0xFFFF
  · rw [if_pos h, utf16EncodeChar, if_pos h]
  · have htwo : (utf16EncodeChar c).length = 2 := by
      rw [← surrogates_eq h]
      rfl
    rw [if_neg h, if_neg (by omega), if_neg (by omega), surrogates_eq h]

/-- A step over an item. -/
theorem fromUTF8Loop_item (item : Item) (rest : List UInt8) {maxCharLen : Nat} {done : Conversion UniChar}
    (hroom : maxCharLen = 0 ∨ done.used + item.units.length ≤ maxCharLen) :
    fromUTF8Loop decomposition strictFlags maxCharLen (item.bytes ++ rest) done =
      fromUTF8Loop decomposition strictFlags maxCharLen rest (done.read maxCharLen item) := by
  have hpos : 0 < item.units.length := by
    cases item with
    | character c =>
      show 0 < (utf16EncodeChar c).length
      unfold utf16EncodeChar
      split <;> exact Nat.succ_pos _
    | copyright => exact Nat.one_pos
  rw [fromUTF8Loop, if_neg (by omega)]
  cases item with
  | character c =>
    have hvalid := char_valid c
    have hnext : nextSequence strictFlags (String.utf8EncodeChar c ++ rest) = _ :=
      nextSequence_char strictFlags ((charBytes_iff c _).mpr rfl) rest
    have hlen := utf8EncodeChar_length_pos c
    have hrejected : rejected strictFlags c.toNat = false := by
      unfold rejected
      simp only [strictFlags, Bool.not_false, Bool.true_and, Bool.or_eq_false_iff, Bool.and_eq_false_iff,
        decide_eq_false_iff_not]
      omega
    simp only [Item.bytes]
    split
    · rename_i h
      exact Sequence.noConfusion (hnext.symm.trans h)
    · rename_i h
      exact Sequence.noConfusion (hnext.symm.trans h)
    · rename_i ch extra h
      obtain ⟨rfl, rfl⟩ := Sequence.decoded.inj (hnext.symm.trans h)
      rw [hrejected, putUnits_char c hroom, Nat.sub_add_cancel hlen, List.drop_left]
      simp only [Bool.false_eq_true, ↓reduceIte, Conversion.read, Item.bytes, Item.units, Nat.add_assoc,
        Nat.sub_add_cancel hlen]
  | copyright =>
    have hnext : nextSequence strictFlags (0xA9 :: rest) = _ := nextSequence_copyright rfl rest
    simp only [Item.bytes, List.singleton_append]
    split
    · rename_i h
      exact Sequence.noConfusion (hnext.symm.trans h)
    · rfl
    · rename_i h
      exact Sequence.noConfusion (hnext.symm.trans h)

theorem fromUTF8Loop_stops {rest : List UInt8} (h : Stops rest) (maxCharLen : Nat) (done : Conversion UniChar) :
    fromUTF8Loop decomposition strictFlags maxCharLen rest done = done := by
  rw [fromUTF8Loop]
  split
  · rfl
  · split
    · rfl
    · rename_i hnext
      obtain ⟨tail, rfl⟩ := nextSequence_replaced rfl hnext
      exact absurd (List.prefix_append [0xA9] tail) (h .copyright)
    · rename_i hnext
      obtain ⟨c, bytes, tail, rfl, hbytes, -⟩ := nextSequence_decoded rfl hnext
      rw [charBytes_iff] at hbytes
      exact absurd ⟨tail, congrArg (· ++ tail) hbytes⟩ (h (.character c))

/-- A strict decoder converts the items and stops where none is next. -/
theorem fromUTF8Loop_items (items : List Item) {rest : List UInt8} (hrest : Stops rest) {maxCharLen : Nat}
    {done : Conversion UniChar}
    (hroom : maxCharLen = 0 ∨ done.used + (items.flatMap Item.units).length ≤ maxCharLen) :
    fromUTF8Loop decomposition strictFlags maxCharLen (items.flatMap Item.bytes ++ rest) done =
      { consumed := done.consumed + (items.flatMap Item.bytes).length
        used := done.used + (items.flatMap Item.units).length
        output := if maxCharLen ≠ 0 then done.output ++ items.flatMap Item.units else done.output } := by
  induction items generalizing done with
  | nil =>
    rw [List.flatMap_nil, List.nil_append, fromUTF8Loop_stops hrest]
    split <;> simp
  | cons item items ih =>
    rw [List.flatMap_cons, List.length_append] at hroom
    rw [List.flatMap_cons, List.append_assoc, fromUTF8Loop_item item _ (hroom.imp_right fun h => by omega), ih]
    · simp only [Conversion.read, List.length_append, List.flatMap_cons, Nat.add_assoc]
      split <;> simp
    · simp only [Conversion.read]
      exact hroom.imp_right fun h => by omega

/-- A strict decoder reads the items at the head of the bytes, if there is room
for their units. -/
theorem fromUTF8_items (items : List Item) {rest : List UInt8} (hrest : Stops rest) {maxCharLen : Nat}
    (hroom : (items.flatMap Item.units).length ≤ maxCharLen) :
    fromUTF8 decomposition strictFlags (items.flatMap Item.bytes ++ rest) maxCharLen =
      ⟨(items.flatMap Item.bytes).length, (items.flatMap Item.units).length, items.flatMap Item.units⟩ := by
  rw [fromUTF8, fromUTF8Loop_items items hrest (.inr (by simpa using hroom))]
  split
  · simp
  · rename_i hzero
    rw [ne_eq, not_not] at hzero
    have hnil : items.flatMap Item.units = [] := List.length_eq_zero_iff.mp (by omega)
    simp [hnil]

theorem stops_nil : Stops [] := fun item h => by
  have hnil := List.prefix_nil.mp h
  cases item with
  | character c => exact String.utf8EncodeChar_ne_nil hnil
  | copyright => exact List.cons_ne_nil _ _ hnil

theorem flatMap_character (cs : List Char) :
    (cs.map Item.character).flatMap Item.bytes = utf8Encode cs ∧
      (cs.map Item.character).flatMap Item.units = utf16Encode cs :=
  ⟨List.flatMap_map .., List.flatMap_map ..⟩

/-- The bytes of characters decode to their units. -/
theorem fromUTF8_characters (cs : List Char) {maxCharLen : Nat} (hroom : (utf16Encode cs).length ≤ maxCharLen) :
    fromUTF8 decomposition strictFlags (utf8Encode cs) maxCharLen =
      ⟨(utf8Encode cs).length, (utf16Encode cs).length, utf16Encode cs⟩ := by
  obtain ⟨hbytes, hunits⟩ := flatMap_character cs
  have h : fromUTF8 decomposition _ _ _ = _ := fromUTF8_items (cs.map Item.character) stops_nil (hunits ▸ hroom)
  rwa [List.append_nil, hbytes, hunits] at h

/-! ## Encoding -/

/-- The units of characters encode to their bytes, if there is room. -/
theorem toUTF8_characters (flags : ConversionFlags) (cs : List Char) {maxByteLen : Nat}
    (hroom : EnoughRoom maxByteLen (cs.map Char.toNat) 0) :
    toUTF8 flags (utf16Encode cs) maxByteLen =
      ⟨(utf16Encode cs).length, (utf8Encode cs).length, utf8Encode cs⟩ := by
  rw [← codes_utf16Encode] at hroom
  rw [toUTF8, toUTF8Loop_spec (fun _ => (wellFormedUtf16_iff _).mpr ⟨cs, rfl⟩) (.inr hroom), Conversion.putAll,
    codes_utf16Encode, utf8Bytes_characters, byteCount_characters, Nat.zero_add, Nat.zero_add, List.nil_append]
  rw [codes_utf16Encode] at hroom
  cases cs with
  | nil => split <;> rfl
  | cons c cs => rw [if_pos (Nat.ne_of_gt (Nat.lt_of_le_of_lt (Nat.zero_le _) hroom.1))]

/-- `__CFToUTF8Len` gives the bytes `__CFToUTF8` writes, or counts, for an input
that it reads to the end, if their number fits 32 bits. -/
theorem toUTF8Len_eq (flags : ConversionFlags) {units : List UniChar} {maxByteLen : Nat}
    (hread : flags.useHFSPlusCanonical = true ∨ WellFormedUtf16 units)
    (hroom : maxByteLen = 0 ∨ EnoughRoom maxByteLen (codes units) 0)
    (hfits : (toUTF8 flags units maxByteLen).used < 2 ^ 32) :
    toUTF8Len flags units = (toUTF8 flags units maxByteLen).used ∧
      (maxByteLen ≠ 0 → (toUTF8 flags units maxByteLen).output.length = (toUTF8 flags units maxByteLen).used) := by
  have hspec : toUTF8Loop (!flags.useHFSPlusCanonical) maxByteLen units ⟨0, 0, []⟩ = _ :=
    toUTF8Loop_spec (fun hs => hread.resolve_left (by simpa using hs)) hroom
  rw [toUTF8, hspec] at hfits ⊢
  simp only [Conversion.putAll, Nat.zero_add, List.nil_append] at hfits ⊢
  refine ⟨?_, fun hne => ?_⟩
  · rw [toUTF8Len, toUTF8LenLoop_spec (by omega), Nat.zero_add]
  · rw [if_pos hne, List.length_flatMap, byteCount]
    congr 1
    exact List.map_congr_left fun ch _ => length_utf8Bytes ch

/-! ## The count of units -/

/-- The converter and the count agree on a character: it is not above U+10FFFF
where the conversion stops there, and a character of the BMP decomposes in it. -/
def Counted (decomposition : Decomposition) (flags : ConversionFlags) (ch : Nat) : Prop :=
  (flags.useHFSPlusCanonical = true ∨ ch ≤ 0x10FFFF) ∧
    (ch ≤ 0xFFFF → ((flags.useCanonical || flags.useHFSPlusCanonical) &&
        decomposition.isDecomposableCharacter ch flags.useHFSPlusCanonical) = true →
      ∀ d ∈ decomposition.decomposeCharacter ch, d ≤ 0xFFFF)

/-- All the characters found in the source are so. -/
def AllCounted (decomposition : Decomposition) (flags : ConversionFlags) (source : List UInt8) : Prop :=
  match _h : nextSequence flags source with
  | .stop => True
  | .replaced =>
    match source with
    | _ :: source => AllCounted decomposition flags source
    | [] => True
  | .decoded ch extraBytesToRead =>
    Counted decomposition flags ch ∧ AllCounted decomposition flags (source.drop (extraBytesToRead + 1))
  termination_by source.length
  decreasing_by
    · simp
    · have := nextSequence_consumes _h
      rw [List.length_drop]
      omega

theorem fillDestinationBuffer_eq {src : List Nat} {dstLength usedLength : Nat}
    (h : usedLength + unitCount src ≤ dstLength) :
    ∃ units, fillDestinationBuffer src dstLength usedLength = some units ∧ units.length = unitCount src := by
  induction src generalizing usedLength with
  | nil => exact ⟨[], rfl, rfl⟩
  | cons ch src ih =>
    rw [fillDestinationBuffer]
    by_cases hch : ch > 0xFFFF
    · have hcount : unitCount (ch :: src) = 2 + unitCount src :=
        List.sum_cons.trans (congrArg (· + _) (if_neg (by omega)))
      rw [hcount] at h ⊢
      obtain ⟨units, hfill, hlen⟩ := @ih (usedLength + 2) (by omega)
      rw [if_pos hch, if_neg (by omega), hfill]
      exact ⟨_, rfl, by rw [List.length_append, hlen]; rfl⟩
    · have hcount : unitCount (ch :: src) = 1 + unitCount src :=
        List.sum_cons.trans (congrArg (· + _) (if_pos (by omega)))
      rw [hcount] at h ⊢
      obtain ⟨units, hfill, hlen⟩ := @ih (usedLength + 1) (by omega)
      rw [if_neg hch, if_neg (by omega), hfill]
      exact ⟨_, rfl, by rw [List.length_cons, hlen, Nat.add_comm]⟩

theorem unitCount_bmp {decomposed : List Nat} (h : ∀ d ∈ decomposed, d ≤ 0xFFFF) :
    unitCount decomposed = decomposed.length := by
  induction decomposed with
  | nil => rfl
  | cons ch decomposed ih =>
    obtain ⟨hch, hrest⟩ := List.forall_mem_cons.mp h
    have hcount : unitCount (ch :: decomposed) = 1 + unitCount decomposed :=
      List.sum_cons.trans (congrArg (· + _) (if_pos (by omega)))
    rw [hcount, ih hrest, List.length_cons, Nat.add_comm]

/-- What a converter that writes has written is what it says it used. -/
def Conversion.Exact (maxCharLen : Nat) (done : Conversion UniChar) : Prop :=
  maxCharLen ≠ 0 → done.output.length = done.used

theorem Conversion.Exact.append {maxCharLen : Nat} {done : Conversion UniChar} (h : done.Exact maxCharLen)
    (units : List UniChar) :
    ({ done with
      used := done.used + units.length
      output := if maxCharLen ≠ 0 then done.output ++ units else done.output } : Conversion UniChar).Exact maxCharLen :=
  fun hne => by simp only [if_pos hne, List.length_append, h hne]

/-- The units of a character are those that are counted for it. -/
theorem putUnits_counted {ch maxCharLen : Nat} {done : Conversion UniChar} (hexact : done.Exact maxCharLen)
    (hcounted : Counted decomposition flags ch)
    (hroom : maxCharLen = 0 ∨ done.used + countUnits decomposition flags ch ≤ maxCharLen) :
    ∃ done', putUnits decomposition flags maxCharLen ch done = some done' ∧
      done'.used = done.used + countUnits decomposition flags ch ∧ done'.Exact maxCharLen := by
  have hbmp := hcounted.2
  unfold countUnits at hroom
  unfold putUnits countUnits
  generalize hdec : ((flags.useCanonical || flags.useHFSPlusCanonical) &&
    decomposition.isDecomposableCharacter ch flags.useHFSPlusCanonical) = decomposes at *
  generalize decomposition.decomposeCharacter ch = decomposed at *
  simp only [hdec] at hroom ⊢
  by_cases hch : ch ≤ 0xFFFF
  · simp only [if_pos hch] at hroom ⊢
    cases decomposes with
    | true =>
      simp only [↓reduceIte] at hroom ⊢
      have hcount := unitCount_bmp (hbmp hch rfl)
      by_cases hz : maxCharLen = 0
      · rw [if_neg (not_not.mpr hz)]
        exact ⟨_, rfl, rfl, fun hne => absurd hz hne⟩
      · obtain ⟨units, hfill, hlen⟩ := fillDestinationBuffer_eq (hcount.symm ▸ hroom.resolve_left hz)
        rw [if_pos hz, hfill]
        exact ⟨_, rfl, congrArg (done.used + ·) (hlen.trans hcount), hexact.append units⟩
    | false => exact ⟨_, rfl, rfl, hexact.append _⟩
  · simp only [if_neg hch] at hroom ⊢
    by_cases hmax : ch > 0x10FFFF
    · simp only [if_pos hmax]
      exact ⟨_, rfl, rfl, hexact.append _⟩
    · simp only [if_neg hmax] at hroom ⊢
      cases decomposes with
      | true =>
        simp only [↓reduceIte] at hroom ⊢
        by_cases hz : maxCharLen = 0
        · rw [if_neg (not_not.mpr hz)]
          exact ⟨_, rfl, rfl, fun hne => absurd hz hne⟩
        · obtain ⟨units, hfill, hlen⟩ := fillDestinationBuffer_eq (hroom.resolve_left hz)
          rw [if_pos hz, hfill]
          exact ⟨_, rfl, congrArg (done.used + ·) hlen, hexact.append units⟩
      | false =>
        simp only [Bool.false_eq_true, ↓reduceIte] at hroom ⊢
        rw [if_neg (by omega)]
        exact ⟨_, rfl, rfl, hexact.append _⟩

/-- A step of the count over a character. -/
theorem fromUTF8LenLoop_decoded {source : List UInt8} {used ch extra : Nat} (h : nextSequence flags source = .decoded ch extra) :
    fromUTF8LenLoop decomposition flags source used =
      if !flags.useHFSPlusCanonical && (0xD800 ≤ ch && ch ≤ 0xDFFF) then used
      else fromUTF8LenLoop decomposition flags (source.drop (extra + 1)) (used + countUnits decomposition flags ch) := by
  rw [fromUTF8LenLoop]
  split
  · rename_i h'
    exact Sequence.noConfusion (h.symm.trans h')
  · rename_i h'
    exact Sequence.noConfusion (h.symm.trans h')
  · rename_i h'
    obtain ⟨rfl, rfl⟩ := Sequence.decoded.inj (h.symm.trans h')
    rfl

theorem fromUTF8LenLoop_replaced {head : UInt8} {tail : List UInt8} {used : Nat}
    (h : nextSequence flags (head :: tail) = .replaced) :
    fromUTF8LenLoop decomposition flags (head :: tail) used = fromUTF8LenLoop decomposition flags tail (used + 1) := by
  rw [fromUTF8LenLoop]
  split
  · rename_i h'
    exact Sequence.noConfusion (h.symm.trans h')
  · rfl
  · rename_i h'
    exact Sequence.noConfusion (h.symm.trans h')

theorem fromUTF8LenLoop_stop {source : List UInt8} {used : Nat} (h : nextSequence flags source = .stop) :
    fromUTF8LenLoop decomposition flags source used = used := by
  rw [fromUTF8LenLoop]
  split
  · rfl
  · rename_i h'
    exact Sequence.noConfusion (h.symm.trans h')
  · rename_i h'
    exact Sequence.noConfusion (h.symm.trans h')

theorem AllCounted.decoded {source : List UInt8} {ch extra : Nat} (hall : AllCounted decomposition flags source)
    (h : nextSequence flags source = .decoded ch extra) :
    Counted decomposition flags ch ∧ AllCounted decomposition flags (source.drop (extra + 1)) := by
  rw [AllCounted] at hall
  split at hall
  · rename_i h'
    exact Sequence.noConfusion (h.symm.trans h')
  · rename_i h'
    exact Sequence.noConfusion (h.symm.trans h')
  · rename_i h'
    obtain ⟨rfl, rfl⟩ := Sequence.decoded.inj (h.symm.trans h')
    exact hall

theorem AllCounted.replaced {head : UInt8} {tail : List UInt8} (hall : AllCounted decomposition flags (head :: tail))
    (h : nextSequence flags (head :: tail) = .replaced) : AllCounted decomposition flags tail := by
  rw [AllCounted] at hall
  split at hall
  · rename_i h'
    exact Sequence.noConfusion (h.symm.trans h')
  · exact hall
  · rename_i h'
    exact Sequence.noConfusion (h.symm.trans h')

theorem fromUTF8LenLoop_mono (source : List UInt8) (used : Nat) :
    used ≤ fromUTF8LenLoop decomposition flags source used := by
  induction hn : source.length using Nat.strong_induction_on generalizing source used with
  | _ n ih =>
    cases hnext : nextSequence flags source with
    | stop => rw [fromUTF8LenLoop_stop hnext]
    | replaced =>
      cases source with
      | nil => exact Sequence.noConfusion hnext
      | cons head tail =>
        rw [fromUTF8LenLoop_replaced hnext]
        exact Nat.le_of_succ_le (ih tail.length (by rw [← hn]; exact Nat.lt_succ_self _) tail (used + 1) rfl)
    | decoded ch extra =>
      rw [fromUTF8LenLoop_decoded hnext]
      have hlt := nextSequence_consumes hnext
      split
      · exact Nat.le_refl _
      · refine Nat.le_trans (Nat.le_add_right used _) (ih _ ?_ _ _ rfl)
        rw [List.length_drop, ← hn]
        omega

/-- `__CFFromUTF8Len` counts the units `__CFFromUTF8` writes, or counts, when
there is room for them. -/
theorem fromUTF8Loop_used {source : List UInt8} {maxCharLen : Nat} {done : Conversion UniChar}
    (hall : AllCounted decomposition flags source) (hexact : done.Exact maxCharLen)
    (hroom : maxCharLen = 0 ∨ fromUTF8LenLoop decomposition flags source done.used ≤ maxCharLen) :
    (fromUTF8Loop decomposition flags maxCharLen source done).used =
        fromUTF8LenLoop decomposition flags source done.used ∧
      (fromUTF8Loop decomposition flags maxCharLen source done).Exact maxCharLen := by
  induction hn : source.length using Nat.strong_induction_on generalizing source done with
  | _ n ih =>
    have hmono : done.used ≤ fromUTF8LenLoop decomposition flags source done.used := fromUTF8LenLoop_mono _ _
    rw [fromUTF8Loop]
    by_cases hfull : maxCharLen ≠ 0 ∧ maxCharLen ≤ done.used
    · rw [if_pos hfull]
      exact ⟨by omega, hexact⟩
    · rw [if_neg hfull]
      split
      · rename_i hnext
        rw [fromUTF8LenLoop_stop hnext]
        exact ⟨rfl, hexact⟩
      · rename_i hnext
        cases source with
        | nil => exact Sequence.noConfusion hnext
        | cons head tail =>
          rw [fromUTF8LenLoop_replaced hnext] at hroom ⊢
          exact ih tail.length (by rw [← hn]; exact Nat.lt_succ_self _) (hall.replaced hnext) (hexact.append [0xFFFD])
            hroom rfl
      · rename_i ch extra hnext
        have hlt := nextSequence_consumes hnext
        obtain ⟨hcounted, hrest⟩ := hall.decoded hnext
        have hrejected : rejected flags ch = (!flags.useHFSPlusCanonical && (0xD800 ≤ ch && ch ≤ 0xDFFF)) := by
          unfold rejected
          rcases hcounted.1 with hh | hle
          · rw [hh]
            rfl
          · rw [decide_eq_false (Nat.not_lt.mpr hle), Bool.or_false]
        rw [fromUTF8LenLoop_decoded hnext, ← hrejected] at hroom ⊢
        split
        · exact ⟨rfl, hexact⟩
        · rename_i hok
          rw [if_neg hok] at hroom
          have hroom' : maxCharLen = 0 ∨ done.used + countUnits decomposition flags ch ≤ maxCharLen :=
            hroom.imp_right fun h => Nat.le_trans (fromUTF8LenLoop_mono _ _) h
          obtain ⟨done', hput, hused, hexact'⟩ := putUnits_counted hexact hcounted hroom'
          simp only [hput]
          rw [← hused] at hroom ⊢
          refine ih _ ?_ hrest ?_ hroom rfl
          · rw [List.length_drop, ← hn]
            omega
          · exact hexact'

/-- UTF-8 conversion, for every decomposition. The units of characters encode to
their bytes and these decode to the units. A strict decoder consumes and converts
characters and bytes 0xA9 up to where neither is next. The length functions give
what the converters produce: for the encoder when it reads its input to the end
and the bytes fit 32 bits, for the decoder when the characters it finds are
counted as they are written. -/
theorem utf8_conversion (decomposition : Decomposition) :
    (∀ (flags : ConversionFlags) (units : List UniChar), WellFormedUtf16 units → ∃ cs : List Char,
      units = utf16Encode cs ∧
      (∀ maxByteLen, EnoughRoom maxByteLen (cs.map Char.toNat) 0 →
        toUTF8 flags units maxByteLen = ⟨units.length, (utf8Encode cs).length, utf8Encode cs⟩) ∧
      ∀ maxCharLen, units.length ≤ maxCharLen →
        fromUTF8 decomposition strictFlags (utf8Encode cs) maxCharLen =
          ⟨(utf8Encode cs).length, units.length, units⟩) ∧
    (∀ bytes : List UInt8, ∃ (items : List Item) (rest : List UInt8),
      bytes = items.flatMap Item.bytes ++ rest ∧ Stops rest ∧
      ∀ maxCharLen, (items.flatMap Item.units).length ≤ maxCharLen →
        fromUTF8 decomposition strictFlags bytes maxCharLen =
          ⟨(items.flatMap Item.bytes).length, (items.flatMap Item.units).length, items.flatMap Item.units⟩) ∧
    (∀ (flags : ConversionFlags) (units : List UniChar) (maxByteLen : Nat),
      flags.useHFSPlusCanonical = true ∨ WellFormedUtf16 units →
      maxByteLen = 0 ∨ EnoughRoom maxByteLen (codes units) 0 →
      (toUTF8 flags units maxByteLen).used < 2 ^ 32 →
      toUTF8Len flags units = (toUTF8 flags units maxByteLen).used ∧
        (maxByteLen ≠ 0 → (toUTF8 flags units maxByteLen).output.length = (toUTF8 flags units maxByteLen).used)) ∧
    (∀ (flags : ConversionFlags) (bytes : List UInt8) (maxCharLen : Nat), AllCounted decomposition flags bytes →
      maxCharLen = 0 ∨ fromUTF8Len decomposition flags bytes ≤ maxCharLen →
      (fromUTF8 decomposition flags bytes maxCharLen).used = fromUTF8Len decomposition flags bytes ∧
        (maxCharLen ≠ 0 → (fromUTF8 decomposition flags bytes maxCharLen).output.length =
          fromUTF8Len decomposition flags bytes)) := by
  refine ⟨fun flags units hunits => ?_, fun bytes => ?_, fun flags units maxByteLen hread hroom hfits =>
    toUTF8Len_eq flags hread hroom hfits, fun flags bytes maxCharLen hall hroom => ?_⟩
  · obtain ⟨cs, rfl⟩ := (wellFormedUtf16_iff units).mp hunits
    exact ⟨cs, rfl, fun maxByteLen hroom => toUTF8_characters flags cs hroom,
      fun maxCharLen hroom => fromUTF8_characters cs hroom⟩
  · obtain ⟨items, rest, rfl, hrest⟩ := exists_items bytes
    exact ⟨items, rest, rfl, hrest, fun maxCharLen hroom => fromUTF8_items items hrest hroom⟩
  · have hempty : Conversion.Exact maxCharLen ⟨0, 0, []⟩ := fun _ => rfl
    obtain ⟨hused, hexact⟩ := fromUTF8Loop_used hall hempty hroom
    exact ⟨hused, fun hne => (hexact hne).trans hused⟩

theorem head_utf8EncodeChar {c : Char} {bytes : List UInt8} (h : String.utf8EncodeChar c = 0xA9 :: bytes) : False := by
  have hhead : ((0xA9 : UInt8).toNat) = 0xA9 := rfl
  have hbytes := (charBytes_iff c _).mpr h
  cases hbytes <;> omega

/-- A strict decoder consumes the byte 0xA9, with which no character begins. -/
theorem copyright_replaced :
    ¬ ∀ bytes : List UInt8, ∃ (cs : List Char) (rest : List UInt8), bytes = utf8Encode cs ++ rest ∧
      ∀ maxCharLen, (utf16Encode cs).length ≤ maxCharLen →
        (fromUTF8 ⟨fun _ _ => false, fun _ => []⟩ strictFlags bytes maxCharLen).consumed = (utf8Encode cs).length := by
  intro h
  obtain ⟨cs, rest, hbytes, hconsumed⟩ := h [0xA9]
  cases cs with
  | nil =>
    have hread : fromUTF8 ⟨fun _ _ => false, fun _ => []⟩ strictFlags [0xA9] 1 = ⟨1, 1, [0xFFFD]⟩ :=
      fromUTF8_items [.copyright] stops_nil (Nat.le_refl 1)
    have := hconsumed 1 (Nat.zero_le _)
    rw [hread] at this
    exact Nat.one_ne_zero this
  | cons c cs =>
    rw [utf8Encode_cons, List.append_assoc] at hbytes
    obtain ⟨b, bs, hb⟩ := List.exists_cons_of_ne_nil (String.utf8EncodeChar_ne_nil (c := c))
    rw [hb, List.cons_append] at hbytes
    exact head_utf8EncodeChar ((List.cons.inj hbytes).1 ▸ hb)

end CFLite.Strings
