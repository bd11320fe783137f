import CFLite.Strings.ChangeSize

/-!
# Padding a string

`CFStringPad` makes a string shorter, or appends the pad string over and over.

* `padLoop_spec`: what the loop stores, and where;
* `padsRight_iff`: padding is right, and stays in the part that is added, but for
  one relation between the lengths.
-/

namespace CFLite.Strings

open Framework

/-! ## The code -/

/-- The pad string: another string, or the one that is padded. -/
inductive PadString where
  | other (str : CFString)
  | itself

namespace PadString

/-- `__CFStrLength(padString)` -/
def getLength (string : MutableString) : PadString → Nat
  | other str => str.getLength
  | itself => string.length

/-- `__CFStrIsUnicode(padString)` -/
def isUnicode (string : MutableString) : PadString → Bool
  | other str => str.isUnicode
  | itself => string.isUnicode

/-- `CFStringGetCharacters(padString, …)`, where the padded string's contents are
`contents`. -/
def getCharacters (map : CharToUniChar) (contents : List UniChar) (location length : Nat) : PadString → List UniChar
  | other str => str.getCharacters map location length
  | itself => (contents.drop location).take length

/-- `CFStringGetBytes(padString, …)` in the encoding of the bytes. -/
def getBytes (contents : List UInt8) (location length : Nat) : PadString → List UInt8
  | other str =>
    match str.contents with
    | .eightBit bytes => (bytes.drop (str.skipAnyLengthByte + location)).take length
    | .unicode _ => []
  | itself => (contents.drop location).take length

end PadString

/-- The loop of `CFStringPad`: the contents as it leaves them, and the ranges it
stores. With `limited` no more is stored than is left to pad. -/
def padLoop {α : Type} (getPad : List α → Nat → Nat → List α) (padStringLength : Nat) (limited : Bool) :
    Nat → List α → Nat → Nat → Nat → Nat → Option (List α × List CFRange)
  | 0, buffer, _, padRemaining, _, _ => if padRemaining = 0 then some (buffer, []) else none
  | rounds + 1, buffer, contents, padRemaining, indexIntoPad, padLength =>
    if padRemaining = 0 then some (buffer, [])
    else
      let count := if limited then min padLength padRemaining else padLength
      (writeRange buffer contents (getPad buffer indexIntoPad count)).bind fun buffer =>
      (padLoop getPad padStringLength limited rounds buffer (contents + padLength) (padRemaining - padLength) 0
        (if padRemaining - padLength < padLength then padRemaining - padLength else padStringLength)).map fun result =>
      (result.1, ⟨contents, count⟩ :: result.2)

/-- `CFStringPad`: the string, and the ranges of its contents that were stored.
There is no result where it would write outside the contents. -/
def pad (alloc : ContentsAllocator) (map : CharToUniChar) (string : MutableString) (padString : PadString)
    (length indexIntoPad : Nat) : Option (MutableString × List CFRange) :=
  let originalLength := string.length
  if length < originalLength then
    (string.changeSize alloc map ⟨length, originalLength - length⟩ 0 false).map fun string => (string, [])
  else if originalLength < length then
    let padRemaining := length - originalLength
    let padStringLength := padString.getLength string
    let isUnicode := string.isUnicode || padString.isUnicode string
    (string.changeSize alloc map ⟨originalLength, 0⟩ padRemaining isUnicode).bind fun string =>
    let padLength := padStringLength - indexIntoPad
    let padLength := if padRemaining < padLength then padRemaining else padLength
    match isUnicode, string.contents with
    | true, .unicode characters =>
      (padLoop (fun contents location length => padString.getCharacters map contents location length) padStringLength
        false padRemaining characters originalLength padRemaining indexIntoPad padLength).map fun result =>
      ({ string with contents := .unicode result.1 }, result.2)
    | false, .eightBit bytes =>
      (padLoop (fun contents location length => padString.getBytes contents location length) padStringLength
        true padRemaining (bytes.drop string.skipAnyLengthByte) originalLength padRemaining indexIntoPad
        padLength).map fun result =>
      ({ string with contents := .eightBit (bytes.take string.skipAnyLengthByte ++ result.1) }, result.2)
    | _, _ => none
  else some (string, [])

/-! ## The loop -/

section Loop

variable {α : Type} {getPad : List α → Nat → Nat → List α} {units buffer : List α} {limited : Bool}
  {keep rounds contents padRemaining indexIntoPad padLength : Nat}

/-- The pad string is read as `units`, as long as the first `keep` elements of the
contents are what they are in `buffer`. -/
def ReadsPad (getPad : List α → Nat → Nat → List α) (units : List α) (keep : Nat) (buffer : List α) : Prop :=
  ∀ buffer', buffer'.take keep = buffer.take keep → ∀ location length, location + length ≤ units.length →
    getPad buffer' location length = (units.drop location).take length

theorem ReadsPad.of_take (h : ReadsPad getPad units keep buffer) {buffer' : List α}
    (htake : buffer'.take keep = buffer.take keep) : ReadsPad getPad units keep buffer' :=
  fun _ h' => h _ (h'.trans htake)

/-- A buffer that holds the padding: the units of the pad string from an index
on, in a cycle, and elsewhere what was there. -/
structure Padded (units : List α) (contents padRemaining indexIntoPad : Nat) (buffer buffer' : List α) : Prop where
  length : buffer'.length = buffer.length
  within : ∀ k < padRemaining, buffer'[contents + k]? = units[(indexIntoPad + k) % units.length]?
  outside : ∀ k, k < contents ∨ contents + padRemaining ≤ k → buffer'[k]? = buffer[k]?

/-- One copy of the pad string, or of a part of it. -/
theorem writeRange_pad (count : Nat) (hreads : ReadsPad getPad units keep buffer) (hkeep : keep ≤ contents)
    (hin : indexIntoPad + count ≤ units.length) (hroom : contents + count ≤ buffer.length) :
    ∃ buffer', writeRange buffer contents (getPad buffer indexIntoPad count) = some buffer' ∧
      buffer'.length = buffer.length ∧ ReadsPad getPad units keep buffer' ∧
      (∀ k < count, buffer'[contents + k]? = units[indexIntoPad + k]?) ∧
      ∀ k, k < contents ∨ contents + count ≤ k → buffer'[k]? = buffer[k]? := by
  have hlength : ((units.drop indexIntoPad).take count).length = count := by
    rw [List.length_take, List.length_drop]
    omega
  rw [hreads buffer rfl _ _ hin]
  obtain ⟨buffer', heq, hlength', hget⟩ := @writeRange_spec _ buffer ((units.drop indexIntoPad).take count) contents
    (by rw [hlength]; exact hroom)
  rw [hlength] at hget
  refine ⟨buffer', heq, hlength', hreads.of_take (List.ext_getElem? fun k => ?_), fun k hk => ?_, fun k hk => ?_⟩
  · rw [List.getElem?_take, List.getElem?_take]
    by_cases hk : k < keep
    · rw [if_pos hk, if_pos hk, hget k, if_neg (by omega)]
    · rw [if_neg hk, if_neg hk]
  · rw [hget _, if_pos (by omega), Nat.add_sub_cancel_left, List.getElem?_take_of_lt hk, List.getElem?_drop]
  · rw [hget k, if_neg (by omega)]

/-- A copy up to the end of the pad string, and what is padded from its start after it. -/
theorem Padded.cons {buffer₁ buffer' : List α} {count : Nat} (hlength : buffer₁.length = buffer.length)
    (hstored : ∀ k < count, buffer₁[contents + k]? = units[indexIntoPad + k]?)
    (hkept : ∀ k, k < contents ∨ contents + count ≤ k → buffer₁[k]? = buffer[k]?)
    (hcount : count ≤ padRemaining) (hin : indexIntoPad + count ≤ units.length)
    (hend : indexIntoPad + count = units.length ∨ padRemaining = count)
    (h : Padded units (contents + count) (padRemaining - count) 0 buffer₁ buffer') :
    Padded units contents padRemaining indexIntoPad buffer buffer' where
  length := h.length.trans hlength
  within k hk := by
    by_cases hfirst : k < count
    · rw [h.outside _ (.inl (by omega)), hstored k hfirst, Nat.mod_eq_of_lt (by omega)]
    · have hat := h.within (k - count) (by omega)
      have hindex : contents + count + (k - count) = contents + k := by omega
      have hwrap : indexIntoPad + k = units.length + (k - count) := by omega
      rw [hindex] at hat
      rw [hat, hwrap, Nat.zero_add, Nat.add_mod_left]
  outside k hk := by rw [h.outside k (by omega), hkept k (by omega)]

/-- The outcome of the loop where it stays in the part that is added. -/
def PadsWithin (units : List α) (contents padRemaining indexIntoPad : Nat) (buffer : List α)
    (result : Option (List α × List CFRange)) : Prop :=
  ∃ buffer' stores, result = some (buffer', stores) ∧ Padded units contents padRemaining indexIntoPad buffer buffer' ∧
    ∀ store ∈ stores, contents ≤ store.location ∧ store.location + store.length ≤ contents + padRemaining

theorem padLoop_done (getPad : List α → Nat → Nat → List α) (limited : Bool) (rounds : Nat) (buffer : List α)
    (contents indexIntoPad padLength : Nat) (units : List α) :
    PadsWithin units contents 0 indexIntoPad buffer
      (padLoop getPad units.length limited rounds buffer contents 0 indexIntoPad padLength) := by
  refine ⟨buffer, [], ?_, ⟨rfl, fun k hk => absurd hk (Nat.not_lt_zero k), fun _ _ => rfl⟩, nofun⟩
  cases rounds <;> rw [padLoop, if_pos rfl]

/-- One round of the loop, from the rounds after it. -/
theorem padLoop_round (limited : Bool) (rounds : Nat) {count : Nat} (hreads : ReadsPad getPad units keep buffer)
    (hkeep : keep ≤ contents)
    (hroom : contents + padRemaining ≤ buffer.length) (hpos : padRemaining ≠ 0)
    (heq : (if limited then min padLength padRemaining else padLength) = count) (hcount : count ≤ padRemaining)
    (hin : indexIntoPad + count ≤ units.length) (hend : indexIntoPad + count = units.length ∨ padRemaining = count)
    (hrest : ∀ buffer₁ : List α, ReadsPad getPad units keep buffer₁ → buffer₁.length = buffer.length →
      padRemaining ≠ count → padLength = count → PadsWithin units (contents + count) (padRemaining - count) 0 buffer₁
        (padLoop getPad units.length limited rounds buffer₁ (contents + count) (padRemaining - count) 0
          (if padRemaining - count < count then padRemaining - count else units.length))) :
    PadsWithin units contents padRemaining indexIntoPad buffer
      (padLoop getPad units.length limited (rounds + 1) buffer contents padRemaining indexIntoPad padLength) := by
  obtain ⟨buffer₁, hwrite, hlength, hreads₁, hstored, hkept⟩ :=
    writeRange_pad count hreads hkeep hin (by omega)
  have hafter : ∃ buffer' stores, padLoop getPad units.length limited rounds buffer₁ (contents + padLength)
      (padRemaining - padLength) 0
      (if padRemaining - padLength < padLength then padRemaining - padLength else units.length) =
        some (buffer', stores) ∧
      Padded units (contents + count) (padRemaining - count) 0 buffer₁ buffer' ∧
      ∀ store ∈ stores, contents ≤ store.location ∧ store.location + store.length ≤ contents + padRemaining := by
    by_cases hlast : padRemaining = count
    · have hnone : padRemaining - padLength = 0 := by
        cases limited <;> simp only [Bool.false_eq_true, if_false, if_true] at heq <;> omega
      rw [hnone]
      obtain ⟨buffer', stores, hdone, hpadded, hstores⟩ := padLoop_done getPad limited rounds
        buffer₁ (contents + padLength) 0 (if 0 < padLength then 0 else units.length) units
      have hsame : ∀ k, buffer'[k]? = buffer₁[k]? := fun k => hpadded.outside k (by omega)
      refine ⟨buffer', stores, hdone, ⟨hpadded.length, fun k hk => absurd hk (by omega), fun k _ => hsame k⟩, ?_⟩
      rw [padLoop.eq_def] at hdone
      cases rounds <;> simp only [if_true, Option.some.injEq, Prod.mk.injEq] at hdone <;> rw [← hdone.2] <;> nofun
    · have hsame : padLength = count := by
        cases limited <;> simp only [Bool.false_eq_true, if_false, if_true] at heq <;> omega
      obtain ⟨buffer', stores, hdone, hpadded, hstores⟩ := hrest buffer₁ hreads₁ hlength hlast hsame
      rw [hsame]
      refine ⟨buffer', stores, hdone, hpadded, fun store hstore => ?_⟩
      have hwithin := hstores store hstore
      omega
  obtain ⟨buffer', stores, hdone, hpadded, hstores⟩ := hafter
  refine ⟨buffer', ⟨contents, count⟩ :: stores, ?_, hpadded.cons hlength hstored hkept hcount hin hend, ?_⟩
  · rw [padLoop, if_neg hpos, heq]
    simp only [hwrite, Option.bind_some, hdone, Option.map_some]
  · intro store hstore
    rcases List.mem_cons.mp hstore with rfl | hstore
    · exact ⟨Nat.le_refl _, by dsimp only; omega⟩
    · exact hstores store hstore

/-- Whole copies, and the part that is left at the end. -/
theorem padLoop_whole (hrounds : padRemaining ≤ rounds) (hpad : 0 < units.length) (hle : padLength ≤ units.length)
    (hmin : min padRemaining units.length ≤ padLength) (hlimited : limited = true ∨ padLength ≤ padRemaining)
    (hreads : ReadsPad getPad units keep buffer) (hkeep : keep ≤ contents)
    (hroom : contents + padRemaining ≤ buffer.length) :
    PadsWithin units contents padRemaining 0 buffer
      (padLoop getPad units.length limited rounds buffer contents padRemaining 0 padLength) := by
  induction rounds generalizing buffer contents padRemaining padLength with
  | zero =>
    obtain rfl : padRemaining = 0 := by omega
    exact padLoop_done getPad limited 0 buffer contents 0 padLength units
  | succ rounds ih =>
    by_cases hpos : padRemaining = 0
    · rw [hpos]
      exact padLoop_done getPad limited _ buffer contents 0 padLength units
    · have heq : (if limited then min padLength padRemaining else padLength) = min padRemaining units.length := by
        cases limited with
        | true =>
          rw [if_pos rfl]
          omega
        | false =>
          have hle' := hlimited.resolve_left Bool.false_ne_true
          rw [if_neg Bool.false_ne_true]
          omega
      have hend : 0 + min padRemaining units.length = units.length ∨ padRemaining = min padRemaining units.length := by
        omega
      refine padLoop_round limited rounds hreads hkeep hroom hpos heq (Nat.min_le_left _ _) (by omega) hend
        fun buffer₁ hreads₁ hlength hmore hsame => ?_
      have hwhole : min padRemaining units.length = units.length := by omega
      rw [hwhole] at hmore ⊢
      refine ih (by omega) ?_ ?_ ?_ hreads₁ (by omega) (by omega)
      · split <;> omega
      · split <;> omega
      · by_cases hlt : padRemaining - units.length < units.length
        · rw [if_pos hlt]
          exact .inr (Nat.le_refl _)
        · rw [if_neg hlt]
          exact .inr (by omega)

/-- The lengths with which the loop stores a whole copy where there is no room
for one: after the first copy, there is as much left as that copy had, and less
than the pad string. -/
def Overruns (isUnicode : Bool) (padStringLength indexIntoPad padRemaining : Nat) : Prop :=
  isUnicode = true ∧ padStringLength - indexIntoPad ≤ padRemaining - (padStringLength - indexIntoPad) ∧
    padRemaining - (padStringLength - indexIntoPad) < padStringLength

/-- The loop pads right, unless it overruns. -/
theorem padLoop_spec (limited : Bool) (padRemaining : Nat) (hindex : indexIntoPad < units.length)
    (hlimited : ¬Overruns (!limited) units.length indexIntoPad padRemaining)
    (hreads : ReadsPad getPad units keep buffer)
    (hkeep : keep ≤ contents) (hroom : contents + padRemaining ≤ buffer.length) :
    PadsWithin units contents padRemaining indexIntoPad buffer
      (padLoop getPad units.length limited padRemaining buffer contents padRemaining indexIntoPad
        (min padRemaining (units.length - indexIntoPad))) := by
  by_cases hpos : padRemaining = 0
  · rw [hpos]
    exact padLoop_done getPad limited 0 buffer contents indexIntoPad _ units
  · obtain ⟨rounds, hrounds⟩ := Nat.exists_eq_succ_of_ne_zero hpos
    have heq : (if limited then min (min padRemaining (units.length - indexIntoPad)) padRemaining
        else min padRemaining (units.length - indexIntoPad)) = min padRemaining (units.length - indexIntoPad) := by
      cases limited <;> simp only [Bool.false_eq_true, if_false, if_true]
      omega
    have hend : indexIntoPad + min padRemaining (units.length - indexIntoPad) = units.length ∨
        padRemaining = min padRemaining (units.length - indexIntoPad) := by omega
    have hround := padLoop_round limited rounds hreads hkeep hroom hpos heq (Nat.min_le_left _ _)
      (by omega) hend
    rw [← Nat.succ_eq_add_one, ← hrounds] at hround
    refine hround fun buffer₁ hreads₁ hlength hmore _ => ?_
    have hfirst : min padRemaining (units.length - indexIntoPad) = units.length - indexIntoPad := by omega
    rw [hfirst] at hmore ⊢
    generalize hcount : units.length - indexIntoPad = count at hmore hfirst hlimited ⊢
    refine padLoop_whole (by omega) (by omega) ?_ ?_ ?_ hreads₁ (by omega) (by omega)
    · split <;> omega
    · split <;> omega
    · cases limited with
      | true => exact .inl rfl
      | false =>
        have hno : ¬(count ≤ padRemaining - count ∧ padRemaining - count < units.length) := fun h =>
          hlimited ⟨rfl, by rw [hcount]; exact h⟩
        refine .inr ?_
        split <;> omega

/-- Where it overruns, it stores past the part that is added. -/
theorem padLoop_overruns (limited : Bool) (hindex : indexIntoPad < units.length)
    (hover : Overruns (!limited) units.length indexIntoPad padRemaining) {buffer' : List α} {stores : List CFRange}
    (hsome : padLoop getPad units.length limited padRemaining buffer contents padRemaining indexIntoPad
      (min padRemaining (units.length - indexIntoPad)) = some (buffer', stores)) :
    ∃ store ∈ stores, contents + padRemaining < store.location + store.length := by
  obtain ⟨hunlimited, hleast, hless⟩ := hover
  obtain rfl : limited = false := by
    cases limited
    · rfl
    · cases hunlimited
  have hfirst : min padRemaining (units.length - indexIntoPad) = units.length - indexIntoPad := by omega
  obtain ⟨rounds, hrounds⟩ : ∃ rounds, padRemaining = rounds + 2 := ⟨padRemaining - 2, by omega⟩
  rw [hfirst] at hsome
  generalize hcount : units.length - indexIntoPad = count at hleast hless hsome
  have hmore : padRemaining - count ≠ 0 := by omega
  have hwhole : ¬padRemaining - count < count := by omega
  have hsome' : padLoop getPad units.length false (rounds + 2) buffer contents padRemaining indexIntoPad count =
      some (buffer', stores) := hrounds ▸ hsome
  rw [padLoop, if_neg (by omega), if_neg Bool.false_ne_true, if_neg hwhole] at hsome'
  obtain ⟨buffer₁, -, hrest⟩ := Option.bind_eq_some_iff.mp hsome'
  obtain ⟨result, hresult, hpair⟩ := Option.map_eq_some_iff.mp hrest
  rw [padLoop, if_neg hmore, if_neg Bool.false_ne_true] at hresult
  obtain ⟨buffer₂, -, hrest⟩ := Option.bind_eq_some_iff.mp hresult
  obtain ⟨last, -, rfl⟩ := Option.map_eq_some_iff.mp hrest
  obtain ⟨-, rfl⟩ := Prod.mk.inj hpair
  refine ⟨⟨contents + count, units.length⟩, List.mem_cons_of_mem _ List.mem_cons_self, ?_⟩
  dsimp only
  omega

end Loop

/-! ## Padding -/

namespace PadString

/-- A pad string in order. -/
def WellFormed : PadString → Prop
  | other str => str.WellFormed
  | itself => True

/-- The code units of the pad string. -/
def characters (map : CharToUniChar) (string : MutableString) : PadString → List UniChar
  | other str => str.characters map
  | itself => string.characters map

theorem length_characters (map : CharToUniChar) {string : MutableString} (h : string.WellFormed) {padString : PadString}
    (hpad : padString.WellFormed) : (padString.characters map string).length = padString.getLength string := by
  cases padString with
  | other str =>
    have hpad : str.WellFormed := hpad
    exact hpad.length_characters map
  | itself => exact (h.string.length_characters map).trans h.getLength

end PadString

/-- What `CFStringPad` is to do: the string has the length that is asked for, it
keeps its characters, the units that are added are those of the pad string in a
cycle, and only units that are added are stored. -/
def PadsRight (alloc : ContentsAllocator) (map : CharToUniChar) (string : MutableString) (padString : PadString)
    (length indexIntoPad : Nat) : Prop :=
  ∃ padded stores, pad alloc map string padString length indexIntoPad = some (padded, stores) ∧
    padded.length = length ∧
    (∀ k < string.length, k < length → (padded.characters map)[k]? = (string.characters map)[k]?) ∧
    (∀ i < length - string.length, (padded.characters map)[string.length + i]? =
      (padString.characters map string)[(indexIntoPad + i) % padString.getLength string]?) ∧
    ∀ store ∈ stores, string.length ≤ store.location ∧ store.location + store.length ≤ length

section Padding

variable {alloc : ContentsAllocator} {map : CharToUniChar} {string new : MutableString} {padString : PadString}
  {length indexIntoPad : Nat}

/-- The characters of a string that has been made longer. -/
theorem Spliced.prefix (h : string.WellFormed) {characters : List UniChar} {padRemaining : Nat}
    (hspliced : Spliced (string.characters map) characters ⟨string.length, 0⟩ padRemaining) :
    ∀ k < string.length, characters[k]? = (string.characters map)[k]? := by
  intro k hk
  have hlength := (h.string.length_characters map).trans h.getLength
  obtain ⟨gap, -, rfl⟩ := hspliced
  have htake : k < ((string.characters map).take string.length).length := by
    rw [List.length_take]
    omega
  rw [List.append_assoc, List.getElem?_append_left htake, List.getElem?_take_of_lt hk]

/-- The pad string, read while Unicode contents are padded. -/
theorem reads_unicode (map : CharToUniChar) (h : string.WellFormed) (hpad : padString.WellFormed)
    {characters : List UniChar}
    (hkept : ∀ k < string.length, characters[k]? = (string.characters map)[k]?) :
    ReadsPad (fun contents location length => padString.getCharacters map contents location length)
      (padString.characters map string) string.length characters := by
  intro buffer htake location length hin
  rw [PadString.length_characters map h hpad] at hin
  cases padString with
  | other str => exact str.getCharacters_eq map hin
  | itself =>
    have hin : location + length ≤ string.length := hin
    show (buffer.drop location).take length = ((string.characters map).drop location).take length
    refine List.ext_getElem? fun k => ?_
    rw [List.getElem?_take, List.getElem?_take]
    by_cases hk : k < length
    · have hat : (buffer.take string.length)[location + k]? = (characters.take string.length)[location + k]? :=
        congrArg (fun units => units[location + k]?) htake
      rw [List.getElem?_take_of_lt (by omega), List.getElem?_take_of_lt (by omega)] at hat
      rw [if_pos hk, if_pos hk, List.getElem?_drop, List.getElem?_drop, hat, hkept _ (by omega)]
    · rw [if_neg hk, if_neg hk]

/-- The pad string, read while bytes are padded. -/
theorem reads_eightBit (string : MutableString) (contents : List UInt8) (hpad : padString.WellFormed)
    (height : padString.isUnicode string = false) (hroom : string.length ≤ contents.length) :
    (padString.getBytes contents 0 (padString.getLength string)).length = padString.getLength string ∧
      ReadsPad (fun contents location length => padString.getBytes contents location length)
        (padString.getBytes contents 0 (padString.getLength string)) string.length contents := by
  cases padString with
  | other str =>
    have hpad : str.WellFormed := hpad
    have hholds := hpad.holds
    have height : str.isUnicode = false := height
    cases hc : str.contents with
    | unicode characters =>
      rw [CFString.isUnicode, hc] at height
      cases height
    | eightBit bytes =>
      rw [hc] at hholds
      dsimp only at hholds
      simp only [PadString.getBytes, PadString.getLength, hc, Nat.add_zero]
      have hlength : ((bytes.drop str.skipAnyLengthByte).take str.getLength).length = str.getLength := by
        rw [List.length_take, List.length_drop]
        omega
      refine ⟨hlength, fun buffer _ location length hin => ?_⟩
      rw [hlength] at hin
      rw [List.drop_take, List.take_take, List.drop_drop, Nat.min_eq_left (by omega)]
  | itself =>
    simp only [PadString.getBytes, PadString.getLength, List.drop_zero]
    have hlength : (contents.take string.length).length = string.length := by
      rw [List.length_take]
      omega
    refine ⟨hlength, fun buffer htake location length hin => ?_⟩
    rw [hlength] at hin
    rw [← htake, List.drop_take, List.take_take, Nat.min_eq_left (by omega)]

theorem map_getBytes (h : string.WellFormed) (height : padString.isUnicode string = false) {contents : List UInt8}
    (hkept : ∀ k < string.length, (contents.map map.table)[k]? = (string.characters map)[k]?) :
    (padString.getBytes contents 0 (padString.getLength string)).map map.table = padString.characters map string := by
  cases padString with
  | other str =>
    have height : str.isUnicode = false := height
    cases hc : str.contents with
    | unicode characters =>
      rw [CFString.isUnicode, hc] at height
      cases height
    | eightBit bytes =>
      simp only [PadString.getBytes, PadString.getLength, PadString.characters, hc, Nat.add_zero]
      rw [CFString.characters_eightBit hc]
  | itself =>
    have hlength := (h.string.length_characters map).trans h.getLength
    simp only [PadString.getBytes, PadString.getLength, PadString.characters, List.drop_zero]
    rw [List.map_take]
    refine List.ext_getElem? fun k => ?_
    rw [List.getElem?_take]
    by_cases hk : k < string.length
    · rw [if_pos hk, hkept k hk]
    · rw [if_neg hk, List.getElem?_eq_none (by omega)]

theorem ite_lt_eq_min (m n : Nat) : (if m < n then m else n) = min m n := by
  split <;> omega

/-- Padding that adds to Unicode contents. -/
theorem pads_unicode (h : string.WellFormed) (hpad : padString.WellFormed)
    (hindex : indexIntoPad < padString.getLength string) (hmore : string.length < length)
    (hfits : 6 * length + 7 < 2 ^ 64) (hunicode : (string.isUnicode || padString.isUnicode string) = true) :
    PadsRight alloc map string padString length indexIntoPad ↔
      ¬Overruns true (padString.getLength string) indexIntoPad (length - string.length) := by
  obtain ⟨new, heq, hnew, hlength, hspliced, hisUnicode⟩ := MutableString.changeSize_spec alloc map h
    ⟨string.length, 0⟩ (length - string.length) (Nat.le_refl _)
    (string.isUnicode || padString.isUnicode string) (by dsimp only; omega)
  have hlength : new.length = length := by
    rw [hlength]
    dsimp only
    omega
  have hstorage : new.isUnicode = true := by rw [hisUnicode (by omega), hunicode, Bool.true_or, Bool.true_or]
  have hkept := hspliced.prefix h
  have hholds := hnew.string.holds
  cases hc : new.contents with
  | eightBit bytes =>
    rw [CFString.isUnicode, hc] at hstorage
    cases hstorage
  | unicode characters =>
    have hget : ∀ contents, CFString.characters map { new with contents := .unicode contents }.toCFString =
        contents.take length := by
      intro contents
      rw [CFString.characters_unicode rfl, CFString.getLength, CFString.hasExplicitLength]
      rw [hnew.isMutable, Bool.true_or, if_pos rfl, hlength]
    have hkept : ∀ k < string.length, characters[k]? = (string.characters map)[k]? := by
      intro k hk
      rw [← hkept k hk, hnew.characters_unicode hc, hlength, List.getElem?_take_of_lt (by omega)]
    rw [hc, hnew.getLength, hlength] at hholds
    have hunits := PadString.length_characters map h hpad
    have hreads := reads_unicode map h hpad hkept
    have hpadEq : pad alloc map string padString length indexIntoPad =
        (padLoop (fun contents location length => padString.getCharacters map contents location length)
          (padString.characters map string).length false (length - string.length) characters string.length
          (length - string.length) indexIntoPad
          (min (length - string.length) ((padString.characters map string).length - indexIntoPad))).map fun result =>
        ({ new with contents := .unicode result.1 }, result.2) := by
      rw [pad, if_neg (by omega), if_pos hmore]
      dsimp only
      rw [heq, Option.bind_some]
      simp only [hunicode, hc]
      rw [ite_lt_eq_min, hunits]
    rw [← hunits] at hindex ⊢
    constructor
    · rintro ⟨padded, stores, hpadded, -, -, -, hstores⟩ hover
      rw [hpadEq] at hpadded
      obtain ⟨⟨buffer, stores⟩, hloop, hpair⟩ := Option.map_eq_some_iff.mp hpadded
      obtain ⟨-, rfl⟩ := Prod.mk.inj hpair
      obtain ⟨store, hstore, hpast⟩ := padLoop_overruns false hindex hover hloop
      have hwithin := hstores store hstore
      omega
    · intro hover
      have hroom : string.length + (length - string.length) ≤ characters.length := by
        dsimp only at hholds
        omega
      obtain ⟨buffer, stores, hloop, hpadded, hstores⟩ :=
        padLoop_spec false _ hindex hover hreads (Nat.le_refl _) hroom
      refine ⟨{ new with contents := .unicode buffer }, stores, by rw [hpadEq, hloop]; rfl, hlength,
        fun k hk hk' => ?_, fun i hi => ?_, fun store hstore => ?_⟩
      · rw [hget, List.getElem?_take_of_lt hk', hpadded.outside k (.inl hk), hkept k hk]
      · rw [hget, List.getElem?_take_of_lt (by omega), hpadded.within i hi, hunits]
      · have hwithin := hstores store hstore
        omega

/-- Padding that adds bytes is always right. -/
theorem pads_eightBit (h : string.WellFormed) (hpad : padString.WellFormed)
    (hindex : indexIntoPad < padString.getLength string) (hmore : string.length < length)
    (hfits : 6 * length + 7 < 2 ^ 64) (hunicode : (string.isUnicode || padString.isUnicode string) = false) :
    PadsRight alloc map string padString length indexIntoPad := by
  obtain ⟨hstring, height⟩ := Bool.or_eq_false_iff.mp hunicode
  obtain ⟨new, heq, hnew, hlength, hspliced, hisUnicode⟩ := MutableString.changeSize_spec alloc map h
    ⟨string.length, 0⟩ (length - string.length) (Nat.le_refl _)
    (string.isUnicode || padString.isUnicode string) (by dsimp only; omega)
  have hlength : new.length = length := by
    rw [hlength]
    dsimp only
    omega
  have hexternal : string.isExternalMutable = false := by
    by_contra hexternal
    rw [h.external (by simpa using hexternal)] at hstring
    cases hstring
  have hstorage : new.isUnicode = false := by
    rw [hisUnicode (by omega), hunicode, hstring, hexternal, Bool.or_false, Bool.or_false]
  have hkept := hspliced.prefix h
  have hholds := hnew.string.holds
  cases hc : new.contents with
  | unicode characters =>
    rw [CFString.isUnicode, hc] at hstorage
    cases hstorage
  | eightBit bytes =>
    rw [hc, hnew.getLength, hlength] at hholds
    dsimp only at hholds
    have hget : ∀ contents, CFString.characters map
        { new with contents := .eightBit (bytes.take new.skipAnyLengthByte ++ contents) }.toCFString =
          (contents.take length).map map.table := by
      intro contents
      have hskip : (bytes.take new.skipAnyLengthByte).length = new.skipAnyLengthByte := by
        rw [List.length_take]
        omega
      rw [CFString.characters_eightBit rfl, CFString.getLength, CFString.hasExplicitLength]
      rw [hnew.isMutable, Bool.true_or, if_pos rfl, hlength]
      exact congrArg (fun bytes => (bytes.take length).map map.table) (List.drop_left' hskip)
    have hkept : ∀ k < string.length,
        ((bytes.drop new.skipAnyLengthByte).map map.table)[k]? = (string.characters map)[k]? := by
      intro k hk
      rw [← hkept k hk, hnew.characters_eightBit hc, hlength, List.map_take, List.getElem?_take_of_lt (by omega)]
    have hroom : string.length + (length - string.length) ≤ (bytes.drop new.skipAnyLengthByte).length := by
      rw [List.length_drop]
      omega
    obtain ⟨hunits, hreads⟩ := reads_eightBit string (bytes.drop new.skipAnyLengthByte)
      hpad height (by omega)
    have hmap := map_getBytes h height hkept
    have hpadEq : pad alloc map string padString length indexIntoPad =
        (padLoop (fun contents location length => padString.getBytes contents location length)
          (padString.getBytes (bytes.drop new.skipAnyLengthByte) 0 (padString.getLength string)).length true
          (length - string.length) (bytes.drop new.skipAnyLengthByte) string.length (length - string.length)
          indexIntoPad (min (length - string.length) ((padString.getBytes (bytes.drop new.skipAnyLengthByte) 0
            (padString.getLength string)).length - indexIntoPad))).map fun result =>
        ({ new with contents := .eightBit (bytes.take new.skipAnyLengthByte ++ result.1) }, result.2) := by
      rw [pad, if_neg (by omega), if_pos hmore]
      dsimp only
      rw [heq, Option.bind_some]
      simp only [hunicode, hc]
      rw [ite_lt_eq_min, hunits]
    rw [← hunits] at hindex
    obtain ⟨buffer, stores, hloop, hpadded, hstores⟩ := padLoop_spec true
      (length - string.length) hindex (fun hover => Bool.false_ne_true hover.1) hreads (Nat.le_refl _) hroom
    refine ⟨{ new with contents := .eightBit (bytes.take new.skipAnyLengthByte ++ buffer) }, stores,
      by rw [hpadEq, hloop]; rfl, hlength, fun k hk hk' => ?_, fun i hi => ?_, fun store hstore => ?_⟩
    · rw [hget, List.map_take, List.getElem?_take_of_lt hk', List.getElem?_map, hpadded.outside k (.inl hk),
        ← List.getElem?_map, hkept k hk]
    · rw [hget, List.map_take, List.getElem?_take_of_lt (by omega), List.getElem?_map, hpadded.within i hi,
        ← List.getElem?_map, hmap, hunits]
    · have hwithin := hstores store hstore
      omega

/-- `CFStringPad` is right but where both strings are not bytes, and what is left
after the first part of the pad string is at least as long as that part, and
shorter than the pad string. -/
theorem padsRight_iff (alloc : ContentsAllocator) (map : CharToUniChar) (h : string.WellFormed)
    (hpad : padString.WellFormed) (hindex : indexIntoPad < padString.getLength string)
    (hfits : 6 * length + 7 < 2 ^ 64) :
    PadsRight alloc map string padString length indexIntoPad ↔
      ¬Overruns (string.isUnicode || padString.isUnicode string) (padString.getLength string) indexIntoPad
        (length - string.length) := by
  by_cases hmore : string.length < length
  · cases hunicode : string.isUnicode || padString.isUnicode string with
    | true => exact pads_unicode h hpad hindex hmore hfits hunicode
    | false =>
      exact ⟨fun _ hover => Bool.false_ne_true hover.1, fun _ => pads_eightBit h hpad hindex hmore hfits hunicode⟩
  · have hnone : length - string.length = 0 := by omega
    have hover : ¬Overruns (string.isUnicode || padString.isUnicode string) (padString.getLength string) indexIntoPad
        (length - string.length) := by
      rintro ⟨-, hleast, -⟩
      omega
    refine iff_of_true ?_ hover
    by_cases hless : length < string.length
    · obtain ⟨new, heq, hnew, hlength, hspliced, -⟩ := MutableString.changeSize_spec alloc map h
        ⟨length, string.length - length⟩ 0 (by dsimp only; omega) false (by dsimp only; omega)
      refine ⟨new, [], by rw [pad, if_pos hless, heq]; rfl, by rw [hlength]; dsimp only; omega, fun k _ hk => ?_,
        fun i hi => by omega, nofun⟩
      obtain ⟨gap, -, hcharacters⟩ := hspliced
      have htake : k < ((string.characters map).take length).length := by
        rw [List.length_take, h.string.length_characters, h.getLength]
        omega
      rw [hcharacters, List.append_assoc, List.getElem?_append_left htake, List.getElem?_take_of_lt hk]
    · obtain rfl : length = string.length := by omega
      exact ⟨string, [], by rw [pad, if_neg hless, if_neg hmore], rfl, fun _ _ _ => rfl, fun i hi => by omega, nofun⟩

end Padding

/-- An empty string is padded with "ab", from the "b" on. -/
theorem padsRight_iff_letters :
    PadsRight exactAllocator CharToUniChar.initial emptyMutable (.other (inlineEightBit [0x61, 0x62])) 5 1 ↔
      ¬Overruns false 2 1 5 :=
  @padsRight_iff emptyMutable (.other (inlineEightBit [0x61, 0x62])) 5 1 exactAllocator CharToUniChar.initial
    (MutableString.wellFormed_eightBit rfl rfl rfl rfl rfl rfl (fun _ => rfl) nofun)
    (inlineEightBit_wellFormed (by decide)) (by decide) (by decide)

/-- "x" in Unicode is padded with "abc" from the "c" on, to four units: the copy
of "abc" after the "c" is stored where there is room for "ab". -/
theorem padsRight_abc :
    ¬PadsRight exactAllocator CharToUniChar.initial
      { emptyMutable with contents := .unicode [0x78], length := 1, capacity := 2 }
      (.other (inlineEightBit [0x61, 0x62, 0x63])) 4 2 := by
  rintro ⟨padded, stores, hpad, -, -, -, hstores⟩
  have hstored : some [⟨1, 1⟩, ⟨2, 3⟩] = some stores := congrArg (Option.map Prod.snd) hpad
  rw [← Option.some.inj hstored] at hstores
  have hpast := (hstores ⟨2, 3⟩ (List.mem_cons_of_mem _ List.mem_cons_self)).2
  exact absurd hpast (by decide)

end CFLite.Strings
