import CFLite.Strings.UTF8

/-!
# What the UTF-8 encoder writes

* `utf8Bytes_char`: the bytes of a character are those of UTF-8;
* `toUTF8Loop_spec`: the loop writes, or counts, the bytes of every character of
  its input when there is room for each and a strict conversion has no surrogate
  to stop at;
* `toUTF8LenLoop_spec`: the count of the bytes, while it fits 32 bits.
-/

namespace CFLite.Strings

open Framework

/-! ## The bytes of one character -/

theorem or_and_mark (ch : Nat) : (ch ||| 0x80) &&& 0xBF = ch % 64 + 0x80 := by
  have hlow : ∀ x : Fin 256, (x.val ||| 0x80) &&& 0xBF = x.val % 64 + 0x80 := by decide +kernel
  have hlt : (ch ||| 0x80) &&& 0xBF < 2 ^ 8 := Nat.and_lt_two_pow _ (by decide)
  calc (ch ||| 0x80) &&& 0xBF
    _ = ((ch ||| 0x80) &&& 0xBF) % 2 ^ 8 := (Nat.mod_eq_of_lt hlt).symm
    _ = (ch % 2 ^ 8 ||| 0x80) &&& 0xBF := by rw [Nat.and_mod_two_pow, Nat.or_mod_two_pow]
    _ = ch % 2 ^ 8 % 64 + 0x80 := hlow ⟨ch % 2 ^ 8, Nat.mod_lt _ (by decide)⟩
    _ = ch % 64 + 0x80 := by omega

theorem or_lead {ch : Nat} : (ch < 32 → ch ||| 0xC0 = ch % 32 + 0xC0) ∧ (ch < 16 → ch ||| 0xE0 = ch % 16 + 0xE0) ∧
    (ch < 8 → ch ||| 0xF0 = ch % 8 + 0xF0) := by
  have h2 : ∀ x : Fin 32, x.val ||| 0xC0 = x.val % 32 + 0xC0 := by decide
  have h3 : ∀ x : Fin 16, x.val ||| 0xE0 = x.val % 16 + 0xE0 := by decide
  have h4 : ∀ x : Fin 8, x.val ||| 0xF0 = x.val % 8 + 0xF0 := by decide
  exact ⟨fun h => h2 ⟨ch, h⟩, fun h => h3 ⟨ch, h⟩, fun h => h4 ⟨ch, h⟩⟩

/-- The bytes the converter writes for a character when there is room. -/
def utf8Bytes (ch : Nat) : List UInt8 :=
  if ch < 0x80 then [UInt8.ofNat ch]
  else writeBytes (firstByteMark.getD (bytesToWriteForCharacter ch) 0) (bytesToWriteForCharacter ch) ch []

theorem utf8Bytes_char (c : Char) : utf8Bytes c.toNat = String.utf8EncodeChar c := by
  have hvalid := char_valid c
  unfold utf8Bytes String.utf8EncodeChar
  show _ = if c.toNat ≤ 0x7F then _ else if c.toNat ≤ 0x7FF then _ else if c.toNat ≤ 0xFFFF then _ else _
  by_cases h1 : c.toNat < 0x80
  · rw [if_pos h1, if_pos (by omega)]
    rfl
  by_cases h2 : c.toNat < 0x800
  · have hb : bytesToWriteForCharacter c.toNat = 2 := by
      rw [bytesToWriteForCharacter, if_neg h1, if_pos h2]
    rw [if_neg h1, if_neg (by omega), if_pos (by omega), hb]
    simp only [writeBytes, firstByteMark, List.getD_cons_succ, List.getD_cons_zero, or_and_mark, Nat.shiftRight_eq_div_pow]
    rw [or_lead.1 (by omega)]
    rfl
  by_cases h3 : c.toNat < 0x10000
  · have hb : bytesToWriteForCharacter c.toNat = 3 := by
      rw [bytesToWriteForCharacter, if_neg h1, if_neg h2, if_pos h3]
    rw [if_neg h1, if_neg (by omega), if_neg (by omega), if_pos (by omega), hb]
    simp only [writeBytes, firstByteMark, List.getD_cons_succ, List.getD_cons_zero, or_and_mark, Nat.shiftRight_eq_div_pow,
      Nat.div_div_eq_div_mul]
    rw [or_lead.2.1 (by omega)]
    rfl
  · have hb : bytesToWriteForCharacter c.toNat = 4 := by
      rw [bytesToWriteForCharacter, if_neg h1, if_neg h2, if_neg h3, if_pos (by omega)]
    rw [if_neg h1, if_neg (by omega), if_neg (by omega), if_neg (by omega), hb]
    simp only [writeBytes, firstByteMark, List.getD_cons_succ, List.getD_cons_zero, or_and_mark, Nat.shiftRight_eq_div_pow,
      Nat.div_div_eq_div_mul]
    rw [or_lead.2.2 (by omega)]
    rfl

theorem length_writeBytes (mark n ch : Nat) (bytes : List UInt8) :
    (writeBytes mark n ch bytes).length = n + bytes.length := by
  induction n, ch, bytes using writeBytes.induct with
  | case1 => rw [writeBytes, Nat.zero_add]
  | case2 ch bytes => rw [writeBytes, List.length_cons, Nat.add_comm]
  | case3 ch bytes n ih =>
    rw [writeBytes, ih, List.length_cons]
    omega

theorem length_utf8Bytes (ch : Nat) : (utf8Bytes ch).length = bytesToWriteForCharacter ch := by
  unfold utf8Bytes
  split
  · rename_i h
    rw [bytesToWriteForCharacter, if_pos h]
    rfl
  · rw [length_writeBytes, List.length_nil, Nat.add_zero]

/-! ## The characters of the input -/

/-- The characters of a sequence of units, the surrogates without their other
half among them. -/
def codes : List UniChar → List Nat
  | [] => []
  | unit :: characters =>
    match characters with
    | low :: rest =>
      if IsHighSurrogate unit.toNat ∧ IsLowSurrogate low.toNat then
        ((unit.toNat - 0xD800) <<< 10 + (low.toNat - 0xDC00) + 0x10000) :: codes rest
      else unit.toNat :: codes (low :: rest)
    | [] => [unit.toNat]

example : codes [0x41, 0xD83D, 0xDE00] = [0x41, 0x1F600] := by simp [codes, IsHighSurrogate, IsLowSurrogate]

/-- The bytes of characters in UTF-8. -/
def byteCount (chs : List Nat) : Nat := (chs.map bytesToWriteForCharacter).sum

/-- There is room for the bytes of each character, the room left being taken as
the 32-bit number that `__CFToUTF8Core` gets. -/
def EnoughRoom (maxByteLen : Nat) : List Nat → (used : Nat) → Prop
  | [], _ => True
  | ch :: chs, used =>
    used < maxByteLen ∧ (0x80 ≤ ch → bytesToWriteForCharacter ch ≤ (maxByteLen - used) % 2 ^ 32) ∧
      EnoughRoom maxByteLen chs (used + bytesToWriteForCharacter ch)

theorem bytesToWrite_pos {ch : Nat} (h : ch < 0x110000) : bytesToWriteForCharacter ch ≠ 0 := by
  unfold bytesToWriteForCharacter
  repeat' split
  all_goals omega

theorem enoughRoom_of_le {maxByteLen : Nat} (hmax : maxByteLen < 2 ^ 32) {chs : List Nat} (hchs : ∀ ch ∈ chs, ch < 0x110000)
    {used : Nat} (h : used + byteCount chs ≤ maxByteLen) : EnoughRoom maxByteLen chs used := by
  induction chs generalizing used with
  | nil => trivial
  | cons ch chs ih =>
    obtain ⟨hch, hchs⟩ := List.forall_mem_cons.mp hchs
    have hpos := bytesToWrite_pos hch
    have hcount : byteCount (ch :: chs) = bytesToWriteForCharacter ch + byteCount chs := List.sum_cons
    rw [hcount] at h
    refine ⟨by omega, fun _ => ?_, ih hchs (by omega)⟩
    rw [Nat.mod_eq_of_lt (by omega)]
    omega

/-! ## The loops -/

theorem toUTF8Core_eq {ch maxByteLen : Nat} (hch : ch < 0x110000) (h80 : ¬ ch < 0x80)
    (hroom : bytesToWriteForCharacter ch ≤ maxByteLen) : toUTF8Core ch maxByteLen = utf8Bytes ch := by
  simp only [toUTF8Core, if_neg (bytesToWrite_pos hch)]
  rw [if_neg (Nat.not_lt.mpr hroom), utf8Bytes, if_neg h80]

/-- What writing a character leaves. -/
def Conversion.put (maxByteLen ch : Nat) (done : Conversion UInt8) : Conversion UInt8 :=
  { done with
    used := done.used + bytesToWriteForCharacter ch
    output := if maxByteLen ≠ 0 then done.output ++ utf8Bytes ch else done.output }

theorem putCharacter_eq {maxByteLen ch : Nat} {done : Conversion UInt8} (hch : ch < 0x110000) (h80 : ¬ ch < 0x80)
    (hroom : maxByteLen = 0 ∨ bytesToWriteForCharacter ch ≤ (maxByteLen - done.used) % 2 ^ 32) :
    putCharacter maxByteLen ch done = some (done.put maxByteLen ch) := by
  unfold putCharacter Conversion.put
  by_cases hm : maxByteLen = 0
  · simp only [hm, ne_eq, not_true_eq_false, ↓reduceIte, List.append_nil, bytesToWrite_pos hch]
  · simp only [ne_eq, hm, not_false_eq_true, ↓reduceIte, toUTF8Core_eq hch h80 (hroom.resolve_left hm), length_utf8Bytes,
      bytesToWrite_pos hch]

/-- The characters read and the bytes written, from what was done before. -/
def Conversion.putAll (maxByteLen count : Nat) (chs : List Nat) (done : Conversion UInt8) : Conversion UInt8 where
  consumed := done.consumed + count
  used := done.used + byteCount chs
  output := if maxByteLen ≠ 0 then done.output ++ chs.flatMap utf8Bytes else done.output

theorem putAll_put {maxByteLen count n ch : Nat} {chs : List Nat} {done : Conversion UInt8} :
    ({ done.put maxByteLen ch with consumed := done.consumed + n }).putAll maxByteLen count chs =
      done.putAll maxByteLen (n + count) (ch :: chs) := by
  unfold Conversion.putAll Conversion.put byteCount
  split <;> simp only [List.map_cons, List.sum_cons, List.flatMap_cons, List.append_assoc, Nat.add_assoc]

theorem unit_lt (unit : UniChar) : unit.toNat < 0x110000 := Nat.lt_trans unit.toNat_lt (by decide)

/-- A unit below 0x80 is a byte of its own. -/
theorem utf8Bytes_ascii {unit : UniChar} (h : unit.toNat < 0x80) :
    utf8Bytes unit.toNat = [unit.toUInt8] ∧ bytesToWriteForCharacter unit.toNat = 1 :=
  ⟨if_pos h, if_pos h⟩

/-- There is room for a character, or the bytes are only counted. -/
def HasRoom (maxByteLen ch used : Nat) : Prop :=
  maxByteLen = 0 ∨ (used < maxByteLen ∧ (0x80 ≤ ch → bytesToWriteForCharacter ch ≤ (maxByteLen - used) % 2 ^ 32))

theorem HasRoom.continues {maxByteLen ch used : Nat} (h : HasRoom maxByteLen ch used) :
    ¬ (maxByteLen ≠ 0 ∧ maxByteLen ≤ used) := by
  rintro ⟨hne, hle⟩
  rcases h with hz | hlt
  · exact hne hz
  · exact absurd hle (Nat.not_le.mpr hlt.1)

theorem HasRoom.put {maxByteLen ch : Nat} {done : Conversion UInt8} (h : HasRoom maxByteLen ch done.used)
    (hch : ch < 0x110000) (h80 : ¬ ch < 0x80) : putCharacter maxByteLen ch done = some (done.put maxByteLen ch) :=
  putCharacter_eq hch h80 (h.imp_right fun h => h.2 (Nat.not_lt.mp h80))

/-- A step over a unit that is a character of its own. -/
theorem toUTF8Loop_single {isStrict : Bool} {maxByteLen : Nat} {unit : UniChar} {characters : List UniChar}
    {done : Conversion UInt8} (hnext : nextCharacter isStrict unit characters = some (unit.toNat, false))
    (hroom : HasRoom maxByteLen unit.toNat done.used) :
    toUTF8Loop isStrict maxByteLen (unit :: characters) done =
      toUTF8Loop isStrict maxByteLen characters { done.put maxByteLen unit.toNat with consumed := done.consumed + 1 } := by
  rw [toUTF8Loop, if_neg hroom.continues]
  by_cases h80 : unit.toNat < 0x80
  · rw [if_pos h80, Conversion.put, (utf8Bytes_ascii h80).1, (utf8Bytes_ascii h80).2]
  · rw [if_neg h80]
    simp only [hnext, hroom.put (unit_lt unit) h80, Bool.false_eq_true, ↓reduceIte]
    rfl

/-- A step over a pair of surrogates. -/
theorem toUTF8Loop_pair {isStrict : Bool} {maxByteLen ch : Nat} {unit low : UniChar} {characters : List UniChar}
    {done : Conversion UInt8} (hnext : nextCharacter isStrict unit (low :: characters) = some (ch, true))
    (hunit : IsHighSurrogate unit.toNat) (hlow : 0x80 ≤ ch) (hch : ch < 0x110000)
    (hroom : HasRoom maxByteLen ch done.used) :
    toUTF8Loop isStrict maxByteLen (unit :: low :: characters) done =
      toUTF8Loop isStrict maxByteLen characters { done.put maxByteLen ch with consumed := done.consumed + 2 } := by
  have h80 : ¬ unit.toNat < 0x80 := by
    unfold IsHighSurrogate at hunit
    omega
  rw [toUTF8Loop, if_neg hroom.continues, if_neg h80]
  simp only [hnext, hroom.put hch (Nat.not_lt.mpr hlow), ↓reduceIte]
  rfl

theorem pair_bounds {high low : UniChar} (h : IsHighSurrogate high.toNat ∧ IsLowSurrogate low.toNat) :
    0x10000 ≤ (high.toNat - 0xD800) <<< 10 + (low.toNat - 0xDC00) + 0x10000 ∧
      (high.toNat - 0xD800) <<< 10 + (low.toNat - 0xDC00) + 0x10000 < 0x110000 := by
  obtain ⟨hhigh, hlow⟩ := h
  unfold IsHighSurrogate at hhigh
  unfold IsLowSurrogate at hlow
  rw [Nat.shiftLeft_eq]
  omega

theorem codes_lt (units : List UniChar) : ∀ ch ∈ codes units, ch < 0x110000 := by
  induction units using codes.induct with
  | case1 => exact nofun
  | case2 unit low rest hpair ih =>
    rw [codes, if_pos hpair, List.forall_mem_cons]
    exact ⟨(pair_bounds hpair).2, ih⟩
  | case3 unit low rest hpair ih =>
    rw [codes, if_neg hpair, List.forall_mem_cons]
    exact ⟨unit_lt unit, ih⟩
  | case4 unit =>
    rw [codes, List.forall_mem_singleton]
    exact unit_lt unit

theorem EnoughRoom.head {maxByteLen ch used : Nat} {chs : List Nat}
    (h : maxByteLen = 0 ∨ EnoughRoom maxByteLen (ch :: chs) used) :
    HasRoom maxByteLen ch used ∧
      (maxByteLen = 0 ∨ EnoughRoom maxByteLen chs (used + bytesToWriteForCharacter ch)) := by
  rcases h with hz | ⟨hlt, hroom, hrest⟩
  · exact ⟨.inl hz, .inl hz⟩
  · exact ⟨.inr ⟨hlt, hroom⟩, .inr hrest⟩

/-- The loop of `__CFToUTF8` over units it has room for, none of which it stops at. -/
theorem toUTF8Loop_spec {isStrict : Bool} {maxByteLen : Nat} {units : List UniChar} {done : Conversion UInt8}
    (hread : isStrict = true → WellFormedUtf16 units)
    (hroom : maxByteLen = 0 ∨ EnoughRoom maxByteLen (codes units) done.used) :
    toUTF8Loop isStrict maxByteLen units done = done.putAll maxByteLen units.length (codes units) := by
  induction units using codes.induct generalizing done with
  | case1 =>
    unfold toUTF8Loop codes Conversion.putAll
    split <;> simp [byteCount]
  | case2 unit low rest hpair ih =>
    have hbounds := pair_bounds hpair
    rw [codes, if_pos hpair] at hroom ⊢
    obtain ⟨hhead, hrest⟩ := EnoughRoom.head hroom
    have hnext : nextCharacter isStrict unit (low :: rest) =
        some ((unit.toNat - 0xD800) <<< 10 + (low.toNat - 0xDC00) + 0x10000, true) := by
      rw [nextCharacter, if_pos hpair]
    generalize (unit.toNat - 0xD800) <<< 10 + (low.toNat - 0xDC00) + 0x10000 = ch at *
    rw [toUTF8Loop_pair hnext hpair.1 (by omega) hbounds.2 hhead, ih ?_ hrest, putAll_put]
    · rw [List.length_cons, List.length_cons]
      congr 1
      omega
    · intro hs
      have := hread hs
      rw [WellFormedUtf16, if_pos hpair.1] at this
      exact this.2
  | case3 unit low rest hpair ih =>
    rw [codes, if_neg hpair] at hroom ⊢
    obtain ⟨hhead, hrest⟩ := EnoughRoom.head hroom
    have hwf : isStrict = true → (¬ IsHighSurrogate unit.toNat ∧ ¬ IsLowSurrogate unit.toNat) ∧ WellFormedUtf16 (low :: rest) :=
      fun hs => by
        have := hread hs
        rw [WellFormedUtf16] at this
        split at this
        · rename_i hhigh
          exact absurd ⟨hhigh, this.1⟩ hpair
        · rename_i hhigh
          exact ⟨⟨hhigh, this.1⟩, this.2⟩
    have hnext : nextCharacter isStrict unit (low :: rest) = some (unit.toNat, false) := by
      rw [nextCharacter, if_neg hpair, if_neg fun h => h.2.elim (hwf h.1).1.1 (hwf h.1).1.2]
    rw [toUTF8Loop_single hnext hhead, ih (fun hs => (hwf hs).2) hrest, putAll_put]
    rw [List.length_cons (a := unit)]
    congr 1
    omega
  | case4 unit =>
    rw [codes] at hroom ⊢
    obtain ⟨hhead, -⟩ := EnoughRoom.head hroom
    have hnext : nextCharacter isStrict unit [] = some (unit.toNat, false) := by
      rw [nextCharacter]
      exact if_neg fun h => h.2.elim (hread h.1).1 (hread h.1).2
    rw [toUTF8Loop_single hnext hhead, toUTF8Loop]
    unfold Conversion.putAll Conversion.put byteCount
    split <;> simp

theorem putCharacter_consumed {maxByteLen ch : Nat} {done done' : Conversion UInt8}
    (h : putCharacter maxByteLen ch done = some done') : done'.consumed = done.consumed := by
  simp only [putCharacter] at h
  split at h
  · split at h
    · cases h
    · rw [← Option.some.inj h]
  · split at h
    · cases h
    · rw [← Option.some.inj h]

theorem toUTF8Loop_consumed_le (isStrict : Bool) (maxByteLen : Nat) (units : List UniChar) (done : Conversion UInt8) :
    (toUTF8Loop isStrict maxByteLen units done).consumed ≤ done.consumed + units.length := by
  fun_induction toUTF8Loop isStrict maxByteLen units done with
  | case1 | case2 | case4 | case5 => exact Nat.le_add_right _ _
  | case3 => simp only [List.length_cons] at *; omega
  | case6 _ _ _ _ _ _ hput _ _ _ ih =>
    have hconsumed := putCharacter_consumed hput
    simp only [List.length_cons] at *
    omega
  | case7 _ _ _ _ _ _ hput => exact putCharacter_consumed hput ▸ Nat.le_add_right _ _
  | case8 _ _ _ _ _ _ _ _ _ hput _ ih =>
    have hconsumed := putCharacter_consumed hput
    simp only [List.length_cons] at *
    omega

/-- Without room for the next character the loop stops. -/
theorem toUTF8Loop_stuck {isStrict : Bool} {maxByteLen ch : Nat} {unit : UniChar} {characters : List UniChar}
    {done : Conversion UInt8} {pair : Bool} (hnext : nextCharacter isStrict unit characters = some (ch, pair))
    (h80 : unit.toNat < 0x80 → ch = unit.toNat) (hroom : ¬ HasRoom maxByteLen ch done.used) :
    toUTF8Loop isStrict maxByteLen (unit :: characters) done = done := by
  rw [HasRoom, not_or, not_and_or, Nat.not_lt] at hroom
  obtain ⟨hmax, hroom⟩ := hroom
  rw [toUTF8Loop]
  by_cases hfull : maxByteLen ≤ done.used
  · rw [if_pos ⟨hmax, hfull⟩]
  obtain ⟨hch, hroom⟩ := Classical.not_imp.mp (hroom.resolve_left hfull)
  have hput : putCharacter maxByteLen ch done = none := by
    have hcore : toUTF8Core ch ((maxByteLen - done.used) % 2 ^ 32) = [] := by
      simp only [toUTF8Core]
      split
      · rename_i hzero
        rw [hzero] at hroom
        exact absurd (Nat.zero_le _) hroom
      · exact if_pos (Nat.lt_of_not_le hroom)
    simp only [putCharacter, if_pos hmax, hcore, List.length_nil, ↓reduceIte]
  rw [if_neg fun h => hfull h.2, if_neg fun h => absurd (h80 h ▸ hch) (Nat.not_le.mpr h)]
  simp only [hnext, hput]

/-- Units that the loop reads to the end have had room. -/
theorem enoughRoom_of_consumed {isStrict : Bool} {maxByteLen : Nat} (hmax : maxByteLen ≠ 0) {units : List UniChar}
    {done : Conversion UInt8} (hread : WellFormedUtf16 units)
    (hall : (toUTF8Loop isStrict maxByteLen units done).consumed = done.consumed + units.length) :
    EnoughRoom maxByteLen (codes units) done.used := by
  have hstuck : ∀ {n : Nat} {units : List UniChar}, n = n + (units.length + 1) → False := fun h => by omega
  induction units using codes.induct generalizing done with
  | case1 => exact trivial
  | case2 unit low rest hpair ih =>
    have hbounds := pair_bounds hpair
    rw [codes, if_pos hpair]
    have hnext : nextCharacter isStrict unit (low :: rest) =
        some ((unit.toNat - 0xD800) <<< 10 + (low.toNat - 0xDC00) + 0x10000, true) := by
      rw [nextCharacter, if_pos hpair]
    generalize (unit.toNat - 0xD800) <<< 10 + (low.toNat - 0xDC00) + 0x10000 = ch at *
    have hhigh : ¬ unit.toNat < 0x80 := by
      have := hpair.1.1
      omega
    by_cases hroom : HasRoom maxByteLen ch done.used
    · rw [toUTF8Loop_pair hnext hpair.1 (by omega) hbounds.2 hroom, List.length_cons, List.length_cons] at hall
      rw [WellFormedUtf16, if_pos hpair.1] at hread
      obtain ⟨hlt, hbytes⟩ := hroom.resolve_left hmax
      exact ⟨hlt, hbytes, ih hread.2 (hall.trans (by dsimp only; omega))⟩
    · rw [toUTF8Loop_stuck hnext (fun h => absurd h hhigh) hroom] at hall
      exact (hstuck hall).elim
  | case3 unit low rest hpair ih =>
    rw [codes, if_neg hpair]
    rw [WellFormedUtf16] at hread
    split at hread
    · rename_i hhigh
      exact absurd ⟨hhigh, hread.1⟩ hpair
    · rename_i hhigh
      have hnext : nextCharacter isStrict unit (low :: rest) = some (unit.toNat, false) := by
        rw [nextCharacter, if_neg hpair, if_neg fun h => h.2.elim hhigh hread.1]
      by_cases hroom : HasRoom maxByteLen unit.toNat done.used
      · rw [toUTF8Loop_single hnext hroom, List.length_cons] at hall
        obtain ⟨hlt, hbytes⟩ := hroom.resolve_left hmax
        exact ⟨hlt, hbytes, ih hread.2 (hall.trans (by dsimp only; omega))⟩
      · rw [toUTF8Loop_stuck hnext (fun _ => rfl) hroom] at hall
        exact (hstuck hall).elim
  | case4 unit =>
    have hnext : nextCharacter isStrict unit [] = some (unit.toNat, false) := by
      rw [nextCharacter]
      exact if_neg fun h => h.2.elim hread.1 hread.2
    rw [codes]
    by_cases hroom : HasRoom maxByteLen unit.toNat done.used
    · obtain ⟨hlt, hbytes⟩ := hroom.resolve_left hmax
      exact ⟨hlt, hbytes, trivial⟩
    · rw [toUTF8Loop_stuck hnext (fun _ => rfl) hroom] at hall
      exact (@hstuck _ [] hall).elim

/-- The count of `__CFToUTF8Len` is one in 32 bits. -/
theorem toUTF8LenLoop_mod {units : List UniChar} {used : Nat} (h : used < 2 ^ 32) :
    toUTF8LenLoop units used = (used + byteCount (codes units)) % 2 ^ 32 := by
  have hcount : ∀ ch chs, byteCount (ch :: chs) = bytesToWriteForCharacter ch + byteCount chs := fun _ _ => List.sum_cons
  have hlt : ∀ n, n % 2 ^ 32 < 2 ^ 32 := fun n => Nat.mod_lt n (by decide)
  induction units using codes.induct generalizing used with
  | case1 => exact (Nat.mod_eq_of_lt h).symm
  | case2 unit low rest hpair ih =>
    rw [codes, if_pos hpair, hcount, toUTF8LenLoop]
    simp only
    rw [if_pos hpair, ih (hlt _), Nat.mod_add_mod, Nat.add_assoc]
  | case3 unit low rest hpair ih =>
    rw [codes, if_neg hpair, hcount, toUTF8LenLoop]
    simp only
    rw [if_neg hpair, ih (hlt _), Nat.mod_add_mod, Nat.add_assoc]
  | case4 unit =>
    have hnil : byteCount [] = 0 := rfl
    rw [codes, hcount, toUTF8LenLoop, hnil, Nat.add_zero]

/-- The count of `__CFToUTF8Len`, while it fits 32 bits. -/
theorem toUTF8LenLoop_spec {units : List UniChar} {used : Nat} (h : used + byteCount (codes units) < 2 ^ 32) :
    toUTF8LenLoop units used = used + byteCount (codes units) := by
  rw [toUTF8LenLoop_mod (Nat.lt_of_le_of_lt (Nat.le_add_right _ _) h), Nat.mod_eq_of_lt h]

/-- The characters of the units of a sequence of characters. -/
theorem codes_utf16Encode (cs : List Char) : codes (utf16Encode cs) = cs.map Char.toNat := by
  induction cs with
  | nil => rfl
  | cons c cs ih =>
    rw [utf16Encode_cons]
    by_cases h : c.toNat ≤ 0xFFFF
    · obtain ⟨unit, hc, hval, hhigh, -⟩ := utf16EncodeChar_one h
      rw [hc, List.singleton_append, List.map_cons, ← ih, ← hval]
      cases hrest : utf16Encode cs with
      | nil => rfl
      | cons low rest => rw [codes, if_neg fun hp => hhigh hp.1]
    · obtain ⟨high, low, hc, hhigh, hlow, hh, hl⟩ := utf16EncodeChar_two h
      have hvalid := char_valid c
      rw [hc]
      show codes (high :: low :: utf16Encode cs) = _
      rw [codes, if_pos ⟨hhigh, hlow⟩, ih, List.map_cons, Nat.shiftLeft_eq]
      congr 1
      omega

theorem utf8Bytes_characters (cs : List Char) : (cs.map Char.toNat).flatMap utf8Bytes = utf8Encode cs := by
  rw [List.flatMap_map, utf8Encode]
  congr 1
  funext c
  exact utf8Bytes_char c

theorem byteCount_characters (cs : List Char) : byteCount (cs.map Char.toNat) = (utf8Encode cs).length := by
  rw [← utf8Bytes_characters, List.length_flatMap]
  unfold byteCount
  congr 1
  exact List.map_congr_left fun ch _ => (length_utf8Bytes ch).symm

end CFLite.Strings
