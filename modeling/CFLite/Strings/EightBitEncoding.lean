import Mathlib.Data.List.GetD
import Mathlib.Data.List.Nodup
import Mathlib.Data.UInt

/-!
# The eight-bit encoding of strings

A string that is stored in bytes is read through `__CFCharToUniCharTable`, which
gives each byte its character. The table is the identity until the system
encoding is asked for, and then holds that encoding's characters: MacRoman,
Windows Latin 1 or ISO Latin 1, by the platform the library is built for.

* `table_eq_iff`: two bytes have one character when they are the same byte, or
  are two of the bytes that Windows Latin 1 leaves unassigned, on Windows.
-/

namespace CFLite.Strings

abbrev UniChar := UInt16

/-! ## The code -/

/-- `macRoman_to_uni` -/
def macRoman_to_uni : List UniChar :=
  [0x00C4, 0x00C5, 0x00C7, 0x00C9, 0x00D1, 0x00D6, 0x00DC, 0x00E1,
   0x00E0, 0x00E2, 0x00E4, 0x00E3, 0x00E5, 0x00E7, 0x00E9, 0x00E8,
   0x00EA, 0x00EB, 0x00ED, 0x00EC, 0x00EE, 0x00EF, 0x00F1, 0x00F3,
   0x00F2, 0x00F4, 0x00F6, 0x00F5, 0x00FA, 0x00F9, 0x00FB, 0x00FC,
   0x2020, 0x00B0, 0x00A2, 0x00A3, 0x00A7, 0x2022, 0x00B6, 0x00DF,
   0x00AE, 0x00A9, 0x2122, 0x00B4, 0x00A8, 0x2260, 0x00C6, 0x00D8,
   0x221E, 0x00B1, 0x2264, 0x2265, 0x00A5, 0x00B5, 0x2202, 0x2211,
   0x220F, 0x03C0, 0x222B, 0x00AA, 0x00BA, 0x03A9, 0x00E6, 0x00F8,
   0x00BF, 0x00A1, 0x00AC, 0x221A, 0x0192, 0x2248, 0x2206, 0x00AB,
   0x00BB, 0x2026, 0x00A0, 0x00C0, 0x00C3, 0x00D5, 0x0152, 0x0153,
   0x2013, 0x2014, 0x201C, 0x201D, 0x2018, 0x2019, 0x00F7, 0x25CA,
   0x00FF, 0x0178, 0x2044, 0x20AC, 0x2039, 0x203A, 0xFB01, 0xFB02,
   0x2021, 0x00B7, 0x201A, 0x201E, 0x2030, 0x00C2, 0x00CA, 0x00C1,
   0x00CB, 0x00C8, 0x00CD, 0x00CE, 0x00CF, 0x00CC, 0x00D3, 0x00D4,
   0xF8FF, 0x00D2, 0x00DA, 0x00DB, 0x00D9, 0x0131, 0x02C6, 0x02DC,
   0x00AF, 0x02D8, 0x02D9, 0x02DA, 0x00B8, 0x02DD, 0x02DB, 0x02C7]

/-- `cp1252_to_uni` -/
def cp1252_to_uni : List UniChar :=
  [0x20AC, 0xFFFD, 0x201A, 0x0192, 0x201E, 0x2026, 0x2020, 0x2021,
   0x02C6, 0x2030, 0x0160, 0x2039, 0x0152, 0xFFFD, 0x017D, 0xFFFD,
   0xFFFD, 0x2018, 0x2019, 0x201C, 0x201D, 0x2022, 0x2013, 0x2014,
   0x02DC, 0x2122, 0x0161, 0x203A, 0x0153, 0xFFFD, 0x017E, 0x0178]

/-- The converters whose encodings a string can be stored in byte by byte. -/
inductive Converter where
  | macRoman
  | winLatin1
  | isoLatin1
  deriving DecidableEq

/-- The converter's `toUnicode`: whether the byte has a character, and the character. -/
def Converter.toUnicode : Converter → UInt8 → Bool × UniChar
  -- __CFFromMacRoman
  | .macRoman, byte =>
    (true, if byte < 0x80 then byte.toUInt16 else macRoman_to_uni.getD (byte - 0x80).toNat 0)
  -- __CFFromWinLatin1
  | .winLatin1, byte =>
    let character := if byte < 0x80 || byte > 0x9F then byte.toUInt16 else cp1252_to_uni.getD (byte - 0x80).toNat 0
    (character ≠ 0xFFFD, character)
  -- __CFFromISOLatin1
  | .isoLatin1, byte => (true, byte.toUInt16)

/-- `__CFCharToUniCharFunc` and `__CFCharToUniCharTable`. -/
structure CharToUniChar where
  func : Option Converter
  table : UInt8 → UniChar

/-- The two as the library starts. -/
def CharToUniChar.initial : CharToUniChar where
  func := none
  table byte := byte.toUInt16

/-- `__CFSetCharToUniCharFunc` -/
def setCharToUniCharFunc (func : Option Converter) (map : CharToUniChar) : CharToUniChar :=
  if map.func ≠ func then
    { func
      table := fun ch =>
        if ch < 128 then map.table ch
        else match func with
          | some converter => if (converter.toUnicode ch).1 then (converter.toUnicode ch).2 else 0xFFFD
          | none => ch.toUInt16 }
  else map

/-- The platforms with a `DEPLOYMENT_TARGET` of their own. -/
inductive DeploymentTarget where
  | macosx
  | embedded
  | windows
  | linux
  | freebsd
  deriving DecidableEq

/-- The converter of `__defaultEncoding`. -/
def DeploymentTarget.defaultConverter : DeploymentTarget → Converter
  | .macosx | .embedded => .macRoman
  | .windows => .winLatin1
  | .linux | .freebsd => .isoLatin1

/-- What `CFStringGetSystemEncoding` does to the table: all three converters are
`kCFStringEncodingConverterCheapEightBit`. -/
def getSystemEncoding (target : DeploymentTarget) (map : CharToUniChar) : CharToUniChar :=
  setCharToUniCharFunc (some target.defaultConverter) map

/-- The table of a process: as the library starts, or once the system encoding
was asked for. -/
inductive CharToUniChar.Reachable (target : DeploymentTarget) : CharToUniChar → Prop
  | initial : Reachable target CharToUniChar.initial
  | getSystemEncoding {map : CharToUniChar} : Reachable target map →
      Reachable target (Strings.getSystemEncoding target map)

/-! ## One byte for each character -/

/-- The bytes that Windows Latin 1 leaves unassigned. -/
def unassigned1252 : List UInt8 := [0x81, 0x8D, 0x8F, 0x90, 0x9D]

/-- The characters of the bytes under a converter, as the table gets them. -/
def Converter.tableOf (converter : Converter) (byte : UInt8) : UniChar :=
  if byte < 128 then byte.toUInt16
  else if (converter.toUnicode byte).1 then (converter.toUnicode byte).2 else 0xFFFD

/-- The table is the identity, or that of the platform's encoding. -/
theorem CharToUniChar.Reachable.eq_or {target : DeploymentTarget} {map : CharToUniChar} (h : Reachable target map) :
    map = CharToUniChar.initial ∨ map = ⟨some target.defaultConverter, target.defaultConverter.tableOf⟩ := by
  induction h with
  | initial => exact .inl rfl
  | getSystemEncoding _ ih =>
    refine .inr ?_
    rcases ih with rfl | rfl
    · rfl
    · simp only [Strings.getSystemEncoding, setCharToUniCharFunc, ne_eq, not_true_eq_false, ↓reduceIte]

/-- ASCII has the same characters in each table. -/
theorem CharToUniChar.Reachable.table_ascii {target : DeploymentTarget} {map : CharToUniChar} (h : map.Reachable target)
    {byte : UInt8} (hbyte : byte < 0x80) : map.table byte = byte.toUInt16 := by
  rcases h.eq_or with rfl | rfl
  · rfl
  · exact if_pos hbyte

theorem toUInt16_lt (byte : UInt8) : byte.toUInt16.toNat < 256 := by
  rw [UInt8.toNat_toUInt16]
  exact byte.toNat_lt

theorem toUInt16_inj {a b : UInt8} (h : a.toUInt16 = b.toUInt16) : a = b := by
  have := congrArg UInt16.toNat h
  simpa only [UInt8.toNat_toUInt16, UInt8.toNat_inj] using this

/-- What holds of every member by going through the list. -/
theorem forall_of_all {α : Type} {l : List α} {p : α → Prop} [DecidablePred p] (h : (l.all fun a => p a) = true) :
    ∀ a ∈ l, p a := fun a ha => of_decide_eq_true (List.all_eq_true.mp h a ha)

theorem length_macRoman_to_uni : macRoman_to_uni.length = 128 := by decide +kernel

theorem length_cp1252_to_uni : cp1252_to_uni.length = 32 := rfl

theorem macRoman_to_uni_nodup : macRoman_to_uni.Nodup := by decide +kernel

theorem macRoman_to_uni_high : ∀ c ∈ macRoman_to_uni, 128 ≤ c.toNat := forall_of_all rfl

theorem cp1252_to_uni_inj : ∀ i : Fin 32, ∀ j : Fin 32, cp1252_to_uni.getD i 0 = cp1252_to_uni.getD j 0 →
    i = j ∨ (UInt8.ofNat (128 + i) ∈ unassigned1252 ∧ UInt8.ofNat (128 + j) ∈ unassigned1252) := by
  decide +kernel

theorem cp1252_to_uni_high : ∀ c ∈ cp1252_to_uni, 256 ≤ c.toNat := forall_of_all rfl

theorem toNat_sub_128 {byte : UInt8} (h : ¬ byte < 128) : (byte - 0x80).toNat = byte.toNat - 128 := by
  refine UInt8.toNat_sub_of_le _ _ ?_
  simpa [UInt8.lt_iff_toNat_lt, UInt8.le_iff_toNat_le] using h

theorem getD_mem {l : List UniChar} {i : Nat} (h : i < l.length) : l.getD i 0 ∈ l := by
  rw [List.getD_eq_getElem _ _ h]
  exact List.getElem_mem h

theorem tableOf_macRoman (byte : UInt8) :
    Converter.macRoman.tableOf byte =
      if byte < 128 then byte.toUInt16 else macRoman_to_uni.getD (byte.toNat - 128) 0 := by
  unfold Converter.tableOf Converter.toUnicode
  split
  · rfl
  · rename_i h
    simp only [↓reduceIte, if_neg h, toNat_sub_128 h]

theorem tableOf_winLatin1 (byte : UInt8) :
    Converter.winLatin1.tableOf byte =
      if byte < 0x80 || byte > 0x9F then byte.toUInt16 else cp1252_to_uni.getD (byte.toNat - 128) 0 := by
  unfold Converter.tableOf Converter.toUnicode
  by_cases h : byte < 128
  · simp only [h, decide_true, Bool.true_or, ↓reduceIte]
  · simp only [h, decide_false, Bool.false_or, decide_eq_true_eq, toNat_sub_128 h, ↓reduceIte]
    generalize (if byte > 0x9F then byte.toUInt16 else cp1252_to_uni.getD (byte.toNat - 128) 0) = character
    by_cases hc : character = 0xFFFD
    · rw [if_neg (not_not.mpr hc), hc]
    · rw [if_pos hc]

theorem tableOf_isoLatin1 (byte : UInt8) : Converter.isoLatin1.tableOf byte = byte.toUInt16 := by
  unfold Converter.tableOf Converter.toUnicode
  split <;> rfl

theorem tableOf_macRoman_inj {a b : UInt8} (h : Converter.macRoman.tableOf a = Converter.macRoman.tableOf b) :
    a = b := by
  have ha := a.toNat_lt
  have hb := b.toNat_lt
  have high : ∀ c : UInt8, 128 ≤ (macRoman_to_uni.getD (c.toNat - 128) 0).toNat := fun c =>
    macRoman_to_uni_high _ (getD_mem (by rw [length_macRoman_to_uni]; have := c.toNat_lt; omega))
  rw [tableOf_macRoman, tableOf_macRoman] at h
  split at h <;> split at h
  · exact toUInt16_inj h
  · rename_i ha' _
    have := high b
    rw [← h, UInt8.toNat_toUInt16] at this
    rw [UInt8.lt_iff_toNat_lt] at ha'
    exact absurd ha' (by simpa using this)
  · rename_i _ hb'
    have := high a
    rw [h, UInt8.toNat_toUInt16] at this
    rw [UInt8.lt_iff_toNat_lt] at hb'
    exact absurd hb' (by simpa using this)
  · rename_i ha' hb'
    rw [UInt8.not_lt, UInt8.le_iff_toNat_le] at ha' hb'
    have hla : a.toNat - 128 < macRoman_to_uni.length := by rw [length_macRoman_to_uni]; omega
    have hlb : b.toNat - 128 < macRoman_to_uni.length := by rw [length_macRoman_to_uni]; omega
    rw [List.getD_eq_getElem _ _ hla, List.getD_eq_getElem _ _ hlb] at h
    have := (List.Nodup.getElem_inj_iff macRoman_to_uni_nodup).mp h
    have h128 : (128 : UInt8).toNat = 128 := rfl
    exact UInt8.toNat_inj.mp (by omega)

theorem tableOf_winLatin1_inj {a b : UInt8} (h : Converter.winLatin1.tableOf a = Converter.winLatin1.tableOf b) :
    a = b ∨ (a ∈ unassigned1252 ∧ b ∈ unassigned1252) := by
  have high : ∀ c : UInt8, ¬ (decide (c < 0x80) || decide (c > 0x9F)) = true →
      256 ≤ (cp1252_to_uni.getD (c.toNat - 128) 0).toNat := fun c hc => by
    refine cp1252_to_uni_high _ (getD_mem ?_)
    rw [length_cp1252_to_uni]
    simp only [Bool.or_eq_true, decide_eq_true_eq, not_or, gt_iff_lt, UInt8.not_lt, UInt8.le_iff_toNat_le] at hc
    have : (0x9F : UInt8).toNat = 159 := rfl
    omega
  rw [tableOf_winLatin1, tableOf_winLatin1] at h
  split at h <;> split at h
  · exact .inl (toUInt16_inj h)
  · rename_i _ hb
    have hlow := toUInt16_lt a
    rw [h] at hlow
    exact absurd (high b hb) (by omega)
  · rename_i ha _
    have hlow := toUInt16_lt b
    rw [← h] at hlow
    exact absurd (high a ha) (by omega)
  · rename_i ha hb
    simp only [Bool.or_eq_true, decide_eq_true_eq, not_or, gt_iff_lt, UInt8.not_lt, UInt8.le_iff_toNat_le] at ha hb
    have h128 : (0x80 : UInt8).toNat = 128 := rfl
    have h159 : (0x9F : UInt8).toNat = 159 := rfl
    have back : ∀ c : UInt8, 128 ≤ c.toNat → UInt8.ofNat (128 + (c.toNat - 128)) = c := fun c hc => by
      rw [Nat.add_sub_cancel' hc, UInt8.ofNat_toNat]
    rcases cp1252_to_uni_inj ⟨a.toNat - 128, by omega⟩ ⟨b.toNat - 128, by omega⟩ h with he | he
    · have := Fin.mk.inj he
      exact .inl (UInt8.toNat_inj.mp (by omega))
    · refine .inr ?_
      simpa only [back a (by omega), back b (by omega)] using he

theorem tableOf_unassigned {byte : UInt8} (h : byte ∈ unassigned1252) : Converter.winLatin1.tableOf byte = 0xFFFD := by
  have : ∀ c ∈ unassigned1252, Converter.winLatin1.tableOf c = 0xFFFD := forall_of_all rfl
  exact this byte h

/-- Two bytes have one character when they are equal, or when the table is that
of Windows Latin 1 and has neither of them. -/
theorem table_eq_iff {target : DeploymentTarget} {map : CharToUniChar} (hm : map.Reachable target) (a b : UInt8) :
    map.table a = map.table b ↔ a = b ∨ (map.func = some .winLatin1 ∧ a ∈ unassigned1252 ∧ b ∈ unassigned1252) := by
  rcases hm.eq_or with rfl | rfl
  · simp only [CharToUniChar.initial, reduceCtorEq, false_and, or_false]
    exact ⟨toUInt16_inj, congrArg _⟩
  · simp only [Option.some.injEq]
    constructor
    · intro h
      generalize target.defaultConverter = converter at h
      cases converter with
      | macRoman => exact .inl (tableOf_macRoman_inj h)
      | winLatin1 => simpa using tableOf_winLatin1_inj h
      | isoLatin1 =>
        rw [tableOf_isoLatin1, tableOf_isoLatin1] at h
        exact .inl (toUInt16_inj h)
    · rintro (rfl | ⟨hw, ha, hb⟩)
      · rfl
      · rw [hw, tableOf_unassigned ha, tableOf_unassigned hb]

end CFLite.Strings
