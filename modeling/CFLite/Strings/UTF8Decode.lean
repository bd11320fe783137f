import Mathlib.Tactic.IntervalCases
import CFLite.Strings.UTF8Encode

/-!
# What the UTF-8 decoder reads

* `nextSequence_char`: at the bytes of a character the decoder finds it;
* `nextSequence_decoded`: what a strict decoder finds is a character's bytes;
* `fromUTF8Loop_items`: it reads characters and bytes 0xA9, and stops where
  neither is next;
* `fromUTF8Loop_used`: `__CFFromUTF8Len` counts the units it writes.
-/

namespace CFLite.Strings

open Framework

/-! ## The bytes of a character by its value -/

theorem utf8EncodeChar_one {c : Char} (h : c.toNat < 0x80) : String.utf8EncodeChar c = [UInt8.ofNat c.toNat] :=
  if_pos (Nat.le_of_lt_succ h)

theorem utf8EncodeChar_two {c : Char} (h1 : 0x80 ≤ c.toNat) (h2 : c.toNat < 0x800) :
    String.utf8EncodeChar c = [UInt8.ofNat (c.toNat / 64 % 0x20 + 0xC0), UInt8.ofNat (c.toNat % 0x40 + 0x80)] := by
  unfold String.utf8EncodeChar
  show (if c.toNat ≤ 0x7F then _ else if c.toNat ≤ 0x7FF then _ else _) = _
  rw [if_neg (by omega), if_pos (by omega)]
  rfl

theorem utf8EncodeChar_three {c : Char} (h1 : 0x800 ≤ c.toNat) (h2 : c.toNat < 0x10000) :
    String.utf8EncodeChar c = [UInt8.ofNat (c.toNat / 4096 % 0x10 + 0xE0), UInt8.ofNat (c.toNat / 64 % 0x40 + 0x80),
      UInt8.ofNat (c.toNat % 0x40 + 0x80)] := by
  unfold String.utf8EncodeChar
  show (if c.toNat ≤ 0x7F then _ else if c.toNat ≤ 0x7FF then _ else if c.toNat ≤ 0xFFFF then _ else _) = _
  rw [if_neg (by omega), if_neg (by omega), if_pos (by omega)]
  rfl

theorem utf8EncodeChar_four {c : Char} (h : 0x10000 ≤ c.toNat) :
    String.utf8EncodeChar c = [UInt8.ofNat (c.toNat / 262144 % 0x08 + 0xF0), UInt8.ofNat (c.toNat / 4096 % 0x40 + 0x80),
      UInt8.ofNat (c.toNat / 64 % 0x40 + 0x80), UInt8.ofNat (c.toNat % 0x40 + 0x80)] := by
  unfold String.utf8EncodeChar
  show (if c.toNat ≤ 0x7F then _ else if c.toNat ≤ 0x7FF then _ else if c.toNat ≤ 0xFFFF then _ else _) = _
  rw [if_neg (by omega), if_neg (by omega), if_neg (by omega)]
  rfl

theorem ofNat_eq_iff {n : Nat} {byte : UInt8} (h : n < 256) : UInt8.ofNat n = byte ↔ n = byte.toNat := by
  rw [← UInt8.toNat_inj, UInt8.toNat_ofNat', Nat.mod_eq_of_lt h]

/-! ## The tests of the decoder -/

theorem trailingBytes_eq (byte : UInt8) :
    trailingBytesForUTF8.getD byte.toNat 0 =
      if byte.toNat < 0xC0 then 0 else if byte.toNat < 0xE0 then 1 else if byte.toNat < 0xF0 then 2
      else if byte.toNat < 0xF8 then 3 else if byte.toNat < 0xFC then 4 else 5 := by
  have h : ∀ n : Fin 256, trailingBytesForUTF8.getD n 0 = if n.val < 0xC0 then 0 else if n.val < 0xE0 then 1
      else if n.val < 0xF0 then 2 else if n.val < 0xF8 then 3 else if n.val < 0xFC then 4 else 5 := by decide +kernel
  exact h ⟨byte.toNat, byte.toNat_lt⟩

/-- A byte of 0x80 to 0xBF. -/
def IsTail (byte : UInt8) : Prop := 0x80 ≤ byte.toNat ∧ byte.toNat < 0xC0

instance (byte : UInt8) : Decidable (IsTail byte) := inferInstanceAs (Decidable (_ ∧ _))

theorem and_eq_mark (byte : UInt8) : byte &&& 0xC0 = 0x80 ↔ IsTail byte := by
  have h : ∀ n : Fin 256, UInt8.ofNat n &&& 0xC0 = 0x80 ↔ IsTail (UInt8.ofNat n) := by decide +kernel
  simpa using h ⟨byte.toNat, byte.toNat_lt⟩

/-- The second byte of a sequence fits the first. -/
def SecondFits (head second : Nat) : Prop :=
  ¬ ((head = 0xE0 ∧ second < 0xA0) ∨ (head = 0xED ∧ 0x9F < second) ∨ (head = 0xF0 ∧ second < 0x90) ∨
    (head = 0xF4 ∧ 0x8F < second))

theorem isLegalUTF8_iff {source : List UInt8} {length : Nat} (h : length ≤ 4) :
    isLegalUTF8 source length = true ↔
      (∀ byte ∈ (source.take length).drop 1, IsTail byte) ∧
        ¬ ((0x80 ≤ (source.headD 0).toNat ∧ (source.headD 0).toNat < 0xC2) ∨ 0xF4 < (source.headD 0).toNat) ∧
        SecondFits (source.headD 0).toNat (source.getD 1 0).toNat := by
  have hconst : (0x80 : UInt8).toNat = 0x80 ∧ (0xC2 : UInt8).toNat = 0xC2 ∧ (0xF4 : UInt8).toNat = 0xF4 ∧
      (0xE0 : UInt8).toNat = 0xE0 ∧ (0xA0 : UInt8).toNat = 0xA0 ∧ (0xED : UInt8).toNat = 0xED ∧
      (0x9F : UInt8).toNat = 0x9F ∧ (0xF0 : UInt8).toNat = 0xF0 ∧ (0x90 : UInt8).toNat = 0x90 ∧
      (0x8F : UInt8).toNat = 0x8F := by decide
  obtain ⟨e1, e2, e3, e4, e5, e6, e7, e8, e9, e10⟩ := hconst
  unfold isLegalUTF8 SecondFits
  rw [if_neg (by omega)]
  simp only [ge_iff_le, gt_iff_lt, UInt8.le_iff_toNat_le, UInt8.lt_iff_toNat_lt, ← UInt8.toNat_inj (b := 0xE0),
    ← UInt8.toNat_inj (b := 0xED), ← UInt8.toNat_inj (b := 0xF0), ← UInt8.toNat_inj (b := 0xF4), e1, e2, e3, e4, e5, e6,
    e7, e8, e9, e10]
  have hany : ((source.take length).drop 1).any (fun byte => decide (byte &&& 0xC0 ≠ 0x80)) = true ↔
      ¬ ∀ byte ∈ (source.take length).drop 1, IsTail byte := by
    simp only [List.any_eq_true, decide_eq_true_eq, ne_eq, and_eq_mark, not_forall, exists_prop]
  split
  · rename_i hbad
    exact iff_of_false nofun fun hok => hany.mp hbad hok.1
  · rename_i hgood
    have hall := not_not.mp (mt hany.mpr hgood)
    split
    · rename_i hbad
      exact iff_of_false nofun fun hok => hok.2.1 hbad
    · rename_i hhead
      split
      · rename_i hbad
        exact iff_of_false nofun fun hok => hok.2.2 hbad
      · rename_i hsecond
        exact iff_of_true rfl ⟨hall, hhead, hsecond⟩

/-! ## One sequence -/

theorem getD_offsets : offsetsFromUTF8.getD 0 0 = 0 ∧ offsetsFromUTF8.getD 1 0 = 0x3080 ∧
    offsetsFromUTF8.getD 2 0 = 0xE2080 ∧ offsetsFromUTF8.getD 3 0 = 0x3C82080 := by decide

theorem trailingBytes_lt {byte : UInt8} {extra : Nat} (h : trailingBytesForUTF8.getD byte.toNat 0 = extra) :
    (extra = 0 → byte.toNat < 0xC0) ∧ (extra = 1 → 0xC0 ≤ byte.toNat ∧ byte.toNat < 0xE0) ∧
      (extra = 2 → 0xE0 ≤ byte.toNat ∧ byte.toNat < 0xF0) ∧ (extra = 3 → 0xF0 ≤ byte.toNat ∧ byte.toNat < 0xF8) := by
  rw [trailingBytes_eq] at h
  split at h
  · omega
  split at h
  · omega
  split at h
  · omega
  split at h
  · omega
  split at h <;> omega

/-- What is found when the first byte tells the length and the test is passed. -/
theorem nextSequence_of_legal (flags : ConversionFlags) {head : UInt8} {tail : List UInt8} (extra : Nat) {ch : Nat}
    (htrailing : trailingBytesForUTF8.getD head.toNat 0 = extra) (henough : extra ≤ tail.length) (hthree : extra ≤ 3)
    (hlegal : isLegalUTF8 (head :: tail) (extra + 1) = true)
    (hch : (addBytes extra (head :: tail) 0 + 2 ^ 32 - offsetsFromUTF8.getD extra 0) % 2 ^ 32 = ch) :
    nextSequence flags (head :: tail) = .decoded ch extra := by
  unfold nextSequence
  simp only [htrailing, hch]
  rw [if_neg (Nat.not_lt.mpr henough), if_neg (fun h => h.elim (by omega) fun h => by simp [hlegal] at h)]

/-- The bytes of a character, by their number. -/
inductive CharBytes (c : Char) : List UInt8 → Prop
  | one {b₀ : UInt8} : c.toNat = b₀.toNat → b₀.toNat < 0x80 → CharBytes c [b₀]
  | two {b₀ b₁ : UInt8} : c.toNat = (b₀.toNat - 0xC0) * 64 + (b₁.toNat - 0x80) →
      0xC2 ≤ b₀.toNat → b₀.toNat < 0xE0 → IsTail b₁ → CharBytes c [b₀, b₁]
  | three {b₀ b₁ b₂ : UInt8} :
      c.toNat = (b₀.toNat - 0xE0) * 4096 + (b₁.toNat - 0x80) * 64 + (b₂.toNat - 0x80) →
      0xE0 ≤ b₀.toNat → b₀.toNat < 0xF0 → SecondFits b₀.toNat b₁.toNat → IsTail b₁ → IsTail b₂ → CharBytes c [b₀, b₁, b₂]
  | four {b₀ b₁ b₂ b₃ : UInt8} :
      c.toNat = (b₀.toNat - 0xF0) * 262144 + (b₁.toNat - 0x80) * 4096 + (b₂.toNat - 0x80) * 64 + (b₃.toNat - 0x80) →
      0xF0 ≤ b₀.toNat → b₀.toNat ≤ 0xF4 → SecondFits b₀.toNat b₁.toNat → IsTail b₁ → IsTail b₂ → IsTail b₃ →
      CharBytes c [b₀, b₁, b₂, b₃]

theorem digits_two {n a b : Nat} (h : n = a * 64 + b) (hb : b < 64) : n / 64 = a ∧ n % 64 = b := by omega

theorem digits_three {n a b d : Nat} (h : n = a * 4096 + b * 64 + d) (hb : b < 64) (hd : d < 64) :
    n / 4096 = a ∧ n / 64 % 64 = b ∧ n % 64 = d := by omega

theorem digits_four {n a b d e : Nat} (h : n = a * 262144 + b * 4096 + d * 64 + e) (hb : b < 64) (hd : d < 64)
    (he : e < 64) : n / 262144 = a ∧ n / 4096 % 64 = b ∧ n / 64 % 64 = d ∧ n % 64 = e := by
  obtain ⟨h1, h2⟩ := digits_two (n := n) (a := a * 4096 + b * 64 + d) (by omega) he
  obtain ⟨h3, h4, h5⟩ := digits_three (n := n / 64) h1 hb hd
  rw [Nat.div_div_eq_div_mul] at h3 h4
  exact ⟨h3, h4, h5, h2⟩

theorem low_three {a b : Nat} (h : SecondFits (0xE0 + a) (0x80 + b)) : 0x20 ≤ a * 64 + b := by
  by_contra hlt
  exact h (.inl ⟨by omega, by omega⟩)

theorem low_four {a b : Nat} (h : SecondFits (0xF0 + a) (0x80 + b)) : 0x10 ≤ a * 64 + b := by
  by_contra hlt
  exact h (.inr (.inr (.inl ⟨by omega, by omega⟩)))

/-- The value of a tail byte above the mark. -/
theorem IsTail.exists_eq {byte : UInt8} (h : IsTail byte) : ∃ a, byte.toNat = 0x80 + a ∧ a < 64 := by
  obtain ⟨a, ha⟩ := Nat.exists_eq_add_of_le h.1
  have := h.2
  exact ⟨a, ha, by omega⟩

theorem ofNat_add_eq {byte : UInt8} {mark a : Nat} (h : byte.toNat = mark + a) : UInt8.ofNat (a + mark) = byte := by
  rw [Nat.add_comm, ← h, UInt8.ofNat_toNat]

theorem CharBytes.encode {c : Char} {bytes : List UInt8} (h : CharBytes c bytes) : String.utf8EncodeChar c = bytes := by
  cases h with
  | one hc h0 =>
    rw [utf8EncodeChar_one (by omega), (ofNat_eq_iff (by omega)).mpr hc]
  | @two b₀ b₁ hc h0 h0' h1 =>
    obtain ⟨a, ha⟩ := Nat.exists_eq_add_of_le (show 0xC0 ≤ b₀.toNat by omega)
    obtain ⟨b, hb, hb'⟩ := h1.exists_eq
    clear h1
    rw [ha, hb, Nat.add_sub_cancel_left, Nat.add_sub_cancel_left] at hc
    obtain ⟨e0, e1⟩ := digits_two hc hb'
    rw [utf8EncodeChar_two (by omega) (by omega), e0, e1, Nat.mod_eq_of_lt (by omega), ofNat_add_eq ha, ofNat_add_eq hb]
  | @three b₀ b₁ b₂ hc h0 h0' hs h1 h2 =>
    obtain ⟨a, ha⟩ := Nat.exists_eq_add_of_le h0
    obtain ⟨b, hb, hb'⟩ := h1.exists_eq
    obtain ⟨d, hd, hd'⟩ := h2.exists_eq
    rw [ha, hb] at hs
    have hlow := low_three hs
    clear h1 h2 hs
    rw [ha, hb, hd, Nat.add_sub_cancel_left, Nat.add_sub_cancel_left, Nat.add_sub_cancel_left] at hc
    have hmin : 0x800 ≤ c.toNat := by omega
    have hmax : c.toNat < 0x10000 := by omega
    obtain ⟨e0, e1, e2⟩ := digits_three hc hb' hd'
    rw [utf8EncodeChar_three hmin hmax, e0, e1, e2, Nat.mod_eq_of_lt (Nat.lt_of_add_lt_add_left (ha ▸ h0')),
      ofNat_add_eq ha, ofNat_add_eq hb, ofNat_add_eq hd]
  | @four b₀ b₁ b₂ b₃ hc h0 h0' hs h1 h2 h3 =>
    obtain ⟨a, ha⟩ := Nat.exists_eq_add_of_le h0
    obtain ⟨b, hb, hb'⟩ := h1.exists_eq
    obtain ⟨d, hd, hd'⟩ := h2.exists_eq
    obtain ⟨e, he, he'⟩ := h3.exists_eq
    rw [ha, hb] at hs
    have hlow := low_four hs
    clear h1 h2 h3 hs
    rw [ha, hb, hd, he, Nat.add_sub_cancel_left, Nat.add_sub_cancel_left, Nat.add_sub_cancel_left,
      Nat.add_sub_cancel_left] at hc
    have hmin : 0x10000 ≤ c.toNat := by omega
    have htop : a < 8 := by omega
    obtain ⟨e0, e1, e2, e3⟩ := digits_four hc hb' hd' he'
    rw [utf8EncodeChar_four hmin, e0, e1, e2, e3, Nat.mod_eq_of_lt htop, ofNat_add_eq ha, ofNat_add_eq hb,
      ofNat_add_eq hd, ofNat_add_eq he]

theorem secondFits_three {n : Nat} (h : 0x800 ≤ n) (hn : n < 0x10000) (hs : n < 0xD800 ∨ 0xDFFF < n) :
    SecondFits (n / 4096 % 0x10 + 0xE0) (n / 64 % 0x40 + 0x80) := by
  rintro (⟨h0, h1⟩ | ⟨h0, h1⟩ | ⟨h0, h1⟩ | ⟨h0, h1⟩) <;> omega

theorem secondFits_four {n : Nat} (h : 0x10000 ≤ n) (hn : n < 0x110000) :
    SecondFits (n / 262144 % 0x08 + 0xF0) (n / 4096 % 0x40 + 0x80) := by
  rintro (⟨h0, h1⟩ | ⟨h0, h1⟩ | ⟨h0, h1⟩ | ⟨h0, h1⟩) <;> omega

theorem charBytes_encode (c : Char) : CharBytes c (String.utf8EncodeChar c) := by
  have hbyte : ∀ {n}, n < 256 → (UInt8.ofNat n).toNat = n := fun h => by rw [UInt8.toNat_ofNat', Nat.mod_eq_of_lt h]
  have tail : ∀ n, IsTail (UInt8.ofNat (n % 0x40 + 0x80)) := fun n => by
    rw [IsTail, hbyte (by omega)]
    omega
  have hvalid := char_valid c
  by_cases h1 : c.toNat < 0x80
  · rw [utf8EncodeChar_one h1]
    exact .one (hbyte (by omega)).symm (by rw [hbyte] <;> omega)
  by_cases h2 : c.toNat < 0x800
  · rw [utf8EncodeChar_two (by omega) h2]
    refine .two ?_ ?_ ?_ (tail _)
    · rw [hbyte (by omega), hbyte (by omega)]
      clear hvalid
      omega
    · rw [hbyte (by omega)]
      omega
    · rw [hbyte (by omega)]
      omega
  by_cases h3 : c.toNat < 0x10000
  · rw [utf8EncodeChar_three (by omega) h3]
    refine .three ?_ ?_ ?_ ?_ (tail _) (tail _)
    · rw [hbyte (by omega), hbyte (by omega), hbyte (by omega)]
      clear hvalid
      omega
    · rw [hbyte (by omega)]
      omega
    · rw [hbyte (by omega)]
      omega
    · rw [hbyte (by omega), hbyte (by omega)]
      exact secondFits_three (by omega) h3 (hvalid.imp id And.left)
  · rw [utf8EncodeChar_four (by omega)]
    have hmax : c.toNat < 0x110000 := by omega
    refine .four ?_ ?_ ?_ ?_ (tail _) (tail _) (tail _)
    · rw [hbyte (by omega), hbyte (by omega), hbyte (by omega), hbyte (by omega)]
      clear hvalid
      omega
    · rw [hbyte (by omega)]
      omega
    · rw [hbyte (by omega)]
      omega
    · rw [hbyte (by omega), hbyte (by omega)]
      exact secondFits_four (by omega) hmax

theorem charBytes_iff (c : Char) (bytes : List UInt8) : CharBytes c bytes ↔ String.utf8EncodeChar c = bytes :=
  ⟨CharBytes.encode, fun h => h ▸ charBytes_encode c⟩

/-! What the decoder's sum is above the marks of the bytes. -/

theorem sum_two {a b : Nat} (ha : a < 32) (hb : b < 64) :
    ((0 + (0xC0 + a)) <<< 6 + (0x80 + b) + 2 ^ 32 - 0x3080) % 2 ^ 32 = a * 64 + b := by
  rw [Nat.shiftLeft_eq]
  omega

theorem sum_three {a b d : Nat} (ha : a < 16) (hb : b < 64) (hd : d < 64) :
    (((0 + (0xE0 + a)) <<< 6 + (0x80 + b)) <<< 6 + (0x80 + d) + 2 ^ 32 - 0xE2080) % 2 ^ 32 =
      a * 4096 + b * 64 + d := by
  rw [Nat.shiftLeft_eq, Nat.shiftLeft_eq]
  omega

theorem sum_four {a b d e : Nat} (ha : a < 8) (hb : b < 64) (hd : d < 64) (he : e < 64) :
    ((((0 + (0xF0 + a)) <<< 6 + (0x80 + b)) <<< 6 + (0x80 + d)) <<< 6 + (0x80 + e) + 2 ^ 32 - 0x3C82080) % 2 ^ 32 =
      a * 262144 + b * 4096 + d * 64 + e := by
  rw [Nat.shiftLeft_eq, Nat.shiftLeft_eq, Nat.shiftLeft_eq]
  omega

/-- The decoder finds the character whose bytes are next. -/
theorem nextSequence_char (flags : ConversionFlags) {c : Char} {bytes : List UInt8} (h : CharBytes c bytes)
    (rest : List UInt8) :
    nextSequence flags (bytes ++ rest) = .decoded c.toNat (bytes.length - 1) := by
  obtain ⟨o0, o1, o2, o3⟩ := getD_offsets
  cases h with
  | @one b₀ hc h0 =>
    refine nextSequence_of_legal flags 0 ?_ (Nat.zero_le _) (by decide) ?_ ?_
    · rw [trailingBytes_eq, if_pos (by omega)]
    · rw [isLegalUTF8_iff (by decide)]
      refine ⟨nofun, ?_, ?_⟩
      · rw [List.headD_cons]
        omega
      · unfold SecondFits
        rw [List.headD_cons]
        omega
    · rw [o0]
      show (0 + b₀.toNat + 2 ^ 32 - 0) % 2 ^ 32 = c.toNat
      omega
  | @two b₀ b₁ hc h0 h0' h1 =>
    refine nextSequence_of_legal flags 1 ?_ (Nat.succ_le_succ (Nat.zero_le _)) (by decide) ?_ ?_
    · rw [trailingBytes_eq, if_neg (by omega), if_pos h0']
    · rw [isLegalUTF8_iff (by decide)]
      refine ⟨by simpa using h1, ?_, ?_⟩
      · show ¬ ((0x80 ≤ b₀.toNat ∧ b₀.toNat < 0xC2) ∨ 0xF4 < b₀.toNat)
        omega
      · show SecondFits b₀.toNat b₁.toNat
        unfold SecondFits
        omega
    · obtain ⟨a, ha⟩ := Nat.exists_eq_add_of_le (Nat.le_trans (by decide : 0xC0 ≤ 0xC2) h0)
      obtain ⟨b, hb, hb'⟩ := h1.exists_eq
      rw [ha, hb, Nat.add_sub_cancel_left, Nat.add_sub_cancel_left] at hc
      rw [o1]
      show ((0 + b₀.toNat) <<< 6 + b₁.toNat + 2 ^ 32 - 0x3080) % 2 ^ 32 = c.toNat
      rw [ha, hb, hc]
      exact sum_two (Nat.lt_of_add_lt_add_left (ha ▸ h0')) hb'
  | @three b₀ b₁ b₂ hc h0 h0' hs h1 h2 =>
    refine nextSequence_of_legal flags 2 ?_ (Nat.succ_le_succ (Nat.succ_le_succ (Nat.zero_le _))) (by decide) ?_ ?_
    · rw [trailingBytes_eq, if_neg (by omega), if_neg (by omega), if_pos h0']
    · rw [isLegalUTF8_iff (by decide)]
      refine ⟨by simpa using ⟨h1, h2⟩, ?_, hs⟩
      show ¬ ((0x80 ≤ b₀.toNat ∧ b₀.toNat < 0xC2) ∨ 0xF4 < b₀.toNat)
      omega
    · obtain ⟨a, ha⟩ := Nat.exists_eq_add_of_le h0
      obtain ⟨b, hb, hb'⟩ := h1.exists_eq
      obtain ⟨d, hd, hd'⟩ := h2.exists_eq
      rw [ha, hb, hd, Nat.add_sub_cancel_left, Nat.add_sub_cancel_left, Nat.add_sub_cancel_left] at hc
      rw [o2]
      show (((0 + b₀.toNat) <<< 6 + b₁.toNat) <<< 6 + b₂.toNat + 2 ^ 32 - 0xE2080) % 2 ^ 32 = c.toNat
      rw [ha, hb, hd, hc]
      exact sum_three (Nat.lt_of_add_lt_add_left (ha ▸ h0')) hb' hd'
  | @four b₀ b₁ b₂ b₃ hc h0 h0' hs h1 h2 h3 =>
    refine nextSequence_of_legal flags 3 ?_
      (Nat.succ_le_succ (Nat.succ_le_succ (Nat.succ_le_succ (Nat.zero_le _)))) (by decide) ?_ ?_
    · rw [trailingBytes_eq, if_neg (by omega), if_neg (by omega), if_neg (by omega), if_pos (by omega)]
    · rw [isLegalUTF8_iff (by decide)]
      refine ⟨by simpa using ⟨h1, h2, h3⟩, ?_, hs⟩
      show ¬ ((0x80 ≤ b₀.toNat ∧ b₀.toNat < 0xC2) ∨ 0xF4 < b₀.toNat)
      omega
    · obtain ⟨a, ha⟩ := Nat.exists_eq_add_of_le h0
      obtain ⟨b, hb, hb'⟩ := h1.exists_eq
      obtain ⟨d, hd, hd'⟩ := h2.exists_eq
      obtain ⟨e, he, he'⟩ := h3.exists_eq
      rw [ha, hb, hd, he, Nat.add_sub_cancel_left, Nat.add_sub_cancel_left, Nat.add_sub_cancel_left,
        Nat.add_sub_cancel_left] at hc
      rw [o3]
      show ((((0 + b₀.toNat) <<< 6 + b₁.toNat) <<< 6 + b₂.toNat) <<< 6 + b₃.toNat + 2 ^ 32 - 0x3C82080) % 2 ^ 32 = c.toNat
      rw [ha, hb, hd, he, hc]
      exact sum_four (Nat.lt_of_add_lt_add_left (ha ▸ Nat.lt_succ_of_le (Nat.le_trans h0' (by decide)))) hb' hd' he'

/-- What is found passed the tests. -/
theorem nextSequence_inv {flags : ConversionFlags} {source : List UInt8} {ch extra : Nat}
    (h : nextSequence flags source = .decoded ch extra) :
    ∃ head tail, source = head :: tail ∧ trailingBytesForUTF8.getD head.toNat 0 = extra ∧ extra ≤ tail.length ∧
      extra ≤ 3 ∧ (flags.lenientUTF8Conversion = false → isLegalUTF8 source (extra + 1) = true) ∧
      (addBytes extra source 0 + 2 ^ 32 - offsetsFromUTF8.getD extra 0) % 2 ^ 32 = ch := by
  unfold nextSequence at h
  cases source with
  | nil => exact Sequence.noConfusion h
  | cons head tail =>
    simp only at h
    split at h
    · exact Sequence.noConfusion h
    · rename_i hle
      split at h
      · split at h <;> exact Sequence.noConfusion h
      · rename_i hlegal
        obtain ⟨hch, rfl⟩ := Sequence.decoded.inj h
        rw [not_or, not_and, Nat.not_lt] at hlegal
        refine ⟨head, tail, rfl, rfl, Nat.not_lt.mp hle, hlegal.1, fun hl => ?_, hch⟩
        simpa using hlegal.2 (by simpa using hl)

theorem high_three {a b : Nat} (h : SecondFits (0xE0 + a) (0x80 + b)) (ha : a < 16) (hb : b < 64) :
    a * 64 + b < 0x360 ∨ 0x37F < a * 64 + b := by
  by_contra hbetween
  exact h (.inr (.inl ⟨by omega, by omega⟩))

theorem high_four {a b : Nat} (h : SecondFits (0xF0 + a) (0x80 + b)) (ha : a ≤ 4) (hb : b < 64) :
    a * 64 + b < 0x110 := by
  by_contra hge
  exact h (.inr (.inr (.inr ⟨by omega, by omega⟩)))

/-- A two-byte value is a character's. -/
theorem exists_char_two {b₀ b₁ : UInt8} (h0 : 0xC2 ≤ b₀.toNat) (h0' : b₀.toNat < 0xE0) (h1 : IsTail b₁) :
    ∃ c, CharBytes c [b₀, b₁] := by
  obtain ⟨a, ha⟩ := Nat.exists_eq_add_of_le (Nat.le_trans (by decide : 0xC0 ≤ 0xC2) h0)
  obtain ⟨b, hb, hb'⟩ := h1.exists_eq
  have ha' : a < 32 := Nat.lt_of_add_lt_add_left (ha ▸ h0')
  obtain ⟨c, hc⟩ := exists_char (n := a * 64 + b) (.inl (by omega))
  refine ⟨c, .two ?_ h0 h0' h1⟩
  rw [hc, ha, hb, Nat.add_sub_cancel_left, Nat.add_sub_cancel_left]

/-- A three-byte value is a character's. -/
theorem exists_char_three {b₀ b₁ b₂ : UInt8} (h0 : 0xE0 ≤ b₀.toNat) (h0' : b₀.toNat < 0xF0)
    (hs : SecondFits b₀.toNat b₁.toNat) (h1 : IsTail b₁) (h2 : IsTail b₂) : ∃ c, CharBytes c [b₀, b₁, b₂] := by
  obtain ⟨a, ha⟩ := Nat.exists_eq_add_of_le h0
  obtain ⟨b, hb, hb'⟩ := h1.exists_eq
  obtain ⟨d, hd, hd'⟩ := h2.exists_eq
  have ha' : a < 16 := Nat.lt_of_add_lt_add_left (ha ▸ h0')
  have hhigh := high_three (ha ▸ hb ▸ hs) ha' hb'
  obtain ⟨c, hc⟩ := exists_char (n := a * 4096 + b * 64 + d)
    (hhigh.imp (fun h => by omega) fun h => ⟨by omega, by omega⟩)
  refine ⟨c, .three ?_ h0 h0' hs h1 h2⟩
  rw [hc, ha, hb, hd, Nat.add_sub_cancel_left, Nat.add_sub_cancel_left, Nat.add_sub_cancel_left]

/-- A four-byte value is a character's. -/
theorem exists_char_four {b₀ b₁ b₂ b₃ : UInt8} (h0 : 0xF0 ≤ b₀.toNat) (h0' : b₀.toNat ≤ 0xF4)
    (hs : SecondFits b₀.toNat b₁.toNat) (h1 : IsTail b₁) (h2 : IsTail b₂) (h3 : IsTail b₃) :
    ∃ c, CharBytes c [b₀, b₁, b₂, b₃] := by
  obtain ⟨a, ha⟩ := Nat.exists_eq_add_of_le h0
  obtain ⟨b, hb, hb'⟩ := h1.exists_eq
  obtain ⟨d, hd, hd'⟩ := h2.exists_eq
  obtain ⟨e, he, he'⟩ := h3.exists_eq
  have ha' : a ≤ 4 := Nat.le_of_add_le_add_left (ha ▸ h0')
  have hlow := low_four (ha ▸ hb ▸ hs)
  have hhigh := high_four (ha ▸ hb ▸ hs) ha' hb'
  obtain ⟨c, hc⟩ := exists_char (n := a * 262144 + b * 4096 + d * 64 + e) (.inr ⟨by omega, by omega⟩)
  refine ⟨c, .four ?_ h0 h0' hs h1 h2 h3⟩
  rw [hc, ha, hb, hd, he, Nat.add_sub_cancel_left, Nat.add_sub_cancel_left, Nat.add_sub_cancel_left,
    Nat.add_sub_cancel_left]

/-- What a strict decoder finds is the bytes of a character. -/
theorem nextSequence_decoded {flags : ConversionFlags} (hstrict : flags.lenientUTF8Conversion = false) {source : List UInt8}
    {ch extra : Nat} (h : nextSequence flags source = .decoded ch extra) :
    ∃ c bytes rest, source = bytes ++ rest ∧ CharBytes c bytes ∧ c.toNat = ch ∧ extra + 1 = bytes.length := by
  -- the bytes are a character's, and the decoder finds that character
  suffices hbytes : ∃ c bytes rest, source = bytes ++ rest ∧ CharBytes c bytes ∧ extra + 1 = bytes.length by
    obtain ⟨c, bytes, rest, rfl, hc, hlen⟩ := hbytes
    rw [nextSequence_char flags hc rest] at h
    exact ⟨c, bytes, rest, rfl, hc, (Sequence.decoded.inj h).1, hlen⟩
  obtain ⟨head, tail, rfl, htrailing, henough, hthree, hlegal, -⟩ := nextSequence_inv h
  obtain ⟨htails, hhead, hsecond⟩ := (isLegalUTF8_iff (by omega)).mp (hlegal hstrict)
  obtain ⟨l0, l1, l2, l3⟩ := trailingBytes_lt htrailing
  rw [List.headD_cons] at hhead hsecond
  rw [not_or, not_and, Nat.not_lt, Nat.not_lt] at hhead
  clear h hlegal htrailing hstrict
  rcases (by omega : extra = 0 ∨ extra = 1 ∨ extra = 2 ∨ extra = 3) with rfl | rfl | rfl | rfl
  · have hlow : head.toNat < 0x80 := Nat.lt_of_not_le fun hge => absurd (hhead.1 hge) (by have := l0 rfl; omega)
    obtain ⟨c, hc⟩ := exists_char (n := head.toNat) (.inl (by omega))
    exact ⟨c, [head], tail, rfl, .one hc hlow, rfl⟩
  · obtain ⟨b₁, rest, rfl⟩ := List.exists_cons_of_length_pos henough
    obtain ⟨c, hc⟩ := exists_char_two (hhead.1 (Nat.le_trans (by decide) (l1 rfl).1)) (l1 rfl).2 (htails b₁ (by simp))
    exact ⟨c, _, rest, rfl, hc, rfl⟩
  · obtain ⟨b₁, tail, rfl⟩ := List.exists_cons_of_length_pos (Nat.lt_of_lt_of_le (by decide) henough)
    obtain ⟨b₂, rest, rfl⟩ := List.exists_cons_of_length_pos (Nat.le_of_succ_le_succ henough)
    obtain ⟨c, hc⟩ := exists_char_three (l2 rfl).1 (l2 rfl).2 hsecond (htails b₁ (by simp)) (htails b₂ (by simp))
    exact ⟨c, _, rest, rfl, hc, rfl⟩
  · obtain ⟨b₁, tail, rfl⟩ := List.exists_cons_of_length_pos (Nat.lt_of_lt_of_le (by decide) henough)
    have henough := Nat.le_of_succ_le_succ henough
    obtain ⟨b₂, tail, rfl⟩ := List.exists_cons_of_length_pos (Nat.lt_of_lt_of_le (by decide) henough)
    obtain ⟨b₃, rest, rfl⟩ := List.exists_cons_of_length_pos (Nat.le_of_succ_le_succ henough)
    obtain ⟨c, hc⟩ := exists_char_four (l3 rfl).1 hhead.2 hsecond (htails b₁ (by simp)) (htails b₂ (by simp))
      (htails b₃ (by simp))
    exact ⟨c, _, rest, rfl, hc, rfl⟩

/-- A byte that a decoder that is not lossy replaces is 0xA9. -/
theorem nextSequence_replaced {flags : ConversionFlags} (hlossy : flags.allowLossyConversion = false) {source : List UInt8}
    (h : nextSequence flags source = .replaced) : ∃ rest, source = 0xA9 :: rest := by
  unfold nextSequence at h
  cases source with
  | nil => exact Sequence.noConfusion h
  | cons head tail =>
    simp only at h
    split at h
    · exact Sequence.noConfusion h
    · split at h
      · split at h
        · rename_i hor
          exact ⟨tail, by rw [hor.resolve_right (by simp [hlossy])]⟩
        · exact Sequence.noConfusion h
      · exact Sequence.noConfusion h

/-- A strict decoder replaces a byte 0xA9 that begins no character. -/
theorem nextSequence_copyright {flags : ConversionFlags} (hstrict : flags.lenientUTF8Conversion = false)
    (rest : List UInt8) : nextSequence flags (0xA9 :: rest) = .replaced := by
  have htrailing : trailingBytesForUTF8.getD (0xA9 : UInt8).toNat 0 = 0 := by decide
  have hlegal : isLegalUTF8 (0xA9 :: rest) 1 = false := by
    rw [← Bool.not_eq_true, isLegalUTF8_iff (by decide)]
    rw [List.headD_cons]
    exact fun h => h.2.1 (.inl (by decide))
  unfold nextSequence
  simp only [htrailing, hstrict, hlegal]
  simp

end CFLite.Strings
