import CFLite.Base.IntegerNumber

/-!
# What integer conversions return and store

* `create_value`: a number has the value it was created with, cached or not;
* `getValueSaturating_saturates`: `__CFNumberGetValue` returns whether the value
  is in the range of the target, and stores it or the nearest end of the range;
* `getValue_converts_iff`: the casts of `CFNumberGetValue` look at the low half
  of a 128-bit number only, so that a value out of range whose low half is in
  range passes for it.
-/

namespace CFLite.IntegerNumber

open Framework

/-! ## Creation -/

/-- Every cached number has the value of its slot. -/
def CacheHolds (cache : Cache) : Prop := ∀ i number, cache i = some number → number.value = i

theorem width_pos (type : Canonical) : 0 < type.width := by cases type <;> decide

theorem storeValue_value (type : Canonical) (value : BitVec type.width) :
    (storeValue type value).value = value.toInt := by
  cases type with
  | sInt8 | sInt16 | sInt32 => exact BitVec.toInt_signExtend_of_le (by decide)
  | sInt64 => rfl
  | sInt128 =>
    change (value.extractLsb' 64 64 ++ value.extractLsb' 0 64).toInt = value.toInt
    congr 1
    exact (BitVec.extractLsb'_append_extractLsb'_eq_extractLsb' rfl).trans BitVec.extractLsb'_eq_self

theorem valToBeCached_eq_some {c : Circumstances} {type : Canonical} {val i : Int}
    (h : valToBeCached c type val = some i) : i = val ∧ type.storageBit = false ∧ Fits 64 i := by
  rw [valToBeCached] at h
  split at h
  · rename_i hc
    rw [Bool.and_eq_true, Bool.and_eq_true, Bool.not_eq_true', decide_eq_true_iff, minCachedInt, maxCachedInt] at hc
    obtain ⟨⟨-, hbit⟩, hl, hu⟩ := hc
    obtain rfl := Option.some.inj h
    exact ⟨rfl, hbit, by omega, by omega⟩
  · cases h

/-- A word of a type that is stored in one. -/
theorem value_of_word {type : Canonical} (h : type.storageBit = false) {i : Int} (hi : Fits 64 i) (low : BitVec 64) :
    (CFNumber.mk type (BitVec.ofInt 64 i) low).value = i := by
  rw [CFNumber.value, if_neg (by simp [h])]
  exact toInt_ofInt_of_fits (by decide) hi

theorem createCanonical_spec {cache : Cache} (hcache : CacheHolds cache) (c : Circumstances) (type : Canonical)
    (value : BitVec type.width) :
    (createCanonical c cache type value).1.value = value.toInt ∧ CacheHolds (createCanonical c cache type value).2 := by
  unfold createCanonical
  cases hval : valToBeCached c type value.toInt with
  | none => exact ⟨storeValue_value type value, hcache⟩
  | some i =>
    obtain ⟨hi, htype, hfits⟩ := valToBeCached_eq_some hval
    dsimp only
    cases hslot : cache i with
    | some cached => exact ⟨(hcache i cached hslot).trans hi, hcache⟩
    | none =>
      dsimp only
      split
      · refine ⟨(value_of_word rfl hfits 0).trans hi, fun j number hj => ?_⟩
        dsimp only at hj
        split at hj
        · rename_i hij
          obtain rfl := Option.some.inj hj
          rw [hij]
          exact value_of_word rfl hfits 0
        · exact hcache j number hj
      · exact ⟨(value_of_word htype hfits 0).trans hi, hcache⟩

theorem Reached.holds {cache : Cache} (h : Reached cache) : CacheHolds cache := by
  induction h with
  | empty => exact nofun
  | create _ c type valuePtr ih => exact (createCanonical_spec ih c _ valuePtr).2

/-- A number has the value it was created with. -/
theorem create_value {cache : Cache} (h : Reached cache) (c : Circumstances) (type : CFNumberType)
    (valuePtr : BitVec type.canonicalType.width) : (create c cache type valuePtr).1.value = valuePtr.toInt :=
  (createCanonical_spec h.holds c _ valuePtr).1

/-! ## Outcomes of a conversion -/

/-- A conversion to `w` bits returns true exactly where the value `v` is one of
`w` bits, and then stores it. -/
structure ConvertsTo (w : Nat) (v : Int) (r : Bool × BitVec w) : Prop where
  returned : r.1 = true ↔ Fits w v
  stored : Fits w v → r.2.toInt = v

/-- Otherwise it stores the nearest value of `w` bits. -/
structure SaturatesTo (w : Nat) (v : Int) (r : Bool × BitVec w) : Prop extends ConvertsTo w v r where
  saturated : ¬Fits w v → r.2.toInt = nearestEnd w v

section Outcomes

variable {w : Nat}

theorem fits_ends (w : Nat) : Fits w (dstMin w) ∧ Fits w (dstMax w) := by
  have hpos : 0 < 2 ^ (w - 1) := Nat.two_pow_pos _
  have hcast : (0 : Int) < (2 ^ (w - 1) : Nat) := Int.ofNat_lt.mpr hpos
  push_cast at hcast
  exact ⟨⟨by rw [dstMin], by rw [dstMin]; omega⟩, ⟨by rw [dstMax]; omega, by rw [dstMax]; omega⟩⟩

/-- The value that `CVT` stores. -/
theorem cvt_saturates (hw : 0 < w) (hle : w ≤ 64) (sv : BitVec 64) : SaturatesTo w sv.toInt (cvt w sv) := by
  obtain ⟨hmin, hmax⟩ := fits_ends w
  have hends := hmin.2
  obtain ⟨d, hd⟩ : ∃ d, d = if sv.toInt < dstMin w then dstMin w
    else if dstMax w < sv.toInt then dstMax w else sv.toInt := ⟨_, rfl⟩
  have hstored : (cvt w sv).2 = BitVec.ofInt w d := by
    rw [hd, cvt]
    split <;> rfl
  have hin : Fits w sv.toInt ↔ ¬sv.toInt < dstMin w ∧ ¬dstMax w < sv.toInt := by
    rw [Fits, dstMin, dstMax]
    omega
  have hfits : Fits w d := by
    rw [hd]
    split
    · exact hmin
    · split
      · exact hmax
      · exact hin.mpr ⟨by assumption, by assumption⟩
  have hdv : (cvt w sv).2.toInt = d := by rw [hstored, toInt_ofInt_of_fits hw hfits]
  have hsame : Fits w sv.toInt → d = sv.toInt := fun h => by
    rw [hd, if_neg (hin.mp h).1, if_neg (hin.mp h).2]
  refine ⟨⟨?_, fun h => hdv.trans (hsame h)⟩, fun h => hdv.trans ?_⟩
  · change ((cvt w sv).2.signExtend 64 == sv) = true ↔ _
    rw [beq_iff_eq, ← BitVec.toInt_inj, BitVec.toInt_signExtend_of_le hle, hdv]
    exact ⟨fun h => h ▸ hfits, hsame⟩
  · have hout := mt hin.mpr h
    rw [hd, nearestEnd]
    rw [dstMin] at hends hout
    rw [dstMax] at hout ⊢
    by_cases hlow : sv.toInt < -2 ^ (w - 1)
    · rw [dstMin, if_pos hlow, if_pos (by omega)]
    · rw [dstMin, if_neg hlow, if_pos (by omega), if_neg (by omega)]

/-- The integer of two words, by its halves. -/
theorem low_toInt (high low : BitVec 64) (h : Fits 64 (high ++ low).toInt) : low.toInt = (high ++ low).toInt := by
  have hlow : low.toNat < 2 ^ 64 := low.isLt
  rw [toInt_halves (by decide)] at h ⊢
  rw [BitVec.toInt_eq_toNat_cond]
  have h1 := h.1
  have h2 := h.2
  split <;> omega

/-- `CVT128ToInt` decides by the exact value, although it compares the low
halves without sign. -/
theorem cvt128ToInt_saturates (hw : 0 < w) (hle : w ≤ 64) (high low : BitVec 64) :
    SaturatesTo w (high ++ low).toInt (cvt128ToInt w high low) := by
  obtain ⟨hmin, hmax⟩ := fits_ends w
  have hlow : low.toNat < 2 ^ 64 := low.isLt
  have hvalue := toInt_halves (by decide) high low
  have hpow := (Fits.mono hmax hle).2
  have hM := hmin.2
  have hmaxNat : ((BitVec.ofInt 64 (dstMax w)).toNat : Int) = dstMax w := by
    rw [BitVec.toNat_ofInt, dstMax]
    rw [dstMin] at hM
    rw [dstMax] at hpow
    omega
  have hminNat : ((BitVec.ofInt 64 (dstMin w)).toNat : Int) = 2 ^ 64 + dstMin w := by
    rw [BitVec.toNat_ofInt, dstMin]
    rw [dstMin] at hM
    rw [dstMax] at hpow
    omega
  rw [cvt128ToInt]
  have hin : Fits w (high ++ low).toInt ↔ ¬(high ++ low).toInt < dstMin w ∧ ¬dstMax w < (high ++ low).toInt := by
    rw [Fits, dstMin, dstMax]
    omega
  split
  · rename_i habove
    have hout : dstMax w < (high ++ low).toInt := by omega
    have hnot : ¬Fits w (high ++ low).toInt := fun h => (hin.mp h).2 hout
    refine ⟨⟨iff_of_false Bool.false_ne_true hnot, fun h => absurd h hnot⟩, fun _ => ?_⟩
    rw [toInt_ofInt_of_fits hw hmax, nearestEnd, if_neg (by rw [dstMin] at hM; rw [dstMax] at hout; omega), dstMax]
  · split
    · rename_i hbelow
      have hout : (high ++ low).toInt < dstMin w := by omega
      have hnot : ¬Fits w (high ++ low).toInt := fun h => (hin.mp h).1 hout
      refine ⟨⟨iff_of_false Bool.false_ne_true hnot, fun h => absurd h hnot⟩, fun _ => ?_⟩
      rw [toInt_ofInt_of_fits hw hmin, nearestEnd, if_pos (by rw [dstMin] at hM hout; omega), dstMin]
    · have hfits : Fits w (high ++ low).toInt := hin.mpr (by omega)
      have heq := low_toInt high low (hfits.mono hle)
      refine ⟨⟨iff_of_true rfl hfits, fun _ => ?_⟩, fun h => absurd hfits h⟩
      rw [toInt_setWidth_of_fits hw hle (heq ▸ hfits), heq]

/-- A cast of 64 bits tells whether it lost anything. -/
theorem cvtCompat_converts (hw : 0 < w) (hle : w ≤ 64) (sv : BitVec 64) : ConvertsTo w sv.toInt (cvtCompat w sv) := by
  refine ⟨?_, toInt_setWidth_of_fits hw hle⟩
  rw [cvtCompat, beq_iff_eq]
  exact widen_narrow_iff hw hle

/-- A cast of 128 bits tells whether the low half would have lost anything. -/
theorem cvt128ToIntCompat_converts_iff (hw : 0 < w) (hle : w ≤ 64) (high low : BitVec 64) :
    ConvertsTo w (high ++ low).toInt (cvt128ToIntCompat w low) ↔
      Fits w (high ++ low).toInt ∨ ¬Fits w low.toInt := by
  have hcast := cvtCompat_converts hw hle low
  constructor
  · intro h
    by_cases hlow : Fits w low.toInt
    · exact .inl (h.returned.mp (hcast.returned.mpr hlow))
    · exact .inr hlow
  · intro h
    have hkeep : Fits w (high ++ low).toInt → low.toInt = (high ++ low).toInt := fun hfits =>
      low_toInt high low (hfits.mono hle)
    refine ⟨hcast.returned.trans ⟨fun hlow => h.resolve_right (not_not.mpr hlow), fun hfits => ?_⟩, fun hfits => ?_⟩
    · rw [hkeep hfits]
      exact hfits
    · exact (hcast.stored (by rw [hkeep hfits]; exact hfits)).trans (hkeep hfits)

end Outcomes

/-! ## Numbers -/

/-- The low 64 bits of a number's value, as a signed integer. -/
def CFNumber.lowValue (number : CFNumber) : Int := number.value.bmod (2 ^ 64)

section Numbers

variable (number : CFNumber)

theorem value_of_storageBit (h : number.type.storageBit = true) : number.value = (number.pad ++ number.low).toInt :=
  if_pos h

theorem value_of_word_storage (h : ¬number.type.storageBit = true) : number.value = number.pad.toInt := if_neg h

theorem lowValue_of_storageBit (h : number.type.storageBit = true) : number.lowValue = number.low.toInt := by
  rw [CFNumber.lowValue, value_of_storageBit number h, toInt_halves (by decide), BitVec.toInt_eq_toNat_bmod number.low]
  exact Int.mul_add_bmod_self_left ..

theorem lowValue_of_word_storage (h : ¬number.type.storageBit = true) : number.lowValue = number.value := by
  rw [CFNumber.lowValue, value_of_word_storage number h, ← BitVec.toInt_ofInt, BitVec.ofInt_toInt]

theorem getSInt128_returned : (getSInt128 number).1 = true := by
  rw [getSInt128]
  split <;> rfl

/-- The 128 bits hold the value of every number. -/
theorem toInt_getSInt128 : (getSInt128 number).2.toInt = number.value := by
  rw [getSInt128, CFNumber.value]
  split
  · rfl
  · have hpad := number.pad.isLt
    dsimp only
    rw [toInt_halves (by decide), BitVec.toInt_eq_toNat_cond number.pad]
    split <;> split <;> simp <;> omega

theorem getSInt128_saturates : SaturatesTo 128 number.value (getSInt128 number) := by
  have hfits : Fits 128 number.value := toInt_getSInt128 number ▸ fits_toInt _
  exact ⟨⟨iff_of_true (getSInt128_returned number) hfits, fun _ => toInt_getSInt128 number⟩,
    fun h => absurd hfits h⟩

/-- `__CFNumberGetValue` saturates, for every target. -/
theorem getValueSaturating_saturates (type : Canonical) :
    SaturatesTo type.width number.value (getValueSaturating number type) := by
  have hnarrow : ∀ w, 0 < w → w ≤ 64 → SaturatesTo w number.value (getNarrow w number) := by
    intro w hw hle
    rw [getNarrow, CFNumber.value]
    split
    · exact cvt128ToInt_saturates hw hle _ _
    · exact cvt_saturates hw hle _
  cases type with
  | sInt8 => exact hnarrow 8 (by decide) (by decide)
  | sInt16 => exact hnarrow 16 (by decide) (by decide)
  | sInt32 => exact hnarrow 32 (by decide) (by decide)
  | sInt64 =>
    by_cases hbit : number.type.storageBit = true
    · rw [value_of_storageBit number hbit, getValueSaturating, getSInt64, if_pos hbit]
      exact cvt128ToInt_saturates (by decide) (Nat.le_refl 64) _ _
    · have hfits := fits_toInt number.pad
      rw [value_of_word_storage number hbit, getValueSaturating, getSInt64, if_neg hbit]
      exact ⟨⟨iff_of_true rfl hfits, fun _ => rfl⟩, fun h => absurd hfits h⟩
  | sInt128 => exact getSInt128_saturates number

theorem getCompat_converts_iff {w : Nat} (hw : 0 < w) (hle : w ≤ 64) :
    ConvertsTo w number.value (getCompat w number) ↔ Fits w number.value ∨ ¬Fits w number.lowValue := by
  rw [getCompat]
  split
  · rename_i h
    rw [lowValue_of_storageBit number h, value_of_storageBit number h]
    exact cvt128ToIntCompat_converts_iff hw hle _ _
  · rename_i h
    rw [lowValue_of_word_storage number h, value_of_word_storage number h]
    exact iff_of_true (cvtCompat_converts hw hle _) (Classical.em _)

/-- `CFNumberGetValue` for the targets of at least 32 bits. -/
theorem getValueCompat_converts_iff (linkedOnOrAfter : Bool) {type : Canonical} (h : 32 ≤ type.width) :
    ConvertsTo type.width number.value (getValueCompat linkedOnOrAfter number type) ↔
      Fits type.width number.value ∨ ¬Fits type.width number.lowValue := by
  cases type with
  | sInt8 | sInt16 => exact absurd h (by decide)
  | sInt32 => exact getCompat_converts_iff number (by decide) (by decide)
  | sInt64 => exact getCompat_converts_iff number (by decide) (by decide)
  | sInt128 =>
    have hsat := getSInt128_saturates number
    exact iff_of_true hsat.toConvertsTo (.inl (hsat.returned.mp (getSInt128_returned number)))

end Numbers

/-- For a number created from an integer type, `CFNumberGetValue` tells the
truth about the loss exactly if the value is in the target's range, or its low
64 bits are not; `__CFNumberGetValue` always does. -/
theorem getValue_converts_iff {cache : Cache} (hcache : Reached cache) (c : Circumstances) (type : CFNumberType)
    (valuePtr : BitVec type.canonicalType.width) (linkedOnOrAfter : Bool) :
    (∀ target : CFNumberType, 32 ≤ target.canonicalType.width →
      (ConvertsTo target.canonicalType.width valuePtr.toInt
          (getValue linkedOnOrAfter (create c cache type valuePtr).1 target) ↔
        Fits target.canonicalType.width valuePtr.toInt ∨
          ¬Fits target.canonicalType.width (valuePtr.toInt.bmod (2 ^ 64)))) ∧
    ∀ target : CFNumberType, SaturatesTo target.canonicalType.width valuePtr.toInt
      (getValueSaturating (create c cache type valuePtr).1 target.canonicalType) := by
  rw [← create_value hcache c type valuePtr]
  exact ⟨fun _ htarget => getValueCompat_converts_iff _ linkedOnOrAfter htarget,
    fun _ => getValueSaturating_saturates _ _⟩

/-- A number that was found in the cache. -/
theorem getValue_cached :
    ConvertsTo 32 (-1) (getValue true
      (create ⟨true, true, true⟩ (create ⟨true, true, true⟩ emptyCache .sInt8Type (-1#8)).2 .sInt64Type (-1#64)).1
      .sInt32Type) :=
  ((getValue_converts_iff (.create .empty ⟨true, true, true⟩ .sInt8Type (-1#8)) ⟨true, true, true⟩ .sInt64Type
    (-1#64) true).1 .sInt32Type (by decide)).mpr (.inl (by decide))

/-- The 128-bit number `2 ^ 64` passes for the 32-bit number 0. -/
theorem getValue_high_half :
    (create ⟨true, true, true⟩ emptyCache .sInt128Type (1#64 ++ 0#64)).1.value = 2 ^ 64 ∧
    getValue true (create ⟨true, true, true⟩ emptyCache .sInt128Type (1#64 ++ 0#64)).1 .sInt32Type = (true, 0#32) ∧
    ¬Fits 32 (2 ^ 64) :=
  ⟨by decide, rfl, by decide⟩

end CFLite.IntegerNumber
