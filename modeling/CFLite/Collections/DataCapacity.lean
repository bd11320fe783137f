import CFLite.Collections.DataRuns

/-!
# The capacity that a growing data is given

`__CFDataRoundUpCapacity` shifts an `int`, so from 2³⁰ on the capacity is not
what the comments promise, until at 2³² it is counted in chunks.

* `roundUpCapacity_shift`, `roundUpCapacity_chunks`: the capacity where it is
  computed without overflow;
* `makesRoom_iff`: the requests for which growing makes room.
-/

namespace CFLite.Data

open Framework

variable {n : Nat}

/-! ## The four regimes -/

/-- What 1 is shifted by, for the requests whose capacity is a power of two. -/
def capacityShift (capacity : Nat) : Option Nat :=
  if capacity < 16 then none
  else if capacity < lowThreshold then some (flsl capacity + if flsl capacity % 2 = 0 then 0 else 1)
  else if capacity < highThreshold then some (flsl capacity)
  else none

theorem roundUpCapacity_of_shift {k : Nat} (h : capacityShift n = some k) : roundUpCapacity n = oneShl k := by
  unfold capacityShift at h
  unfold roundUpCapacity
  by_cases h16 : n < 16
  · rw [if_pos h16] at h
    cases h
  rw [if_neg h16] at h ⊢
  by_cases hlow : n < lowThreshold
  · rw [if_pos hlow] at h ⊢
    exact congrArg oneShl (Option.some.inj h)
  rw [if_neg hlow] at h ⊢
  by_cases hhigh : n < highThreshold
  · rw [if_pos hhigh] at h ⊢
    exact congrArg oneShl (Option.some.inj h)
  · rw [if_neg hhigh] at h
    cases h

theorem flsl_chunkSize : flsl chunkSize = 30 := by
  have hle : flsl chunkSize ≤ 30 := flsl_le_iff.mpr (by rw [chunkSize]; norm_num)
  have hgt : ¬ flsl chunkSize ≤ 29 := by rw [flsl_le_iff, chunkSize]; norm_num
  omega

theorem roundUpCapacity_chunks (h : highThreshold ≤ n) :
    roundUpCapacity n = ((min (2 ^ 29 * (1 + n / 2 ^ 29)) dataMaxSize : Nat) : Int) := by
  have hlow : lowThreshold ≤ highThreshold := by decide
  unfold roundUpCapacity
  rw [if_neg (by rw [highThreshold] at h; omega), if_neg (by omega), if_neg (by omega), flsl_chunkSize, chunkSize]
  push_cast
  rfl

theorem capacityShift_eq_some (h16 : ¬ n < 16) (hhigh : n < highThreshold) : ∃ k, capacityShift n = some k := by
  unfold capacityShift
  rw [if_neg h16, if_pos hhigh]
  split
  · exact ⟨_, rfl⟩
  · exact ⟨_, rfl⟩

/-- The shift of a small request is that of its number of bits, rounded up to an
even number. -/
theorem capacityShift_low {k : Nat} (hlow : n < lowThreshold) (h : capacityShift n = some k) :
    flsl n ≤ k ∧ k ≤ flsl n + flsl n % 2 ∧ k % 2 = 0 ∧ k ≤ 20 := by
  have h20 : flsl n ≤ 20 := flsl_le_iff.mpr hlow
  unfold capacityShift at h
  split at h
  · cases h
  obtain rfl := Option.some.inj h
  refine ⟨Nat.le_add_right _ _, ?_, ?_, ?_⟩ <;> split <;> omega

theorem capacityShift_high {k : Nat} (hlow : ¬ n < lowThreshold) (h : capacityShift n = some k) :
    k = flsl n ∧ 20 < k ∧ k ≤ 32 := by
  have h20 : ¬ flsl n ≤ 20 := mt flsl_le_iff.mp hlow
  unfold capacityShift at h
  split at h
  · cases h
  split at h
  · rename_i hhigh
    have h32 : flsl n ≤ 32 := flsl_le_iff.mpr hhigh
    obtain rfl := Option.some.inj h
    omega
  · cases h

theorem lt_two_pow_capacityShift {k : Nat} (h : capacityShift n = some k) : n < 2 ^ k := by
  have hle : flsl n ≤ k := by
    by_cases hlow : n < lowThreshold
    · exact (capacityShift_low hlow h).1
    · exact (capacityShift_high hlow h).1.ge
  exact flsl_le_iff.mp hle

theorem capacityShift_le_iff {k : Nat} (h : capacityShift n = some k) : k ≤ 30 ↔ n < 2 ^ 30 := by
  by_cases hlow : n < lowThreshold
  · have := capacityShift_low hlow h
    rw [lowThreshold] at hlow
    omega
  · rw [(capacityShift_high hlow h).1]
    exact flsl_le_iff

/-! ## Order -/

/-- As long as 1 is shifted, no capacity is above 2³⁰. -/
theorem roundUpCapacity_le (h : n < highThreshold) : roundUpCapacity n ≤ 2 ^ 30 := by
  by_cases h16 : n < 16
  · rw [roundUpCapacity, if_pos h16]
    norm_num
  obtain ⟨k, hk⟩ := capacityShift_eq_some h16 h
  have h32 : k ≤ 32 := by
    by_cases hlow : n < lowThreshold
    · have := capacityShift_low hlow hk
      omega
    · exact (capacityShift_high hlow hk).2.2
  have hall : ∀ j ≤ 32, oneShl j ≤ 2 ^ 30 := by decide
  rw [roundUpCapacity_of_shift hk]
  exact hall k h32

theorem flsl_mono {m n : Nat} (h : m ≤ n) : flsl m ≤ flsl n :=
  flsl_le_iff.mpr (h.trans_lt (flsl_le_iff.mp le_rfl))

theorem capacityShift_mono {m k l : Nat} (h : m ≤ n) (hm : capacityShift m = some k) (hn : capacityShift n = some l) :
    k ≤ l := by
  have hfl := flsl_mono h
  by_cases hlow : m < lowThreshold
  · have hk := capacityShift_low hlow hm
    by_cases hnlow : n < lowThreshold
    · have := capacityShift_low hnlow hn
      omega
    · have := capacityShift_high hnlow hn
      omega
  · have hk := capacityShift_high hlow hm
    have := capacityShift_high (by omega) hn
    omega

theorem roundUpCapacity_pow {k : Nat} (hn : n < 2 ^ 30) (h : capacityShift n = some k) :
    roundUpCapacity n = ((2 ^ k : Nat) : Int) := by
  have hk := (capacityShift_le_iff h).mpr hn
  rw [roundUpCapacity_of_shift h, oneShl_eq (by omega)]
  push_cast
  rfl

theorem roundUpCapacity_mono {m : Nat} (h : m ≤ n) (hn : n < 2 ^ 30 ∨ highThreshold ≤ n) :
    roundUpCapacity m ≤ roundUpCapacity n := by
  rcases hn with hn | hn
  · have hhigh : ∀ j < 2 ^ 30, j < highThreshold := fun j hj => hj.trans (by rw [highThreshold]; norm_num)
    by_cases hn16 : n < 16
    · rw [roundUpCapacity, if_pos (by omega), roundUpCapacity, if_pos hn16]
    obtain ⟨l, hl⟩ := capacityShift_eq_some hn16 (hhigh n hn)
    by_cases hm16 : m < 16
    · have h16 : 16 ≤ 2 ^ l := (Nat.le_of_not_lt hn16).trans (lt_two_pow_capacityShift hl).le
      rw [roundUpCapacity, if_pos hm16, roundUpCapacity_pow hn hl]
      exact_mod_cast h16
    obtain ⟨k, hk⟩ := capacityShift_eq_some hm16 (hhigh m (by omega))
    rw [roundUpCapacity_pow (by omega) hk, roundUpCapacity_pow hn hl]
    exact_mod_cast Nat.pow_le_pow_right (by decide) (capacityShift_mono h hk hl)
  · have hchunk : 2 ^ 30 ≤ min (2 ^ 29 * (1 + n / 2 ^ 29)) dataMaxSize := by
      rw [highThreshold] at hn
      rw [dataMaxSize]
      omega
    rw [roundUpCapacity_chunks hn]
    by_cases hm : m < highThreshold
    · refine (roundUpCapacity_le hm).trans ?_
      exact_mod_cast hchunk
    · rw [roundUpCapacity_chunks (Nat.le_of_not_lt hm)]
      have hdiv := Nat.div_le_div_right (c := 2 ^ 29) h
      exact_mod_cast min_le_min_right dataMaxSize (by omega)

/-! ## Requests -/

/-- What growing to a length is to do. -/
structure MakesRoom (n : Nat) : Prop where
  /-- The shift does not leave the `int`. -/
  shift : ∀ k, capacityShift n = some k → oneShl k = 2 ^ k
  le : (n : Int) ≤ roundUpCapacity n
  le_max : roundUpCapacity n ≤ dataMaxSize
  mono : ∀ m ≤ n, roundUpCapacity m ≤ roundUpCapacity n
  /-- `__CFDataGrow` leaves as much room as was asked for. -/
  grows : ∀ junk (data : CFMutableData) numNewValues clear, data.length ≤ data.bytes.length →
    data.length + numNewValues = n → ∃ data', grow junk data numNewValues clear = some data' ∧ n ≤ data'.bytes.length
  /-- `CFDataReplaceBytes` has room for the bytes that it writes. -/
  replaces : ∀ junk (data : CFMutableData) rangeLength newLength newBytes, data.length ≤ data.bytes.length →
    rangeLength ≤ data.length → data.length + newLength = n + rangeLength →
    ∀ data' srcBuf, makeRoom junk data rangeLength newLength n newBytes = some (data', srcBuf) → n ≤ data'.bytes.length

theorem le_roundUpCapacity_iff (hmax : n ≤ dataMaxSize) :
    (n : Int) ≤ roundUpCapacity n ↔ n < 2 ^ 30 ∨ 2 ^ 32 ≤ n := by
  constructor
  · intro hle
    by_contra hbad
    obtain ⟨h30, h32⟩ : 2 ^ 30 ≤ n ∧ n < 2 ^ 32 := by omega
    obtain ⟨k, hk⟩ := capacityShift_eq_some (by omega) h32
    have hlow : ¬ n < lowThreshold := by rw [lowThreshold]; omega
    have hk30 := mt (capacityShift_le_iff hk).mp (by omega)
    have hk32 := (capacityShift_high hlow hk).2.2
    have hshift : ∀ j ≤ 32, ¬ j ≤ 30 → oneShl j ≤ 0 := by decide
    rw [roundUpCapacity_of_shift hk] at hle
    have := hshift k hk32 hk30
    omega
  · rintro (h30 | h32)
    · by_cases h16 : n < 16
      · rw [roundUpCapacity, if_pos h16]
        omega
      obtain ⟨k, hk⟩ := capacityShift_eq_some h16 (show n < highThreshold by rw [highThreshold]; omega)
      rw [roundUpCapacity_pow h30 hk]
      exact_mod_cast (lt_two_pow_capacityShift hk).le
    · rw [roundUpCapacity_chunks h32, Nat.cast_le]
      refine le_min ?_ hmax
      omega

/-- Growing makes room for the requests below 2³⁰, and again for those from
2³² on. -/
theorem makesRoom_iff (n : Nat) (hmax : n ≤ dataMaxSize) : MakesRoom n ↔ n < 2 ^ 30 ∨ 2 ^ 32 ≤ n := by
  refine ⟨fun h => (le_roundUpCapacity_iff hmax).mp h.le, fun h => ?_⟩
  have hle := (le_roundUpCapacity_iff hmax).mpr h
  have hgrows : ∀ junk (data : CFMutableData) numNewValues clear, data.length ≤ data.bytes.length →
      data.length + numNewValues = n →
      ∃ data', grow junk data numNewValues clear = some data' ∧ n ≤ data'.bytes.length := by
    rintro junk data numNewValues clear hlen rfl
    obtain ⟨data', hgrow, hgrown⟩ := grow_of_room junk hlen (n := numNewValues) (by omega) (by omega) clear
    exact ⟨data', hgrow, hgrown.room⟩
  refine ⟨?_, hle, ?_, fun m hm => roundUpCapacity_mono hm h, hgrows, ?_⟩
  · intro k hk
    rcases h with h30 | h32
    · exact oneShl_eq (by have := (capacityShift_le_iff hk).mpr h30; omega)
    · have : capacityShift n = none := by
        unfold capacityShift
        rw [if_neg (by omega), if_neg (by rw [lowThreshold]; omega), if_neg (by rw [highThreshold]; omega)]
      rw [this] at hk
      cases hk
  · by_cases h32 : 2 ^ 32 ≤ n
    · rw [roundUpCapacity_chunks h32, Nat.cast_le]
      exact min_le_right _ _
    · refine (roundUpCapacity_le (Nat.lt_of_not_le h32)).trans ?_
      rw [dataMaxSize]
      norm_num
  · intro junk data rangeLength newLength newBytes hlen hrange hcount data' srcBuf hroom
    unfold makeRoom at hroom
    split at hroom
    · split at hroom
      · obtain ⟨src, -, hroom⟩ := Option.bind_eq_some_iff.mp hroom
        obtain ⟨grown, hgrow, hroom⟩ := Option.bind_eq_some_iff.mp hroom
        obtain ⟨other, hother, hfits⟩ := hgrows junk data (newLength - rangeLength) false hlen (by omega)
        obtain rfl : grown = data' := congrArg Prod.fst (Option.some.inj hroom)
        obtain rfl : other = grown := Option.some.inj (hother.symm.trans hgrow)
        exact hfits
      · obtain rfl : data = data' := congrArg Prod.fst (Option.some.inj hroom)
        omega
    · split at hroom
      · cases hroom
      · obtain rfl : data = data' := congrArg Prod.fst (Option.some.inj hroom)
        omega

theorem makesRoom_chunks : 2 ^ 32 ≤ dataMaxSize ∧ MakesRoom (2 ^ 32) :=
  ⟨by decide, (makesRoom_iff (2 ^ 32) (by decide)).mpr (.inr le_rfl)⟩

/-- A gibibyte: the shift reaches the sign bit of the `int`. -/
theorem not_makesRoom_gibibyte : ¬ MakesRoom (2 ^ 30) := by
  intro h
  have hle := h.le
  have hflsl : flsl (2 ^ 30) = 31 := by
    have hup : flsl (2 ^ 30) ≤ 31 := flsl_le_iff.mpr (by norm_num)
    have hlow : ¬ flsl (2 ^ 30) ≤ 30 := by rw [flsl_le_iff]; norm_num
    omega
  have hshift : capacityShift (2 ^ 30) = some 31 := by
    unfold capacityShift
    rw [if_neg (by norm_num), if_neg (by decide), if_pos (by decide), hflsl]
  rw [roundUpCapacity_of_shift hshift, oneShl_31] at hle
  norm_num at hle

end CFLite.Data
