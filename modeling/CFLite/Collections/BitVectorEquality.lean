import CFLite.Collections.BitExtraction

/-!
# Equality of bit vectors

`__CFBitVectorEqual` compares whole buckets, one more than the count fills. The
last of them has bits that the count does not reach: those of the bytes a vector
was created from, those of an earlier, larger count, or whatever `realloc` left.

* `equal_iff`: two vectors are found equal if and only if all bits of these
  buckets agree;
* `equal_sameBits_iff`: the answer is about the bits below the count, for all
  vectors the functions of the interface can make, exactly where the unused
  bits of the last bucket do not decide it.
-/

namespace CFLite.BitVector

open Framework

namespace CFBitVector

/-- `for (idx = from; idx < (cnt / __CF_BITS_PER_BUCKET) + 1; idx++)`, with `n`
buckets left. -/
def equalBuckets (bv1 bv2 : CFBitVector) : (n idx : Nat) → Option Bool
  | 0, _ => some true
  | n + 1, idx => do
    let val1 ← bv1.buckets[idx]?
    let val2 ← bv2.buckets[idx]?
    if val1 ≠ val2 then return false
    equalBuckets bv1 bv2 n (idx + 1)

/-- `__CFBitVectorEqual` -/
def equal (bv1 bv2 : CFBitVector) : Option Bool :=
  let cnt := bv1.count
  if cnt ≠ bv2.count then some false
  else if cnt = 0 then some true
  else equalBuckets bv1 bv2 (cnt / 8 + 1) 0

/-- `CFBitVectorCreateCopy` -/
def createCopy (bv : CFBitVector) : Option CFBitVector := create bv.buckets bv.count

/-- The same count, and the same bit at every index below it. -/
def SameBits (bv1 bv2 : CFBitVector) : Prop :=
  bv1.count = bv2.count ∧ ∀ i < bv1.count, bv1.getBitAtIndex i = bv2.getBitAtIndex i

end CFBitVector

open CFBitVector

/-- The bit vectors that the functions of the interface make, with arguments in
range. Only the mutable ones are changed. -/
inductive Reached : (isMutable : Bool) → CFBitVector → Prop where
  | create (bytes : List Bucket) (numBits : Nat) {bv : CFBitVector} (hbv : create bytes numBits = some bv) :
    Reached false bv
  | createCopy {isMutable : Bool} {bv copy : CFBitVector} (h : Reached isMutable bv)
    (hcopy : bv.createCopy = some copy) : Reached false copy
  | createMutable (capacity : Nat) : Reached true (createMutable capacity)
  | createMutableCopy {isMutable : Bool} {bv copy : CFBitVector} (capacity : Nat) (h : Reached isMutable bv)
    (hcopy : bv.createMutableCopy capacity = some copy) : Reached true copy
  | mutate {bv bv' : CFBitVector} (op : Operation) (h : Reached true bv) (hop : op.InRange bv.count)
    (hrun : op.run bv = some bv') : Reached true bv'

/-! ## Reached vectors hold lists of bits -/

theorem create_represents {bytes : List Bucket} {numBits : Nat} {bv : CFBitVector}
    (h : create bytes numBits = some bv) : Represents bv ((List.range numBits).map (bitAt bytes)) := by
  have hroom : (numBits + 7) / 8 ≤ bytes.length := by
    by_contra hshort
    rw [create, if_neg (by split <;> omega)] at h
    cases h
  have hslice : ∃ slice, create bytes numBits = some slice ∧
      Represents slice ((((List.range numBits).map (bitAt bytes)).drop 0).take numBits) :=
    create_slice (by simp) hroom fun i hi => by
      rw [List.getD_eq_getElem?_getD, List.getElem?_map, Nat.zero_add, List.getElem?_range hi]
      rfl
  obtain ⟨bv', hbv', hrep⟩ := hslice
  obtain rfl := Option.some.inj (h.symm.trans hbv')
  rwa [List.drop_zero, List.take_of_length_le (by simp)] at hrep

theorem Reached.represents {isMutable : Bool} {bv : CFBitVector} (h : Reached isMutable bv) :
    ∃ l, Represents bv l := by
  induction h with
  | create bytes numBits hbv => exact ⟨_, create_represents hbv⟩
  | createCopy _ hcopy => exact ⟨_, create_represents hcopy⟩
  | createMutable capacity => exact ⟨_, createMutable_represents capacity⟩
  | createMutableCopy capacity _ hcopy ih =>
    obtain ⟨l, hl⟩ := ih
    obtain ⟨copy, hcopy', hrep⟩ := createMutableCopy_represents hl capacity
    obtain rfl := Option.some.inj (hcopy.symm.trans hcopy')
    exact ⟨l, hrep⟩
  | mutate op _ hop hrun ih =>
    obtain ⟨l, hl⟩ := ih
    obtain ⟨bv', hrun', hrep⟩ := op.run_represents hl (by rwa [hl.length])
    obtain rfl := Option.some.inj (hrun.symm.trans hrun')
    exact ⟨_, hrep⟩

theorem Reached.room {isMutable : Bool} {bv : CFBitVector} (h : Reached isMutable bv) :
    bv.count / 8 + 1 ≤ bv.buckets.length := by
  obtain ⟨l, hl⟩ := h.represents
  have := hl.room
  omega

/-! ## Buckets and their bits -/

/-- The buckets `idx`, …, `idx + n - 1` are equal where their bits are. -/
theorem bucketsEqual_iff (b1 b2 : List Bucket) (idx n : Nat) :
    (∀ k, idx ≤ k → k < idx + n → b1.getD k 0 = b2.getD k 0) ↔
      ∀ i, 8 * idx ≤ i → i < 8 * (idx + n) → bitAt b1 i = bitAt b2 i := by
  constructor
  · intro h i hl hu
    rw [bitAt, bitAt, h (i / 8) (by omega) (by omega)]
  · intro h k hl hu
    refine BitVec.eq_of_getMsbD_eq fun j hj => ?_
    have hbit := h (8 * k + j) (by omega) (by omega)
    rwa [bitAt, bitAt, show (8 * k + j) / 8 = k by omega, show (8 * k + j) % 8 = j by omega] at hbit

theorem equalBuckets_eq {bv1 bv2 : CFBitVector} (n idx : Nat) (h1 : idx + n ≤ bv1.buckets.length)
    (h2 : idx + n ≤ bv2.buckets.length) :
    ∃ r, equalBuckets bv1 bv2 n idx = some r ∧
      (r = true ↔ ∀ k, idx ≤ k → k < idx + n → bv1.buckets.getD k 0 = bv2.buckets.getD k 0) := by
  induction n generalizing idx with
  | zero => exact ⟨true, rfl, iff_of_true rfl fun k hl hu => by omega⟩
  | succ n ih =>
    have hget1 : bv1.buckets[idx]? = some (bv1.buckets.getD idx 0) := by
      rw [List.getD_eq_getElem?_getD, List.getElem?_eq_getElem (by omega), Option.getD_some]
    have hget2 : bv2.buckets[idx]? = some (bv2.buckets.getD idx 0) := by
      rw [List.getD_eq_getElem?_getD, List.getElem?_eq_getElem (by omega), Option.getD_some]
    simp only [equalBuckets, hget1, hget2, Option.bind_eq_bind, Option.bind_some]
    by_cases hval : bv1.buckets.getD idx 0 = bv2.buckets.getD idx 0
    · obtain ⟨r, hr, hiff⟩ := ih (idx + 1) (by omega) (by omega)
      refine ⟨r, by rw [if_neg (not_not.mpr hval)]; exact hr, hiff.trans ⟨fun h k hl hu => ?_, fun h k hl hu => ?_⟩⟩
      · rcases Nat.eq_or_lt_of_le hl with rfl | hlt
        · exact hval
        · exact h k hlt (by omega)
      · exact h k (by omega) (by omega)
    · exact ⟨false, by rw [if_pos hval]; rfl,
        iff_of_false Bool.false_ne_true fun h => hval (h idx (Nat.le_refl idx) (by omega))⟩

/-- `__CFBitVectorEqual` compares the bits of `cnt / 8 + 1` buckets. -/
theorem equal_iff {bv1 bv2 : CFBitVector} (h1 : bv1.count / 8 + 1 ≤ bv1.buckets.length)
    (h2 : bv2.count / 8 + 1 ≤ bv2.buckets.length) :
    ∃ r, bv1.equal bv2 = some r ∧ (r = true ↔ bv1.count = bv2.count ∧
      (bv1.count ≠ 0 → ∀ i < 8 * (bv1.count / 8 + 1), bitAt bv1.buckets i = bitAt bv2.buckets i)) := by
  rw [equal]
  by_cases hcount : bv1.count = bv2.count
  · rw [if_neg (not_not.mpr hcount)]
    by_cases hzero : bv1.count = 0
    · exact ⟨true, if_pos hzero, iff_of_true rfl ⟨hcount, fun h => absurd hzero h⟩⟩
    · obtain ⟨r, hr, hiff⟩ := equalBuckets_eq (bv1.count / 8 + 1) 0 (show 0 + (bv1.count / 8 + 1) ≤ bv1.buckets.length by omega)
        (show 0 + (bv1.count / 8 + 1) ≤ bv2.buckets.length by rw [hcount]; omega)
      refine ⟨r, by rw [if_neg hzero]; exact hr, hiff.trans ((bucketsEqual_iff ..).trans ?_)⟩
      simp only [hcount, Nat.zero_add, true_and, Nat.mul_zero, Nat.zero_le, forall_true_left, ne_eq]
      exact ⟨fun h _ => h, fun h => h (hcount ▸ hzero)⟩
  · exact ⟨false, if_pos hcount, iff_of_false Bool.false_ne_true fun h => hcount h.1⟩

theorem toNat_inj {a b : Bool} (h : a.toNat = b.toNat) : a = b := by
  revert h
  cases a <;> cases b <;> decide

theorem sameBits_iff {bv1 bv2 : CFBitVector} (h1 : bv1.count / 8 + 1 ≤ bv1.buckets.length)
    (h2 : bv2.count / 8 + 1 ≤ bv2.buckets.length) : bv1.SameBits bv2 ↔
      bv1.count = bv2.count ∧ ∀ i < bv1.count, bitAt bv1.buckets i = bitAt bv2.buckets i := by
  refine and_congr_right fun hcount => forall₂_congr fun i hi => ?_
  rw [getBitAtIndex, getBitAtIndex, bit_eq (show i / 8 < bv1.buckets.length by omega),
    bit_eq (show i / 8 < bv2.buckets.length by omega), Option.some.injEq]
  exact ⟨toNat_inj, congrArg _⟩

/-! ## What the answer is about -/

/-- `__CFBitVectorEqual` tells whether two vectors have the same bits, except
where the unused bits of the last bucket differ and all others agree. -/
theorem equal_sameBits_iff {isMutable1 isMutable2 : Bool} {bv1 bv2 : CFBitVector} (h1 : Reached isMutable1 bv1)
    (h2 : Reached isMutable2 bv2) :
    (∃ r, bv1.equal bv2 = some r ∧ (r = true ↔ bv1.SameBits bv2)) ↔
      (bv1.SameBits bv2 → bv1.count ≠ 0 →
        ∀ i, bv1.count ≤ i → i < 8 * (bv1.count / 8 + 1) → bitAt bv1.buckets i = bitAt bv2.buckets i) := by
  obtain ⟨r, hr, hiff⟩ := equal_iff h1.room h2.room
  have hsame := sameBits_iff h1.room h2.room
  constructor
  · rintro ⟨r', hr', hiff'⟩ hbits hcount i hl hu
    obtain rfl := Option.some.inj (hr.symm.trans hr')
    exact (hiff.mp (hiff'.mpr hbits)).2 hcount i hu
  · refine fun hunused => ⟨r, hr, hiff.trans ⟨fun ⟨hcount, hbits⟩ => ?_, fun hbits => ?_⟩⟩
    · exact hsame.mpr ⟨hcount, fun i hi => hbits (by omega) i (by omega)⟩
    · refine ⟨hbits.1, fun hcount i hi => ?_⟩
      rcases Nat.lt_or_ge i bv1.count with hin | hout
      · exact (hsame.mp hbits).2 i hin
      · exact hunused hbits hcount i hout hi

/-- Four bits of 0xF0 and of 0xFF. -/
theorem equal_four_bits : Reached false (CFBitVector.init [0xF0] 4) ∧ Reached false (CFBitVector.init [0xFF] 4) ∧
    (CFBitVector.init [0xF0] 4).SameBits (CFBitVector.init [0xFF] 4) ∧
    (CFBitVector.init [0xF0] 4).equal (CFBitVector.init [0xFF] 4) = some false :=
  ⟨.create [0xF0] 4 rfl, .create [0xFF] 4 rfl, ⟨rfl, by decide⟩, by decide⟩

/-- Twelve bits of two bytes, and of bytes that go on after them. -/
theorem equal_twelve_bits :
    ∃ r, (CFBitVector.init [0xF0, 0xA0] 12).equal (CFBitVector.init [0xF0, 0xA0] 12) = some r ∧
      (r = true ↔ (CFBitVector.init [0xF0, 0xA0] 12).SameBits (CFBitVector.init [0xF0, 0xA0] 12)) :=
  (equal_sameBits_iff (.create [0xF0, 0xA0] 12 rfl) (.create [0xF0, 0xA0, 0x77] 12 rfl)).mpr fun _ _ _ _ _ => rfl

end CFLite.BitVector
