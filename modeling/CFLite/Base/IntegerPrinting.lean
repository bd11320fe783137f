import CFLite.Base.Int128

/-!
# Decimal numerals of 128-bit integers

`emit128` of `CFNumber.c`. It finds each digit by subtracting a power of ten as
often as it can, which is done by adding the negated power from a second table.

* `PowerRow`: a row of the two tables, whose negated power is the negation, so
  that the loop ends;
* `emitRows_spec`: the digits are the canonical numeral of the number;
* `emit128_iff`: the text is right for every integer but the least one, whose
  negation does not fit, and which is written as `-0`.
-/

namespace CFLite.IntegerPrinting

open CFSInt128Struct

/-! ## Tables -/

def powersOf10 : List CFSInt128Struct :=
  [
    ⟨0x4B3B4CA85A86C47A, 0x098A224000000000⟩, ⟨0x0785EE10D5DA46D9, 0x00F436A000000000⟩,
    ⟨0x00C097CE7BC90715, 0xB34B9F1000000000⟩, ⟨0x0013426172C74D82, 0x2B878FE800000000⟩,
    ⟨0x0001ED09BEAD87C0, 0x378D8E6400000000⟩, ⟨0x0000314DC6448D93, 0x38C15B0A00000000⟩,
    ⟨0x000004EE2D6D415B, 0x85ACEF8100000000⟩, ⟨0x0000007E37BE2022, 0xC0914B2680000000⟩,
    ⟨0x0000000C9F2C9CD0, 0x4674EDEA40000000⟩, ⟨0x00000001431E0FAE, 0x6D7217CAA0000000⟩,
    ⟨0x00000000204FCE5E, 0x3E25026110000000⟩, ⟨0x00000000033B2E3C, 0x9FD0803CE8000000⟩,
    ⟨0x000000000052B7D2, 0xDCC80CD2E4000000⟩, ⟨0x0000000000084595, 0x161401484A000000⟩,
    ⟨0x000000000000D3C2, 0x1BCECCEDA1000000⟩, ⟨0x000000000000152D, 0x02C7E14AF6800000⟩,
    ⟨0x000000000000021E, 0x19E0C9BAB2400000⟩, ⟨0x0000000000000036, 0x35C9ADC5DEA00000⟩,
    ⟨0x0000000000000005, 0x6BC75E2D63100000⟩, ⟨0x0000000000000000, 0x8AC7230489E80000⟩,
    ⟨0x0000000000000000, 0x0DE0B6B3A7640000⟩, ⟨0x0000000000000000, 0x016345785D8A0000⟩,
    ⟨0x0000000000000000, 0x002386F26FC10000⟩, ⟨0x0000000000000000, 0x00038D7EA4C68000⟩,
    ⟨0x0000000000000000, 0x00005AF3107A4000⟩, ⟨0x0000000000000000, 0x000009184E72A000⟩,
    ⟨0x0000000000000000, 0x000000E8D4A51000⟩, ⟨0x0000000000000000, 0x000000174876E800⟩,
    ⟨0x0000000000000000, 0x00000002540BE400⟩, ⟨0x0000000000000000, 0x000000003B9ACA00⟩,
    ⟨0x0000000000000000, 0x0000000005F5E100⟩, ⟨0x0000000000000000, 0x0000000000989680⟩,
    ⟨0x0000000000000000, 0x00000000000F4240⟩, ⟨0x0000000000000000, 0x00000000000186A0⟩,
    ⟨0x0000000000000000, 0x0000000000002710⟩, ⟨0x0000000000000000, 0x00000000000003E8⟩,
    ⟨0x0000000000000000, 0x0000000000000064⟩, ⟨0x0000000000000000, 0x000000000000000A⟩,
    ⟨0x0000000000000000, 0x0000000000000001⟩]

/-- `neg_powersOf10` -/
def negPowersOf10 : List CFSInt128Struct :=
  [
    ⟨0xB4C4B357A5793B85, 0xF675DDC000000000⟩, ⟨0xF87A11EF2A25B926, 0xFF0BC96000000000⟩,
    ⟨0xFF3F68318436F8EA, 0x4CB460F000000000⟩, ⟨0xFFECBD9E8D38B27D, 0xD478701800000000⟩,
    ⟨0xFFFE12F64152783F, 0xC872719C00000000⟩, ⟨0xFFFFCEB239BB726C, 0xC73EA4F600000000⟩,
    ⟨0xFFFFFB11D292BEA4, 0x7A53107F00000000⟩, ⟨0xFFFFFF81C841DFDD, 0x3F6EB4D980000000⟩,
    ⟨0xFFFFFFF360D3632F, 0xB98B1215C0000000⟩, ⟨0xFFFFFFFEBCE1F051, 0x928DE83560000000⟩,
    ⟨0xFFFFFFFFDFB031A1, 0xC1DAFD9EF0000000⟩, ⟨0xFFFFFFFFFCC4D1C3, 0x602F7FC318000000⟩,
    ⟨0xFFFFFFFFFFAD482D, 0x2337F32D1C000000⟩, ⟨0xFFFFFFFFFFF7BA6A, 0xE9EBFEB7B6000000⟩,
    ⟨0xFFFFFFFFFFFF2C3D, 0xE43133125F000000⟩, ⟨0xFFFFFFFFFFFFEAD2, 0xFD381EB509800000⟩,
    ⟨0xFFFFFFFFFFFFFDE1, 0xE61F36454DC00000⟩, ⟨0xFFFFFFFFFFFFFFC9, 0xCA36523A21600000⟩,
    ⟨0xFFFFFFFFFFFFFFFA, 0x9438A1D29CF00000⟩, ⟨0xFFFFFFFFFFFFFFFF, 0x7538DCFB76180000⟩,
    ⟨0xFFFFFFFFFFFFFFFF, 0xF21F494C589C0000⟩, ⟨0xFFFFFFFFFFFFFFFF, 0xFE9CBA87A2760000⟩,
    ⟨0xFFFFFFFFFFFFFFFF, 0xFFDC790D903F0000⟩, ⟨0xFFFFFFFFFFFFFFFF, 0xFFFC72815B398000⟩,
    ⟨0xFFFFFFFFFFFFFFFF, 0xFFFFA50CEF85C000⟩, ⟨0xFFFFFFFFFFFFFFFF, 0xFFFFF6E7B18D6000⟩,
    ⟨0xFFFFFFFFFFFFFFFF, 0xFFFFFF172B5AF000⟩, ⟨0xFFFFFFFFFFFFFFFF, 0xFFFFFFE8B7891800⟩,
    ⟨0xFFFFFFFFFFFFFFFF, 0xFFFFFFFDABF41C00⟩, ⟨0xFFFFFFFFFFFFFFFF, 0xFFFFFFFFC4653600⟩,
    ⟨0xFFFFFFFFFFFFFFFF, 0xFFFFFFFFFA0A1F00⟩, ⟨0xFFFFFFFFFFFFFFFF, 0xFFFFFFFFFF676980⟩,
    ⟨0xFFFFFFFFFFFFFFFF, 0xFFFFFFFFFFF0BDC0⟩, ⟨0xFFFFFFFFFFFFFFFF, 0xFFFFFFFFFFFE7960⟩,
    ⟨0xFFFFFFFFFFFFFFFF, 0xFFFFFFFFFFFFD8F0⟩, ⟨0xFFFFFFFFFFFFFFFF, 0xFFFFFFFFFFFFFC18⟩,
    ⟨0xFFFFFFFFFFFFFFFF, 0xFFFFFFFFFFFFFF9C⟩, ⟨0xFFFFFFFFFFFFFFFF, 0xFFFFFFFFFFFFFFF6⟩,
    ⟨0xFFFFFFFFFFFFFFFF, 0xFFFFFFFFFFFFFFFF⟩]

/-- A row of both tables. -/
structure PowerRow where
  power : CFSInt128Struct
  neg : CFSInt128Struct
  pos : 0 < power.value
  value_neg : neg.value = -power.value

/-- The rows of the tables match. -/
theorem rows_match : ∀ row ∈ powersOf10.zip negPowersOf10, 0 < row.1.value ∧ row.2.value = -row.1.value := by
  decide +kernel

def PowerRow.of (row : CFSInt128Struct × CFSInt128Struct) (h : 0 < row.1.value ∧ row.2.value = -row.1.value) :
    PowerRow := ⟨row.1, row.2, h.1, h.2⟩

def rows : List PowerRow := (powersOf10.zip negPowersOf10).pmap PowerRow.of rows_match

/-- The powers of ten below the `k`th. -/
def IsPowers (rows : List PowerRow) (k : Nat) : Prop :=
  rows.map (fun row => row.power.value) = (List.range k).reverse.map (fun i => 10 ^ i)

theorem rows_isPowers : IsPowers rows 39 := by
  rw [IsPowers]
  decide +kernel

/-! ## Printing -/

theorem PowerRow.value_add128 {row : PowerRow} {tmp : CFSInt128Struct} (h : row.power.value ≤ tmp.value) :
    (add128 tmp row.neg).value = tmp.value - row.power.value := by
  have hpos := row.pos
  have hbounds := tmp.value_bounds
  rw [CFSInt128Struct.value_add128, row.value_neg, Int.sub_eq_add_neg]
  rw [row.value_neg]
  exact ⟨show -2 ^ 127 ≤ _ by omega, show _ < 2 ^ 127 by omega⟩

theorem not_gt_iff {a b : CFSInt128Struct} : cmp128 a b ≠ .gt ↔ a.value ≤ b.value := by
  rw [cmp128_eq, ne_eq, compare_gt_iff_gt, not_lt]

/-- `while (cmp128(&powersOf10[idx], &tmp) <= 0)`: what is left, and the
count. -/
def subtractPower (row : PowerRow) (tmp : CFSInt128Struct) (count : Nat) : CFSInt128Struct × Nat :=
  if cmp128 row.power tmp ≠ .gt then subtractPower row (add128 tmp row.neg) (count + 1) else (tmp, count)
termination_by tmp.value.toNat
decreasing_by
  rename_i h
  have hle := not_gt_iff.mp h
  have hpos := row.pos
  rw [PowerRow.value_add128 hle]
  omega

/-- `for (idx = 0; …)`: the digits of the rows, and the zero if there is none. -/
def emitRows : List PowerRow → CFSInt128Struct → (doneOne : Bool) → List UInt8
  | [], _, doneOne => if doneOne then [] else [48]
  | row :: rows, tmp, doneOne =>
    let (tmp, count) := subtractPower row tmp 0
    if 0 ≠ count || doneOne then UInt8.ofNat (48 + count) :: emitRows rows tmp true else emitRows rows tmp doneOne

/-- `emit128`: the characters before the final zero. -/
def emit128 (input : CFSInt128Struct) (forcePlus : Bool) : List UInt8 :=
  let negative := input.isNeg128
  let tmp := if negative then input.neg128 else input
  let sign : List UInt8 := if negative then [45] else if forcePlus then [43] else []
  sign ++ emitRows rows tmp false

/-! ## Numerals -/

/-- The value of decimal digits after others of value `v`. -/
def digitsValue (v : Nat) (digits : List UInt8) : Nat := digits.foldl (fun v c => 10 * v + (c.toNat - 48)) v

/-- The canonical decimal numeral of a natural number: digits without a leading
zero. -/
structure IsDecimal (digits : List UInt8) (n : Nat) : Prop where
  digit : ∀ c ∈ digits, 48 ≤ c.toNat ∧ c.toNat ≤ 57
  value : digitsValue 0 digits = n
  nonempty : digits ≠ []
  leading : digits.head? = some 48 → digits.length = 1

/-- The canonical decimal numeral of an integer: `-` for a negative one, and for
the others `+` where it is asked for. -/
def IsNumeral (text : List UInt8) (n : Int) (forcePlus : Bool) : Prop :=
  ∃ digits, text = (if n < 0 then [45] else if forcePlus then [43] else []) ++ digits ∧ IsDecimal digits n.natAbs

/-! ## Digits of a row -/

theorem subtractPower_spec (row : PowerRow) (tmp : CFSInt128Struct) (count : Nat) (h : 0 ≤ tmp.value) :
    (subtractPower row tmp count).1.value = tmp.value % row.power.value ∧
      ((subtractPower row tmp count).2 : Int) = count + tmp.value / row.power.value := by
  have hpos := row.pos
  fun_induction subtractPower row tmp count with
  | case1 tmp count hle ih =>
    have hvalue := PowerRow.value_add128 (not_gt_iff.mp hle)
    obtain ⟨hrest, hcount⟩ := ih (by rw [hvalue]; have := not_gt_iff.mp hle; omega)
    rw [hrest, hcount, hvalue, Int.sub_emod_right, Int.sub_ediv_of_dvd _ (Int.dvd_refl _), Int.ediv_self (Int.ne_of_gt hpos)]
    exact ⟨rfl, by push_cast; omega⟩
  | case2 tmp count hlt =>
    have hsmall : tmp.value < row.power.value := not_le.mp (mt not_gt_iff.mpr hlt)
    rw [Int.emod_eq_of_lt h hsmall, Int.ediv_eq_zero_of_lt h hsmall]
    exact ⟨rfl, by omega⟩

theorem IsPowers.cases {row : PowerRow} {rest : List PowerRow} {k : Nat} (h : IsPowers (row :: rest) k) :
    ∃ n, k = n + 1 ∧ row.power.value = 10 ^ n ∧ IsPowers rest n := by
  cases k with
  | zero => cases h
  | succ n =>
    rw [IsPowers, List.range_succ, List.reverse_append] at h
    obtain ⟨hrow, hrest⟩ := List.cons.inj h
    exact ⟨n, rfl, hrow, hrest⟩

/-- A row leaves a digit and a rest below the row's power. -/
theorem subtractPower_digit {row : PowerRow} {tmp : CFSInt128Struct} {n : Nat} (hrow : row.power.value = 10 ^ n)
    (h : 0 ≤ tmp.value) (hlt : tmp.value < 10 ^ (n + 1)) :
    0 ≤ (subtractPower row tmp 0).1.value ∧ (subtractPower row tmp 0).1.value < 10 ^ n ∧
      (subtractPower row tmp 0).2 < 10 ∧
      tmp.value = 10 ^ n * (subtractPower row tmp 0).2 + (subtractPower row tmp 0).1.value := by
  obtain ⟨hrest, hcount⟩ := subtractPower_spec row tmp 0 h
  have hpos := row.pos
  rw [hrow] at hrest hcount hpos
  rw [hrest, hcount]
  have hdigit : tmp.value / 10 ^ n < 10 := Int.ediv_lt_of_lt_mul hpos (by rwa [Int.mul_comm, ← Int.pow_succ])
  refine ⟨Int.emod_nonneg _ (Int.ne_of_gt hpos), Int.emod_lt_of_pos _ hpos, by omega, ?_⟩
  rw [Int.natCast_zero, Int.zero_add, Int.mul_ediv_add_emod]

theorem digit_toNat {count : Nat} (h : count < 10) : (UInt8.ofNat (48 + count)).toNat = 48 + count := by
  rw [UInt8.toNat_ofNat']
  omega

/-! ## The numeral -/

/-- After the first digit there is one for each row. -/
theorem emitRows_true {rows : List PowerRow} {k : Nat} (hrows : IsPowers rows k) {tmp : CFSInt128Struct}
    (h : 0 ≤ tmp.value) (hlt : tmp.value < 10 ^ k) :
    (emitRows rows tmp true).length = k ∧ (∀ c ∈ emitRows rows tmp true, 48 ≤ c.toNat ∧ c.toNat ≤ 57) ∧
      ∀ v, (digitsValue v (emitRows rows tmp true) : Int) = v * 10 ^ k + tmp.value := by
  induction rows generalizing tmp k with
  | nil =>
    have hk : k = 0 := by
      have := congrArg List.length hrows
      simpa using this.symm
    subst hk
    exact ⟨rfl, by simp [emitRows], fun v => by simp [emitRows, digitsValue]; omega⟩
  | cons row rest ih =>
    obtain ⟨n, rfl, hrow, hrest⟩ := hrows.cases
    obtain ⟨hnonneg, hlt', hdigit, hsplit⟩ := subtractPower_digit hrow h hlt
    obtain ⟨hlength, hdigits, hvalue⟩ := ih hrest hnonneg hlt'
    simp only [emitRows, Bool.or_true, if_true, List.length_cons, List.forall_mem_cons, digit_toNat hdigit]
    refine ⟨by rw [hlength], ⟨by omega, hdigits⟩, fun v => ?_⟩
    have hnext := hvalue (10 * v + (subtractPower row tmp 0).2)
    rw [digitsValue, List.foldl_cons, digit_toNat hdigit, Nat.add_sub_cancel_left]
    rw [digitsValue] at hnext
    rw [hnext, hsplit, Int.pow_succ]
    push_cast
    grind

/-- The digits from the first one that is not zero on are the canonical
numeral. -/
theorem emitRows_spec {rows : List PowerRow} {k : Nat} (hrows : IsPowers rows k) {tmp : CFSInt128Struct}
    (h : 0 ≤ tmp.value) (hlt : tmp.value < 10 ^ k) :
    IsDecimal (emitRows rows tmp false) tmp.value.toNat ∧ (emitRows rows tmp false).length ≤ max 1 k := by
  induction rows generalizing tmp k with
  | nil =>
    have hk : k = 0 := by
      have := congrArg List.length hrows
      simpa using this.symm
    subst hk
    have hzero : tmp.value = 0 := by omega
    rw [hzero]
    exact ⟨⟨by simp [emitRows], rfl, by simp [emitRows], by simp [emitRows]⟩, by simp [emitRows]⟩
  | cons row rest ih =>
    obtain ⟨n, rfl, hrow, hrest⟩ := hrows.cases
    obtain ⟨hnonneg, hlt', hdigit, hsplit⟩ := subtractPower_digit hrow h hlt
    simp only [emitRows, Bool.or_false]
    by_cases hcount : (subtractPower row tmp 0).2 = 0
    · -- a zero before the first digit is left out
      rw [hcount, Int.natCast_zero, Int.mul_zero, Int.zero_add] at hsplit
      obtain ⟨hdecimal, hlength⟩ := ih hrest hnonneg hlt'
      rw [hcount, if_neg (by decide), hsplit]
      exact ⟨hdecimal, by omega⟩
    · obtain ⟨hlength, hdigits, hvalue⟩ := emitRows_true hrest hnonneg hlt'
      have hdigit' := digit_toNat hdigit
      rw [if_pos (by simpa using Ne.symm hcount)]
      refine ⟨⟨?_, ?_, List.cons_ne_nil _ _, fun hhead => ?_⟩, by rw [List.length_cons, hlength]; omega⟩
      · rw [List.forall_mem_cons, hdigit']
        exact ⟨by omega, hdigits⟩
      · have hnext := hvalue (subtractPower row tmp 0).2
        rw [digitsValue, List.foldl_cons, hdigit', Nat.mul_zero, Nat.zero_add, Nat.add_sub_cancel_left]
        rw [digitsValue] at hnext
        rw [Int.mul_comm] at hsplit
        omega
      · rw [List.head?_cons, Option.some.injEq] at hhead
        rw [hhead] at hdigit'
        exact absurd (show 48 = 48 + _ from hdigit') (by omega)

/-- A negative number that is left over has no digits. -/
theorem emitRows_negative (rows : List PowerRow) {tmp : CFSInt128Struct} (h : tmp.value < 0) :
    emitRows rows tmp false = [48] := by
  induction rows with
  | nil => rfl
  | cons row rest ih =>
    have hstop : subtractPower row tmp 0 = (tmp, 0) := by
      have hpos := row.pos
      rw [subtractPower, if_neg (mt not_gt_iff.mp (by omega))]
    simp [emitRows, hstop, ih]

/-- A number that is not negative, as it is left after the sign. -/
theorem emitRows_rows {tmp : CFSInt128Struct} (h : 0 ≤ tmp.value) :
    IsDecimal (emitRows rows tmp false) tmp.value.toNat ∧ (emitRows rows tmp false).length ≤ 39 :=
  emitRows_spec rows_isPowers h (Int.lt_trans tmp.value_bounds.2 (by decide))

/-- Every integer but the least one is written as its canonical numeral, and
always within the buffer. -/
theorem emit128_iff (input : CFSInt128Struct) (forcePlus : Bool) :
    (emit128 input forcePlus).length + 1 ≤ 128 ∧
      (IsNumeral (emit128 input forcePlus) input.value forcePlus ↔ input.value ≠ -2 ^ 127) := by
  by_cases hneg : input.value < 0
  · rw [emit128, if_pos (isNeg128_iff.mpr hneg), if_pos (isNeg128_iff.mpr hneg), IsNumeral, if_pos hneg]
    by_cases hleast : input.value = -2 ^ 127
    · -- the negation is the least value again
      have hvalue := value_neg128_least hleast
      rw [emitRows_negative rows (by rw [hvalue]; decide)]
      refine ⟨by decide, iff_of_false (fun ⟨digits, htext, hdecimal⟩ => ?_) (not_not.mpr hleast)⟩
      have hdigits : [48] = digits := List.append_cancel_left htext
      have hzero := hdecimal.value
      rw [← hdigits, hleast] at hzero
      exact absurd hzero (by decide)
    · have hvalue := value_neg128 hleast
      obtain ⟨hdecimal, hlength⟩ := emitRows_rows (show 0 ≤ input.neg128.value by omega)
      rw [hvalue, show (-input.value).toNat = input.value.natAbs by omega] at hdecimal
      refine ⟨?_, iff_of_true ⟨_, rfl, hdecimal⟩ hleast⟩
      rw [List.length_append, List.length_singleton]
      omega
  · rw [emit128, if_neg (mt isNeg128_iff.mp hneg), if_neg (mt isNeg128_iff.mp hneg), IsNumeral, if_neg hneg]
    obtain ⟨hdecimal, hlength⟩ := emitRows_rows (show 0 ≤ input.value by omega)
    rw [show input.value.toNat = input.value.natAbs by omega] at hdecimal
    refine ⟨?_, iff_of_true ⟨_, rfl, hdecimal⟩ (by omega)⟩
    rw [List.length_append]
    cases forcePlus <;> simp <;> omega

/-- The least integer is written as `-0`. -/
theorem emit128_least :
    emit128 ⟨0x8000000000000000, 0⟩ false = [45, 48] ∧
      ¬IsNumeral (emit128 ⟨0x8000000000000000, 0⟩ false) (value ⟨0x8000000000000000, 0⟩) false := by
  have hvalue : value ⟨0x8000000000000000, 0⟩ = -2 ^ 127 := by decide
  have htext : emit128 ⟨0x8000000000000000, 0⟩ false = [45, 48] := by
    have hnegated : (value (neg128 ⟨0x8000000000000000, 0⟩)) < 0 := by decide
    rw [emit128, if_pos (by decide), if_pos (by decide), emitRows_negative rows hnegated]
    rfl
  refine ⟨htext, fun ⟨digits, htext', hdecimal⟩ => ?_⟩
  rw [htext, hvalue, if_pos (by decide)] at htext'
  obtain rfl : [48] = digits := List.append_cancel_left (show [45] ++ [48] = [45] ++ digits from htext')
  exact absurd (hvalue ▸ hdecimal.value) (by decide)

end CFLite.IntegerPrinting
