import CFLite.Collections.BasicHash
import CFLite.Framework.ProbeSequence

/-!
# The probes of `CFBasicHash`

The tabulated sizes are primes, and the tabulated roots are primitive roots of
them. So the probes for a hash code, of any of the three styles, go to so many
buckets that one of them is free in a table that is not filled to its capacity. For
the last of the sizes the products of the exponential style leave 64 bits, but
not before the probes have seen enough.

* `tableSize_prime`, `orderOf_primitiveRoot`;
* `path`: the probes as the loop makes them, and `exists_probe`: they contain the
  first steps of a stride;
* `tableCapacity_le_card_path`.
-/

namespace CFLite.BasicHash

open Framework

/-- The prime factors of the sizes, less 1. -/
def sizeFactors : List (List Nat) := [
  [], [2], [2, 3], [2, 2, 3], [2, 11], [2, 2, 2, 5], [2, 5, 7], [2, 3, 3, 7], [2, 5, 19],
  [2, 5, 5, 5], [2, 191], [2, 3, 3, 5, 7], [2, 3, 181], [2, 3, 7, 41],
  [2, 3, 467], [2, 7, 17, 19], [2, 3, 5, 5, 7, 7], [2, 3, 1993], [2, 3, 7, 463], [2, 3, 3, 5, 347],
  [2, 3, 8447], [2, 3, 3, 3, 37, 41], [2, 3, 3, 53, 139],
  [2, 3, 35753], [2, 13, 13331], [2, 2, 3, 19, 23, 107], [2, 3, 3, 29, 37, 47], [2, 3, 3, 79, 1033],
  [2, 5, 237619], [2, 3, 640853],
  [2, 3, 5, 207377], [2, 2, 5, 7, 13, 5531], [2, 41, 139, 1429], [2, 5, 179, 14723],
  [2, 2, 2, 3, 5, 269, 1321], [2, 2, 19, 907843],
  [2, 55819259], [2, 79, 1143257], [2, 239, 611449], [2, 3, 3, 5, 5, 5, 101, 2081],
  [2, 2, 79, 449, 5393], [2, 7, 17, 29, 179381], [2, 2, 3, 3, 17, 71, 46103], [2, 3, 540225877],
  [2, 3, 874103803]]

/-- The last index of the tables. -/
def lastIdx : Nat := 44

theorem sizes_checked : ((List.range lastIdx).all fun i =>
    isPrimitiveRoot (tableSize (i + 1)) (primitiveRoot (i + 1)) (sizeFactors.getD (i + 1) [])) = true := by
  decide +kernel

section

variable {idx : Nat}

theorem isPrimitiveRoot_primitiveRoot (h0 : 0 < idx) (h : idx ≤ lastIdx) :
    isPrimitiveRoot (tableSize idx) (primitiveRoot idx) (sizeFactors.getD idx []) := by
  have := List.all_eq_true.mp sizes_checked (idx - 1) (List.mem_range.mpr (by omega))
  rwa [show idx - 1 + 1 = idx by omega] at this

theorem tableSize_prime (h0 : 0 < idx) (h : idx ≤ lastIdx) : (tableSize idx).Prime :=
  prime_of_isPrimitiveRoot (isPrimitiveRoot_primitiveRoot h0 h)

theorem orderOf_primitiveRoot (h0 : 0 < idx) (h : idx ≤ lastIdx) :
    orderOf (primitiveRoot idx : ZMod (tableSize idx)) = tableSize idx - 1 :=
  orderOf_of_isPrimitiveRoot (isPrimitiveRoot_primitiveRoot h0 h)

/-- The multiples that the exponential style can add to `h1` within 64 bits. -/
def multiplesWithin (idx : Nat) : Nat := min (tableSize idx - 1) (2 ^ 64 / tableSize idx - 1)

theorem rows_checked : ((List.range lastIdx).all fun i =>
    tableCapacity (i + 1) ≤ multiplesWithin (i + 1) + 1 && primitiveRoot (i + 1) < tableSize (i + 1) &&
      tableSize (i + 1) < 2 ^ 33 && primitiveRoot (i + 1) < 2 ^ 5 && tableCapacity i < tableCapacity (i + 1)) = true := by
  decide +kernel

theorem row (h0 : 0 < idx) (h : idx ≤ lastIdx) :
    tableCapacity idx ≤ multiplesWithin idx + 1 ∧ primitiveRoot idx < tableSize idx ∧ tableSize idx < 2 ^ 33 ∧
      primitiveRoot idx < 2 ^ 5 ∧ tableCapacity (idx - 1) < tableCapacity idx := by
  have := List.all_eq_true.mp rows_checked (idx - 1) (List.mem_range.mpr (by omega))
  rw [show idx - 1 + 1 = idx by omega] at this
  simpa only [Bool.and_eq_true, decide_eq_true_eq, and_assoc] using this

theorem tableCapacity_le_tableSize (h : idx ≤ lastIdx) : tableCapacity idx ≤ tableSize idx := by
  rcases Nat.eq_zero_or_pos idx with rfl | h0
  · exact le_rfl
  · have hrow := (row h0 h).1
    have hpos := (tableSize_prime h0 h).pos
    have : multiplesWithin idx ≤ tableSize idx - 1 := min_le_left _ _
    omega

end

/-! ## Paths -/

namespace Probes

/-- The probes of a loop. -/
def walk (p : Probes) : (rest probe acc : Nat) → List Nat
  | 0, _, _ => []
  | rest + 1, probe, acc => probe :: p.walk rest (p.next probe acc).1 (p.next probe acc).2

theorem getElem?_walk (p : Probes) (i : Nat) {rest probe acc : Nat} (hi : i < rest) :
    (p.walk rest probe acc)[i]? = some ((fun q => p.next q.1 q.2)^[i] (probe, acc)).1 := by
  induction i generalizing rest probe acc with
  | zero =>
    obtain ⟨rest, rfl⟩ := Nat.exists_eq_add_of_lt hi
    rw [show 0 + rest + 1 = rest + 1 by omega]
    rfl
  | succ i ih =>
    obtain ⟨rest, rfl⟩ : ∃ r, rest = r + 1 := ⟨rest - 1, by omega⟩
    rw [walk, List.getElem?_cons_succ, ih (by omega), Function.iterate_succ_apply]

theorem walk_lt {p : Probes} (hp : 0 < p.numBuckets) (h2 : p.h2 < p.numBuckets) {rest probe acc : Nat}
    (h : probe < p.numBuckets) : ∀ q ∈ p.walk rest probe acc, q < p.numBuckets := by
  induction rest generalizing probe acc with
  | zero => exact fun q hq => absurd hq List.not_mem_nil
  | succ rest ih =>
    intro q hq
    rcases List.mem_cons.mp hq with rfl | hq
    · exact h
    · refine ih ?_ q hq
      unfold next
      split
      · dsimp only
        split <;> omega
      · dsimp only
        split <;> omega
      · dsimp only
        split
        · exact Nat.mod_lt _ hp
        · omega

/-- `x mod n` by one subtraction. -/
theorem mod_of_lt_two_mul {x n : Nat} (h : x < 2 * n) : (if n ≤ x then x - n else x) = x % n := by
  split
  next hle => rw [Nat.mod_eq_sub_mod hle, Nat.mod_eq_of_lt (by omega)]
  next hlt => exact (Nat.mod_eq_of_lt (by omega)).symm

theorem mod_of_le (x n : Nat) : (if n ≤ x then x % n else x) = x % n := by
  split
  next => rfl
  next hlt => exact (Nat.mod_eq_of_lt (by omega)).symm

theorem iterate_linear {p : Probes} (hs : p.style = .linear) (hp : p.h1 < p.numBuckets) (acc i : Nat) :
    (fun q => p.next q.1 q.2)^[i] (p.h1, acc) = ((p.h1 + i * 1) % p.numBuckets, acc) := by
  induction i with
  | zero => simp [Nat.mod_eq_of_lt hp]
  | succ i ih =>
    have hlt := Nat.mod_lt (p.h1 + i * 1) (show 0 < p.numBuckets by omega)
    rw [Function.iterate_succ_apply', ih, next, hs]
    dsimp only
    rw [mod_of_lt_two_mul (by omega), Nat.mod_add_mod, Nat.add_mul, ← Nat.add_assoc]

theorem iterate_double {p : Probes} (hs : p.style = .double) (hp : p.h1 < p.numBuckets) (h2 : p.h2 < p.numBuckets)
    (acc i : Nat) :
    (fun q => p.next q.1 q.2)^[i] (p.h1, acc) = ((p.h1 + i * p.h2) % p.numBuckets, acc) := by
  induction i with
  | zero => simp [Nat.mod_eq_of_lt hp]
  | succ i ih =>
    have hlt := Nat.mod_lt (p.h1 + i * p.h2) (show 0 < p.numBuckets by omega)
    rw [Function.iterate_succ_apply', ih, next, hs]
    dsimp only
    rw [mod_of_lt_two_mul (by omega), Nat.mod_add_mod, Nat.add_mul, Nat.one_mul, ← Nat.add_assoc]

/-- `acc` goes through the powers of the root, which stay within 64 bits. -/
theorem iterate_exponential {p : Probes} (hs : p.style = .exponential) (hpr : p.pr < p.numBuckets)
    (hsize : p.numBuckets < 2 ^ 33) (hroot : p.pr < 2 ^ 5) (i : Nat) :
    (fun q => p.next q.1 q.2)^[i + 1] (p.h1, p.pr) =
      ((p.h1 + p.h2 * (p.pr ^ (i + 1) % p.numBuckets)) % 2 ^ 64 % p.numBuckets, p.pr ^ (i + 2) % p.numBuckets) := by
  have hacc : ∀ a, a < p.numBuckets → a * p.pr % 2 ^ 64 = a * p.pr := by
    intro a ha
    refine Nat.mod_eq_of_lt ?_
    calc a * p.pr ≤ 2 ^ 33 * 2 ^ 5 := Nat.mul_le_mul (by omega) (by omega)
      _ < 2 ^ 64 := by norm_num
  induction i with
  | zero =>
    rw [Function.iterate_one, next, hs]
    dsimp only
    rw [mod_of_le, mod_of_le, hacc _ hpr, pow_one, Nat.mod_eq_of_lt hpr, sq]
  | succ i ih =>
    have hlt := Nat.mod_lt (p.pr ^ (i + 2)) (show 0 < p.numBuckets by omega)
    rw [Function.iterate_succ_apply', ih, next, hs]
    dsimp only
    rw [mod_of_le, mod_of_le, hacc _ hlt, Nat.mod_mul_mod, ← pow_succ]

end Probes

/-- The probes for a hash code. -/
def path (style : HashStyle) (numBucketsIdx : Nat) (hashCode : Word) : List Nat :=
  let p := probesFor style numBucketsIdx hashCode
  p.walk p.numBuckets p.h1 p.pr

/-- The stride of the probes. -/
def stride (style : HashStyle) (numBucketsIdx : Nat) (hashCode : Word) : Nat :=
  match style with
  | .linear => 1
  | _ => (probesFor style numBucketsIdx hashCode).h2

section

variable {idx : Nat} {style : HashStyle} {hashCode : Word}

variable (style hashCode) in
theorem h2_bounds (h0 : 0 < idx) (h : idx ≤ lastIdx) :
    0 < (probesFor style idx hashCode).h2 ∧ (probesFor style idx hashCode).h2 < tableSize idx := by
  have hprime := tableSize_prime h0 h
  have hlt := Nat.mod_lt (hashCode.toNat / tableSize idx) hprime.pos
  have htwo := hprime.two_le
  unfold probesFor
  dsimp only
  split <;> omega

variable (style hashCode) in
theorem h1_lt (h0 : 0 < idx) (h : idx ≤ lastIdx) : (probesFor style idx hashCode).h1 < tableSize idx :=
  Nat.mod_lt _ (tableSize_prime h0 h).pos

theorem path_lt (h0 : 0 < idx) (h : idx ≤ lastIdx) : ∀ q ∈ path style idx hashCode, q < tableSize idx :=
  Probes.walk_lt (tableSize_prime h0 h).pos (h2_bounds _ _ h0 h).2 (h1_lt _ _ h0 h)

theorem coprime_stride (h0 : 0 < idx) (h : idx ≤ lastIdx) :
    Nat.Coprime (tableSize idx) (stride style idx hashCode) := by
  have hh2 : Nat.Coprime (tableSize idx) (probesFor style idx hashCode).h2 :=
    Nat.coprime_of_lt_prime (h2_bounds style hashCode h0 h).1.ne' (h2_bounds style hashCode h0 h).2
      (tableSize_prime h0 h)
  cases style with
  | linear => exact Nat.coprime_one_right _
  | double => exact hh2
  | exponential => exact hh2

/-- The powers of the root that the exponential style multiplies by are all there
are. -/
theorem exists_power (h0 : 0 < idx) (h : idx ≤ lastIdx) (hashCode : Word) {a : Nat} (hpos : 0 < a)
    (han : a < tableSize idx) :
    ∃ i, i + 1 < tableSize idx ∧ primitiveRoot idx ^ (i + 1) % tableSize idx = a ∧
      (path .exponential idx hashCode)[i + 1]? =
        some (((probesFor .exponential idx hashCode).h1 + (probesFor .exponential idx hashCode).h2 * a) % 2 ^ 64 %
          tableSize idx) := by
  obtain ⟨-, hroot, hsize, hroot5, -⟩ := row h0 h
  obtain ⟨i, hi0, hi, hpow⟩ := exists_pow_mod_eq (tableSize_prime h0 h) (orderOf_primitiveRoot h0 h) hpos han
  obtain ⟨i, rfl⟩ : ∃ j, i = j + 1 := ⟨i - 1, by omega⟩
  refine ⟨i, hi, hpow, ?_⟩
  rw [path, Probes.getElem?_walk _ (i + 1) (show i + 1 < (probesFor .exponential idx hashCode).numBuckets from hi),
    Probes.iterate_exponential rfl hroot hsize hroot5]
  dsimp only
  have hpow' : (probesFor .exponential idx hashCode).pr ^ (i + 1) %
      (probesFor .exponential idx hashCode).numBuckets = a := hpow
  rw [hpow']
  rfl

/-- The probes contain the steps of the stride that stay within 64 bits. -/
theorem mem_path (h0 : 0 < idx) (h : idx ≤ lastIdx) {a : Nat} (han : a < tableSize idx)
    (hwithin : style = .exponential →
      (probesFor style idx hashCode).h1 + (probesFor style idx hashCode).h2 * a < 2 ^ 64) :
    ((probesFor style idx hashCode).h1 + a * stride style idx hashCode) % tableSize idx ∈ path style idx hashCode := by
  have hprime := tableSize_prime h0 h
  have hmem : ∀ i, i < tableSize idx → ∀ q,
      ((fun q => (probesFor style idx hashCode).next q.1 q.2)^[i]
        ((probesFor style idx hashCode).h1, (probesFor style idx hashCode).pr)).1 = q → q ∈ path style idx hashCode := by
    intro i hi q hq
    refine List.mem_iff_getElem?.mpr ⟨i, ?_⟩
    rw [path, Probes.getElem?_walk _ i (show i < (probesFor style idx hashCode).numBuckets from hi), hq]
  cases style with
  | linear =>
    refine hmem a han _ ?_
    rw [Probes.iterate_linear rfl (h1_lt _ _ h0 h)]
    rfl
  | double =>
    refine hmem a han _ ?_
    rw [Probes.iterate_double rfl (h1_lt _ _ h0 h) (h2_bounds _ _ h0 h).2]
    rfl
  | exponential =>
    have h1 : (probesFor .exponential idx hashCode).h1 < tableSize idx := h1_lt _ _ h0 h
    rcases Nat.eq_zero_or_pos a with rfl | hapos
    · refine hmem 0 hprime.pos _ ?_
      rw [Nat.zero_mul, Nat.add_zero, Nat.mod_eq_of_lt h1]
      rfl
    · obtain ⟨i, -, -, hget⟩ := exists_power h0 h hashCode hapos han
      rw [Nat.mod_eq_of_lt (hwithin rfl), Nat.mul_comm] at hget
      exact List.mem_of_getElem? hget

/-- The probes contain the first steps of the stride. -/
theorem exists_probe (h0 : 0 < idx) (h : idx ≤ lastIdx) {a : Nat} (ha : a ≤ multiplesWithin idx) :
    ((probesFor style idx hashCode).h1 + a * stride style idx hashCode) % tableSize idx ∈ path style idx hashCode := by
  have hprime := tableSize_prime h0 h
  have han : a < tableSize idx := by
    have : multiplesWithin idx ≤ tableSize idx - 1 := min_le_left _ _
    have := hprime.pos
    omega
  refine mem_path h0 h han fun _ => ?_
  have h1 := h1_lt style hashCode h0 h
  have h2 := (h2_bounds style hashCode h0 h).2
  have hle : a ≤ 2 ^ 64 / tableSize idx - 1 := ha.trans (min_le_right _ _)
  have hdiv : tableSize idx * (2 ^ 64 / tableSize idx) ≤ 2 ^ 64 := Nat.mul_div_le _ _
  have hsize := (row h0 h).2.2.1
  have hone : 1 ≤ 2 ^ 64 / tableSize idx := (Nat.one_le_div_iff hprime.pos).mpr (by omega)
  calc (probesFor style idx hashCode).h1 + (probesFor style idx hashCode).h2 * a
      < tableSize idx + tableSize idx * a := Nat.add_lt_add_of_lt_of_le h1 (Nat.mul_le_mul_right _ h2.le)
    _ = tableSize idx * (a + 1) := by rw [Nat.mul_succ, Nat.add_comm]
    _ ≤ tableSize idx * (2 ^ 64 / tableSize idx) := Nat.mul_le_mul_left _ (by omega)
    _ ≤ 2 ^ 64 := hdiv

/-- The probes go to as many buckets as the table is to hold entries. -/
theorem tableCapacity_le_card_path (h0 : 0 < idx) (h : idx ≤ lastIdx) :
    tableCapacity idx ≤ (path style idx hashCode).toFinset.card := by
  have hprime := tableSize_prime h0 h
  have hle : multiplesWithin idx ≤ tableSize idx - 1 := min_le_left _ _
  have hpos := hprime.pos
  let probe := fun a => ((probesFor style idx hashCode).h1 + a * stride style idx hashCode) % tableSize idx
  have hsub : (Finset.range (multiplesWithin idx + 1)).image probe ⊆ (path style idx hashCode).toFinset := by
    intro q hq
    obtain ⟨a, ha, rfl⟩ := Finset.mem_image.mp hq
    exact List.mem_toFinset.mpr (exists_probe h0 h (Nat.lt_succ_iff.mp (Finset.mem_range.mp ha)))
  have hcard : ((Finset.range (multiplesWithin idx + 1)).image probe).card = multiplesWithin idx + 1 := by
    rw [Finset.card_image_of_injOn, Finset.card_range]
    intro a ha b hb hab
    have ha := Finset.mem_range.mp ha
    have hb := Finset.mem_range.mp hb
    exact stride_injective (coprime_stride h0 h) _ (by omega) (by omega) hab
  exact (row h0 h).1.trans (hcard ▸ Finset.card_le_card hsub)

end

end CFLite.BasicHash
