import Mathlib.NumberTheory.LucasPrimality

/-!
# Probe sequences

The two kinds of sequences modulo a prime that visit everything: the multiples of a
number that the prime does not divide, and the powers of a primitive root. That a
number is prime and has a certain primitive root is checked from the prime factors
of its predecessor.

* `stride_injective`: the steps of a stride are all different;
* `prime_of_hasNoDivisor`: trial division;
* `prime_of_isPrimitiveRoot`, `orderOf_of_isPrimitiveRoot`: what the check says;
* `exists_pow_mod_eq`: every number that is not 0 is a power of a primitive root.
-/

namespace CFLite.Framework

/-- The first `n` steps of a stride that is coprime to `n` are different modulo `n`. -/
theorem stride_injective {n h : Nat} (hc : Nat.Coprime n h) (start : Nat) {i j : Nat} (hi : i < n) (hj : j < n)
    (heq : (start + i * h) % n = (start + j * h) % n) : i = j := by
  have hmul : i * h ≡ j * h [MOD n] := Nat.ModEq.add_left_cancel' start heq
  have hmod : i ≡ j [MOD n] := Nat.ModEq.cancel_right_of_coprime hc hmul
  exact hmod.eq_of_lt_of_lt hi hj

/-! ## Primes -/

/-- No odd number from 3 on divides `q`, for the first `k` of them. -/
def hasNoDivisor (q : Nat) : (k : Nat) → Bool
  | 0 => true
  | k + 1 => q % (2 * k + 3) != 0 && hasNoDivisor q k

theorem not_dvd_of_hasNoDivisor {q k : Nat} (h : hasNoDivisor q k) {i : Nat} (hi : i < k) : ¬ 2 * i + 3 ∣ q := by
  induction k with
  | zero => exact absurd hi (Nat.not_lt_zero i)
  | succ k ih =>
    rw [hasNoDivisor, Bool.and_eq_true, bne_iff_ne] at h
    rcases Nat.lt_succ_iff_lt_or_eq.mp hi with hlt | rfl
    · exact ih h.2 hlt
    · exact fun hd => h.1 (Nat.mod_eq_zero_of_dvd hd)

/-- Trial division by 2 and the odd numbers up to the square root. -/
def isPrime (q : Nat) : Bool := q = 2 || 1 < q && q % 2 == 1 && hasNoDivisor q (q.sqrt / 2)

theorem prime_of_isPrime {q : Nat} (h : isPrime q) : q.Prime := by
  rw [isPrime, Bool.or_eq_true, decide_eq_true_eq] at h
  rcases h with rfl | h
  · exact Nat.prime_two
  rw [Bool.and_eq_true, Bool.and_eq_true, decide_eq_true_eq, beq_iff_eq] at h
  obtain ⟨⟨hone, hodd⟩, hno⟩ := h
  rw [Nat.prime_def_le_sqrt]
  refine ⟨hone, fun m hm hle hd => ?_⟩
  have hm2 : m % 2 = 1 := by
    rcases Nat.mod_two_eq_zero_or_one m with he | ho
    · have := (Nat.dvd_of_mod_eq_zero he).trans hd
      omega
    · exact ho
  refine not_dvd_of_hasNoDivisor hno (show (m - 3) / 2 < q.sqrt / 2 by omega) ?_
  rwa [show 2 * ((m - 3) / 2) + 3 = m by omega]

/-! ## Primitive roots -/

/-- `b ^ e % n` by squaring, for `e < 2 ^ bits`. -/
def powMod (n b : Nat) : (bits e : Nat) → Nat
  | 0, _ => 1 % n
  | bits + 1, e =>
    let half := powMod n b bits (e / 2)
    if e % 2 = 1 then half * half % n * b % n else half * half % n

theorem powMod_eq (n b : Nat) {bits e : Nat} (h : e < 2 ^ bits) : powMod n b bits e = b ^ e % n := by
  induction bits generalizing e with
  | zero =>
    obtain rfl : e = 0 := Nat.lt_one_iff.mp h
    rfl
  | succ bits ih =>
    have hhalf : powMod n b bits (e / 2) * powMod n b bits (e / 2) % n = b ^ (e / 2 * 2) % n := by
      rw [ih (by omega), pow_mul, sq]
      exact (Nat.mul_mod ..).symm
    simp only [powMod, hhalf]
    rcases Nat.mod_two_eq_zero_or_one e with he | he
    · rw [if_neg (by omega), show e / 2 * 2 = e by omega]
    · rw [if_pos he, Nat.mod_mul_mod, ← pow_succ, show e / 2 * 2 + 1 = e by omega]

/-- `factors` are the prime factors of `n - 1`, and the powers of `g` for the
divisors `(n - 1) / q` of `n - 1` are not 1. -/
def isPrimitiveRoot (n g : Nat) (factors : List Nat) : Bool :=
  1 < n && n < 2 ^ 64 && factors.prod == n - 1 && powMod n g 64 (n - 1) == 1 &&
    factors.all fun q => isPrime q && powMod n g 64 ((n - 1) / q) != 1

section

variable {n g : Nat} {factors : List Nat}

theorem pow_eq_one_iff (hn : 1 < n) (e : Nat) : (g : ZMod n) ^ e = 1 ↔ g ^ e % n = 1 := by
  have hcast : (g : ZMod n) ^ e = 1 ↔ ((g ^ e : Nat) : ZMod n) = (1 : Nat) := by push_cast; rfl
  rw [hcast, ZMod.natCast_eq_natCast_iff', Nat.mod_eq_of_lt hn]

theorem pow_of_isPrimitiveRoot (h : isPrimitiveRoot n g factors) :
    1 < n ∧ (g : ZMod n) ^ (n - 1) = 1 ∧ ∀ q : Nat, q.Prime → q ∣ n - 1 → (g : ZMod n) ^ ((n - 1) / q) ≠ 1 := by
  simp only [isPrimitiveRoot, Bool.and_eq_true, decide_eq_true_eq, beq_iff_eq, List.all_eq_true, bne_iff_ne] at h
  obtain ⟨⟨⟨⟨hone, h64⟩, hprod⟩, hpow⟩, hall⟩ := h
  refine ⟨hone, ?_, fun q hq hdvd => ?_⟩
  · rw [powMod_eq n g (by omega)] at hpow
    exact (pow_eq_one_iff hone _).mpr hpow
  · rw [← hprod] at hdvd
    obtain ⟨f, hf, hqf⟩ := (hq.prime.dvd_prod_iff).mp hdvd
    obtain ⟨hprime, hne⟩ := hall f hf
    obtain rfl : q = f := (Nat.prime_dvd_prime_iff_eq hq (prime_of_isPrime hprime)).mp hqf
    rw [powMod_eq n g (lt_of_le_of_lt (Nat.div_le_self _ _) (by omega))] at hne
    exact fun he => hne ((pow_eq_one_iff hone _).mp he)

theorem prime_of_isPrimitiveRoot (h : isPrimitiveRoot n g factors) : n.Prime :=
  lucas_primality n g (pow_of_isPrimitiveRoot h).2.1 (pow_of_isPrimitiveRoot h).2.2

theorem orderOf_of_isPrimitiveRoot (h : isPrimitiveRoot n g factors) : orderOf (g : ZMod n) = n - 1 := by
  obtain ⟨hone, hpow, hne⟩ := pow_of_isPrimitiveRoot h
  exact orderOf_eq_of_pow_and_pow_div_prime (by omega) hpow hne

/-- Every number that is not 0 modulo `n` is one of the first `n - 1` powers of a
primitive root. -/
theorem exists_pow_mod_eq (hn : n.Prime) (hg : orderOf (g : ZMod n) = n - 1) {a : Nat} (ha : 0 < a) (han : a < n) :
    ∃ i, 0 < i ∧ i < n ∧ g ^ i % n = a := by
  have : Fact n.Prime := ⟨hn⟩
  have hpos : 0 < n := hn.pos
  have hgu : IsUnit (g : ZMod n) := by
    refine isUnit_iff_ne_zero.mpr fun h0 => ?_
    have hone := pow_orderOf_eq_one (g : ZMod n)
    rw [hg, h0] at hone
    rcases Nat.eq_or_lt_of_le hn.two_le with h2 | h2
    · rw [h0, orderOf_zero] at hg
      omega
    · rw [zero_pow (by omega)] at hone
      exact zero_ne_one hone
  -- the powers are different, and there are as many as there are numbers
  have hmem : ∀ i ∈ Finset.Ico 1 n, g ^ i % n ∈ Finset.Ico 1 n := by
    intro i _
    refine Finset.mem_Ico.mpr ⟨Nat.pos_of_ne_zero fun h0 => ?_, Nat.mod_lt _ hpos⟩
    have : ((g ^ i : Nat) : ZMod n) = 0 := (ZMod.natCast_eq_zero_iff _ _).mpr (Nat.dvd_of_mod_eq_zero h0)
    rw [Nat.cast_pow] at this
    exact (hgu.pow i).ne_zero this
  have hinj : Set.InjOn (fun i => g ^ i % n) (Finset.Ico 1 n : Finset Nat) := by
    intro i hi j hj hij
    have hi := Finset.mem_Ico.mp hi
    have hj := Finset.mem_Ico.mp hj
    have hcast : (g : ZMod n) ^ i = (g : ZMod n) ^ j := by
      have := (ZMod.natCast_eq_natCast_iff' (g ^ i) (g ^ j) n).mpr hij
      push_cast at this
      exact this
    obtain ⟨u, hu⟩ := hgu
    have hunit : u ^ i = u ^ j := Units.ext (by push_cast; rw [hu]; exact hcast)
    have hmod := pow_eq_pow_iff_modEq.mp hunit
    rw [← orderOf_units, hu, hg] at hmod
    have : (i - 1) ≡ (j - 1) [MOD n - 1] := by
      refine Nat.ModEq.add_right_cancel' 1 ?_
      rwa [Nat.sub_add_cancel hi.1, Nat.sub_add_cancel hj.1]
    have := this.eq_of_lt_of_lt (by omega) (by omega)
    omega
  obtain ⟨i, hi, hia⟩ := Finset.surj_on_of_inj_on_of_card_le (fun i _ => g ^ i % n) hmem
    (fun i j hi hj => hinj hi hj) le_rfl a (Finset.mem_Ico.mpr ⟨ha, han⟩)
  have hi := Finset.mem_Ico.mp hi
  exact ⟨i, hi.1, hi.2, hia.symm⟩

end

end CFLite.Framework
