import CFLite.Collections.Array

/-!
# The deque of a `CFArray`

What `__CFArrayRepositionDequeRegions` does to a deque, whichever of its ways to
make room it takes.

* `Gap`: the values before and after a range are in place around a gap;
* `reposition_spec`: the gap that held the range gets the size of the new
  values;
* `reposition_stuck`: what happens to a count that no deque has room for.
-/

namespace CFLite.Array

open Framework

variable {α : Type}

/-! ## Capacities -/

/-- The largest capacity that `1 << k` reaches. -/
theorem roundUpCapacity_le {n : Nat} {capacity : Int} (h : roundUpCapacity n = some capacity) (hpos : 0 ≤ capacity) :
    n < capacity ∧ capacity ≤ 2 ^ 30 := by
  rw [roundUpCapacity] at h
  split at h
  · obtain rfl := Option.some.inj h
    omega
  split at h
  · rename_i hk
    obtain ⟨k, hkdef⟩ : ∃ k, k = flsl n := ⟨_, rfl⟩
    rw [← hkdef] at h hk
    have hlt : n < 2 ^ k := flsl_le_iff.mp hkdef.ge
    obtain rfl := Option.some.inj h
    rcases Nat.lt_or_eq_of_le (Nat.le_of_lt_succ hk) with hk | rfl
    · have hle : (2 : Int) ^ k ≤ 2 ^ 30 := pow_le_pow_right₀ (by decide) (by omega)
      have hcast : (n : Int) < 2 ^ k := by exact_mod_cast hlt
      rw [oneShl_eq hk] at hpos ⊢
      omega
    · rw [oneShl_31] at hpos
      omega
  · cases h

theorem roundUpCapacity_of_lt {n : Nat} (h : n < 2 ^ 30) :
    roundUpCapacity n = some ((max 4 (2 ^ flsl n) : Nat) : Int) := by
  have hk : flsl n ≤ 30 := flsl_le_iff.mpr h
  rw [roundUpCapacity]
  split
  · rename_i hfew
    have hpow : 2 ^ flsl n ≤ 4 := le_trans (Nat.pow_le_pow_right (by decide) (flsl_le_iff.mpr hfew)) (by decide : 2 ^ 2 ≤ 4)
    rw [max_eq_left hpow]
    rfl
  · rename_i hmany
    have hlow : ¬ flsl n ≤ 2 := by
      rw [flsl_le_iff]
      omega
    have hlow : 3 ≤ flsl n := by omega
    have hpow : 4 ≤ 2 ^ flsl n := le_trans (by decide) (Nat.pow_le_pow_right (by decide) hlow)
    have hhigh : 2 ^ flsl n ≤ 2 ^ 30 := Nat.pow_le_pow_right (by decide) hk
    have hmin : (2 : Int) ^ flsl n ≤ 2 ^ 63 - 1 := by
      have : (2 : Int) ^ flsl n ≤ 2 ^ 30 := by exact_mod_cast hhigh
      omega
    rw [if_pos (by omega), oneShl_eq (by omega), max_eq_right hpow, min_eq_left hmin]
    norm_cast

theorem roundUpCapacity_eq {n : Nat} (h : n < 2 ^ 30) : ∃ capacity, roundUpCapacity n = some capacity ∧ 0 ≤ capacity :=
  ⟨_, roundUpCapacity_of_lt h, Int.natCast_nonneg _⟩

theorem allocate_eq (junk : Nat → α) {capacity : Int} (h : 0 ≤ capacity) :
    allocate junk capacity = some (reallocate junk [] capacity.toNat) := if_pos h

/-! ## Moving and clearing -/

theorem moveBuckets_spec (source target : List α) {dst src : Int} {n d s : Nat} (hd : dst = d) (hs : src = s)
    (hsource : s + n ≤ source.length) (htarget : d + n ≤ target.length) :
    ∃ target', moveBuckets source target dst src n = some target' ∧ target'.length = target.length ∧
      ∀ k, target'[k]? = if d ≤ k ∧ k < d + n then source[s + (k - d)]? else target[k]? := by
  subst hd hs
  rw [moveBuckets]
  split
  · have hlen : ((source.drop s).take n).length = n := by rw [List.length_take, List.length_drop]; omega
    have hroom : d + ((source.drop s).take n).length ≤ target.length := by omega
    refine ⟨_, by rw [readRange_eq hsource, Option.bind_eq_bind, Option.bind_some, writeRange_eq hroom],
      length_written hroom, fun k => ?_⟩
    rw [getElem?_written hroom, hlen]
    split
    · rw [List.getElem?_take, if_pos (by omega), List.getElem?_drop]
    · rfl
  · exact ⟨target, rfl, rfl, fun k => by rw [if_neg (by omega)]⟩

theorem moveBuckets_none {source target : List α} {dst src : Int} {n : Nat} (hn : 0 < n) (hneg : dst < 0) :
    moveBuckets source target dst src n = none := by
  rw [moveBuckets, if_pos hn]
  cases readRange source src n with
  | none => rfl
  | some values => exact if_neg (by omega)

theorem clearBuckets_spec [Inhabited α] (buckets : List α) (offset low high : Int) {o n : Nat} (ho : offset = o)
    (hn : high - low ≤ n) (hroom : o + n ≤ buckets.length) :
    ∃ buckets', clearBuckets buckets offset low high = some buckets' ∧ buckets'.length = buckets.length ∧
      ∀ k, k < o ∨ o + n ≤ k → buckets'[k]? = buckets[k]? := by
  subst ho
  rw [clearBuckets]
  split
  · have hlen : (List.replicate (high - low).toNat (default : α)).length = (high - low).toNat := List.length_replicate
    have hfits : o + (List.replicate (high - low).toNat (default : α)).length ≤ buckets.length := by omega
    refine ⟨_, writeRange_eq hfits, length_written hfits, fun k hk => ?_⟩
    rw [getElem?_written hfits, if_neg (by omega)]
  · exact ⟨buckets, rfl, rfl, fun _ _ => rfl⟩

/-! ## Making room -/

/-- The values of `l` before and after a range of `length` at `location` are in
the deque, around a gap of `newCount` buckets. -/
structure Gap (deque : Deque α) (l : List α) (location length newCount L : Nat) : Prop where
  leftIdx : deque.leftIdx = L
  room : L + (l.length - length + newCount) ≤ deque.capacity
  limit : deque.capacity ≤ 2 ^ 30
  front : ∀ k < location, deque.buckets[L + k]? = l[k]?
  back : ∀ k < l.length - (location + length),
    deque.buckets[L + location + newCount + k]? = l[location + length + k]?

/-- Half of a natural number, in integers. -/
theorem tdiv_two (n : Nat) : (n : Int).tdiv 2 = (n / 2 : Nat) := by
  rw [Int.tdiv_eq_ediv_of_nonneg (Int.natCast_nonneg n)]
  rfl

/-- There is room without a new deque, or there can be a new one. -/
def Fits (capacity cnt futureCnt : Nat) : Prop :=
  (∃ newCapacity, roundUpCapacity (futureCnt + max 4 (capacity / 2 ^ 17)) = some newCapacity ∧ 0 ≤ newCapacity) ∨
  ¬ (capacity < futureCnt % 2 ^ 32 ∨ cnt < futureCnt ∧ capacity - cnt < max 4 (capacity / 2 ^ 17)) ∧ futureCnt ≤ capacity

section Reposition

variable [Inhabited α] {junk : Nat → α} {deque : Deque α} {l : List α} {location length newCount L : Nat}

omit [Inhabited α] in
variable (newCount) in
/-- Into a new deque. -/
theorem reposition_new (buckets newBuckets : List α) {newL oldC0 newC0 : Int} {N : Nat}
    (hfront : ∀ k < location, buckets[L + k]? = l[k]?)
    (hback : ∀ k < l.length - (location + length), buckets[L + location + length + k]? = l[location + length + k]?)
    (hrange : location + length ≤ l.length) (hroom : L + l.length ≤ buckets.length) (hN : newL = N)
    (hroom' : N + (l.length - length + newCount) ≤ newBuckets.length) (hlimit : newBuckets.length ≤ 2 ^ 30)
    (holdC0 : oldC0 = (L + location + length : Nat)) (hnewC0 : newC0 = (N + location + newCount : Nat)) :
    ∃ b₁ b₂, moveBuckets buckets newBuckets newL L location = some b₁ ∧
      moveBuckets buckets b₁ newC0 oldC0 (l.length - length - location) = some b₂ ∧
      Gap ⟨newL, b₂⟩ l location length newCount N := by
  obtain ⟨b₁, hmove₁, hlen₁, hb₁⟩ := moveBuckets_spec buckets newBuckets (n := location)
    hN (rfl : (L : Int) = L) (by omega) (by omega)
  obtain ⟨b₂, hmove₂, hlen₂, hb₂⟩ := moveBuckets_spec buckets b₁
    (n := l.length - length - location) hnewC0 holdC0 (by omega) (by omega)
  refine ⟨b₁, b₂, hmove₁, hmove₂, hN, ?_, ?_, fun k hk => ?_, fun k hk => ?_⟩
  · rw [Deque.capacity, hlen₂, hlen₁]
    exact hroom'
  · rw [Deque.capacity, hlen₂, hlen₁]
    exact hlimit
  · show b₂[N + k]? = l[k]?
    rw [hb₂, if_neg (by omega), hb₁, if_pos (by omega), ← hfront k hk, show L + (N + k - N) = L + k by omega]
  · show b₂[N + location + newCount + k]? = l[location + length + k]?
    rw [hb₂, if_pos (by omega), ← hback k hk]
    congr 1
    omega

variable (newCount) in
/-- The region after the gap moves. -/
theorem reposition_right (buckets : List α) {oldC0 newC0 : Int}
    (hfront : ∀ k < location, buckets[L + k]? = l[k]?)
    (hback : ∀ k < l.length - (location + length), buckets[L + location + length + k]? = l[location + length + k]?)
    (hrange : location + length ≤ l.length) (hroom : L + l.length ≤ buckets.length) (hlimit : buckets.length ≤ 2 ^ 30)
    (hroom' : L + (l.length - length + newCount) ≤ buckets.length)
    (holdC0 : oldC0 = (L + location + length : Nat)) (hnewC0 : newC0 = (L + location + newCount : Nat)) :
    ∃ b₁ b₂, moveBuckets buckets buckets newC0 oldC0 (l.length - length - location) = some b₁ ∧
      clearBuckets b₁ (newC0 + (l.length - length - location : Nat)) newC0 oldC0 = some b₂ ∧
      Gap ⟨L, b₂⟩ l location length newCount L := by
  obtain ⟨b₁, hmove₁, hlen₁, hb₁⟩ := moveBuckets_spec buckets buckets
    (n := l.length - length - location) hnewC0 holdC0 (by omega) (by omega)
  obtain ⟨b₂, hclear, hlen₂, hb₂⟩ := clearBuckets_spec b₁ (newC0 + (l.length - length - location : Nat)) newC0 oldC0
    (o := L + location + newCount + (l.length - length - location)) (n := length - newCount)
    (by omega) (by omega) (by omega)
  refine ⟨b₁, b₂, hmove₁, hclear, rfl, ?_, ?_, fun k hk => ?_, fun k hk => ?_⟩
  · rw [Deque.capacity, hlen₂, hlen₁]
    exact hroom'
  · rw [Deque.capacity, hlen₂, hlen₁]
    exact hlimit
  · show b₂[L + k]? = l[k]?
    rw [hb₂ _ (by omega), hb₁, if_neg (by omega), hfront k hk]
  · show b₂[L + location + newCount + k]? = l[location + length + k]?
    rw [hb₂ _ (by omega), hb₁, if_pos (by omega), ← hback k hk]
    congr 1
    omega

variable (newCount) in
/-- The region before the gap moves, and the gap ends where it did. -/
theorem reposition_left (buckets : List α) {newL : Int} {N : Nat}
    (hfront : ∀ k < location, buckets[L + k]? = l[k]?)
    (hback : ∀ k < l.length - (location + length), buckets[L + location + length + k]? = l[location + length + k]?)
    (hrange : location + length ≤ l.length) (hroom : L + l.length ≤ buckets.length) (hlimit : buckets.length ≤ 2 ^ 30)
    (hN : newL = N) (hend : N + newCount = L + length) :
    ∃ b₁ b₂, moveBuckets buckets buckets newL L location = some b₁ ∧ clearBuckets b₁ L L newL = some b₂ ∧
      Gap ⟨newL, b₂⟩ l location length newCount N := by
  obtain ⟨b₁, hmove₁, hlen₁, hb₁⟩ := moveBuckets_spec buckets buckets (n := location)
    hN (rfl : (L : Int) = L) (by omega) (by omega)
  obtain ⟨b₂, hclear, hlen₂, hb₂⟩ := clearBuckets_spec b₁ L L newL
    (o := L) (n := N - L) rfl (by omega) (by omega)
  refine ⟨b₁, b₂, hmove₁, hclear, hN, ?_, ?_, fun k hk => ?_, fun k hk => ?_⟩
  · rw [Deque.capacity, hlen₂, hlen₁]
    omega
  · rw [Deque.capacity, hlen₂, hlen₁]
    exact hlimit
  · show b₂[N + k]? = l[k]?
    rw [hb₂ _ (by omega), hb₁, if_pos (by omega), ← hfront k hk, show L + (N + k - N) = L + k by omega]
  · show b₂[N + location + newCount + k]? = l[location + length + k]?
    rw [hb₂ _ (by omega), hb₁, if_neg (by omega), ← hback k hk]
    congr 1
    omega

variable (newCount) in
/-- Both regions move to the left, the first one first. -/
theorem reposition_bothLeft (buckets : List α) {newL oldC0 newC0 : Int} {N : Nat}
    (hfront : ∀ k < location, buckets[L + k]? = l[k]?)
    (hback : ∀ k < l.length - (location + length), buckets[L + location + length + k]? = l[location + length + k]?)
    (hrange : location + length ≤ l.length) (hroom : L + l.length ≤ buckets.length) (hlimit : buckets.length ≤ 2 ^ 30)
    (hN : newL = N) (hlt : N < L) (hroom' : N + (l.length - length + newCount) ≤ buckets.length)
    (holdC0 : oldC0 = (L + location + length : Nat)) (hnewC0 : newC0 = (N + location + newCount : Nat)) :
    ∃ b₁ b₂ b₃, moveBuckets buckets buckets newL L location = some b₁ ∧
      moveBuckets b₁ b₁ newC0 oldC0 (l.length - length - location) = some b₂ ∧
      clearBuckets b₂ (newC0 + (l.length - length - location : Nat)) newC0 oldC0 = some b₃ ∧
      Gap ⟨newL, b₃⟩ l location length newCount N := by
  obtain ⟨b₁, hmove₁, hlen₁, hb₁⟩ := moveBuckets_spec buckets buckets (n := location)
    hN (rfl : (L : Int) = L) (by omega) (by omega)
  obtain ⟨b₂, hmove₂, hlen₂, hb₂⟩ := moveBuckets_spec b₁ b₁
    (n := l.length - length - location) hnewC0 holdC0 (by omega) (by omega)
  obtain ⟨b₃, hclear, hlen₃, hb₃⟩ := clearBuckets_spec b₂ (newC0 + (l.length - length - location : Nat)) newC0 oldC0
    (o := N + location + newCount + (l.length - length - location))
    (n := L + location + length - (N + location + newCount)) (by omega) (by omega) (by omega)
  refine ⟨b₁, b₂, b₃, hmove₁, hmove₂, hclear, hN, ?_, ?_, fun k hk => ?_, fun k hk => ?_⟩
  · rw [Deque.capacity, hlen₃, hlen₂, hlen₁]
    exact hroom'
  · rw [Deque.capacity, hlen₃, hlen₂, hlen₁]
    exact hlimit
  · show b₃[N + k]? = l[k]?
    rw [hb₃ _ (by omega), hb₂, if_neg (by omega), hb₁, if_pos (by omega), ← hfront k hk,
      show L + (N + k - N) = L + k by omega]
  · show b₃[N + location + newCount + k]? = l[location + length + k]?
    rw [hb₃ _ (by omega), hb₂, if_pos (by omega), hb₁, if_neg (by omega), ← hback k hk]
    congr 1
    omega

variable (newCount) in
/-- Both regions move to the right, the last one first. -/
theorem reposition_bothRight (buckets : List α) {newL oldC0 newC0 : Int} {N : Nat}
    (hfront : ∀ k < location, buckets[L + k]? = l[k]?)
    (hback : ∀ k < l.length - (location + length), buckets[L + location + length + k]? = l[location + length + k]?)
    (hrange : location + length ≤ l.length) (hroom : L + l.length ≤ buckets.length) (hlimit : buckets.length ≤ 2 ^ 30)
    (hN : newL = N) (hle : L ≤ N) (hmore : length ≤ newCount)
    (hroom' : N + (l.length - length + newCount) ≤ buckets.length)
    (holdC0 : oldC0 = (L + location + length : Nat)) (hnewC0 : newC0 = (N + location + newCount : Nat)) :
    ∃ b₁ b₂ b₃, moveBuckets buckets buckets newC0 oldC0 (l.length - length - location) = some b₁ ∧
      moveBuckets b₁ b₁ newL L location = some b₂ ∧ clearBuckets b₂ L L newL = some b₃ ∧
      Gap ⟨newL, b₃⟩ l location length newCount N := by
  obtain ⟨b₁, hmove₁, hlen₁, hb₁⟩ := moveBuckets_spec buckets buckets
    (n := l.length - length - location) hnewC0 holdC0 (by omega) (by omega)
  obtain ⟨b₂, hmove₂, hlen₂, hb₂⟩ := moveBuckets_spec b₁ b₁ (n := location)
    hN (rfl : (L : Int) = L) (by omega) (by omega)
  obtain ⟨b₃, hclear, hlen₃, hb₃⟩ := clearBuckets_spec b₂ L L newL
    (o := L) (n := N - L) rfl (by omega) (by omega)
  refine ⟨b₁, b₂, b₃, hmove₁, hmove₂, hclear, hN, ?_, ?_, fun k hk => ?_, fun k hk => ?_⟩
  · rw [Deque.capacity, hlen₃, hlen₂, hlen₁]
    exact hroom'
  · rw [Deque.capacity, hlen₃, hlen₂, hlen₁]
    exact hlimit
  · show b₃[N + k]? = l[k]?
    rw [hb₃ _ (by omega), hb₂, if_pos (by omega), hb₁, if_neg (by omega), ← hfront k hk,
      show L + (N + k - N) = L + k by omega]
  · show b₃[N + location + newCount + k]? = l[location + length + k]?
    rw [hb₃ _ (by omega), hb₂, if_neg (by omega), hb₁, if_pos (by omega), ← hback k hk]
    congr 1
    omega

theorem reposition_spec (h : Gap deque l location length length L) (hrange : location + length ≤ l.length)
    (hfits : Fits deque.capacity l.length (l.length - length + newCount)) :
    ∃ deque' L', repositionDequeRegions junk deque l.length location length newCount = some deque' ∧
      Gap deque' l location length newCount L' := by
  obtain ⟨hleft, hroom, hlimit, hfront, hback⟩ := h
  obtain ⟨cap, hcap⟩ : ∃ cap, cap = deque.capacity := ⟨_, rfl⟩
  have hlen : deque.buckets.length = cap := hcap.symm
  rw [← hcap] at hroom hlimit hfits
  have hwiggle : (if cap / 2 ^ 17 < 4 then 4 else cap / 2 ^ 17) = max 4 (cap / 2 ^ 17) := by
    split <;> omega
  have hC0 : (L : Int) + location + length = (L + location + length : Nat) := by push_cast; rfl
  simp only [repositionDequeRegions, ← hcap, hwiggle, hleft]
  split
  · -- a new deque
    rename_i hnew
    obtain ⟨c, hround, hpos⟩ : ∃ newCapacity : Int,
        roundUpCapacity (l.length - length + newCount + max 4 (cap / 2 ^ 17)) = some newCapacity ∧ 0 ≤ newCapacity := by
      rcases hfits with hfits | ⟨hcond, -⟩
      · exact hfits
      · exact absurd hnew (by omega)
    obtain ⟨hlt, hle⟩ := roundUpCapacity_le hround hpos
    obtain ⟨c, rfl⟩ := Int.eq_ofNat_of_zero_le hpos
    have hnewL : ((c : Int) - (l.length - length + newCount : Nat)).tdiv 2 =
        ((c - (l.length - length + newCount)) / 2 : Nat) := by
      rw [← Int.ofNat_sub (by omega)]
      exact tdiv_two _
    obtain ⟨b₁, b₂, hb₁, hb₂, hgap⟩ := reposition_new newCount deque.buckets (reallocate junk [] c) hfront hback hrange
      (by omega) hnewL (by rw [length_reallocate]; omega) (by rw [length_reallocate]; omega) hC0
      (show ((c : Int) - (l.length - length + newCount : Nat)).tdiv 2 + location + newCount = _ by
        rw [hnewL]; push_cast; rfl)
    refine ⟨_, _, ?_, hgap⟩
    simp only [hround, allocate_eq junk hpos, Int.toNat_natCast, hb₁, hb₂, Option.bind_eq_bind, Option.bind_some]
    rfl
  rename_i hsame
  have hroom' : L + l.length ≤ cap ∧ l.length - length + newCount ≤ cap := by
    refine ⟨by omega, ?_⟩
    rcases hfits with ⟨c, hround, hpos⟩ | ⟨-, hfits⟩
    · have := roundUpCapacity_le hround hpos
      omega
    · exact hfits
  clear hsame hfits hwiggle
  split
  · -- the region after the gap moves
    rename_i hright
    obtain ⟨b₁, b₂, hb₁, hb₂, hgap⟩ := reposition_right newCount deque.buckets hfront hback hrange (by omega) (by omega)
      (by omega) hC0 (show (L : Int) + location + newCount = (L + location + newCount : Nat) by push_cast; rfl)
    refine ⟨_, _, ?_, hgap⟩
    simp only [hb₁, hb₂, Option.bind_eq_bind, Option.bind_some]
    rfl
  split
  · -- the region before the gap moves
    rename_i hleft
    obtain ⟨b₁, b₂, hb₁, hb₂, hgap⟩ := reposition_left newCount deque.buckets hfront hback hrange (by omega) (by omega)
      (show (L : Int) - (newCount - length) = (L + length - newCount : Nat) by omega) (by omega)
    refine ⟨_, _, ?_, hgap⟩
    simp only [hb₁, hb₂, Option.bind_eq_bind, Option.bind_some]
    rfl
  -- both regions move
  rename_i hnotRight hnotLeft
  obtain ⟨free, hfree⟩ : ∃ free, free = cap - (l.length - length + newCount) := ⟨_, rfl⟩
  have hsum : (L : Int) + (cap - l.length - L) - (newCount - length) = free := by
    clear hnotRight hnotLeft hroom
    omega
  have hbefore : free / 2 - free / 2 / 2 ≤ cap - (l.length - length + newCount) :=
    Nat.le_trans (Nat.sub_le _ _) (Nat.le_trans (Nat.div_le_self _ _) (Nat.le_of_eq hfree))
  have hroomN : free / 2 - free / 2 / 2 + (l.length - length + newCount) ≤ deque.buckets.length :=
    hlen ▸ Nat.add_le_of_le_sub hroom'.2 hbefore
  have hnewL : (free : Int).tdiv 2 - ((free : Int).tdiv 2).tdiv 2 = (free / 2 - free / 2 / 2 : Nat) := by
    rw [tdiv_two, tdiv_two]
    omega
  rw [hsum, hnewL]
  split
  · rename_i hlt
    obtain ⟨b₁, b₂, b₃, hb₁, hb₂, hb₃, hgap⟩ := reposition_bothLeft newCount deque.buckets hfront hback hrange (by omega)
      (by omega) rfl (Int.ofNat_lt.mp hlt) hroomN hC0
      (show ((free / 2 - free / 2 / 2 : Nat) : Int) + location + newCount = _ by push_cast; rfl)
    refine ⟨_, _, ?_, hgap⟩
    simp only [hb₁, hb₂, hb₃, Option.bind_eq_bind, Option.bind_some]
    rfl
  · rename_i hge
    obtain ⟨b₁, b₂, b₃, hb₁, hb₂, hb₃, hgap⟩ := reposition_bothRight newCount deque.buckets hfront hback hrange (by omega)
      (by omega) (rfl : ((free / 2 - free / 2 / 2 : Nat) : Int) = _) (by omega) (by omega) hroomN hC0
      (show ((free / 2 - free / 2 / 2 : Nat) : Int) + location + newCount = _ by push_cast; rfl)
    refine ⟨_, _, ?_, hgap⟩
    simp only [hb₁, hb₂, hb₃, Option.bind_eq_bind, Option.bind_some]
    rfl

/-- Half of half of a negative number, rounded towards zero. -/
theorem recenter_neg {x : Int} (h : x ≤ -2) : x.tdiv 2 - (x.tdiv 2).tdiv 2 < 0 := by
  obtain ⟨n, rfl⟩ : ∃ n : Nat, x = -n := ⟨x.natAbs, by omega⟩
  rw [Int.neg_tdiv, tdiv_two, Int.neg_tdiv, tdiv_two]
  omega

/-- Without room, at most a deque is left whose values would start before its
first bucket. -/
theorem reposition_stuck (h : Gap deque l location length length L)
    (hfits : ¬ Fits deque.capacity l.length (l.length - length + newCount)) {deque' : Deque α}
    (hr : repositionDequeRegions junk deque l.length location length newCount = some deque') :
    location = 0 ∧ deque'.leftIdx < 0 := by
  obtain ⟨hleft, hroom, hlimit, -, -⟩ := h
  obtain ⟨cap, hcap⟩ : ∃ cap, cap = deque.capacity := ⟨_, rfl⟩
  rw [← hcap] at hroom hlimit hfits
  have hwiggle : (if cap / 2 ^ 17 < 4 then 4 else cap / 2 ^ 17) = max 4 (cap / 2 ^ 17) := by
    split <;> omega
  rw [Fits, not_or, not_and_or, not_not] at hfits
  obtain ⟨hnone, hroom'⟩ := hfits
  simp only [repositionDequeRegions, ← hcap, hwiggle, hleft] at hr
  split at hr
  · -- there is no new deque
    obtain ⟨c, hround, hr⟩ := Option.bind_eq_some_iff.mp hr
    obtain ⟨b, halloc, -⟩ := Option.bind_eq_some_iff.mp hr
    rw [allocate] at halloc
    split at halloc
    · rename_i hpos
      exact absurd ⟨c, hround, hpos⟩ hnone
    · cases halloc
  rename_i hsame
  have hbig : cap < l.length - length + newCount := by omega
  have hmany : cap + 2 ≤ l.length - length + newCount := by omega
  rw [if_neg (by omega), if_neg (by omega)] at hr
  have hneg := recenter_neg (x := L + (cap - l.length - L) - (newCount - length)) (by omega)
  rw [if_pos (by omega)] at hr
  obtain ⟨b₁, hmove, hr⟩ := Option.bind_eq_some_iff.mp hr
  obtain ⟨b₂, -, hr⟩ := Option.bind_eq_some_iff.mp hr
  obtain ⟨b₃, -, hr⟩ := Option.bind_eq_some_iff.mp hr
  refine ⟨?_, by rw [← Option.some.inj hr]; exact hneg⟩
  by_contra hpos
  rw [moveBuckets_none (Nat.pos_of_ne_zero hpos) hneg] at hmove
  cases hmove

end Reposition

end CFLite.Array
