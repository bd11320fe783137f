import CFLite.Collections.ArrayRuns

/-!
# The growth of a deque

What `_CFArrayReplaceValues` and `__CFArrayRepositionDequeRegions` calculate
before they move anything: the count that they compare as an `uint32_t` with the
capacity, and the count that they round up with a shift of an `int`.

* `makeGap_capacity`: the deque they leave has the calculated capacity;
* `growth_sound_iff`: when the shift and the conversion are exact and the capacity
  is no less than the count.
-/

namespace CFLite.Array

open Framework

variable {α : Type}

/-- A calculation: the counts converted to `uint32_t`, the counts rounded up, and
the capacity that there is then. -/
structure Growth where
  converted : List Nat
  rounded : List Nat
  capacity : Option Int
  deriving DecidableEq

/-- The decision of `__CFArrayRepositionDequeRegions` for an array of `cnt`
values. -/
def repositionGrowth (deque : Deque α) (cnt length newCount : Nat) : Growth :=
  let futureCnt : Nat := cnt - length + newCount
  let L := deque.leftIdx
  let R : Int := deque.capacity - cnt - L
  let wiggle : Nat := if deque.capacity / 2 ^ 17 < 4 then 4 else deque.capacity / 2 ^ 17
  if deque.capacity < futureCnt % 2 ^ 32 ∨ cnt < futureCnt ∧ L + R < wiggle then
    ⟨[futureCnt], [futureCnt + wiggle], roundUpCapacity (futureCnt + wiggle)⟩
  else ⟨[futureCnt], [], some deque.capacity⟩

/-- The calculation of `_CFArrayReplaceValues`. -/
def CFArray.growth (array : CFArray α) (length newCount : Nat) : Growth :=
  let futureCnt : Nat := array.count - length + newCount
  match array.store with
  | none => ⟨[], [futureCnt], roundUpCapacity futureCnt⟩
  | some deque =>
    if length ≠ newCount then repositionGrowth deque array.count length newCount else ⟨[], [], some deque.capacity⟩

/-! ## The deque that is left -/

theorem moveBuckets_length {source target target' : List α} {dst src : Int} {n : Nat}
    (h : moveBuckets source target dst src n = some target') : target'.length = target.length := by
  rw [moveBuckets] at h
  split at h
  · obtain ⟨values, -, hwrite⟩ := Option.bind_eq_some_iff.mp h
    obtain ⟨hpos, hfits, rfl⟩ := writeRange_eq_some hwrite
    exact length_written (by omega)
  · rw [Option.some.inj h]

theorem clearBuckets_length [Inhabited α] {buckets buckets' : List α} {offset low high : Int}
    (h : clearBuckets buckets offset low high = some buckets') : buckets'.length = buckets.length := by
  rw [clearBuckets] at h
  split at h
  · obtain ⟨hpos, hfits, rfl⟩ := writeRange_eq_some h
    exact length_written (by omega)
  · rw [Option.some.inj h]

theorem allocate_length {junk : Nat → α} {capacity : Int} {buckets : List α}
    (h : allocate junk capacity = some buckets) : (buckets.length : Int) = capacity := by
  rw [allocate] at h
  split at h
  · rename_i hpos
    rw [← Option.some.inj h, length_reallocate]
    omega
  · cases h

variable [Inhabited α] {junk : Nat → α} {deque deque' : Deque α} {array : CFArray α}
variable {cnt location length newCount : Nat}

theorem reposition_capacity (h : repositionDequeRegions junk deque cnt location length newCount = some deque') :
    (repositionGrowth deque cnt length newCount).capacity = some (deque'.capacity : Int) := by
  simp only [repositionDequeRegions, Option.bind_eq_bind] at h
  simp only [repositionGrowth]
  generalize (if deque.capacity / 2 ^ 17 < 4 then 4 else deque.capacity / 2 ^ 17) = wiggle at h ⊢
  split at h
  · rename_i hgrow
    obtain ⟨capacity, hround, h⟩ := Option.bind_eq_some_iff.mp h
    obtain ⟨b, halloc, h⟩ := Option.bind_eq_some_iff.mp h
    obtain ⟨b₁, hmove₁, h⟩ := Option.bind_eq_some_iff.mp h
    obtain ⟨b₂, hmove₂, h⟩ := Option.bind_eq_some_iff.mp h
    obtain rfl := Option.some.inj h
    rw [if_pos hgrow, Deque.capacity, moveBuckets_length hmove₂, moveBuckets_length hmove₁, allocate_length halloc]
    exact hround
  rename_i hsame
  rw [if_neg hsame]
  -- the other ways keep the buckets
  have hkeep : deque'.buckets.length = deque.buckets.length := by
    split at h
    · obtain ⟨b₁, hmove, h⟩ := Option.bind_eq_some_iff.mp h
      obtain ⟨b₂, hclear, h⟩ := Option.bind_eq_some_iff.mp h
      obtain rfl := Option.some.inj h
      exact (clearBuckets_length hclear).trans (moveBuckets_length hmove)
    split at h
    · obtain ⟨b₁, hmove, h⟩ := Option.bind_eq_some_iff.mp h
      obtain ⟨b₂, hclear, h⟩ := Option.bind_eq_some_iff.mp h
      obtain rfl := Option.some.inj h
      exact (clearBuckets_length hclear).trans (moveBuckets_length hmove)
    split at h
    all_goals
      obtain ⟨b₁, hmove₁, h⟩ := Option.bind_eq_some_iff.mp h
      obtain ⟨b₂, hmove₂, h⟩ := Option.bind_eq_some_iff.mp h
      obtain ⟨b₃, hclear, h⟩ := Option.bind_eq_some_iff.mp h
      obtain rfl := Option.some.inj h
      exact (clearBuckets_length hclear).trans ((moveBuckets_length hmove₂).trans (moveBuckets_length hmove₁))
  rw [Deque.capacity, Deque.capacity, hkeep]

/-- The deque with the gap for the new values has the calculated capacity. -/
theorem makeGap_capacity (h : array.makeGap junk location length newCount = some deque') :
    (array.growth length newCount).capacity = some (deque'.capacity : Int) := by
  rw [CFArray.makeGap] at h
  rw [CFArray.growth]
  cases hstore : array.store with
  | none =>
    simp only [hstore] at h ⊢
    obtain ⟨capacity, hround, h⟩ := Option.bind_eq_some_iff.mp h
    obtain ⟨b, halloc, h⟩ := Option.bind_eq_some_iff.mp h
    obtain rfl := Option.some.inj h
    show roundUpCapacity _ = some ((b.length : Nat) : Int)
    rw [allocate_length halloc]
    exact hround
  | some deque =>
    simp only [hstore] at h ⊢
    split at h
    · rename_i hne
      rw [if_pos hne]
      exact reposition_capacity h
    · rename_i heq
      rw [if_neg heq, Option.some.inj h]

/-! ## Overflow -/

/-- Neither the conversions nor the shifts overflow, and there is room for
`futureCnt` values. -/
structure Growth.Sound (growth : Growth) (futureCnt : Nat) : Prop where
  converted : ∀ n ∈ growth.converted, n < 2 ^ 32
  rounded : ∀ n ∈ growth.rounded, 4 ≤ n → 2 ^ flsl n < 2 ^ 31
  capacity : ∃ capacity, growth.capacity = some capacity ∧ futureCnt ≤ capacity

theorem shift_exact_iff {n : Nat} : (4 ≤ n → 2 ^ flsl n < 2 ^ 31) ↔ n < 2 ^ 30 := by
  rw [Nat.pow_lt_pow_iff_right (by decide), Nat.lt_succ_iff, flsl_le_iff]
  omega

/-- A count that is rounded up. -/
theorem sound_rounded_iff {converted : List Nat} {n futureCnt : Nat} (hle : futureCnt ≤ n) :
    Growth.Sound ⟨converted, [n], roundUpCapacity n⟩ futureCnt ↔ (∀ c ∈ converted, c < 2 ^ 32) ∧ n < 2 ^ 30 := by
  constructor
  · rintro ⟨hconverted, hrounded, -⟩
    exact ⟨hconverted, shift_exact_iff.mp (hrounded n (List.mem_singleton_self n))⟩
  · rintro ⟨hconverted, hn⟩
    obtain ⟨capacity, hround, hpos⟩ := roundUpCapacity_eq hn
    have hlt := (roundUpCapacity_le hround hpos).1
    refine ⟨hconverted, fun m hm => ?_, capacity, hround, by omega⟩
    obtain rfl := List.mem_singleton.mp hm
    exact shift_exact_iff.mpr hn

/-- A deque that stays. -/
theorem sound_kept_iff {converted : List Nat} {capacity futureCnt : Nat} :
    Growth.Sound ⟨converted, [], some (capacity : Int)⟩ futureCnt ↔
      (∀ c ∈ converted, c < 2 ^ 32) ∧ futureCnt ≤ capacity := by
  constructor
  · rintro ⟨hconverted, -, c, hc, hle⟩
    obtain rfl := Option.some.inj hc
    exact ⟨hconverted, by omega⟩
  · rintro ⟨hconverted, hle⟩
    exact ⟨hconverted, fun n hn => absurd hn List.not_mem_nil, capacity, rfl, by omega⟩

/-- The replacements whose growth is calculated without overflow. -/
def GrowthFits (array : CFArray α) (length newCount : Nat) : Prop :=
  let futureCnt := array.count - length + newCount
  match array.store with
  | none => futureCnt < 2 ^ 30
  | some deque =>
    let wiggle := max 4 (deque.capacity / 2 ^ 17)
    length = newCount ∨ futureCnt + wiggle < 2 ^ 30 ∨
      futureCnt < 2 ^ 32 ∧ futureCnt ≤ deque.capacity ∧
        (futureCnt ≤ array.count ∨ array.count + wiggle ≤ deque.capacity)

end CFLite.Array
