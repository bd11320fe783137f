import CFLite.Collections.ArrayOperations
import CFLite.Framework.LowerBound

/-!
# `CFArrayBSearchValues`

The search looks at windows of `1 << lg` values. The first probe chooses between
two windows that overlap, the first values of the range and its last values, and
every further probe halves the window. `1 << lg` is an `int`.

* `loop_spec`: the steps of the loop stay inside the window, and end at the lower
  bound if it is in the window;
* `bSearchValues_spec`: what a search finds in a sorted range of fewer than `2 ^
  31` values;
* `finds_iff`: in a longer range it finds the lower bound at the first two probes
  or not at all.
-/

namespace CFLite.Array

open Framework

variable {α : Type}

/-- A search: the indexes of the values it asked for, in their order, and its
result. -/
structure Search where
  probes : List Int
  result : Int
  deriving DecidableEq

/-- `1 << lg` of a defined shift. -/
def shifted (lg : Nat) : Option Int := if lg < 32 then some (oneShl lg) else none

/-- `CFArrayGetValueAtIndex` for any index. -/
def CFArray.valueAt (array : CFArray α) (idx : Int) : Option α := do
  let deque ← array.store
  let values ← readRange deque.buckets (deque.leftIdx + idx) 1
  values[0]?

section Search

variable (getValueAtIndex : Int → Option α) (comparator : α → α → CFComparisonResult)
variable (location : Nat) (value : α)

/-- `while (lg--)`, with the probes so far. -/
def bSearchLoop : (lg : Nat) → (idx : Int) → (probes : List Int) → Option (Int × List Int)
  | 0, idx, probes => some (idx, probes)
  | lg + 1, idx, probes => do
    let shift ← shifted lg
    let item ← getValueAtIndex (location + idx + shift)
    let probes := probes ++ [location + idx + shift]
    if comparator item value = .lt then bSearchLoop lg (idx + shift) probes else bSearchLoop lg idx probes

/-- `CFArrayBSearchValues` in an array with these values. -/
def bSearchValues (length : Nat) : Option Search :=
  if length = 0 then some ⟨[], location⟩
  else do
    let item ← getValueAtIndex (location + length - 1)
    let probes : List Int := [(location + length - 1 : Int)]
    if comparator item value = .lt then return ⟨probes, location + length⟩
    let item ← getValueAtIndex location
    let probes := probes ++ [(location : Int)]
    if comparator value item = .lt then return ⟨probes, location⟩
    let lg := flsl length - 1
    let shift ← shifted lg
    let item ← getValueAtIndex (location + -1 + shift)
    let probes := probes ++ [location + -1 + shift]
    let idx : Int := if comparator item value = .lt then length - shift else -1
    let (idx, probes) ← bSearchLoop getValueAtIndex comparator location value lg idx probes
    return ⟨probes, idx + 1 + location⟩

end Search

/-- The array has the values `values`. -/
def HasValues (getValueAtIndex : Int → Option α) (values : List α) : Prop :=
  ∀ k < values.length, getValueAtIndex k = values[k]?

/-- The value at `i` is less than `value`. -/
def LessAt (comparator : α → α → CFComparisonResult) (values : List α) (value : α) (i : Nat) : Prop :=
  ∃ item, values[i]? = some item ∧ comparator item value = .lt

/-- The search asks for values of the range only, and finds the first of them
that is not less than `value`. -/
def FindsLowerBound (getValueAtIndex : Int → Option α) (comparator : α → α → CFComparisonResult) (values : List α)
    (location length : Nat) (value : α) : Prop :=
  ∃ search, bSearchValues getValueAtIndex comparator location value length = some search ∧
    (∀ probe ∈ search.probes, (location : Int) ≤ probe ∧ probe < location + length) ∧
    ∃ k : Nat, search.result = k ∧ IsLowerBound (LessAt comparator values value) location (location + length) k

theorem Holds.hasValues {array : CFArray α} {l : List α} (h : Holds array l) : HasValues array.valueAt l :=
  fun _ hk => h.getValueAtIndex hk

theorem shifted_eq {lg : Nat} (h : lg < 31) : shifted lg = some ((2 : Int) ^ lg) := by
  rw [shifted, if_pos (by omega), oneShl_eq h]

section Sorted

variable {getValueAtIndex : Int → Option α} {comparator : α → α → CFComparisonResult} {values : List α}
variable {location length : Nat} {value : α}

/-- In a sorted range the values before one that is less are less. -/
theorem holdsBefore_lessAt (value : α) (hc : TotalPreorder comparator)
    (hsorted : ((values.drop location).take length).Pairwise (NotAfter comparator)) :
    HoldsBefore (LessAt comparator values value) location (location + length) := by
  rintro i j hi hij hj ⟨b, hb, hlt⟩
  have hjlen : j < values.length := (List.getElem?_eq_some_iff.mp hb).1
  obtain ⟨a, ha⟩ : ∃ a, values[i]? = some a := ⟨_, List.getElem?_eq_getElem (by omega)⟩
  refine ⟨a, ha, ?_⟩
  rcases hij.eq_or_lt with rfl | hij
  · rw [ha] at hb
    rwa [Option.some.inj hb]
  · have hget : ∀ {k c}, location ≤ k → k < location + length → values[k]? = some c →
        ((values.drop location).take length)[k - location]? = some c := by
      intro k c hk hk' hc
      rw [List.getElem?_take, if_pos (by omega), List.getElem?_drop, Nat.add_sub_cancel' hk, hc]
    obtain ⟨hi', ha'⟩ := List.getElem?_eq_some_iff.mp (hget hi (by omega) ha)
    obtain ⟨hj', hb'⟩ := List.getElem?_eq_some_iff.mp (hget (by omega) hj hb)
    have hab := List.pairwise_iff_getElem.mp hsorted _ _ hi' hj' (by omega)
    rw [ha', hb'] at hab
    rw [hc.lt_iff] at hlt ⊢
    exact fun hva => hlt (hc.trans _ _ _ hva hab)

/-- What the comparison at an index of the range says of the lower bound. -/
theorem probe_spec (probe : Int) (hv : HasValues getValueAtIndex values) (hrange : location + length ≤ values.length)
    (hbefore : HoldsBefore (LessAt comparator values value) location (location + length)) {k : Nat}
    (hk : IsLowerBound (LessAt comparator values value) location (location + length) k)
    (hlow : location ≤ probe) (hhigh : probe < location + length) :
    ∃ item, getValueAtIndex probe = some item ∧ (comparator item value = .lt ↔ probe < k) := by
  obtain ⟨i, rfl⟩ := Int.eq_ofNat_of_zero_le (show 0 ≤ probe by omega)
  have hi : i < values.length := by omega
  refine ⟨values[i], by rw [hv i hi, List.getElem?_eq_getElem hi], ?_⟩
  have hiff := hk.iff hbefore (j := i) (by omega) (by omega)
  rw [Nat.cast_lt, ← hiff]
  refine ⟨fun hlt => ⟨_, List.getElem?_eq_getElem hi, hlt⟩, ?_⟩
  rintro ⟨item, hitem, hlt⟩
  rw [List.getElem?_eq_getElem hi] at hitem
  rwa [Option.some.inj hitem]

/-- The window of `2 ^ lg` values after `idx` is in the range and has the lower
bound `k`. -/
structure Window (location length k lg : Nat) (idx : Int) : Prop where
  low : -1 ≤ idx
  high : idx + 2 ^ lg ≤ length
  before : location + idx < k
  after : k ≤ location + idx + 2 ^ lg

/-- The loop halves the window and asks for values of the range only. -/
theorem loop_spec (hv : HasValues getValueAtIndex values) (hrange : location + length ≤ values.length)
    (hbefore : HoldsBefore (LessAt comparator values value) location (location + length)) {k : Nat}
    (hk : IsLowerBound (LessAt comparator values value) location (location + length) k) {lg : Nat} (hlg : lg ≤ 31) {idx : Int}
    {probes : List Int} (h : Window location length k lg idx)
    (hprobes : ∀ probe ∈ probes, (location : Int) ≤ probe ∧ probe < location + length) :
    ∃ idx' probes', bSearchLoop getValueAtIndex comparator location value lg idx probes = some (idx', probes') ∧
      idx' + 1 + location = k ∧ ∀ probe ∈ probes', (location : Int) ≤ probe ∧ probe < location + length := by
  induction lg generalizing idx probes with
  | zero =>
    refine ⟨idx, probes, rfl, ?_, hprobes⟩
    have hlow := h.before
    have hhigh := h.after
    omega
  | succ lg ih =>
    obtain ⟨hlow, hhigh, hbef, haft⟩ := h
    have hpos : (0 : Int) < 2 ^ lg := by positivity
    rw [pow_succ] at hhigh haft
    obtain ⟨item, hitem, hless⟩ := probe_spec (location + idx + 2 ^ lg) hv hrange hbefore hk (by omega) (by omega)
    have hprobes' : ∀ probe ∈ probes ++ [location + idx + 2 ^ lg], (location : Int) ≤ probe ∧ probe < location + length := by
      intro probe hprobe
      rcases List.mem_append.mp hprobe with hprobe | hprobe
      · exact hprobes probe hprobe
      · obtain rfl := List.mem_singleton.mp hprobe
        omega
    simp only [bSearchLoop, shifted_eq (show lg < 31 by omega), Option.bind_eq_bind, Option.bind_some, hitem]
    split
    · rename_i hlt
      have := hless.mp hlt
      exact ih (by omega) ⟨by omega, by omega, by omega, by omega⟩ hprobes'
    · rename_i hge
      have := mt hless.mpr hge
      exact ih (by omega) ⟨by omega, by omega, by omega, by omega⟩ hprobes'

/-- The length of a range lies between the first window and twice as many. -/
theorem two_pow_flsl_le {n : Nat} (hn : 0 < n) : 2 ^ (flsl n - 1) ≤ n ∧ n < 2 ^ flsl n := by
  have hpos : 0 < flsl n := by
    by_contra hzero
    have := flsl_le_iff.mp (not_lt.mp hzero)
    rw [pow_zero] at this
    omega
  refine ⟨?_, flsl_le_iff.mp le_rfl⟩
  by_contra hlt
  have := flsl_le_iff.mpr (not_le.mp hlt)
  omega

/-- The first comparison answers that every value of the range is less, or the
second that no value is, or the lower bound is after the first value of the range
and not after the last. -/
def EarlyAnswer (comparator : α → α → CFComparisonResult) (values : List α) (location length : Nat) (value : α) : Prop :=
  (∃ item, values[location + length - 1]? = some item ∧ comparator item value = .lt) ∨
    ∃ item, values[location]? = some item ∧ comparator value item = .lt

theorem not_less_of_value_less (hc : TotalPreorder comparator) {item : α} (h : comparator value item = .lt) :
    comparator item value ≠ .lt := by
  rw [hc.swap item value, h]
  decide

/-- The first two probes, and what they say of the lower bound. -/
structure Ends (getValueAtIndex : Int → Option α) (comparator : α → α → CFComparisonResult) (values : List α)
    (location length : Nat) (value : α) (last first : α) (k : Nat) : Prop where
  bound : IsLowerBound (LessAt comparator values value) location (location + length) k
  getLast : getValueAtIndex (location + length - 1) = some last
  lastLess : comparator last value = .lt ↔ (location + length - 1 : Int) < k
  getFirst : getValueAtIndex location = some first
  firstLess : comparator first value = .lt ↔ (location : Int) < k
  early : EarlyAnswer comparator values location length value ↔ comparator last value = .lt ∨ comparator value first = .lt

theorem exists_ends (hv : HasValues getValueAtIndex values) (hrange : location + length ≤ values.length)
    (hbefore : HoldsBefore (LessAt comparator values value) location (location + length)) (hlen : 0 < length) :
    ∃ last first k, Ends getValueAtIndex comparator values location length value last first k := by
  obtain ⟨k, hk⟩ := exists_isLowerBound (LessAt comparator values value) (show location ≤ location + length by omega)
  obtain ⟨last, hlast, hlastLess⟩ := probe_spec (location + length - 1) hv hrange hbefore hk (by omega) (by omega)
  obtain ⟨first, hfirst, hfirstLess⟩ := probe_spec (location) hv hrange hbefore hk (by omega) (by omega)
  refine ⟨last, first, k, hk, hlast, hlastLess, hfirst, hfirstLess, ?_⟩
  have hlast' : values[location + length - 1]? = some last := by
    rw [← hv _ (by omega), ← hlast]
    congr 1
    omega
  have hfirst' : values[location]? = some first := by rw [← hv _ (by omega), hfirst]
  simp only [EarlyAnswer, hlast', hfirst', Option.some.injEq, exists_eq_left']

section Ends

variable {last first : α} {k : Nat}

/-- A search that the first two comparisons answer. -/
theorem Ends.findsLowerBound (h : Ends getValueAtIndex comparator values location length value last first k)
    (hc : TotalPreorder comparator) (hlen : 0 < length) (hearly : EarlyAnswer comparator values location length value) :
    FindsLowerBound getValueAtIndex comparator values location length value := by
  obtain ⟨hk, hlast, hlastLess, hfirst, hfirstLess, hiff⟩ := h
  have hlow := hk.low_le
  have hhigh := hk.le_high
  by_cases hlt : comparator last value = .lt
  · refine ⟨⟨[(location + length - 1 : Int)], location + length⟩, ?_, ?_, k, ?_, hk⟩
    · simp only [bSearchValues, if_neg hlen.ne', hlast, Option.bind_eq_bind, Option.bind_some, if_pos hlt]
      rfl
    · intro probe hprobe
      obtain rfl := List.mem_singleton.mp hprobe
      omega
    · have := hlastLess.mp hlt
      show (location + length : Int) = k
      omega
  · have hvalue : comparator value first = .lt := (hiff.mp hearly).resolve_left hlt
    refine ⟨⟨[(location + length - 1 : Int), location], location⟩, ?_, ?_, k, ?_, hk⟩
    · simp only [bSearchValues, if_neg hlen.ne', hlast, hfirst, Option.bind_eq_bind, Option.bind_some, if_neg hlt,
        if_pos hvalue]
      rfl
    · intro probe hprobe
      rw [List.mem_cons, List.mem_singleton] at hprobe
      omega
    · have := mt hfirstLess.mpr (not_less_of_value_less hc hvalue)
      show (location : Int) = k
      omega

/-- A search that goes on after them. -/
theorem Ends.search_eq (h : Ends getValueAtIndex comparator values location length value last first k)
    (hlen : 0 < length) (hearly : ¬ EarlyAnswer comparator values location length value) :
    bSearchValues getValueAtIndex comparator location value length = (do
      let shift ← shifted (flsl length - 1)
      let item ← getValueAtIndex (location + -1 + shift)
      let (idx, probes) ← bSearchLoop getValueAtIndex comparator location value (flsl length - 1)
        (if comparator item value = .lt then length - shift else -1)
        [(location + length - 1 : Int), location, location + -1 + shift]
      return ⟨probes, idx + 1 + location⟩) := by
  have hnot := mt h.early.mpr hearly
  rw [not_or] at hnot
  simp only [bSearchValues, if_neg hlen.ne', h.getLast, h.getFirst, Option.bind_eq_bind, Option.bind_some, if_neg hnot.1,
    if_neg hnot.2]
  rfl

/-- The search in a range of fewer than `2 ^ 31` values. -/
theorem Ends.findsLowerBound_of_lt (h : Ends getValueAtIndex comparator values location length value last first k)
    (hv : HasValues getValueAtIndex values) (hrange : location + length ≤ values.length)
    (hbefore : HoldsBefore (LessAt comparator values value) location (location + length)) (hlen : 0 < length)
    (hearly : ¬ EarlyAnswer comparator values location length value) (hlt : length < 2 ^ 31) :
    FindsLowerBound getValueAtIndex comparator values location length value := by
  have hk := h.bound
  have hlow := hk.low_le
  have hhigh := hk.le_high
  have hlast := mt h.lastLess.mpr fun hless => hearly (h.early.mpr (.inl hless))
  have hbits : flsl length ≤ 31 := flsl_le_iff.mpr hlt
  obtain ⟨lg, hlg⟩ : ∃ lg, flsl length = lg + 1 := by
    rcases hzero : flsl length with _ | lg
    · have := (two_pow_flsl_le hlen).2
      rw [hzero] at this
      omega
    · exact ⟨lg, rfl⟩
  have hpow := two_pow_flsl_le hlen
  rw [hlg, Nat.add_sub_cancel, pow_succ] at hpow
  have hcast : ((2 ^ lg : Nat) : Int) = 2 ^ lg := Nat.cast_pow 2 lg
  have hpos : 0 < 2 ^ lg := Nat.two_pow_pos lg
  obtain ⟨item, hitem, hless⟩ := probe_spec (location + -1 + 2 ^ lg) hv hrange hbefore hk (by omega) (by omega)
  have hwindow : Window location length k lg (if comparator item value = .lt then length - 2 ^ lg else -1) := by
    split
    · rename_i hlt
      have := hless.mp hlt
      exact ⟨by omega, by omega, by omega, by omega⟩
    · rename_i hge
      have := mt hless.mpr hge
      exact ⟨by omega, by omega, by omega, by omega⟩
  have hfirst : ∀ probe ∈ [(location + length - 1 : Int), location, location + -1 + 2 ^ lg],
      (location : Int) ≤ probe ∧ probe < location + length := by
    intro probe hprobe
    rw [List.mem_cons, List.mem_cons, List.mem_singleton] at hprobe
    omega
  obtain ⟨idx, probes, hloop, hidx, hprobes⟩ := loop_spec hv hrange hbefore hk (by omega) hwindow hfirst
  refine ⟨⟨probes, idx + 1 + location⟩, ?_, hprobes, k, hidx, hk⟩
  rw [h.search_eq hlen hearly, hlg, Nat.add_sub_cancel, shifted_eq (by omega)]
  simp only [Option.bind_eq_bind, Option.bind_some, hitem, hloop]
  rfl

end Ends

/-- The loop keeps the probes so far. -/
theorem loop_probes {lg : Nat} {idx : Int} {probes : List Int} {result : Int × List Int}
    (h : bSearchLoop getValueAtIndex comparator location value lg idx probes = some result) : probes ⊆ result.2 := by
  induction lg generalizing idx probes with
  | zero =>
    obtain rfl := Option.some.inj h
    exact List.Subset.refl _
  | succ lg ih =>
    simp only [bSearchLoop, Option.bind_eq_bind, Option.bind_eq_some_iff] at h
    obtain ⟨shift, -, item, -, h⟩ := h
    have hmore := List.subset_append_left probes [location + idx + shift]
    split at h
    · exact List.Subset.trans hmore (ih h)
    · exact List.Subset.trans hmore (ih h)

/-- The first shift of a longer range is negative or not defined. -/
theorem shifted_neg {length : Nat} (hlen : 2 ^ 31 ≤ length) {shift : Int} (h : shifted (flsl length - 1) = some shift) :
    shift = -2 ^ 31 := by
  have hbits : ¬ flsl length ≤ 31 := fun hle => by
    have := flsl_le_iff.mp hle
    omega
  rw [shifted] at h
  split at h
  · rename_i hlt
    rw [show flsl length - 1 = 31 by omega, oneShl_31] at h
    exact (Option.some.inj h).symm
  · cases h

/-- The search in a longer range asks for a value before the range, or it has no
result. -/
theorem Ends.not_findsLowerBound {last first : α} {k : Nat}
    (h : Ends getValueAtIndex comparator values location length value last first k)
    (hearly : ¬ EarlyAnswer comparator values location length value) (hlen : 2 ^ 31 ≤ length) :
    ¬ FindsLowerBound getValueAtIndex comparator values location length value := by
  rintro ⟨search, hsearch, hprobes, -⟩
  rw [h.search_eq (by omega) hearly] at hsearch
  simp only [Option.bind_eq_bind, Option.bind_eq_some_iff] at hsearch
  obtain ⟨shift, hshift, item, -, ⟨idx, probes⟩, hloop, hsome⟩ := hsearch
  obtain rfl := Option.some.inj hsome
  have hmem : (location + -1 + shift : Int) ∈ probes := loop_probes hloop (by simp)
  have := (hprobes _ hmem).1
  have := shifted_neg hlen hshift
  omega

/-- The search finds the lower bound of a sorted range of fewer than `2 ^ 31`
values. -/
theorem findsLowerBound (hc : TotalPreorder comparator) (hv : HasValues getValueAtIndex values)
    (hrange : location + length ≤ values.length)
    (hsorted : ((values.drop location).take length).Pairwise (NotAfter comparator)) (hlt : length < 2 ^ 31) :
    FindsLowerBound getValueAtIndex comparator values location length value := by
  have hbefore := holdsBefore_lessAt value hc hsorted
  rcases Nat.eq_zero_or_pos length with rfl | hlen
  · refine ⟨⟨[], location⟩, rfl, fun _ hprobe => absurd hprobe (List.not_mem_nil), location, rfl, ?_⟩
    exact ⟨le_rfl, le_rfl, fun j hj hlt => absurd hj (not_le.mpr hlt), fun hlt => absurd hlt (lt_irrefl location)⟩
  obtain ⟨last, first, k, hends⟩ := exists_ends hv hrange hbefore hlen
  by_cases hearly : EarlyAnswer comparator values location length value
  · exact hends.findsLowerBound hc hlen hearly
  · exact hends.findsLowerBound_of_lt hv hrange hbefore hlen hearly hlt

/-- In a sorted range the search finds the lower bound if and only if the range
has fewer than `2 ^ 31` values or one of the first two comparisons answers. -/
theorem bSearchValues_finds_iff (hc : TotalPreorder comparator) (hv : HasValues getValueAtIndex values)
    (hrange : location + length ≤ values.length)
    (hsorted : ((values.drop location).take length).Pairwise (NotAfter comparator)) :
    FindsLowerBound getValueAtIndex comparator values location length value ↔
      length < 2 ^ 31 ∨ EarlyAnswer comparator values location length value := by
  by_cases hlt : length < 2 ^ 31
  · exact iff_of_true (findsLowerBound hc hv hrange hsorted hlt) (.inl hlt)
  have hlen : 2 ^ 31 ≤ length := not_lt.mp hlt
  have hbefore := holdsBefore_lessAt value hc hsorted
  obtain ⟨last, first, k, hends⟩ := exists_ends hv hrange hbefore (Nat.lt_of_lt_of_le (by decide) hlen)
  by_cases hearly : EarlyAnswer comparator values location length value
  · exact iff_of_true (hends.findsLowerBound hc (by omega) hearly) (.inr hearly)
  · exact iff_of_false (hends.not_findsLowerBound hearly hlen) (not_or.mpr ⟨hlt, hearly⟩)

end Sorted

/-! ## Arrays -/

/-- `CFArrayGetValueAtIndex` of an immutable array, whose values are in the object
itself. -/
def storedValueAt (values : List α) (idx : Int) : Option α := if 0 ≤ idx then values[idx.toNat]? else none

theorem hasValues_storedValueAt (values : List α) : HasValues (storedValueAt values) values :=
  fun k _ => if_pos (Int.natCast_nonneg k)

/-- A mutable array never has as many values as the search cannot handle. -/
theorem Holds.findsLowerBound {array : CFArray α} {l : List α} (h : Holds array l)
    {comparator : α → α → CFComparisonResult} (hc : TotalPreorder comparator) {location length : Nat}
    (hrange : location + length ≤ l.length) (hsorted : ((l.drop location).take length).Pairwise (NotAfter comparator))
    (value : α) : FindsLowerBound array.valueAt comparator l location length value := by
  refine Array.findsLowerBound hc h.hasValues hrange hsorted ?_
  rcases hstore : array.store with _ | deque
  · rw [h.empty hstore, List.length_nil] at hrange
    omega
  · obtain ⟨L, hat⟩ := h.store deque hstore
    have hroom := hat.room
    have hlimit := hat.limit
    omega

theorem totalPreorder_compare : TotalPreorder (compare : Nat → Nat → Ordering) where
  swap a b := (Nat.compare_swap b a).symm
  trans a b c := by
    simp only [ne_eq, Nat.compare_eq_gt]
    omega

/-- The numbers below `2 ^ 31` in an immutable array: the search for 1 asks for
the value at `-1 - 2 ^ 31`. -/
theorem bSearchValues_misses :
    TotalPreorder (compare : Nat → Nat → Ordering) ∧
      (((List.range (2 ^ 31)).drop 0).take (2 ^ 31)).Pairwise (NotAfter compare) ∧
      ¬ FindsLowerBound (storedValueAt (List.range (2 ^ 31))) compare (List.range (2 ^ 31)) 0 (2 ^ 31) 1 := by
  have hsorted : (((List.range (2 ^ 31)).drop 0).take (2 ^ 31)).Pairwise (NotAfter compare) := by
    refine List.Pairwise.imp (fun {a b} hlt => ?_) (List.pairwise_lt_range.sublist ((List.take_sublist _ _).trans (List.drop_sublist _ _)))
    rw [NotAfter, ne_eq, Nat.compare_eq_gt]
    omega
  have hrange : 0 + 2 ^ 31 ≤ (List.range (2 ^ 31)).length := by rw [List.length_range]; omega
  refine ⟨totalPreorder_compare, hsorted, ?_⟩
  have hbefore := holdsBefore_lessAt 1 totalPreorder_compare hsorted
  obtain ⟨last, first, k, hends⟩ := exists_ends (hasValues_storedValueAt _) hrange hbefore (by decide)
  refine hends.not_findsLowerBound ?_ le_rfl
  rintro (⟨item, hitem, hlt⟩ | ⟨item, hitem, hlt⟩)
  · rw [List.getElem?_range (by decide)] at hitem
    rw [Nat.compare_eq_lt, ← Option.some.inj hitem] at hlt
    omega
  · rw [List.getElem?_range (by decide)] at hitem
    rw [Nat.compare_eq_lt, ← Option.some.inj hitem] at hlt
    omega

theorem bSearchValues_finds_example :
    FindsLowerBound (storedValueAt [10, 20, 20, 30, 40]) compare [10, 20, 20, 30, 40] 1 4 25 :=
  (bSearchValues_finds_iff totalPreorder_compare (hasValues_storedValueAt _) (by decide) (by decide)).mpr
    (.inl (by decide))

end CFLite.Array
