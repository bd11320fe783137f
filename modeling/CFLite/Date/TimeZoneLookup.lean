import CFLite.Date.TimeZonePeriods
import CFLite.Framework.LowerBound

/-!
# Looking up a period of a time zone

`CFTimeZoneGetSecondsFromGMT` searches the periods with `CFBSearch` and a
comparator that never answers that two periods are equal. The time is converted
to an `int32_t` first.

* `bSearchLoop_spec`: with such a comparator the search ends at the lower bound;
* `bSearchTZPeriods_eq`: the index of the period in force;
* `looksUp_iff`: the times at which the zone gives the offset of its data.
-/

namespace CFLite.TimeZone

open Framework Sorting

/-! ## The code -/

section Search

variable {α : Type} (comparator : α → α → CFComparisonResult) (element : α) (list : List α)

/-- The loop of `CFBSearch`, with `ptr` as an index. -/
def bSearchLoop (ptr count : Nat) : Option Nat :=
  if _h : 0 < count then
    let half := count / 2
    match list[ptr + half]? with
    | none => none
    | some probe =>
      match comparator element probe with
      | .eq => some (ptr + half)
      | .lt => bSearchLoop ptr half
      | .gt => bSearchLoop (ptr + half + 1) (half + count % 2 - 1)
  else some ptr
  termination_by count

/-- `CFBSearch` -/
def bSearch : Option Nat := bSearchLoop comparator element list 0 list.length

end Search

/-- The conversion of a whole number of seconds to an `int32_t`, defined in its range only. -/
def toInt32 (n : Int) : Option Int := if intMin ≤ n ∧ n ≤ intMax then some n else none

/-- `__CFBSearchTZPeriods` -/
def bSearchTZPeriods (periods : List TZPeriod) (time : Int) : Option Int := do
  let startTime ← toInt32 (time + 1)
  let idx ← bSearch compareTZPeriods (.init startTime none 0 false) periods
  let idx := if periods.length ≤ idx then periods.length else if 0 = idx then 1 else idx
  return (idx : Int) - 1

/-- `CFTimeZoneGetSecondsFromGMT` -/
def getSecondsFromGMT (periods : List TZPeriod) (time : Int) : Option Int := do
  let idx ← bSearchTZPeriods periods time
  if idx < 0 then none
  else
    let period ← periods[idx.toNat]?
    return period.gmtOffset

/-! ## The search -/

section Search

variable {α : Type} {comparator : α → α → CFComparisonResult} {element : α} {list : List α}

/-- The element at `i` is before the one that is looked for. -/
def BeforeAt (comparator : α → α → CFComparisonResult) (element : α) (list : List α) (i : Nat) : Prop :=
  ∃ probe, list[i]? = some probe ∧ comparator element probe = .gt

/-- The search ends at the first element that is not before the one that is looked for. -/
theorem bSearchLoop_spec (hne : ∀ probe, comparator element probe ≠ .eq) {ptr count : Nat}
    (hlength : ptr + count ≤ list.length) (hbefore : HoldsBefore (BeforeAt comparator element list) ptr (ptr + count)) :
    ∃ k, bSearchLoop comparator element list ptr count = some k ∧
      IsLowerBound (BeforeAt comparator element list) ptr (ptr + count) k := by
  induction count using Nat.strong_induction_on generalizing ptr with
  | _ count ih =>
    rw [bSearchLoop]
    by_cases hpos : 0 < count
    · have hhalf : count / 2 < count := Nat.div_lt_self hpos (by decide)
      generalize hcount : count / 2 = half at hhalf
      obtain ⟨probe, hprobe⟩ : ∃ probe, list[ptr + half]? = some probe := ⟨_, List.getElem?_eq_getElem (by omega)⟩
      have hat : BeforeAt comparator element list (ptr + half) ↔ comparator element probe = .gt := by
        refine ⟨fun ⟨probe', hprobe', h⟩ => ?_, fun h => ⟨probe, hprobe, h⟩⟩
        rwa [Option.some.inj (hprobe.symm.trans hprobe')]
      rw [dif_pos hpos]
      simp only [hprobe]
      cases hcmp : comparator element probe with
      | eq => exact absurd hcmp (hne probe)
      | lt =>
        obtain ⟨k, hk, hbound⟩ := ih half hhalf (show ptr + half ≤ list.length by omega)
          fun i j hi hij hj => hbefore i j hi hij (by omega)
        refine ⟨k, hk, hbound.of_not (by omega) fun h => ?_⟩
        rw [hat, hcmp] at h
        cases h
      | gt =>
        have hend : ptr + half + 1 + (half + count % 2 - 1) = ptr + count := by omega
        obtain ⟨k, hk, hbound⟩ := ih (half + count % 2 - 1) (by omega) (hend ▸ hlength)
          fun i j hi hij hj => hbefore i j (by omega) hij (hend ▸ hj)
        rw [hend] at hbound
        exact ⟨k, hk, hbound.of_holds hbefore (by omega) (by omega) (hat.mpr hcmp)⟩
    · obtain rfl : count = 0 := by omega
      rw [dif_neg hpos]
      exact ⟨ptr, rfl, le_rfl, le_rfl, fun j hj hlt => absurd hj (Nat.not_le.mpr hlt),
        fun h => absurd h (Nat.lt_irrefl _)⟩

end Search

/-! ## The period in force -/

/-- The last transition that is not after a time, or the first one. -/
def inForce (transitions : List Transition) (time : Int) : Option Transition :=
  (transitions.filter (·.itime ≤ time)).getLast?.or transitions.head?

/-- The transition at `i` is not after a time. -/
def StartedAt (transitions : List Transition) (time : Int) (i : Nat) : Prop :=
  ∃ t, transitions[i]? = some t ∧ t.itime ≤ time

theorem filter_eq_take {α : Type} {p : α → Bool} {l : List α} {k : Nat}
    (h : ∀ i x, l[i]? = some x → (p x = true ↔ i < k)) : l.filter p = l.take k := by
  induction l generalizing k with
  | nil => rw [List.filter_nil, List.take_nil]
  | cons x l ih =>
    have hx := h 0 x rfl
    cases k with
    | zero =>
      rw [List.take_zero, List.filter_eq_nil_iff]
      intro y hy hp
      obtain ⟨i, hi⟩ := List.mem_iff_getElem?.mp hy
      exact absurd ((h i y hi).mp hp) (Nat.not_lt_zero i)
    | succ k =>
      rw [List.take_succ_cons, List.filter_cons_of_pos (hx.mpr (Nat.succ_pos k)),
        ih fun i y hy => (h (i + 1) y hy).trans Nat.succ_lt_succ_iff]

theorem holdsBefore_startedAt {transitions : List Transition} (hsorted : transitions.Pairwise (·.itime ≤ ·.itime))
    (time : Int) : HoldsBefore (StartedAt transitions time) 0 transitions.length := by
  rintro i j - hij hj ⟨t, ht, hle⟩
  obtain ⟨hj', hget⟩ := List.getElem?_eq_some_iff.mp ht
  refine ⟨transitions[i], List.getElem?_eq_getElem (hij.trans_lt hj), ?_⟩
  rcases hij.lt_or_eq with hlt | rfl
  · have hle' := List.pairwise_iff_getElem.mp hsorted i j (hlt.trans hj) hj hlt
    rw [hget] at hle'
    exact hle'.trans hle
  · rwa [hget]

/-- The transition in force is the one before the first that is after the time. -/
theorem inForce_eq {transitions : List Transition} (hsorted : transitions.Pairwise (·.itime ≤ ·.itime)) {time : Int}
    {k : Nat} (hk : IsLowerBound (StartedAt transitions time) 0 transitions.length k) :
    inForce transitions time = transitions[k - 1]? := by
  have hfilter : transitions.filter (·.itime ≤ time) = transitions.take k := by
    refine filter_eq_take fun i t ht => ?_
    have hi := (List.getElem?_eq_some_iff.mp ht).1
    rw [decide_eq_true_eq, ← hk.iff (holdsBefore_startedAt hsorted time) (Nat.zero_le i) hi]
    refine ⟨fun h => ⟨t, ht, h⟩, fun ⟨t', ht', h⟩ => ?_⟩
    rwa [Option.some.inj (ht.symm.trans ht')]
  rw [inForce, hfilter]
  cases k with
  | zero =>
    rw [List.take_zero, List.getLast?_nil, Option.none_or, List.head?_eq_getElem?]
  | succ k =>
    have hlt : k < transitions.length := hk.le_high
    rw [List.getLast?_take, if_neg (Nat.succ_ne_zero k), Nat.add_sub_cancel, List.getElem?_eq_getElem hlt]
    rfl

section Periods

variable {bytes : List UInt8} {c : Counts} {transitions : List Transition} {time : Int}

theorem compareTZPeriods_ne_eq (period period' : TZPeriod) : compareTZPeriods period period' ≠ .eq := by
  rw [compareTZPeriods]
  split
  · simp
  · simp

/-- The comparator moves past the periods that have started one second before. -/
theorem beforeAt_iff (i : Nat) :
    BeforeAt compareTZPeriods (.init (time + 1) none 0 false) (transitions.map (Transition.period bytes c)) i ↔
      StartedAt transitions time i := by
  have hcmp : ∀ t : Transition,
      compareTZPeriods (.init (time + 1) none 0 false) (t.period bytes c) = .gt ↔ t.itime ≤ time := by
    intro t
    have hstart : compareTZPeriods (.init (time + 1) none 0 false) (t.period bytes c) =
        if time + 1 ≤ t.itime then .lt else .gt := rfl
    rw [hstart]
    by_cases hle : time + 1 ≤ t.itime
    · rw [if_pos hle]
      exact iff_of_false (fun h => nomatch h) (by omega)
    · rw [if_neg hle]
      exact iff_of_true rfl (by omega)
  constructor
  · rintro ⟨period, hget, hgt⟩
    rw [List.getElem?_map, Option.map_eq_some_iff] at hget
    obtain ⟨t, ht, rfl⟩ := hget
    exact ⟨t, ht, (hcmp t).mp hgt⟩
  · rintro ⟨t, ht, hle⟩
    exact ⟨t.period bytes c, by rw [List.getElem?_map, ht, Option.map_some], (hcmp t).mpr hle⟩

/-- The search gives the index before the first period that has not started. -/
theorem bSearchTZPeriods_eq (bytes : List UInt8) (c : Counts) (hsorted : transitions.Pairwise (·.itime ≤ ·.itime))
    (hne : transitions ≠ []) (hrange : intMin ≤ time + 1 ∧ time + 1 ≤ intMax) {k : Nat}
    (hk : IsLowerBound (StartedAt transitions time) 0 transitions.length k) :
    bSearchTZPeriods (transitions.map (Transition.period bytes c)) time = some ((k - 1 : Nat) : Int) := by
  have hat : BeforeAt compareTZPeriods (.init (time + 1) none 0 false) (transitions.map (Transition.period bytes c)) =
      StartedAt transitions time := funext fun i => propext (beforeAt_iff i)
  have hbefore : HoldsBefore (BeforeAt compareTZPeriods (.init (time + 1) none 0 false)
      (transitions.map (Transition.period bytes c))) 0 (0 + (transitions.map (Transition.period bytes c)).length) := by
    rw [hat, Nat.zero_add, List.length_map]
    exact holdsBefore_startedAt hsorted time
  obtain ⟨k', hsearch, hbound⟩ := bSearchLoop_spec (compareTZPeriods_ne_eq _) (Nat.zero_add _).le hbefore
  rw [hat, Nat.zero_add, List.length_map] at hbound
  obtain rfl := hbound.unique hk
  have hpos := List.length_pos_of_ne_nil hne
  have hle := hbound.le_high
  have hindex : (if transitions.length ≤ k' then transitions.length else if 0 = k' then 1 else k') - 1 = k' - 1 := by
    split_ifs <;> omega
  have hindexPos : 1 ≤ if transitions.length ≤ k' then transitions.length else if 0 = k' then 1 else k' := by
    split_ifs <;> omega
  have hidx : bSearch compareTZPeriods (.init (time + 1) none 0 false) (transitions.map (Transition.period bytes c)) =
      some k' := hsearch
  rw [bSearchTZPeriods, toInt32, if_pos hrange, Option.bind_eq_bind, Option.bind_some, hidx, List.length_map]
  dsimp only [Option.bind_eq_bind, Option.bind_some, Option.pure_def]
  rw [← hindex, Int.ofNat_sub hindexPos]
  rfl

/-- The zone gives what it stores of the offset of the transition in force. -/
theorem getSecondsFromGMT_eq (bytes : List UInt8) (c : Counts) (hsorted : transitions.Pairwise (·.itime ≤ ·.itime))
    (hne : transitions ≠ []) (time : Int) :
    getSecondsFromGMT (transitions.map (Transition.period bytes c)) time =
      if intMin ≤ time + 1 ∧ time + 1 ≤ intMax then
        (inForce transitions time).map fun t => (t.period bytes c).gmtOffset
      else none := by
  obtain ⟨k, hk⟩ := exists_isLowerBound (StartedAt transitions time) (Nat.zero_le transitions.length)
  rw [inForce_eq hsorted hk, getSecondsFromGMT]
  by_cases hrange : intMin ≤ time + 1 ∧ time + 1 ≤ intMax
  · rw [if_pos hrange, bSearchTZPeriods_eq bytes c hsorted hne hrange hk, Option.bind_eq_bind, Option.bind_some,
      if_neg (Int.not_lt.mpr (Int.natCast_nonneg _)), Int.toNat_natCast, List.getElem?_map]
    cases transitions[k - 1]? <;> rfl
  · rw [if_neg hrange, bSearchTZPeriods, toInt32, if_neg hrange]
    rfl

theorem inForce_mem {t : Transition} (h : inForce transitions time = some t) : t ∈ transitions := by
  rw [inForce, Option.or_eq_some_iff] at h
  rcases h with h | ⟨-, h⟩
  · exact List.mem_of_mem_filter (List.mem_of_getLast? h)
  · exact List.mem_of_head? h

theorem inForce_isSome (hne : transitions ≠ []) (time : Int) : ∃ t, inForce transitions time = some t := by
  obtain ⟨first, rest, rfl⟩ := List.exists_cons_of_ne_nil hne
  rw [← Option.isSome_iff_exists, inForce, Option.isSome_or, List.head?_cons, Option.isSome_some, Bool.or_true]

end Periods

/-! ## Zones from data -/

/-- The transitions whose periods the parser hands out. -/
def ZoneData (bytes : List UInt8) (handed : List Transition) : Prop :=
  ∃ c transitions, readCounts bytes = some (some c) ∧ leading bytes c c.cnt 0 = (true, transitions) ∧
    HandedOut transitions handed

theorem ZoneData.unique {bytes : List UInt8} {handed handed' : List Transition} (h : ZoneData bytes handed)
    (h' : ZoneData bytes handed') : handed = handed' := by
  obtain ⟨c, transitions, hcounts, hleading, hhanded⟩ := h
  obtain ⟨c', transitions', hcounts', hleading', hhanded'⟩ := h'
  obtain rfl := Option.some.inj (Option.some.inj (hcounts.symm.trans hcounts'))
  obtain rfl := (Prod.mk.inj (hleading.symm.trans hleading')).2
  exact hhanded.unique hhanded'

/-- The periods of a zone are those of its data. -/
theorem periods_of_parse {bytes : List UInt8} {out : ParseResult} (hparse : parseTimeZoneData bytes = some out)
    (hresult : out.result = true) :
    ∃ c handed, ZoneData bytes handed ∧ handed ≠ [] ∧ handed.Pairwise (·.itime ≤ ·.itime) ∧
      out.periods = handed.map (Transition.period bytes c) := by
  rcases readCounts_spec bytes with hreject | ⟨c, hcounts, hfits⟩
  · rw [parseTimeZoneData, hreject] at hparse
    obtain rfl := Option.some.inj hparse
    cases hresult
  rw [parse_of_counts hcounts] at hparse
  rcases parseLoop_spec hfits (stored_start bytes c) (Nat.zero_add c.cnt) with ⟨s, hloop, hstored, -⟩ | ⟨hloop, -⟩
  · rw [List.length_nil] at hloop hstored
    rw [hloop, Option.bind_some] at hparse
    rw [List.nil_append] at hstored
    cases hcomplete : (leading bytes c c.cnt 0).1 with
    | false =>
      rw [if_neg (ne_of_eq_of_ne hcomplete Bool.false_ne_true)] at hparse
      obtain rfl := Option.some.inj hparse
      cases hresult
    | true =>
      have hlength : (leading bytes c c.cnt 0).2.length = c.cnt := length_leading hcomplete
      have hcnt : 0 < c.cnt := by
        unfold Counts.cnt
        split
        · assumption
        · exact Nat.one_pos
      have hperiods : s.periods = (leading bytes c c.cnt 0).2.map (Transition.period bytes c) := by
        obtain ⟨rest, hrest, hsum⟩ := hstored.periods
        rw [hrest, List.eq_nil_of_length_eq_zero (show rest.length = 0 by omega), List.append_nil]
      have hpos : 0 < (leading bytes c c.cnt 0).2.length := hlength.symm ▸ hcnt
      obtain ⟨handed, retains, hhanded, hne, hsorted, hdrop, -⟩ :=
        dropAndSort_spec hstored.balanced (List.ne_nil_of_length_pos hpos)
      rw [if_pos hcomplete, hperiods, hdrop, Option.bind_some] at hparse
      obtain rfl := Option.some.inj hparse
      exact ⟨c, handed, ⟨c, _, hcounts, Prod.ext hcomplete rfl, hhanded⟩, hne, hsorted, rfl⟩
  · rw [show parseLoop bytes c c.cnt 0 _ = none from hloop] at hparse
    cases hparse

/-- The zone of this data gives, at a time, the offset in the data of the last
period that has started, or of the first one. -/
def LooksUp (bytes : List UInt8) (out : ParseResult) (time : Int) : Prop :=
  ∃ handed t, ZoneData bytes handed ∧ inForce handed time = some t ∧ getSecondsFromGMT out.periods time = some t.offset

/-- Exactly when the zone gives the offset of its data. -/
theorem looksUp_iff {bytes : List UInt8} {out : ParseResult} (hparse : parseTimeZoneData bytes = some out)
    (hresult : out.result = true) (time : Int) :
    LooksUp bytes out time ↔
      (intMin ≤ time + 1 ∧ time + 1 ≤ intMax) ∧
        ∀ handed t, ZoneData bytes handed → inForce handed time = some t → t.offset.natAbs < 2 ^ 16 := by
  obtain ⟨c, handed, hdata, hne, hsorted, hperiods⟩ := periods_of_parse hparse hresult
  obtain ⟨t, ht⟩ := inForce_isSome hne time
  have hseconds := getSecondsFromGMT_eq bytes c hsorted hne time
  rw [← hperiods, ht, Option.map_some] at hseconds
  have hgmt : (t.period bytes c).gmtOffset = t.offset ↔ t.offset.natAbs < 2 ^ 16 := gmtOffset_init _ _ _ _
  by_cases hrange : intMin ≤ time + 1 ∧ time + 1 ≤ intMax
  · rw [if_pos hrange] at hseconds
    constructor
    · rintro ⟨handed', t', hdata', ht', hout⟩
      refine ⟨hrange, fun handed'' t'' hdata'' ht'' => ?_⟩
      obtain rfl := hdata'.unique hdata
      obtain rfl := hdata''.unique hdata'
      obtain rfl := Option.some.inj (ht'.symm.trans ht)
      obtain rfl := Option.some.inj (ht''.symm.trans ht')
      exact hgmt.mp (Option.some.inj (hseconds.symm.trans hout))
    · rintro ⟨-, hoffset⟩
      exact ⟨handed, t, hdata, ht, hseconds.trans (congrArg some (hgmt.mpr (hoffset handed t hdata ht)))⟩
  · rw [if_neg hrange] at hseconds
    refine iff_of_false ?_ fun h => hrange h.1
    rintro ⟨_, _, -, -, hout⟩
    exact Option.some_ne_none _ (hout.symm.trans hseconds)

theorem ZoneData.offset_eq {bytes : List UInt8} {c : Counts} {t t' : Transition} {handed : List Transition} {time : Int}
    (hcounts : readCounts bytes = some (some c)) (hleading : (leading bytes c c.cnt 0).2 = [t])
    (hdata : ZoneData bytes handed) (ht' : inForce handed time = some t') : t'.offset = t.offset := by
  obtain ⟨c', transitions, hcounts', hleading', hhanded⟩ := hdata
  obtain rfl := Option.some.inj (Option.some.inj (hcounts.symm.trans hcounts'))
  rw [hleading'] at hleading
  have hmem := hhanded.mem (inForce_mem ht')
  rw [show transitions = [t] from hleading] at hmem
  rw [List.mem_singleton.mp hmem]

/-- A zone with one period, one hour from GMT. -/
def oneHour : List UInt8 := header 0 1 2 ++ [0, 0, 0x0E, 0x10, 0, 0] ++ [0x41, 0]

/-- A zone with one period, 65537 seconds from GMT. -/
def longOffset : List UInt8 := header 0 1 2 ++ [0, 1, 0, 1, 0, 0] ++ [0x41, 0]

theorem oneHour_parses : ∃ out, parseTimeZoneData oneHour = some out ∧ out.result = true := by
  have hresult : (parseTimeZoneData oneHour).map ParseResult.result = some true := by decide +kernel
  rw [Option.map_eq_some_iff] at hresult
  exact hresult

theorem looksUp_iff_oneHour : ∃ out, parseTimeZoneData oneHour = some out ∧ LooksUp oneHour out 0 := by
  obtain ⟨out, hparse, hresult⟩ := oneHour_parses
  refine ⟨out, hparse, (looksUp_iff hparse hresult 0).mpr ⟨by decide, fun handed t hdata ht => ?_⟩⟩
  have hcounts : readCounts oneHour = some (some ⟨0, 1, 2⟩) := by decide +kernel
  have hleading : (leading oneHour ⟨0, 1, 2⟩ 1 0).2 = [⟨intMin, 3600, false, 0⟩] := by decide +kernel
  rw [hdata.offset_eq hcounts hleading ht]
  decide

/-- The last second of the 32-bit range, and a zone with a long offset. -/
theorem not_looksUp_end_long :
    (∃ out, parseTimeZoneData oneHour = some out ∧ out.result = true ∧ ¬ LooksUp oneHour out (2 ^ 31 - 1)) ∧
    ∃ out, parseTimeZoneData longOffset = some out ∧ out.result = true ∧ ¬ LooksUp longOffset out 0 := by
  constructor
  · obtain ⟨out, hparse, hresult⟩ := oneHour_parses
    refine ⟨out, hparse, hresult, ?_⟩
    rintro ⟨_, _, -, -, hout⟩
    cases hout
  · have hgives : (parseTimeZoneData longOffset).map
        (fun out => (out.result, getSecondsFromGMT out.periods 0)) = some (true, some 1) := by decide +kernel
    obtain ⟨out, hparse, hout⟩ := Option.map_eq_some_iff.mp hgives
    obtain ⟨hresult, hseconds⟩ := Prod.mk.inj hout
    refine ⟨out, hparse, hresult, ?_⟩
    rintro ⟨handed, t, hdata, ht, hlooked⟩
    have hcounts : readCounts longOffset = some (some ⟨0, 1, 2⟩) := by decide +kernel
    have hleading : (leading longOffset ⟨0, 1, 2⟩ 1 0).2 = [⟨intMin, 65537, false, 0⟩] := by decide +kernel
    rw [hseconds, hdata.offset_eq hcounts hleading ht] at hlooked
    exact absurd hlooked (by decide)

end CFLite.TimeZone
