import CFLite.RunLoop.Timers
import Mathlib.Data.Rat.Floor
import Mathlib.Tactic.Linarith
import Mathlib.Tactic.Positivity

/-!
# Rescheduling a repeating timer

The end of `__CFRunLoopDoTimer` computes the next fire time of a timer from its
interval in seconds. A sum that overflows an `int64_t` has no result, and a loop
that does not end has none after any number of rounds.

* `skipRounds_spec`: the loop stops at the first time that is later than the
  current one, unless the sum overflows before;
* `nextFireTSR_of_reschedule`: the interval in ticks is the one that the timers
  of run loop modes have;
* `reschedules_iff`: the intervals and times for which the next fire time is
  right.
-/

namespace CFLite.RunLoop

/-! ## The code -/

/-- A `CFTimeInterval`, a double. -/
inductive CFTimeInterval
  | nan
  | negInfinite
  | infinite
  | value (q : ℚ)
  deriving DecidableEq

/-- The `_interval` of a timer that `CFRunLoopTimerCreate` makes. -/
def timerCreateInterval : CFTimeInterval → CFTimeInterval
  | .negInfinite => .value 0
  | .value q => .value (if q < 0 then 0 else q)
  | interval => interval

/-- `TIMER_INTERVAL_LIMIT` -/
def timerIntervalLimit : ℚ := 504911232

/-- `__CFTimeIntervalToTSR` of a finite interval, for a rate that is not negative. -/
def timeIntervalToTSR (rate ti : ℚ) : Int :=
  if ti * rate > ((llongMax / 2 : Int) : ℚ) then llongMax / 2 else ⌊ti * rate⌋

/-- `intervalTSR` in `__CFRunLoopDoTimer`. The conversion of no number has no result. -/
def intervalTSR (rate : ℚ) : CFTimeInterval → Option Int
  | .nan => none
  | .negInfinite => some 0
  | .infinite => some (timeIntervalToTSR rate timerIntervalLimit)
  | .value q =>
    some (if q ≤ 0 then 0
      else if timerIntervalLimit < q then timeIntervalToTSR rate timerIntervalLimit
      else timeIntervalToTSR rate q)

/-- `while (nextFireTSR <= currentTSR) nextFireTSR += intervalTSR;`, if it ends
after at most `rounds` rounds. -/
def skipRounds (intervalTSR currentTSR : Int) : (rounds : Nat) → (nextFireTSR : Int) → Option Int
  | 0, nextFireTSR => if nextFireTSR ≤ currentTSR then none else some nextFireTSR
  | rounds + 1, nextFireTSR =>
    if nextFireTSR ≤ currentTSR then
      if nextFireTSR + intervalTSR ≤ llongMax then
        skipRounds intervalTSR currentTSR rounds (nextFireTSR + intervalTSR)
      else none
    else some nextFireTSR

/-- The next fire time of a timer with this `_interval`. -/
def reschedule (rate : ℚ) (interval : CFTimeInterval) (oldFireTSR currentTSR : Int) (rounds : Nat) : Option Int :=
  (intervalTSR rate interval).bind fun intervalTSR =>
    if llongMax - intervalTSR ≤ oldFireTSR then some llongMax
    else skipRounds intervalTSR currentTSR rounds oldFireTSR

/-- `doInvalidate` in `__CFRunLoopDoTimer`. -/
def doInvalidate (interval : CFTimeInterval) : Bool := interval = .value 0

/-! ## The loop -/

variable {iv cur next : Int}

/-- Without an interval the loop does not end. -/
theorem skipRounds_zero (hle : next ≤ cur) (rounds : Nat) : skipRounds 0 cur rounds next = none := by
  induction rounds with
  | zero => exact if_pos hle
  | succ rounds ih => rw [skipRounds, if_pos hle, Int.add_zero, ih, ite_self]

/-- The loop does nothing past the current time. -/
theorem skipRounds_past (hlt : cur < next) (rounds : Nat) : skipRounds iv cur rounds next = some next := by
  cases rounds with
  | zero => exact if_neg (not_le.mpr hlt)
  | succ rounds => exact if_neg (not_le.mpr hlt)

theorem add_succ_mul (next iv : Int) (j : Nat) : next + ((j + 1 : Nat) : Int) * iv = next + iv + j * iv := by
  rw [Nat.cast_succ, Int.add_mul, Int.one_mul, Int.add_comm _ iv, Int.add_assoc]

/-- The loop goes on for a number of rounds. -/
theorem skipRounds_add {k : Nat} (hbefore : ∀ j < k, next + j * iv ≤ cur) (hroom : next + k * iv ≤ llongMax)
    (hiv : 0 ≤ iv) (rounds : Nat) : skipRounds iv cur (rounds + k) next = skipRounds iv cur rounds (next + k * iv) := by
  induction k generalizing next with
  | zero => rw [Nat.cast_zero, Int.zero_mul, Int.add_zero, Nat.add_zero]
  | succ k ih =>
    have hfirst := hbefore 0 (Nat.succ_pos k)
    rw [Nat.cast_zero, Int.zero_mul, Int.add_zero] at hfirst
    rw [add_succ_mul] at hroom
    have hpos : 0 ≤ (k : Int) * iv := Int.mul_nonneg (Int.natCast_nonneg k) hiv
    rw [← Nat.add_assoc, skipRounds, if_pos hfirst, if_pos (by omega), add_succ_mul]
    exact ih (fun j hj => add_succ_mul next iv j ▸ hbefore (j + 1) (Nat.succ_lt_succ hj)) hroom

/-- `k` is the least number of intervals that lead past the current time. -/
structure LeastPast (iv cur next : Int) (k : Nat) : Prop where
  past : cur < next + k * iv
  before : ∀ j < k, next + j * iv ≤ cur

theorem LeastPast.unique {k k' : Nat} (h : LeastPast iv cur next k) (h' : LeastPast iv cur next k') : k = k' := by
  rcases lt_trichotomy k k' with hlt | heq | hlt
  · exact absurd (h'.before k hlt) (not_le.mpr h.past)
  · exact heq
  · exact absurd (h.before k' hlt) (not_le.mpr h'.past)

theorem leastPast_zero (h : cur < next) : LeastPast iv cur next 0 where
  past := by rwa [Nat.cast_zero, Int.zero_mul, Int.add_zero]
  before j hj := absurd hj (Nat.not_lt_zero j)

theorem LeastPast.succ {k : Nat} (hle : next ≤ cur) (h : LeastPast iv cur (next + iv) k) :
    LeastPast iv cur next (k + 1) where
  past := by
    rw [add_succ_mul]
    exact h.past
  before
    | 0, _ => by rwa [Nat.cast_zero, Int.zero_mul, Int.add_zero]
    | j + 1, hj => by
      rw [add_succ_mul]
      exact h.before j (Nat.lt_of_succ_lt_succ hj)

/-- The number of rounds that the loop needs. -/
def roundsNeeded (iv cur next : Int) : Nat := if next ≤ cur then ((cur - next) / iv + 1).toNat else 0

theorem leastPast_roundsNeeded (hiv : 1 ≤ iv) (cur next : Int) : LeastPast iv cur next (roundsNeeded iv cur next) := by
  rw [roundsNeeded]
  by_cases hle : next ≤ cur
  · have hquotient : 0 ≤ (cur - next) / iv := Int.ediv_nonneg (by omega) (by omega)
    rw [if_pos hle]
    refine ⟨?_, fun j hj => ?_⟩
    · have hlt := Int.lt_ediv_add_one_mul_self (cur - next) (by omega : 0 < iv)
      rw [Int.toNat_of_nonneg (by omega)]
      omega
    · have hj' : (j : Int) ≤ (cur - next) / iv := by omega
      have hmul := (Int.le_ediv_iff_mul_le (by omega : 0 < iv)).mp hj'
      omega
  · rw [if_neg hle]
    exact leastPast_zero (not_le.mp hle)

theorem skipRounds_eq_some_past {rounds : Nat} {v : Int} (hlt : cur < next)
    (h : skipRounds iv cur rounds next = some v) :
    ∃ k : Nat, LeastPast iv cur next k ∧ v = next + k * iv ∧ (0 < k → v ≤ llongMax) := by
  rw [skipRounds_past hlt] at h
  obtain rfl := Option.some.inj h
  exact ⟨0, leastPast_zero hlt, by rw [Nat.cast_zero, Int.zero_mul, Int.add_zero],
    fun hpos => absurd hpos (Nat.lt_irrefl 0)⟩

/-- The loop stops at the first time that is later than the current one, and has
not overflowed on the way. -/
theorem skipRounds_eq_some {rounds : Nat} {v : Int} (h : skipRounds iv cur rounds next = some v) :
    ∃ k : Nat, LeastPast iv cur next k ∧ v = next + k * iv ∧ (0 < k → v ≤ llongMax) := by
  induction rounds generalizing next with
  | zero =>
    by_cases hle : next ≤ cur
    · rw [skipRounds, if_pos hle] at h
      cases h
    · exact skipRounds_eq_some_past (not_le.mp hle) h
  | succ rounds ih =>
    by_cases hle : next ≤ cur
    · rw [skipRounds, if_pos hle] at h
      by_cases hroom : next + iv ≤ llongMax
      · rw [if_pos hroom] at h
        obtain ⟨k, hk, hv, hmax⟩ := ih h
        refine ⟨k + 1, hk.succ hle, hv.trans (add_succ_mul next iv k).symm, fun _ => ?_⟩
        cases k with
        | zero => rwa [hv, Nat.cast_zero, Int.zero_mul, Int.add_zero]
        | succ k => exact hmax (Nat.succ_pos k)
      · rw [if_neg hroom] at h
        cases h
    · exact skipRounds_eq_some_past (not_le.mp hle) h

/-- The loop ends if and only if the sum does not overflow. -/
theorem skipRounds_spec (hiv : 1 ≤ iv) (cur next v : Int) :
    (∃ rounds, skipRounds iv cur rounds next = some v) ↔
      v = next + roundsNeeded iv cur next * iv ∧ (next ≤ cur → v ≤ llongMax) := by
  have hneeded := leastPast_roundsNeeded hiv cur next
  constructor
  · rintro ⟨rounds, h⟩
    obtain ⟨k, hk, hv, hmax⟩ := skipRounds_eq_some h
    obtain rfl := hk.unique hneeded
    refine ⟨hv, fun hle => hmax (Nat.pos_of_ne_zero fun hzero => ?_)⟩
    rw [hzero] at hneeded
    have hpast := hneeded.past
    rw [Nat.cast_zero, Int.zero_mul, Int.add_zero] at hpast
    exact absurd hle (not_le.mpr hpast)
  · rintro ⟨hv, hmax⟩
    by_cases hle : next ≤ cur
    · refine ⟨0 + roundsNeeded iv cur next, ?_⟩
      rw [skipRounds_add hneeded.before (hv ▸ hmax hle) (by omega), ← hv, skipRounds_past (hv ▸ hneeded.past)]
    · obtain hzero : roundsNeeded iv cur next = 0 := if_neg hle
      rw [hzero, Nat.cast_zero, Int.zero_mul, Int.add_zero] at hv
      exact ⟨0, by rw [hv]; exact skipRounds_past (not_le.mp hle) 0⟩

/-- The loop is the one that the timers of run loop modes have. -/
theorem skipPast_of_skipRounds {rounds : Nat} {v : Int} (hiv : 1 ≤ iv) (h : skipRounds iv cur rounds next = some v) :
    skipPast iv cur next = some v := by
  induction rounds generalizing next with
  | zero =>
    by_cases hle : next ≤ cur
    · rw [skipRounds, if_pos hle] at h
      cases h
    · rw [skipRounds_past (not_le.mp hle)] at h
      rwa [skipPast, if_neg hle]
  | succ rounds ih =>
    by_cases hle : next ≤ cur
    · rw [skipRounds, if_pos hle] at h
      rw [skipPast, if_pos hle, if_pos (by omega)]
      by_cases hroom : next + iv ≤ llongMax
      · rw [if_pos hroom] at h
        exact ih h
      · rw [if_neg hroom] at h
        cases h
    · rw [skipRounds_past (not_le.mp hle)] at h
      rwa [skipPast, if_neg hle]

/-! ## The interval -/

theorem timeIntervalToTSR_nonneg {rate ti : ℚ} (hrate : 0 < rate) (hti : 0 ≤ ti) : 0 ≤ timeIntervalToTSR rate ti := by
  rw [timeIntervalToTSR]
  split
  · decide
  · exact Int.floor_nonneg.mpr (by positivity)

/-- An interval in ticks is not negative. -/
theorem intervalTSR_nonneg {rate : ℚ} (hrate : 0 < rate) {interval : CFTimeInterval} {ticks : Int}
    (h : intervalTSR rate interval = some ticks) : 0 ≤ ticks := by
  have hlimit : (0 : ℚ) ≤ timerIntervalLimit := by norm_num [timerIntervalLimit]
  cases interval with
  | nan => cases h
  | negInfinite => exact (Option.some.inj h).le
  | infinite => exact Option.some.inj h ▸ timeIntervalToTSR_nonneg hrate hlimit
  | value q =>
    obtain rfl := Option.some.inj h
    split
    · exact le_rfl
    · split
      · exact timeIntervalToTSR_nonneg hrate hlimit
      · exact timeIntervalToTSR_nonneg hrate (by linarith)

/-- The next fire time is the one that the timers of run loop modes get for the
interval in ticks. -/
theorem nextFireTSR_of_reschedule {rate : ℚ} {interval : CFTimeInterval} {ticks old v : Int} {rounds : Nat}
    (hticks : intervalTSR rate interval = some ticks) (hpos : 1 ≤ ticks)
    (h : reschedule rate interval old cur rounds = some v) : nextFireTSR (some ticks) cur old = some v := by
  rw [reschedule, hticks, Option.bind_some] at h
  rw [nextFireTSR, Option.getD_some]
  by_cases hfar : llongMax - ticks ≤ old
  · rwa [if_pos hfar] at h ⊢
  · rw [if_neg hfar] at h ⊢
    exact skipPast_of_skipRounds hpos h

/-! ## The next fire time -/

/-- The timer, if it is still valid after its callout, gets a next fire time; and
with an interval of at least one tick that is the least one in phase with the old
one that is later than the current time, or `LLONG_MAX` if that is less. -/
def Reschedules (rate : ℚ) (interval : CFTimeInterval) (old cur : Int) : Prop :=
  doInvalidate interval = false → ∃ rounds v, reschedule rate interval old cur rounds = some v ∧
    ∀ ticks, intervalTSR rate interval = some ticks → 1 ≤ ticks →
      ∃ k : Nat, LeastPast ticks cur old k ∧ v = min (old + k * ticks) llongMax

/-- What an interval in ticks and the two times have to be. -/
def Schedulable (ticks old cur : Int) : Prop :=
  if ticks = 0 then cur < old ∨ llongMax ≤ old
  else if llongMax - ticks ≤ old then old ≤ cur ∨ llongMax ≤ old
  else old ≤ cur → old + ((cur - old) / ticks + 1) * ticks ≤ llongMax

instance (ticks old cur : Int) : Decidable (Schedulable ticks old cur) :=
  inferInstanceAs (Decidable (if ticks = 0 then _ ∨ _ else if llongMax - ticks ≤ old then _ ∨ _ else _ → _))

/-- An interval of less than a tick. -/
theorem reschedule_zero {rate : ℚ} {interval : CFTimeInterval} (hticks : intervalTSR rate interval = some 0)
    (old cur : Int) :
    (∃ rounds v, reschedule rate interval old cur rounds = some v) ↔ cur < old ∨ llongMax ≤ old := by
  rw [← not_le]
  simp only [reschedule, hticks, Option.bind_some, Int.sub_zero]
  by_cases hfar : llongMax ≤ old
  · simp only [if_pos hfar]
    exact iff_of_true ⟨0, _, rfl⟩ (.inr hfar)
  · simp only [if_neg hfar]
    by_cases hle : old ≤ cur
    · refine iff_of_false ?_ (not_or.mpr ⟨not_not_intro hle, hfar⟩)
      rintro ⟨rounds, v, h⟩
      rw [skipRounds_zero hle] at h
      cases h
    · exact iff_of_true ⟨0, old, skipRounds_past (not_le.mp hle) 0⟩ (.inl hle)

/-- An interval of at least a tick. -/
theorem reschedule_pos {rate : ℚ} {interval : CFTimeInterval} {ticks : Int} (hpos : 1 ≤ ticks)
    (hticks : intervalTSR rate interval = some ticks) (old cur : Int) :
    (∃ rounds v, reschedule rate interval old cur rounds = some v ∧
      ∃ k : Nat, LeastPast ticks cur old k ∧ v = min (old + k * ticks) llongMax) ↔ Schedulable ticks old cur := by
  have hneeded := leastPast_roundsNeeded hpos cur old
  simp only [reschedule, hticks, Option.bind_some]
  rw [Schedulable, if_neg (by omega)]
  by_cases hfar : llongMax - ticks ≤ old
  · simp only [if_pos hfar]
    have hreach : llongMax ≤ old + roundsNeeded ticks cur old * ticks ↔ old ≤ cur ∨ llongMax ≤ old := by
      rcases Nat.eq_zero_or_pos (roundsNeeded ticks cur old) with hzero | hmore
      · rw [hzero] at hneeded ⊢
        have hpast := hneeded.past
        rw [Nat.cast_zero, Int.zero_mul, Int.add_zero] at hpast ⊢
        exact ⟨.inr, fun h => h.resolve_left (not_le.mpr hpast)⟩
      · have hle := hneeded.before 0 hmore
        rw [Nat.cast_zero, Int.zero_mul, Int.add_zero] at hle
        have hmul : 1 * ticks ≤ roundsNeeded ticks cur old * ticks :=
          Int.mul_le_mul_of_nonneg_right (by omega) (by omega)
        exact iff_of_true (by omega) (.inl hle)
    rw [← hreach]
    constructor
    · rintro ⟨-, v, hv, k, hk, hmin⟩
      obtain rfl := hk.unique hneeded
      rw [← Option.some.inj hv] at hmin
      exact min_eq_right_iff.mp hmin.symm
    · intro h
      exact ⟨0, llongMax, rfl, _, hneeded, (min_eq_right h).symm⟩
  · simp only [if_neg hfar]
    have hcount : old ≤ cur → ((roundsNeeded ticks cur old : Nat) : Int) = (cur - old) / ticks + 1 := by
      intro hle
      have hquotient : 0 ≤ (cur - old) / ticks := Int.ediv_nonneg (by omega) (by omega)
      rw [roundsNeeded, if_pos hle, Int.toNat_of_nonneg (by omega)]
    constructor
    · rintro ⟨rounds, v, hv, -⟩ hle
      obtain ⟨rfl, hmax⟩ := (skipRounds_spec hpos cur old v).mp ⟨rounds, hv⟩
      rw [← hcount hle]
      exact hmax hle
    · intro hroom
      by_cases hle : old ≤ cur
      · have hmax := hroom hle
        rw [← hcount hle] at hmax
        obtain ⟨rounds, hv⟩ := (skipRounds_spec hpos cur old _).mpr ⟨rfl, fun _ => hmax⟩
        exact ⟨rounds, _, hv, _, hneeded, (min_eq_left hmax).symm⟩
      · refine ⟨0, old, skipRounds_past (not_le.mp hle) 0, 0, leastPast_zero (not_le.mp hle), ?_⟩
        rw [Nat.cast_zero, Int.zero_mul, Int.add_zero, min_eq_left (by omega)]

/-- Exactly when the next fire time is right. -/
theorem reschedules_iff {rate : ℚ} (hrate : 0 < rate) (interval : CFTimeInterval) (old cur : Int) :
    Reschedules rate (timerCreateInterval interval) old cur ↔
      (doInvalidate (timerCreateInterval interval) = false →
        ∃ ticks, intervalTSR rate (timerCreateInterval interval) = some ticks ∧ Schedulable ticks old cur) := by
  refine forall_congr' fun _ => ?_
  generalize timerCreateInterval interval = stored
  cases hticks : intervalTSR rate stored with
  | none =>
    refine iff_of_false ?_ ?_
    · rintro ⟨rounds, v, h, -⟩
      rw [reschedule, hticks] at h
      cases h
    · rintro ⟨ticks, h, -⟩
      cases h
  | some ticks =>
    have hschedulable : (∃ t, some ticks = some t ∧ Schedulable t old cur) ↔ Schedulable ticks old cur :=
      ⟨fun ⟨t, ht, h⟩ => Option.some.inj ht ▸ h, fun h => ⟨ticks, rfl, h⟩⟩
    rw [hschedulable]
    rcases (intervalTSR_nonneg hrate hticks).eq_or_lt with rfl | hpos
    · rw [Schedulable, if_pos rfl, ← reschedule_zero hticks]
      refine exists_congr fun rounds => exists_congr fun v => and_iff_left fun t ht hone => ?_
      rw [← Option.some.inj ht] at hone
      exact absurd hone (by decide)
    · rw [← reschedule_pos hpos hticks]
      refine exists_congr fun rounds => exists_congr fun v => and_congr_right fun _ => ?_
      exact ⟨fun h => h ticks rfl hpos, fun h t ht _ => Option.some.inj ht ▸ h⟩

/-- The ticks of a timer's interval, at a billion a second. -/
theorem intervalTSR_second : intervalTSR 1000000000 (timerCreateInterval (.value 1)) = some 1000000000 := by
  decide +kernel

theorem reschedules_iff_second :
    (0 : ℚ) < 1000000000 ∧ Reschedules 1000000000 (timerCreateInterval (.value 1)) 0 5 := by
  refine ⟨by norm_num, (reschedules_iff (by norm_num) _ 0 5).mpr fun _ => ⟨_, intervalTSR_second, by decide⟩⟩

/-- Half a tick, and a second when the current time is close to `LLONG_MAX`. -/
theorem not_reschedules_half_late :
    ¬ Reschedules 1000000000 (timerCreateInterval (.value (1 / 2000000000))) 0 0 ∧
    ¬ Reschedules 1000000000 (timerCreateInterval (.value 1)) 0 llongMax := by
  constructor
  · intro h
    have hticks : intervalTSR 1000000000 (timerCreateInterval (.value (1 / 2000000000))) = some 0 := by decide +kernel
    obtain ⟨rounds, v, hv, -⟩ := h (by decide +kernel)
    exact absurd ((reschedule_zero hticks 0 0).mp ⟨rounds, v, hv⟩) (by decide)
  · intro h
    obtain ⟨rounds, v, hv, hphase⟩ := h (by decide +kernel)
    have hone : (1 : Int) ≤ 1000000000 := by decide
    have hroom := (reschedule_pos hone intervalTSR_second 0 llongMax).mp
      ⟨rounds, v, hv, hphase _ intervalTSR_second hone⟩
    exact absurd hroom (by decide)

end CFLite.RunLoop
