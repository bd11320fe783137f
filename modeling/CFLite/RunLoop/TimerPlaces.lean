import CFLite.Framework.SortedByKey
import CFLite.RunLoop.Timers

/-!
# The place of a timer, and the next timer

What the functions that search and change one mode's array do.

* `insertionIndex_sorted`: in an array in order, the insertion index is the
  number of timers that are not later;
* `port_armNextTimerInMode`: the next timer is the earliest that is not firing;
* `insertTimer_placed`, `repositionTimerInMode_replaced`: a timer is entered
  into, and moved within, one mode.
-/

set_option linter.unusedSectionVars false

namespace CFLite.RunLoop

open Framework RunLoops

variable {T R N : Type} [DecidableEq T] [DecidableEq R] [DecidableEq N] {s s' s₁ : RunLoops T R N}
  {rl rl' : R} {m m' : N} {rlt : T} {timer : Timer R N} {timers : List T} {settings : Settings} {now : Int}

/-! ## The insertion index -/

theorem firstAdd_eq {cnt : Nat} (h : cnt < 2 ^ 29) : firstAdd cnt = some (2 ^ (flsl cnt + 1)) := by
  have hbits : flsl cnt ≤ 29 := flsl_le_iff.mpr h
  have hpow : (2 : Int) ^ flsl cnt ≤ 2 ^ 29 := by exact_mod_cast Nat.pow_le_pow_right (by decide) hbits
  rw [firstAdd, oneShl_eq (by omega), if_pos ⟨by omega, by omega⟩, pow_succ]
  norm_cast

theorem firstAdd_eq_some {cnt add : Nat} (h : firstAdd cnt = some add) : add = 2 ^ (flsl cnt + 1) := by
  unfold firstAdd at h
  split at h
  · rename_i hadd
    rw [oneShl_eq hadd.1, Option.some_inj] at h
    rw [← h, pow_succ]
    norm_cast
  · cases h

/-- A test of the timer at `i`, if there is one. -/
theorem any_notLater {fireTSR : T → Int} {array : List T} (hs : SortedBy fireTSR array) (i : Nat) :
    (array[i]?).any (fun item => fireTSR item ≤ fireTSR rlt) =
      decide (i < notAfter fireTSR array (fireTSR rlt)) := by
  cases hi : array[i]? with
  | none =>
    have hle : notAfter fireTSR array (fireTSR rlt) ≤ i :=
      notAfter_le_length.trans (List.getElem?_eq_none_iff.mp hi)
    simpa using hle
  | some item => simp [hs.lt_notAfter_iff hi]

/-- The loop keeps `idx` at a timer that is not later, or at the start, and the
number of timers that are not later within `add` of it. -/
theorem probe_eq {fireTSR : T → Int} {array : List T} (hs : SortedBy fireTSR array) {k idx : Nat}
    (hlow : idx = 0 ∨ idx < notAfter fireTSR array (fireTSR rlt))
    (hhigh : notAfter fireTSR array (fireTSR rlt) ≤ idx + 2 ^ k) :
    probe fireTSR array rlt (2 ^ k) idx = notAfter fireTSR array (fireTSR rlt) := by
  induction k generalizing idx with
  | zero =>
    rw [probe, any_notLater hs]
    by_cases hlt : idx < notAfter fireTSR array (fireTSR rlt)
    · simp [hlt]
      omega
    · simp [hlt]
      omega
  | succ k ih =>
    have hhalf : 2 ^ (k + 1) / 2 = 2 ^ k := by rw [pow_succ]; omega
    have hpos : 0 < 2 ^ k := Nat.two_pow_pos k
    rw [pow_succ] at hhigh
    rw [probe, any_notLater hs, hhalf]
    by_cases hlt : idx + 2 ^ k < notAfter fireTSR array (fireTSR rlt)
    · simp only [hlt, decide_true, if_true, hpos]
      exact ih (.inr hlt) (by omega)
    · simp only [hlt, decide_false, Bool.false_eq_true, if_false, hpos, if_true]
      exact ih hlow (by omega)

/-- In an array in order, the insertion index is the number of timers that are
not later. -/
theorem insertionIndex_eq_some {fireTSR : T → Int} {array : List T} {n : Nat} (hs : SortedBy fireTSR array)
    (h : insertionIndexInTimerArray fireTSR array rlt = some n) : n = notAfter fireTSR array (fireTSR rlt) := by
  have hle : notAfter fireTSR array (fireTSR rlt) ≤ array.length := notAfter_le_length
  rw [insertionIndexInTimerArray] at h
  split at h
  · obtain rfl := Option.some_inj.mp h
    omega
  rename_i hpos
  split at h
  · rename_i hlast
    rw [any_notLater hs, decide_eq_true_eq] at hlast
    obtain rfl := Option.some_inj.mp h
    omega
  split at h
  · rename_i hfirst
    obtain rfl := Option.some_inj.mp h
    obtain ⟨first, rest, rfl⟩ := List.exists_cons_of_length_pos (Nat.pos_of_ne_zero hpos)
    exact (hs.notAfter_cons_of_lt (by simpa using hfirst.2)).symm
  · obtain ⟨add, hadd, rfl⟩ := Option.map_eq_some_iff.mp h
    obtain rfl := firstAdd_eq_some hadd
    have hbits : array.length < 2 ^ flsl array.length := flsl_le_iff.mp le_rfl
    have hmore : 2 ^ flsl array.length ≤ 2 ^ (flsl array.length + 1) := Nat.pow_le_pow_right (by decide) (Nat.le_succ _)
    exact probe_eq hs (.inl rfl) (by rw [Nat.zero_add]; exact hle.trans (hbits.le.trans hmore))

/-- The first step fits an `int` in an array of fewer than `2 ^ 29` timers. -/
theorem insertionIndex_isSome (fireTSR : T → Int) (rlt : T) {array : List T} (h : array.length < 2 ^ 29) :
    (insertionIndexInTimerArray fireTSR array rlt).isSome := by
  rw [insertionIndexInTimerArray, firstAdd_eq h]
  split
  · rfl
  split
  · rfl
  split <;> rfl

theorem insertionIndex_sorted {fireTSR : T → Int} {array : List T} (hs : SortedBy fireTSR array)
    (h : array.length < 2 ^ 29) :
    insertionIndexInTimerArray fireTSR array rlt = some (notAfter fireTSR array (fireTSR rlt)) := by
  obtain ⟨n, hn⟩ := Option.isSome_iff_exists.mp (insertionIndex_isSome fireTSR rlt h)
  rw [hn, insertionIndex_eq_some hs hn]

/-! ## Timers, arrays and ports -/

/-- A mode other than `m` of `rl`. -/
def Elsewhere (rl : R) (m : N) (rl' : R) (m' : N) : Prop := ¬ (rl' = rl ∧ m' = m)

@[simp] theorem timerArray_setTimer : (s.setTimer rlt timer).timerArray rl m = s.timerArray rl m := rfl

@[simp] theorem timersIn_setTimer : (s.setTimer rlt timer).timersIn rl m = s.timersIn rl m := rfl

@[simp] theorem port_setTimer : (s.setTimer rlt timer).port rl m = s.port rl m := rfl

@[simp] theorem mode_setTimer : (s.setTimer rlt timer).mode = s.mode := rfl

@[simp] theorem timer_setTimer_self : (s.setTimer rlt timer).timer rlt = timer := Function.update_self ..

theorem timer_setTimer_of_ne {t : T} (h : t ≠ rlt) : (s.setTimer rlt timer).timer t = s.timer t :=
  Function.update_of_ne h ..

@[simp] theorem timer_setTimers : (s.setTimers rl m timers).timer = s.timer := rfl

@[simp] theorem timer_setPort {arming : Option (Arming T)} : (s.setPort rl m arming).timer = s.timer := rfl

theorem mode_setMode_self {mode : Mode T} : (s.setMode rl m mode).mode rl m = some mode := by simp [setMode]

theorem mode_setMode_of_elsewhere {mode : Mode T} (h : Elsewhere rl m rl' m') :
    (s.setMode rl m mode).mode rl' m' = s.mode rl' m' := by
  by_cases hrl : rl' = rl
  · subst hrl
    have hm : m' ≠ m := fun hm => h ⟨rfl, hm⟩
    simp [setMode, hm]
  · simp [setMode, hrl]

@[simp] theorem timerArray_setTimers_self : (s.setTimers rl m timers).timerArray rl m = some timers := by
  simp [timerArray, setTimers, mode_setMode_self]

@[simp] theorem timersIn_setTimers_self : (s.setTimers rl m timers).timersIn rl m = timers := by
  simp [timersIn]

@[simp] theorem port_setTimers_self : (s.setTimers rl m timers).port rl m = s.port rl m := by
  simp [port, setTimers, mode_setMode_self]

@[simp] theorem timerArray_setPort_self {arming : Option (Arming T)} :
    (s.setPort rl m arming).timerArray rl m = s.timerArray rl m := by
  simp [timerArray, setPort, mode_setMode_self]

@[simp] theorem port_setPort_self {arming : Option (Arming T)} : (s.setPort rl m arming).port rl m = arming := by
  simp [port, setPort, mode_setMode_self]

theorem timersIn_eq_of_mode (h : s'.mode rl m = s.mode rl m) : s'.timersIn rl m = s.timersIn rl m := by
  simp [timersIn, timerArray, h]

theorem port_eq_of_mode (h : s'.mode rl m = s.mode rl m) : s'.port rl m = s.port rl m := by
  simp [port, h]

/-! ## The next timer -/

/-- What the port of a mode would be set to for the next timer. -/
def nextArming (settings : Settings) (now : Int) (s : RunLoops T R N) (rl : R) (rlm : N) : Option (Arming T) :=
  ((s.timersIn rl rlm).find? fun t => !(s.timer t).isFiring).bind fun t =>
    settings.platform.arming settings.tenus now t (s.timer t).fireTSR

theorem nextArming_congr (hmode : s'.timersIn rl m = s.timersIn rl m)
    (htimer : ∀ t ∈ s.timersIn rl m,
      (s'.timer t).isFiring = (s.timer t).isFiring ∧ (s'.timer t).fireTSR = (s.timer t).fireTSR) :
    nextArming settings now s' rl m = nextArming settings now s rl m := by
  rw [nextArming, nextArming, hmode]
  generalize s.timersIn rl m = timers at htimer
  induction timers with
  | nil => rfl
  | cons t timers ih =>
    obtain ⟨⟨hfiring, htsr⟩, hrest⟩ := List.forall_mem_cons.mp htimer
    rw [List.find?_cons, List.find?_cons, hfiring]
    split
    · rw [Option.bind_some, Option.bind_some, htsr]
    · exact ih hrest

theorem armNextTimerInMode_eq : armNextTimerInMode settings now s rl m =
    (match nextArming settings now s rl m with
      | some arming => s.setPort rl m (some arming)
      | none => s) := by
  rw [armNextTimerInMode, nextArming]
  cases (s.timersIn rl m).find? fun t => !(s.timer t).isFiring with
  | none => rfl
  | some t => rfl

@[simp] theorem timer_armNextTimerInMode : (armNextTimerInMode settings now s rl m).timer = s.timer := by
  rw [armNextTimerInMode_eq]
  split <;> rfl

@[simp] theorem timerArray_armNextTimerInMode :
    (armNextTimerInMode settings now s rl m).timerArray rl m = s.timerArray rl m := by
  rw [armNextTimerInMode_eq]
  split <;> simp

@[simp] theorem nextArming_armNextTimerInMode :
    nextArming settings now (armNextTimerInMode settings now s rl m) rl m = nextArming settings now s rl m :=
  nextArming_congr (by simp [timersIn]) (by simp)

theorem mode_armNextTimerInMode (h : Elsewhere rl m rl' m') :
    (armNextTimerInMode settings now s rl m).mode rl' m' = s.mode rl' m' := by
  rw [armNextTimerInMode_eq]
  split
  · exact mode_setMode_of_elsewhere h
  · rfl

theorem port_armNextTimerInMode :
    (armNextTimerInMode settings now s rl m).port rl m = (nextArming settings now s rl m).or (s.port rl m) := by
  rw [armNextTimerInMode_eq]
  split <;> rename_i h <;> simp [h]

/-- `t` is the earliest timer of the mode that is not firing. -/
structure Earliest (s : RunLoops T R N) (rl : R) (m : N) (t : T) : Prop where
  mem : t ∈ s.timersIn rl m
  idle : (s.timer t).isFiring = false
  least : ∀ u ∈ s.timersIn rl m, (s.timer u).isFiring = false → (s.timer t).fireTSR ≤ (s.timer u).fireTSR

/-- The timers of the mode are in the order of their fire times. -/
def Ordered (s : RunLoops T R N) (rl : R) (m : N) : Prop := SortedBy (fun t => (s.timer t).fireTSR) (s.timersIn rl m)

/-- The next timer of a mode in order is the earliest one. -/
theorem nextArming_earliest (settings : Settings) (now : Int) (hs : Ordered s rl m) :
    (∃ t, Earliest s rl m t ∧
      nextArming settings now s rl m = settings.platform.arming settings.tenus now t (s.timer t).fireTSR) ∨
    ((∀ t ∈ s.timersIn rl m, (s.timer t).isFiring = true) ∧ nextArming settings now s rl m = none) := by
  rw [nextArming]
  cases hfind : (s.timersIn rl m).find? fun t => !(s.timer t).isFiring with
  | none => exact .inr ⟨by simpa using hfind, rfl⟩
  | some t =>
    refine .inl ⟨t, ⟨List.mem_of_find?_eq_some hfind, by simpa using List.find?_some hfind, fun u hu hidle => ?_⟩, rfl⟩
    exact hs.find?_le hfind u hu (by simpa using hidle)

/-! ## Entering and moving a timer -/

/-- The mode `m` of `rl` came to hold `timers`, and its port was set for the
next of them. -/
structure Placed (settings : Settings) (now : Int) (s s' : RunLoops T R N) (rl : R) (m : N) (timers : List T) :
    Prop where
  timer : s'.timer = s.timer
  timersIn : s'.timersIn rl m = timers
  port : s'.port rl m = (nextArming settings now s' rl m).or (s.port rl m)
  elsewhere : ∀ rl' m', Elsewhere rl m rl' m' → s'.mode rl' m' = s.mode rl' m'

theorem armNext_placed (timers : List T) :
    Placed settings now s (armNextTimerInMode settings now (s.setTimers rl m timers) rl m) rl m timers where
  timer := by simp
  timersIn := by simp [timersIn]
  port := by
    rw [port_armNextTimerInMode, port_setTimers_self, nextArming_armNextTimerInMode]
  elsewhere rl' m' h := by
    rw [mode_armNextTimerInMode h]
    exact mode_setMode_of_elsewhere h

/-- A timer is entered after the timers that are not later. -/
theorem insertTimer_placed (hs : SortedBy (fun t => (s.timer t).fireTSR) timers)
    (h : insertTimer settings now s rl m timers rlt = some s') :
    Placed settings now s s' rl m
      (timers.insertIdx (notAfter (fun t => (s.timer t).fireTSR) timers (s.timer rlt).fireTSR) rlt) := by
  obtain ⟨n, hn, rfl⟩ := Option.map_eq_some_iff.mp h
  obtain rfl := insertionIndex_eq_some hs hn
  exact armNext_placed _

theorem insertTimer_isSome (h : timers.length < 2 ^ 29) : (insertTimer settings now s rl m timers rlt).isSome := by
  rw [insertTimer, Option.isSome_map]
  exact insertionIndex_isSome _ rlt h

/-- The timers of the mode are in order but for `rlt`. -/
def OrderedBut (s : RunLoops T R N) (rl : R) (m : N) (rlt : T) : Prop :=
  SortedBy (fun t => (s.timer t).fireTSR) ((s.timersIn rl m).erase rlt)

theorem timerArray_of_mem (h : rlt ∈ s.timersIn rl m) : s.timerArray rl m = some (s.timersIn rl m) := by
  unfold timersIn at h ⊢
  cases harray : s.timerArray rl m with
  | none => simp [harray] at h
  | some timers => rfl

/-- Where a timer of the mode is found, it is taken out. -/
theorem eraseIdx_of_mem (h : rlt ∈ timers) :
    ∃ idx, timers.idxOf? rlt = some idx ∧ timers.eraseIdx idx = timers.erase rlt := by
  obtain ⟨idx, hidx⟩ := Option.isSome_iff_exists.mp (List.isSome_idxOf?.mpr h)
  refine ⟨idx, hidx, ?_⟩
  rw [← List.eraseIdx_idxOf_eq_erase, List.idxOf_eq_getD_idxOf?, hidx, Option.getD_some]

theorem repositionTimerInMode_of_mem (h : rlt ∈ s.timersIn rl m) :
    repositionTimerInMode settings now s rl m rlt true =
      insertTimer settings now s rl m ((s.timersIn rl m).erase rlt) rlt := by
  obtain ⟨idx, hidx, herase⟩ := eraseIdx_of_mem h
  rw [repositionTimerInMode, timerArray_of_mem h]
  simp only [if_true, hidx, herase]

theorem repositionTimerInMode_isSome (settings : Settings) (now : Int) (hmem : rlt ∈ s.timersIn rl m) (hfew : (s.timersIn rl m).length < 2 ^ 29) :
    (repositionTimerInMode settings now s rl m rlt true).isSome := by
  rw [repositionTimerInMode_of_mem hmem]
  exact insertTimer_isSome (lt_of_le_of_lt List.erase_sublist.length_le hfew)

/-- A timer that moves within a mode in order but for it leaves the mode in
order, with the same timers. -/
theorem repositionTimerInMode_placed (hmem : rlt ∈ s.timersIn rl m) (hs : OrderedBut s rl m rlt)
    (h : repositionTimerInMode settings now s rl m rlt true = some s') :
    Ordered s' rl m ∧ (s'.timersIn rl m).Perm (s.timersIn rl m) ∧
      ∃ timers, Placed settings now s s' rl m timers := by
  rw [repositionTimerInMode_of_mem hmem] at h
  have hplaced := insertTimer_placed hs h
  refine ⟨?_, ?_, _, hplaced⟩
  · rw [Ordered, hplaced.timer, hplaced.timersIn]
    exact hs.insertIdx
  · rw [hplaced.timersIn]
    exact (List.perm_insertIdx _ _ notAfter_le_length).trans (List.perm_cons_erase hmem).symm

end CFLite.RunLoop
