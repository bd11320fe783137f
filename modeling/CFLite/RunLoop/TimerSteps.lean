import CFLite.RunLoop.TimerPlaces

/-!
# What the calls do to all modes

* `WellFormed`: every timer is in the modes that it says, once in each, and
  every mode is in order;
* `setFireTSR_spec`, `addTimer_spec`, `removeTimer_spec`, `timerInvalidate_spec`:
  each call keeps that, says which timers the modes hold after it, and sets no
  port but for the next timer of its mode.
-/

set_option linter.unusedSectionVars false

namespace CFLite.RunLoop

open Framework RunLoops

variable {T R N : Type} [DecidableEq T] [DecidableEq R] [DecidableEq N] {s s' s₁ : RunLoops T R N}
  {rl rl' : R} {m m' : N} {names : List N} {rlt : T} {timer : Timer R N} {timers : List T} {settings : Settings}
  {now : N → Int}

/-- Every timer is in the modes that it says, once in each. -/
structure Registered (s : RunLoops T R N) : Prop where
  modes_nodup : ∀ t, (s.timer t).rlModes.Nodup
  timers_nodup : ∀ rl m, (s.timersIn rl m).Nodup
  mem_iff : ∀ t rl m, t ∈ s.timersIn rl m ↔ (s.timer t).runLoop = some rl ∧ m ∈ (s.timer t).rlModes
  free : ∀ t, (s.timer t).runLoop = none → (s.timer t).rlModes = []

/-- Every timer is in the modes that it says, and every mode is in order. -/
structure WellFormed (s : RunLoops T R N) : Prop extends Registered s where
  ordered : ∀ rl m, Ordered s rl m

/-- The port of a mode was left as it was, or set for the next timer, or reset
when the last timer left. -/
def PortSet (settings : Settings) (now : N → Int) (s s' : RunLoops T R N) (rl : R) (m : N) : Prop :=
  s'.port rl m = s.port rl m ∨
  (∃ arming, nextArming settings (now m) s' rl m = some arming ∧ s'.port rl m = some arming) ∨
  (s'.timersIn rl m = [] ∧ s'.port rl m = none)

theorem PortSet.of_or (h : s'.port rl m = (nextArming settings (now m) s' rl m).or (s.port rl m)) :
    PortSet settings now s s' rl m := by
  cases hnext : nextArming settings (now m) s' rl m with
  | none => exact .inl (by simpa [hnext] using h)
  | some arming => exact .inr (.inl ⟨arming, hnext, by simpa [hnext] using h⟩)

/-- The fields of a timer that say where it is. -/
def SamePlace (timer timer' : Timer R N) : Prop := timer'.runLoop = timer.runLoop ∧ timer'.rlModes = timer.rlModes

/-- Nothing but the order within the modes changed. -/
theorem Registered.perm (h : Registered s) (hplace : ∀ t, SamePlace (s.timer t) (s'.timer t))
    (hperm : ∀ rl m, (s'.timersIn rl m).Perm (s.timersIn rl m)) : Registered s' where
  modes_nodup t := (hplace t).2 ▸ h.modes_nodup t
  timers_nodup rl m := (hperm rl m).nodup_iff.mpr (h.timers_nodup rl m)
  mem_iff t rl m := by rw [(hperm rl m).mem_iff, h.mem_iff, (hplace t).1, (hplace t).2]
  free t ht := (hplace t).2 ▸ h.free t ((hplace t).1 ▸ ht)

/-! ## A new fire time -/

/-- After a timer moved within the modes `names` of `rl`. -/
structure Repositioned (settings : Settings) (now : N → Int) (s s' : RunLoops T R N) (rl : R) (names : List N) :
    Prop where
  timer : s'.timer = s.timer
  ordered : ∀ m ∈ names, Ordered s' rl m
  perm : ∀ rl' m', (s'.timersIn rl' m').Perm (s.timersIn rl' m')
  port : ∀ m ∈ names, s'.port rl m = (nextArming settings (now m) s' rl m).or (s.port rl m)
  elsewhere : ∀ rl' m', ¬ (rl' = rl ∧ m' ∈ names) → s'.mode rl' m' = s.mode rl' m'

theorem reposition_all (hnodup : names.Nodup) (hmem : ∀ m ∈ names, rlt ∈ s.timersIn rl m)
    (hs : ∀ m ∈ names, OrderedBut s rl m rlt)
    (h : names.foldlM (fun s name => repositionTimerInMode settings (now name) s rl name rlt true) s = some s') :
    Repositioned settings now s s' rl names := by
  induction names generalizing s with
  | nil =>
    obtain rfl : s = s' := by simpa using h
    exact ⟨rfl, by simp, fun _ _ => .rfl, by simp, fun _ _ _ => rfl⟩
  | cons name names ih =>
    rw [List.foldlM_cons] at h
    obtain ⟨s₁, hfirst, hrest⟩ := Option.bind_eq_some_iff.mp h
    obtain ⟨hordered, hperm, timers, hplaced⟩ :=
      repositionTimerInMode_placed (hmem name (by simp)) (hs name (by simp)) hfirst
    obtain ⟨hname, hnodup⟩ := List.nodup_cons.mp hnodup
    have hother : ∀ m ∈ names, s₁.mode rl m = s.mode rl m := fun m hm =>
      hplaced.elsewhere rl m fun heq => hname (heq.2 ▸ hm)
    have hlater := ih hnodup
      (fun m hm => by rw [timersIn_eq_of_mode (hother m hm)]; exact hmem m (by simp [hm]))
      (fun m hm => by
        rw [OrderedBut, timersIn_eq_of_mode (hother m hm), hplaced.timer]
        exact hs m (by simp [hm])) hrest
    have hkept : s'.mode rl name = s₁.mode rl name := hlater.elsewhere rl name fun h => hname h.2
    refine ⟨hlater.timer.trans hplaced.timer, ?_, fun rl' m' => (hlater.perm rl' m').trans ?_, ?_, ?_⟩
    · refine List.forall_mem_cons.mpr ⟨?_, hlater.ordered⟩
      rw [Ordered, timersIn_eq_of_mode hkept, hlater.timer]
      exact hordered
    · by_cases hm : rl' = rl ∧ m' = name
      · obtain ⟨rfl, rfl⟩ := hm
        exact hperm
      · rw [timersIn_eq_of_mode (hplaced.elsewhere rl' m' hm)]
    · refine List.forall_mem_cons.mpr ⟨?_, fun m hm => ?_⟩
      · rw [port_eq_of_mode hkept, hplaced.port,
          nextArming_congr (timersIn_eq_of_mode hkept) (fun t _ => by rw [hlater.timer]; exact ⟨rfl, rfl⟩)]
      · rw [hlater.port m hm, port_eq_of_mode (hother m hm)]
    · intro rl' m' hm
      rw [hlater.elsewhere rl' m' fun h => hm ⟨h.1, by simp [h.2]⟩,
        hplaced.elsewhere rl' m' fun h => hm ⟨h.1, by simp [h.2]⟩]

theorem reposition_all_isSome (settings : Settings) (now : N → Int) (hnodup : names.Nodup)
    (hmem : ∀ m ∈ names, rlt ∈ s.timersIn rl m) (hs : ∀ m ∈ names, OrderedBut s rl m rlt)
    (hfew : ∀ m ∈ names, (s.timersIn rl m).length < 2 ^ 29) :
    (names.foldlM (fun s name => repositionTimerInMode settings (now name) s rl name rlt true) s).isSome := by
  induction names generalizing s with
  | nil => rfl
  | cons name names ih =>
    obtain ⟨s₁, hfirst⟩ := Option.isSome_iff_exists.mp
      (repositionTimerInMode_isSome settings (now name) (hmem name (by simp)) (hfew name (by simp)))
    obtain ⟨_, _, _, hplaced⟩ := repositionTimerInMode_placed (hmem name (by simp)) (hs name (by simp)) hfirst
    obtain ⟨hname, hnodup⟩ := List.nodup_cons.mp hnodup
    have hother : ∀ m ∈ names, s₁.timersIn rl m = s.timersIn rl m := fun m hm =>
      timersIn_eq_of_mode (hplaced.elsewhere rl m fun heq => hname (heq.2 ▸ hm))
    rw [List.foldlM_cons, hfirst]
    refine ih hnodup (fun m hm => ?_) (fun m hm => ?_) (fun m hm => ?_)
    · rw [hother m hm]
      exact hmem m (by simp [hm])
    · rw [OrderedBut, hother m hm, hplaced.timer]
      exact hs m (by simp [hm])
    · rw [hother m hm]
      exact hfew m (by simp [hm])

/-- What a call that only moves timers within their modes did. -/
structure Moved (settings : Settings) (now : N → Int) (s s' : RunLoops T R N) : Prop where
  wellFormed : WellFormed s'
  perm : ∀ rl m, (s'.timersIn rl m).Perm (s.timersIn rl m)
  port : ∀ rl m, PortSet settings now s s' rl m

/-- A timer that changes in the fields that say neither where nor when. -/
theorem WellFormed.setTimer (h : WellFormed s) (hplace : SamePlace (s.timer rlt) timer)
    (htsr : timer.fireTSR = (s.timer rlt).fireTSR) : WellFormed (s.setTimer rlt timer) := by
  have hfields : ∀ t, SamePlace (s.timer t) ((s.setTimer rlt timer).timer t) ∧
      ((s.setTimer rlt timer).timer t).fireTSR = (s.timer t).fireTSR := by
    intro t
    by_cases ht : t = rlt
    · subst ht
      simpa using ⟨hplace, htsr⟩
    · simp [timer_setTimer_of_ne ht, SamePlace]
  exact { toRegistered := h.toRegistered.perm (fun t => (hfields t).1) fun _ _ => .rfl
          ordered := fun rl m => (h.ordered rl m).congr fun t _ => (hfields t).2 }

/-- Without the timer that gets a new time, a mode stays in order. -/
theorem WellFormed.orderedBut (h : WellFormed s) :
    OrderedBut (s.setTimer rlt timer) rl m rlt := by
  refine ((h.ordered rl m).sublist List.erase_sublist).congr fun t ht => ?_
  have hne : t ≠ rlt := by
    rintro rfl
    exact (h.timers_nodup rl m).not_mem_erase ht
  rw [timer_setTimer_of_ne hne]

/-- A timer that gets a new time in no mode that holds it. -/
theorem WellFormed.ordered_setTimer (h : WellFormed s) (hmem : rlt ∉ s.timersIn rl m) :
    Ordered (s.setTimer rlt timer) rl m := by
  refine (h.ordered rl m).congr fun t ht => ?_
  have hne : t ≠ rlt := by
    rintro rfl
    exact hmem ht
  rw [timer_setTimer_of_ne hne]

theorem setFireTSR_spec {nextFireTSR : Int} (h : WellFormed s)
    (hset : setFireTSR settings now s rlt nextFireTSR = some s') : Moved settings now s s' := by
  have hplaces : ∀ t, SamePlace (s.timer t)
      ((s.setTimer rlt { s.timer rlt with fireTSR := nextFireTSR }).timer t) := by
    intro t
    by_cases ht : t = rlt
    · subst ht
      simp [SamePlace]
    · simp [timer_setTimer_of_ne ht, SamePlace]
  dsimp only [setFireTSR] at hset
  split at hset
  case h_2 hrl =>
    obtain rfl := Option.some_inj.mp hset
    refine ⟨⟨h.toRegistered.perm hplaces fun _ _ => .rfl, fun rl m => h.ordered_setTimer ?_⟩,
      fun _ _ => .rfl, fun _ _ => .inl rfl⟩
    rw [h.mem_iff, hrl]
    simp
  case h_1 rl hrl =>
    have hmem : ∀ m, rlt ∈ s.timersIn rl m ↔ m ∈ (s.timer rlt).rlModes := fun m => by
      rw [h.mem_iff, hrl]
      simp
    have hmoved : Repositioned settings now (s.setTimer rlt { s.timer rlt with fireTSR := nextFireTSR }) s' rl
        (s.timer rlt).rlModes :=
      reposition_all (h.modes_nodup rlt) (fun m hm => (hmem m).mpr hm) (fun _ _ => h.orderedBut) hset
    have hreg : Registered s' := h.toRegistered.perm (fun t => by rw [hmoved.timer]; exact hplaces t) hmoved.perm
    refine ⟨⟨hreg, fun rl' m' => ?_⟩, hmoved.perm, fun rl' m' => ?_⟩
    · by_cases hm : rl' = rl ∧ m' ∈ (s.timer rlt).rlModes
      · obtain ⟨rfl, hm⟩ := hm
        exact hmoved.ordered m' hm
      · have hout : rlt ∉ s.timersIn rl' m' := by
          rw [h.mem_iff, hrl]
          rintro ⟨heq, hin⟩
          exact hm ⟨(Option.some_inj.mp heq).symm, hin⟩
        rw [Ordered, timersIn_eq_of_mode (hmoved.elsewhere rl' m' hm), hmoved.timer]
        exact h.ordered_setTimer hout
    · by_cases hm : rl' = rl ∧ m' ∈ (s.timer rlt).rlModes
      · obtain ⟨rfl, hm⟩ := hm
        exact .of_or (hmoved.port m' hm)
      · exact .inl (port_eq_of_mode (hmoved.elsewhere rl' m' hm))

/-- A new fire time can be set while no mode holds `2 ^ 29` timers. -/
theorem setFireTSR_isSome (h : WellFormed s) (hfew : ∀ rl m, (s.timersIn rl m).length < 2 ^ 29)
    (nextFireTSR : Int) : (setFireTSR settings now s rlt nextFireTSR).isSome := by
  dsimp only [setFireTSR]
  split
  · rename_i rl hrl
    refine reposition_all_isSome settings now (h.modes_nodup rlt) (fun m hm => ?_) (fun _ _ => h.orderedBut)
      fun m _ => hfew rl m
    exact (h.mem_iff rlt rl m).mpr ⟨hrl, hm⟩
  · rfl

/-! ## A timer enters a mode -/

theorem mode_findModeWithTimers (h : Elsewhere rl m rl' m') :
    (findModeWithTimers s rl m).mode rl' m' = s.mode rl' m' := mode_setMode_of_elsewhere h

theorem timersIn_findModeWithTimers : (findModeWithTimers s rl m).timersIn rl' m' = s.timersIn rl' m' := by
  by_cases hm : rl' = rl ∧ m' = m
  · obtain ⟨rfl, rfl⟩ := hm
    simp [findModeWithTimers]
  · exact timersIn_eq_of_mode (mode_findModeWithTimers hm)

theorem port_findModeWithTimers : (findModeWithTimers s rl m).port rl' m' = s.port rl' m' := by
  by_cases hm : rl' = rl ∧ m' = m
  · obtain ⟨rfl, rfl⟩ := hm
    simp [findModeWithTimers]
  · exact port_eq_of_mode (mode_findModeWithTimers hm)

@[simp] theorem timer_findModeWithTimers : (findModeWithTimers s rl m).timer = s.timer := rfl

/-- The same timers in the same order, and the same ports. -/
theorem Moved.of_same (h : WellFormed s) (htimer : s'.timer = s.timer)
    (hsame : ∀ rl m, s'.timersIn rl m = s.timersIn rl m) (hport : ∀ rl m, s'.port rl m = s.port rl m) :
    Moved settings now s s' where
  wellFormed :=
    { toRegistered := h.toRegistered.perm (fun t => by rw [htimer]; exact ⟨rfl, rfl⟩) fun rl m => by rw [hsame]
      ordered := fun rl m => by
        rw [Ordered, htimer, hsame]
        exact h.ordered rl m }
  perm rl m := by rw [hsame]
  port rl m := .inl (hport rl m)

/-- `CFRunLoopAddTimer` lets the timer into the mode. -/
structure Admitted (s : RunLoops T R N) (rl : R) (rlt : T) (modeName : N) : Prop where
  isValid : (s.timer rlt).isValid = true
  runLoop : (s.timer rlt).runLoop = none ∨ (s.timer rlt).runLoop = some rl
  new : rlt ∉ s.timersIn rl modeName

/-- The timers of the mode `m` of `rl` changed to `timers`, up to their order. -/
structure Changed (settings : Settings) (now : N → Int) (s s' : RunLoops T R N) (rl : R) (m : N) (timers : List T) :
    Prop where
  wellFormed : WellFormed s'
  perm : (s'.timersIn rl m).Perm timers
  others : ∀ rl' m', Elsewhere rl m rl' m' → (s'.timersIn rl' m').Perm (s.timersIn rl' m')
  port : ∀ rl m, PortSet settings now s s' rl m

/-- A timer that enters a mode of its run loop. -/
theorem Registered.enter (h : Registered s) (hnew : Admitted s rl rlt m) {s₁ : RunLoops T R N}
    (htimer : s₁.timer = s.timer) (hs' : s'.timer = (s₁.setTimer rlt
      { s.timer rlt with runLoop := some rl, rlModes := (s.timer rlt).rlModes ++ [m] }).timer)
    (hperm : (s'.timersIn rl m).Perm (rlt :: s.timersIn rl m))
    (hother : ∀ rl' m', Elsewhere rl m rl' m' → s'.timersIn rl' m' = s.timersIn rl' m') : Registered s' := by
  have hself : s'.timer rlt = { s.timer rlt with runLoop := some rl, rlModes := (s.timer rlt).rlModes ++ [m] } := by
    rw [hs', timer_setTimer_self]
  have hkept : ∀ t, t ≠ rlt → s'.timer t = s.timer t := fun t ht => by rw [hs', timer_setTimer_of_ne ht, htimer]
  have hold : ∀ m', m' ∈ (s.timer rlt).rlModes → (s.timer rlt).runLoop = some rl := by
    intro m' hm'
    rcases hnew.runLoop with hnone | hsome
    · simp [h.free rlt hnone] at hm'
    · exact hsome
  have hout : m ∉ (s.timer rlt).rlModes := fun hm => hnew.new ((h.mem_iff _ _ _).mpr ⟨hold m hm, hm⟩)
  refine ⟨fun t => ?_, fun rl' m' => ?_, fun t rl' m' => ?_, fun t ht => ?_⟩
  · by_cases ht : t = rlt
    · subst ht
      rw [hself]
      exact List.nodup_append.mpr ⟨h.modes_nodup t, by simp, fun a ha b hb => by
        obtain rfl := List.mem_singleton.mp hb
        rintro rfl
        exact hout ha⟩
    · rw [hkept t ht]
      exact h.modes_nodup t
  · by_cases hm : rl' = rl ∧ m' = m
    · obtain ⟨rfl, rfl⟩ := hm
      exact hperm.nodup_iff.mpr (List.nodup_cons.mpr ⟨hnew.new, h.timers_nodup rl' m'⟩)
    · rw [hother rl' m' hm]
      exact h.timers_nodup rl' m'
  · have hmem : t ∈ s'.timersIn rl' m' ↔ t ∈ s.timersIn rl' m' ∨ (t = rlt ∧ rl' = rl ∧ m' = m) := by
      by_cases hm : rl' = rl ∧ m' = m
      · obtain ⟨rfl, rfl⟩ := hm
        rw [hperm.mem_iff, List.mem_cons]
        simp [or_comm]
      · rw [hother rl' m' hm]
        simp [hm]
    rw [hmem, h.mem_iff]
    by_cases ht : t = rlt
    · subst ht
      rw [hself]
      simp only [List.mem_append, List.mem_singleton, true_and]
      constructor
      · rintro (⟨hrl, hm⟩ | ⟨rfl, rfl⟩)
        · exact ⟨(hold m' hm).symm.trans hrl, .inl hm⟩
        · exact ⟨rfl, .inr rfl⟩
      · rintro ⟨hrl, hm | rfl⟩
        · exact .inl ⟨(hold m' hm).trans hrl, hm⟩
        · exact .inr ⟨(Option.some_inj.mp hrl).symm, rfl⟩
    · rw [hkept t ht]
      simp [ht]
  · by_cases heq : t = rlt
    · subst heq
      rw [hself] at ht
      cases ht
    · rw [hkept t heq] at ht ⊢
      exact h.free t ht

theorem addTimer_admitted (h : WellFormed s) (hnew : Admitted s rl rlt m)
    (hadd : addTimer settings (now m) s rl rlt m = some s') :
    Changed settings now s s' rl m (rlt :: s.timersIn rl m) := by
  have hout : m ∉ (s.timer rlt).rlModes := by
    intro hm
    refine hnew.new ((h.mem_iff _ _ _).mpr ⟨?_, hm⟩)
    rcases hnew.runLoop with hnone | hsome
    · simp [h.free rlt hnone] at hm
    · exact hsome
  have hpass : (!(s.timer rlt).isValid || ((s.timer rlt).runLoop.isSome && (s.timer rlt).runLoop != some rl)) = false := by
    rcases hnew.runLoop with hrl | hrl <;> simp [hnew.isValid, hrl]
  obtain ⟨entry, hentry⟩ : ∃ entry, entry =
      { s.timer rlt with runLoop := some rl, rlModes := (s.timer rlt).rlModes ++ [m] } := ⟨_, rfl⟩
  obtain ⟨added, hadded⟩ : ∃ added, added = (findModeWithTimers s rl m).setTimer rlt entry := ⟨_, rfl⟩
  have hin : ∀ rl' m', added.timersIn rl' m' = s.timersIn rl' m' := fun _ _ => by
    rw [hadded, timersIn_setTimer, timersIn_findModeWithTimers]
  have hport : ∀ rl' m', added.port rl' m' = s.port rl' m' := fun _ _ => by
    rw [hadded, port_setTimer, port_findModeWithTimers]
  have htsr : ∀ t, (added.timer t).fireTSR = (s.timer t).fireTSR := by
    intro t
    by_cases ht : t = rlt
    · subst ht
      rw [hadded, timer_setTimer_self, hentry]
    · rw [hadded, timer_setTimer_of_ne ht, timer_findModeWithTimers]
  have hsorted : SortedBy (fun t => (added.timer t).fireTSR) (s.timersIn rl m) :=
    (h.ordered rl m).congr fun t _ => htsr t
  have harray : added.timerArray rl m = some (s.timersIn rl m) := by
    rw [hadded, timerArray_setTimer, findModeWithTimers, timerArray_setTimers_self]
  rw [addTimer, hpass, if_neg Bool.false_ne_true] at hadd
  dsimp only at hadd
  rw [if_neg hout, ← hentry, ← hadded, repositionTimerInMode, harray] at hadd
  have hplaced := insertTimer_placed hsorted (by simpa using hadd)
  have hperm : (s'.timersIn rl m).Perm (rlt :: s.timersIn rl m) := by
    rw [hplaced.timersIn]
    exact List.perm_insertIdx _ _ notAfter_le_length
  have hother : ∀ rl' m', Elsewhere rl m rl' m' → s'.timersIn rl' m' = s.timersIn rl' m' := fun rl' m' hm => by
    rw [timersIn_eq_of_mode (hplaced.elsewhere rl' m' hm), hin]
  refine ⟨⟨h.toRegistered.enter hnew timer_findModeWithTimers
      (by rw [hplaced.timer, hadded, hentry]) hperm hother, fun rl' m' => ?_⟩, hperm,
    fun rl' m' hm => by rw [hother rl' m' hm], fun rl' m' => ?_⟩
  · by_cases hm : rl' = rl ∧ m' = m
    · obtain ⟨rfl, rfl⟩ := hm
      rw [Ordered, hplaced.timer, hplaced.timersIn]
      exact hsorted.insertIdx
    · rw [Ordered, hother rl' m' hm, hplaced.timer]
      exact (h.ordered rl' m').congr fun t _ => htsr t
  · by_cases hm : rl' = rl ∧ m' = m
    · obtain ⟨rfl, rfl⟩ := hm
      exact .of_or (by rw [hplaced.port, hport])
    · exact .inl (by rw [port_eq_of_mode (hplaced.elsewhere rl' m' hm), hport])

/-- A timer can be added to a mode of fewer than `2 ^ 29` timers. -/
theorem addTimer_isSome (settings : Settings) (now : N → Int) (hfew : (s.timersIn rl m).length < 2 ^ 29) :
    (addTimer settings (now m) s rl rlt m).isSome := by
  dsimp only [addTimer]
  split
  · rfl
  split
  · rfl
  have harray : ∀ entry, ((findModeWithTimers s rl m).setTimer rlt entry).timerArray rl m = some (s.timersIn rl m) :=
    fun entry => by rw [timerArray_setTimer, findModeWithTimers, timerArray_setTimers_self]
  rw [repositionTimerInMode, harray]
  simpa using insertTimer_isSome hfew

theorem addTimer_refused (h : WellFormed s) (hold : ¬ Admitted s rl rlt m)
    (hadd : addTimer settings (now m) s rl rlt m = some s') : Moved settings now s s' := by
  dsimp only [addTimer] at hadd
  split at hadd
  · obtain rfl := Option.some_inj.mp hadd
    exact .of_same h rfl (fun _ _ => rfl) fun _ _ => rfl
  rename_i hpass
  split at hadd
  · obtain rfl := Option.some_inj.mp hadd
    exact .of_same h rfl (fun _ _ => timersIn_findModeWithTimers) fun _ _ => port_findModeWithTimers
  rename_i hout
  refine absurd ⟨?_, ?_, fun hmem => hout ((h.mem_iff _ _ _).mp hmem).2⟩ hold
  · cases hvalid : (s.timer rlt).isValid with
    | true => rfl
    | false => simp [hvalid] at hpass
  · cases hrl : (s.timer rlt).runLoop with
    | none => exact .inl rfl
    | some rl₁ =>
      have heq : rl₁ = rl := by
        simp [hrl] at hpass
        exact hpass.2
      exact .inr (by rw [heq])

/-! ## A timer leaves a mode -/

/-- A timer that leaves a mode of its run loop. -/
theorem Registered.leave (h : Registered s) (hmem : rlt ∈ s.timersIn rl m)
    (htimer : s'.timer = (s.setTimer rlt (leaveMode (s.timer rlt) m)).timer)
    (herase : s'.timersIn rl m = (s.timersIn rl m).erase rlt)
    (hother : ∀ rl' m', Elsewhere rl m rl' m' → s'.timersIn rl' m' = s.timersIn rl' m') : Registered s' := by
  obtain ⟨hrl, _⟩ := (h.mem_iff _ _ _).mp hmem
  have hself : s'.timer rlt = leaveMode (s.timer rlt) m := by rw [htimer, timer_setTimer_self]
  have hkept : ∀ t, t ≠ rlt → s'.timer t = s.timer t := fun t ht => by rw [htimer, timer_setTimer_of_ne ht]
  refine ⟨fun t => ?_, fun rl' m' => ?_, fun t rl' m' => ?_, fun t ht => ?_⟩
  · by_cases ht : t = rlt
    · subst ht
      rw [hself]
      exact (h.modes_nodup t).erase m
    · rw [hkept t ht]
      exact h.modes_nodup t
  · by_cases hm : rl' = rl ∧ m' = m
    · obtain ⟨rfl, rfl⟩ := hm
      rw [herase]
      exact (h.timers_nodup rl' m').erase rlt
    · rw [hother rl' m' hm]
      exact h.timers_nodup rl' m'
  · have hin : t ∈ s'.timersIn rl' m' ↔ t ∈ s.timersIn rl' m' ∧ ¬ (t = rlt ∧ rl' = rl ∧ m' = m) := by
      by_cases hm : rl' = rl ∧ m' = m
      · obtain ⟨rfl, rfl⟩ := hm
        rw [herase, (h.timers_nodup rl' m').mem_erase_iff]
        simp [and_comm]
      · rw [hother rl' m' hm]
        simp [hm]
    rw [hin, h.mem_iff]
    by_cases ht : t = rlt
    · subst ht
      simp only [hself, leaveMode, (h.modes_nodup t).mem_erase_iff, hrl, true_and, Option.some_inj]
      constructor
      · rintro ⟨⟨rfl, hm⟩, hne⟩
        have hne : m' ≠ m := fun heq => hne ⟨rfl, heq⟩
        have hleft : (s.timer t).rlModes.erase m ≠ [] :=
          List.ne_nil_of_mem ((h.modes_nodup t).mem_erase_iff.mpr ⟨hne, hm⟩)
        simp [hleft, hne, hm]
      · rintro ⟨hloop, hne, hm⟩
        split at hloop
        · cases hloop
        · obtain rfl := Option.some_inj.mp hloop
          exact ⟨⟨rfl, hm⟩, fun heq => hne heq.2⟩
    · rw [hkept t ht]
      simp [ht]
  · by_cases heq : t = rlt
    · subst heq
      rw [hself] at ht ⊢
      simp only [leaveMode] at ht ⊢
      split at ht
      · assumption
      · rw [hrl] at ht
        cases ht
    · rw [hkept t heq] at ht ⊢
      exact h.free t ht

/-- `CFRunLoopRemoveTimer` takes the timer out of the mode. -/
theorem removeTimer_mem (settings : Settings) (now : N → Int) (hmem : rlt ∈ s.timersIn rl m) :
    let s' := removeTimer settings (now m) s rl rlt m
    s'.timer = (s.setTimer rlt (leaveMode (s.timer rlt) m)).timer ∧
      s'.timersIn rl m = (s.timersIn rl m).erase rlt ∧
      (∀ rl' m', Elsewhere rl m rl' m' → s'.mode rl' m' = s.mode rl' m') ∧ PortSet settings now s s' rl m := by
  obtain ⟨idx, hidx, herase⟩ := eraseIdx_of_mem hmem
  obtain ⟨left, hleft⟩ : ∃ left, left = (s.setTimer rlt (leaveMode (s.timer rlt) m)).setTimers rl m
      ((s.timersIn rl m).erase rlt) := ⟨_, rfl⟩
  have htimer : left.timer = (s.setTimer rlt (leaveMode (s.timer rlt) m)).timer := by rw [hleft, timer_setTimers]
  have hin : left.timersIn rl m = (s.timersIn rl m).erase rlt := by rw [hleft, timersIn_setTimers_self]
  have hmode : ∀ rl' m', Elsewhere rl m rl' m' → left.mode rl' m' = s.mode rl' m' := fun rl' m' hm => by
    rw [hleft]
    exact mode_setMode_of_elsewhere hm
  have hport : left.port rl m = s.port rl m := by rw [hleft, port_setTimers_self, port_setTimer]
  dsimp only
  rw [removeTimer, timerArray_of_mem hmem]
  simp only [hidx, herase, ← hleft]
  split
  · rename_i hempty
    refine ⟨htimer, ?_, fun rl' m' hm => (mode_setMode_of_elsewhere hm).trans (hmode rl' m' hm),
      .inr (.inr ⟨?_, port_setPort_self⟩)⟩
    · rw [timersIn, timerArray_setPort_self]
      exact hin
    · rw [timersIn, timerArray_setPort_self]
      exact hin.trans hempty
  split
  · refine ⟨timer_armNextTimerInMode.trans htimer, ?_,
      fun rl' m' hm => (mode_armNextTimerInMode hm).trans (hmode rl' m' hm), .of_or ?_⟩
    · rw [timersIn, timerArray_armNextTimerInMode]
      exact hin
    · rw [port_armNextTimerInMode, nextArming_armNextTimerInMode, hport]
  · exact ⟨htimer, hin, hmode, .inl hport⟩

theorem removeTimer_not_mem (h : rlt ∉ s.timersIn rl m) : removeTimer settings (now m) s rl rlt m = s := by
  rw [removeTimer]
  cases harray : s.timerArray rl m with
  | none => rfl
  | some timers =>
    have hout : rlt ∉ timers := by simpa [timersIn, harray] using h
    simp only [List.idxOf?_eq_none_iff.mpr hout]

/-- All timers are the same but for where they are. -/
def SameStatus (s s' : RunLoops T R N) : Prop :=
  ∀ t, (s'.timer t).isValid = (s.timer t).isValid ∧ (s'.timer t).isFiring = (s.timer t).isFiring ∧
    (s'.timer t).fireTSR = (s.timer t).fireTSR

theorem SameStatus.trans (h : SameStatus s s₁) (h' : SameStatus s₁ s') : SameStatus s s' := fun t =>
  ⟨(h' t).1.trans (h t).1, (h' t).2.1.trans (h t).2.1, (h' t).2.2.trans (h t).2.2⟩

theorem sameStatus_leaveMode (htimer : s'.timer = (s.setTimer rlt (leaveMode (s.timer rlt) m)).timer) :
    SameStatus s s' := by
  intro t
  rw [htimer]
  by_cases ht : t = rlt
  · subst ht
    rw [timer_setTimer_self]
    exact ⟨rfl, rfl, rfl⟩
  · rw [timer_setTimer_of_ne ht]
    exact ⟨rfl, rfl, rfl⟩

theorem removeTimer_sameStatus : SameStatus s (removeTimer settings (now m) s rl rlt m) := by
  by_cases hmem : rlt ∈ s.timersIn rl m
  · exact sameStatus_leaveMode (removeTimer_mem settings now hmem).1
  · rw [removeTimer_not_mem hmem]
    exact fun _ => ⟨rfl, rfl, rfl⟩

theorem mode_removeTimer (hm : Elsewhere rl m rl' m') :
    (removeTimer settings (now m) s rl rlt m).mode rl' m' = s.mode rl' m' := by
  by_cases hmem : rlt ∈ s.timersIn rl m
  · exact (removeTimer_mem settings now hmem).2.2.1 rl' m' hm
  · rw [removeTimer_not_mem hmem]

/-- `CFRunLoopRemoveTimer` -/
theorem removeTimer_spec (h : WellFormed s) :
    Changed settings now s (removeTimer settings (now m) s rl rlt m) rl m ((s.timersIn rl m).erase rlt) := by
  by_cases hmem : rlt ∈ s.timersIn rl m
  · obtain ⟨htimer, herase, hmode, hport⟩ := removeTimer_mem settings now hmem
    have hother := fun rl' m' hm => timersIn_eq_of_mode (hmode rl' m' hm)
    have htimes := sameStatus_leaveMode htimer
    refine ⟨⟨h.toRegistered.leave hmem htimer herase hother, fun rl' m' => ?_⟩, by rw [herase],
      fun rl' m' hm => by rw [hother rl' m' hm], fun rl' m' => ?_⟩
    · refine SortedBy.congr ?_ fun t _ => (htimes t).2.2
      by_cases hm : rl' = rl ∧ m' = m
      · obtain ⟨rfl, rfl⟩ := hm
        rw [herase]
        exact (h.ordered rl' m').sublist List.erase_sublist
      · rw [hother rl' m' hm]
        exact h.ordered rl' m'
    · by_cases hm : rl' = rl ∧ m' = m
      · obtain ⟨rfl, rfl⟩ := hm
        exact hport
      · exact .inl (port_eq_of_mode (hmode rl' m' hm))
  · rw [removeTimer_not_mem hmem]
    exact ⟨h, by rw [List.erase_of_not_mem hmem], fun _ _ _ => .rfl, fun _ _ => .inl rfl⟩

/-! ## Invalidating a timer -/

/-- What happens to other modes and to the timers of others does not concern a port. -/
theorem PortSet.later (h : PortSet settings now s s₁ rl m) (hmode : s'.mode rl m = s₁.mode rl m)
    (hstatus : ∀ t ∈ s₁.timersIn rl m,
      (s'.timer t).isFiring = (s₁.timer t).isFiring ∧ (s'.timer t).fireTSR = (s₁.timer t).fireTSR) :
    PortSet settings now s s' rl m := by
  have hnext : nextArming settings (now m) s' rl m = nextArming settings (now m) s₁ rl m :=
    nextArming_congr (timersIn_eq_of_mode hmode) hstatus
  rw [PortSet, hnext, port_eq_of_mode hmode, timersIn_eq_of_mode hmode]
  exact h

/-- After a timer was taken out of the modes `names` of `rl`. -/
structure Withdrawn (settings : Settings) (now : N → Int) (s s' : RunLoops T R N) (rl : R) (rlt : T)
    (names : List N) : Prop where
  wellFormed : WellFormed s'
  status : SameStatus s s'
  perm : ∀ m ∈ names, (s'.timersIn rl m).Perm ((s.timersIn rl m).erase rlt)
  port : ∀ m ∈ names, PortSet settings now s s' rl m
  elsewhere : ∀ rl' m', ¬ (rl' = rl ∧ m' ∈ names) → s'.mode rl' m' = s.mode rl' m'

theorem removeTimer_all (settings : Settings) (now : N → Int) (rl : R) (rlt : T) (h : WellFormed s)
    (hnodup : names.Nodup) :
    Withdrawn settings now s
      (names.foldl (fun s name => removeTimer settings (now name) s rl rlt name) s) rl rlt names := by
  induction names generalizing s with
  | nil => exact ⟨h, fun _ => ⟨rfl, rfl, rfl⟩, by simp, by simp, fun _ _ _ => rfl⟩
  | cons name names ih =>
    obtain ⟨hname, hnodup⟩ := List.nodup_cons.mp hnodup
    have hfirst : Changed settings now s (removeTimer settings (now name) s rl rlt name) rl name
        ((s.timersIn rl name).erase rlt) := removeTimer_spec h
    have hlater := ih hfirst.wellFormed hnodup
    have hkept := hlater.elsewhere rl name fun h => hname h.2
    have hother : ∀ m ∈ names, (removeTimer settings (now name) s rl rlt name).mode rl m = s.mode rl m :=
      fun m hm => mode_removeTimer fun heq => hname (heq.2 ▸ hm)
    rw [List.foldl_cons]
    refine ⟨hlater.wellFormed, removeTimer_sameStatus.trans hlater.status,
      List.forall_mem_cons.mpr ⟨?_, fun m hm => ?_⟩, List.forall_mem_cons.mpr ⟨?_, fun m hm => ?_⟩,
      fun rl' m' hm => ?_⟩
    · rw [timersIn_eq_of_mode hkept]
      exact hfirst.perm
    · rw [← timersIn_eq_of_mode (hother m hm)]
      exact hlater.perm m hm
    · exact (hfirst.port rl name).later hkept fun t _ => (hlater.status t).2
    · have hport := hlater.port m hm
      rwa [PortSet, port_eq_of_mode (hother m hm)] at hport
    · rw [hlater.elsewhere rl' m' fun h => hm ⟨h.1, by simp [h.2]⟩,
        mode_removeTimer fun h => hm ⟨h.1, by simp [h.2]⟩]

/-- What `CFRunLoopTimerInvalidate` did: the timer is in no mode. -/
structure Invalidated (settings : Settings) (now : N → Int) (s s' : RunLoops T R N) (rlt : T) : Prop where
  wellFormed : WellFormed s'
  invalid : (s'.timer rlt).isValid = false
  perm : ∀ rl m, (s'.timersIn rl m).Perm ((s.timersIn rl m).erase rlt)
  port : ∀ rl m, PortSet settings now s s' rl m

theorem timerInvalidate_valid (h : WellFormed s) (hvalid : (s.timer rlt).isValid = true) :
    Invalidated settings now s (timerInvalidate settings now s rlt) rlt := by
  obtain ⟨entry, hentry⟩ : ∃ entry, entry = { s.timer rlt with isValid := false } := ⟨_, rfl⟩
  have hunset : WellFormed (s.setTimer rlt entry) := h.setTimer (by rw [hentry]; exact ⟨rfl, rfl⟩) (by rw [hentry])
  dsimp only [timerInvalidate]
  rw [if_pos hvalid, ← hentry]
  split
  · rename_i rl hrl
    have hout := removeTimer_all settings now rl rlt hunset (h.modes_nodup rlt)
    refine ⟨hout.wellFormed, ?_, fun rl' m' => ?_, fun rl' m' => ?_⟩
    · rw [(hout.status rlt).1, timer_setTimer_self, hentry]
    · by_cases hm : rl' = rl ∧ m' ∈ (s.timer rlt).rlModes
      · obtain ⟨rfl, hm⟩ := hm
        exact hout.perm m' hm
      · have hnot : rlt ∉ s.timersIn rl' m' := by
          rw [h.mem_iff, hrl]
          rintro ⟨heq, hin⟩
          exact hm ⟨(Option.some_inj.mp heq).symm, hin⟩
        rw [timersIn_eq_of_mode (hout.elsewhere rl' m' hm), List.erase_of_not_mem hnot, timersIn_setTimer]
    · by_cases hm : rl' = rl ∧ m' ∈ (s.timer rlt).rlModes
      · obtain ⟨rfl, hm⟩ := hm
        exact hout.port m' hm
      · exact .inl (port_eq_of_mode (hout.elsewhere rl' m' hm))
  · rename_i hrl
    refine ⟨hunset, by rw [timer_setTimer_self, hentry], fun rl m => ?_, fun _ _ => .inl rfl⟩
    have hnot : rlt ∉ s.timersIn rl m := by
      rw [h.mem_iff, hrl]
      simp
    rw [timersIn_setTimer, List.erase_of_not_mem hnot]

theorem timerInvalidate_invalid (hvalid : (s.timer rlt).isValid = false) :
    timerInvalidate settings now s rlt = s := by
  dsimp only [timerInvalidate]
  rw [hvalid, if_neg Bool.false_ne_true]

end CFLite.RunLoop
