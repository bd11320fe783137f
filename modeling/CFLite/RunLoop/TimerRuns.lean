import CFLite.RunLoop.TimerSteps

/-!
# Runs of timers

Any sequence of calls on timers and modes. A timer's function runs between the
two halves of `__CFRunLoopDoTimer`, so that calls it makes, and other timers
that fire meanwhile, come between them.

* `step_spec`: what one step does to the modes;
* `execution_ordered`: after any run the modes are in order, and the next timer
  of each is its earliest that is not firing;
* `overdue_unarmed`: a port that takes relative times is not set for a time in
  the past.
-/

set_option linter.unusedSectionVars false

namespace CFLite.RunLoop

open Framework RunLoops

variable {T R N : Type} [DecidableEq T] [DecidableEq R] [DecidableEq N] {s s' s₁ : RunLoops T R N}
  {rl rl' : R} {m m' : N} {rlt : T} {settings : Settings} {now : N → Int} {currentTSR : Int}

/-! ## Firing -/

theorem Moved.of_eq (h : Moved settings now s₁ s') (hin : ∀ rl m, s₁.timersIn rl m = s.timersIn rl m)
    (hport : ∀ rl m, s₁.port rl m = s.port rl m) : Moved settings now s s' where
  wellFormed := h.wellFormed
  perm rl m := hin rl m ▸ h.perm rl m
  port rl m := by
    have hset := h.port rl m
    rwa [PortSet, hport] at hset

theorem armNextTimerInMode_moved (h : WellFormed s) :
    Moved settings now s (armNextTimerInMode settings (now m) s rl m) := by
  have hin : ∀ rl' m', (armNextTimerInMode settings (now m) s rl m).timersIn rl' m' = s.timersIn rl' m' := by
    intro rl' m'
    by_cases hm : rl' = rl ∧ m' = m
    · obtain ⟨rfl, rfl⟩ := hm
      simp [timersIn]
    · exact timersIn_eq_of_mode (mode_armNextTimerInMode hm)
  refine ⟨⟨h.toRegistered.perm (fun t => by rw [timer_armNextTimerInMode]; exact ⟨rfl, rfl⟩)
    fun rl m => by rw [hin], fun rl m => ?_⟩, fun rl m => by rw [hin], fun rl' m' => ?_⟩
  · rw [Ordered, hin, timer_armNextTimerInMode]
    exact h.ordered rl m
  · by_cases hm : rl' = rl ∧ m' = m
    · obtain ⟨rfl, rfl⟩ := hm
      exact .of_or (by rw [port_armNextTimerInMode, nextArming_armNextTimerInMode])
    · exact .inl (port_eq_of_mode (mode_armNextTimerInMode hm))

theorem WellFormed.setFiring (h : WellFormed s) (firing : Bool) :
    WellFormed (s.setTimer rlt { s.timer rlt with isFiring := firing }) :=
  h.setTimer ⟨rfl, rfl⟩ rfl

theorem doTimerBegin_spec {call : Callout T R N} (h : WellFormed s)
    (hbegin : doTimerBegin settings now currentTSR s rl m rlt = some (call, s')) : Moved settings now s s' := by
  dsimp only [doTimerBegin] at hbegin
  split at hbegin
  · obtain ⟨_, rfl⟩ := Prod.mk.inj (Option.some_inj.mp hbegin)
    exact (armNextTimerInMode_moved (h.setFiring true)).of_eq (fun _ _ => rfl) fun _ _ => rfl
  · cases hbegin

/-- The timer is invalidated when its function has returned. -/
def Callout.Invalidates (call : Callout T R N) (s : RunLoops T R N) : Prop :=
  call.doInvalidate = true ∧ (s.timer call.rlt).isValid = true

/-- A timer that is not repeating leaves all modes. -/
theorem doTimerEnd_invalidates {call : Callout T R N} (h : WellFormed s) (hcall : call.Invalidates s)
    (hend : doTimerEnd settings now currentTSR s call = some s') :
    Invalidated settings now s s' call.rlt := by
  have hout : Invalidated settings now s (timerInvalidate settings now s call.rlt) call.rlt :=
    timerInvalidate_valid h hcall.2
  dsimp only [doTimerEnd] at hend
  rw [if_pos hcall.1, hout.invalid, if_neg Bool.false_ne_true] at hend
  obtain rfl := Option.some_inj.mp hend
  refine ⟨hout.wellFormed.setTimer ⟨rfl, rfl⟩ rfl, ?_, hout.perm, fun rl m => ?_⟩
  · rw [timer_setTimer_self]
  · have hnot : call.rlt ∉ (timerInvalidate settings now s call.rlt).timersIn rl m := by
      rw [(hout.perm rl m).mem_iff]
      exact (h.timers_nodup rl m).not_mem_erase
    refine (hout.port rl m).later rfl fun t ht => ?_
    have hne : t ≠ call.rlt := by
      rintro rfl
      exact hnot ht
    rw [timer_setTimer_of_ne hne]
    exact ⟨rfl, rfl⟩

theorem called_eq (settings : Settings) (now : N → Int) {call : Callout T R N} (hcall : ¬ call.Invalidates s) :
    (if call.doInvalidate then timerInvalidate settings now s call.rlt else s) = s := by
  split
  · rename_i hdo
    exact timerInvalidate_invalid (by simpa [Callout.Invalidates, hdo] using hcall)
  · rfl

/-- A repeating timer moves within its modes. -/
theorem doTimerEnd_moves {call : Callout T R N} (h : WellFormed s) (hcall : ¬ call.Invalidates s)
    (hend : doTimerEnd settings now currentTSR s call = some s') : Moved settings now s s' := by
  have hunset : WellFormed (s.setTimer call.rlt { s.timer call.rlt with isFiring := false }) := h.setFiring false
  dsimp only [doTimerEnd] at hend
  rw [called_eq settings now hcall] at hend
  split at hend
  · split at hend
    · obtain rfl := Option.some_inj.mp hend
      exact (armNextTimerInMode_moved hunset).of_eq (fun _ _ => rfl) fun _ _ => rfl
    · obtain ⟨next, _, hset⟩ := Option.bind_eq_some_iff.mp hend
      exact (setFireTSR_spec hunset hset).of_eq (fun _ _ => rfl) fun _ _ => rfl
  · obtain rfl := Option.some_inj.mp hend
    exact ⟨hunset, fun _ _ => .rfl, fun _ _ => .inl rfl⟩

/-! ## Runs -/

/-- The run loops, and the calls of `__CFRunLoopDoTimer` whose timer's function
is running. -/
structure Running (T R N : Type) where
  loops : RunLoops T R N
  callouts : List (Callout T R N)

/-- A call. -/
inductive Event (T R N : Type)
  | addTimer (rl : R) (rlt : T) (modeName : N)
  | removeTimer (rl : R) (rlt : T) (modeName : N)
  | timerInvalidate (rlt : T)
  | timerSetNextFireDate (rlt : T) (nextFireTSR : Int)
  | doTimerBegin (currentTSR : Int) (rl : R) (rlm : N) (rlt : T)
  | doTimerEnd (currentTSR : Int) (call : Callout T R N)

/-- One call. The clock shows `now m` when the port of a mode `m` is set. -/
inductive Step (settings : Settings) (now : N → Int) : Running T R N → Event T R N → Running T R N → Prop
  | addTimer {s s' callouts rl rlt m} : addTimer settings (now m) s rl rlt m = some s' →
      Step settings now ⟨s, callouts⟩ (.addTimer rl rlt m) ⟨s', callouts⟩
  | removeTimer {s callouts rl rlt m} :
      Step settings now ⟨s, callouts⟩ (.removeTimer rl rlt m) ⟨removeTimer settings (now m) s rl rlt m, callouts⟩
  | timerInvalidate {s callouts rlt} :
      Step settings now ⟨s, callouts⟩ (.timerInvalidate rlt) ⟨timerInvalidate settings now s rlt, callouts⟩
  | timerSetNextFireDate {s s' callouts rlt tsr} : timerSetNextFireDate settings now s rlt tsr = some s' →
      Step settings now ⟨s, callouts⟩ (.timerSetNextFireDate rlt tsr) ⟨s', callouts⟩
  | doTimerBegin {s s' callouts currentTSR rl m rlt call} :
      doTimerBegin settings now currentTSR s rl m rlt = some (call, s') →
      Step settings now ⟨s, callouts⟩ (.doTimerBegin currentTSR rl m rlt) ⟨s', call :: callouts⟩
  | doTimerPass {s callouts currentTSR rl m rlt} : doTimerBegin settings now currentTSR s rl m rlt = none →
      Step settings now ⟨s, callouts⟩ (.doTimerBegin currentTSR rl m rlt) ⟨s, callouts⟩
  | doTimerEnd {s s' callouts callouts' currentTSR call} :
      doTimerEnd settings now currentTSR s call = some s' →
      Step settings now ⟨s, callouts ++ call :: callouts'⟩ (.doTimerEnd currentTSR call) ⟨s', callouts ++ callouts'⟩

/-- Calls one after another. -/
inductive Execution (settings : Settings) : Running T R N → List (Event T R N) → Running T R N → Prop
  | nil {run} : Execution settings run [] run
  | snoc {run run₁ run' events event now} : Execution settings run events run₁ → Step settings now run₁ event run' →
      Execution settings run (events ++ [event]) run'

/-- No mode has been made, and the timers there are, are in none. -/
def atStart (timer : T → Timer R N) : Running T R N :=
  ⟨⟨fun t => { timer t with isFiring := false, runLoop := none, rlModes := [] }, fun _ _ => none⟩, []⟩

/-- Which timers the modes hold after a call: `CFRunLoopAddTimer` enters a timer
that is not there, `CFRunLoopRemoveTimer` and invalidating take it out, and
nothing else enters or takes out a timer. -/
def Event.Holds (s s' : RunLoops T R N) : Event T R N → Prop
  | .addTimer rl rlt m =>
    (∀ rl' m', Elsewhere rl m rl' m' → (s'.timersIn rl' m').Perm (s.timersIn rl' m')) ∧
    (Admitted s rl rlt m → (s'.timersIn rl m).Perm (rlt :: s.timersIn rl m)) ∧
    (¬ Admitted s rl rlt m → (s'.timersIn rl m).Perm (s.timersIn rl m))
  | .removeTimer rl rlt m =>
    (∀ rl' m', Elsewhere rl m rl' m' → (s'.timersIn rl' m').Perm (s.timersIn rl' m')) ∧
    (s'.timersIn rl m).Perm ((s.timersIn rl m).erase rlt)
  | .timerInvalidate rlt =>
    ∀ rl m, (s'.timersIn rl m).Perm
      (if (s.timer rlt).isValid then (s.timersIn rl m).erase rlt else s.timersIn rl m)
  | .timerSetNextFireDate _ _ | .doTimerBegin _ _ _ _ => ∀ rl m, (s'.timersIn rl m).Perm (s.timersIn rl m)
  | .doTimerEnd _ call =>
    (call.Invalidates s → ∀ rl m, (s'.timersIn rl m).Perm ((s.timersIn rl m).erase call.rlt)) ∧
    (¬ call.Invalidates s → ∀ rl m, (s'.timersIn rl m).Perm (s.timersIn rl m))

variable {run run' : Running T R N} {event : Event T R N} {events : List (Event T R N)}

/-- What one step does to the modes. -/
theorem step_spec (h : WellFormed run.loops) (hstep : Step settings now run event run') :
    WellFormed run'.loops ∧ event.Holds run.loops run'.loops ∧
      ∀ rl m, PortSet settings now run.loops run'.loops rl m := by
  cases hstep with
  | @addTimer s s' callouts rl rlt m hadd =>
    by_cases hnew : Admitted s rl rlt m
    · have hin := addTimer_admitted h hnew hadd
      exact ⟨hin.wellFormed, ⟨hin.others, fun _ => hin.perm, fun hold => absurd hnew hold⟩, hin.port⟩
    · have hin := addTimer_refused h hnew hadd
      exact ⟨hin.wellFormed, ⟨fun rl' m' _ => hin.perm rl' m', fun h => absurd h hnew, fun _ => hin.perm rl m⟩,
        hin.port⟩
  | @removeTimer s callouts rl rlt m =>
    have hout : Changed settings now s (removeTimer settings (now m) s rl rlt m) rl m
      ((s.timersIn rl m).erase rlt) := removeTimer_spec h
    exact ⟨hout.wellFormed, ⟨hout.others, hout.perm⟩, hout.port⟩
  | @timerInvalidate s callouts rlt =>
    cases hvalid : (s.timer rlt).isValid with
    | true =>
      have hout : Invalidated settings now s (timerInvalidate settings now s rlt) rlt :=
        timerInvalidate_valid h hvalid
      exact ⟨hout.wellFormed, fun rl m => by rw [if_pos hvalid]; exact hout.perm rl m, hout.port⟩
    | false =>
      rw [timerInvalidate_invalid hvalid]
      exact ⟨h, fun rl m => by simp [hvalid], fun _ _ => .inl rfl⟩
  | timerSetNextFireDate hset =>
    rw [timerSetNextFireDate] at hset
    split at hset
    · have hmoved := setFireTSR_spec h hset
      exact ⟨hmoved.wellFormed, hmoved.perm, hmoved.port⟩
    · obtain rfl := Option.some_inj.mp hset
      exact ⟨h, fun _ _ => .rfl, fun _ _ => .inl rfl⟩
  | doTimerBegin hbegin =>
    have hmoved := doTimerBegin_spec h hbegin
    exact ⟨hmoved.wellFormed, hmoved.perm, hmoved.port⟩
  | doTimerPass => exact ⟨h, fun _ _ => .rfl, fun _ _ => .inl rfl⟩
  | @doTimerEnd s s' callouts callouts' currentTSR call hend =>
    by_cases hcall : call.Invalidates s
    · have hout := doTimerEnd_invalidates h hcall hend
      exact ⟨hout.wellFormed, ⟨fun _ => hout.perm, fun hnot => absurd hcall hnot⟩, hout.port⟩
    · have hmoved := doTimerEnd_moves h hcall hend
      exact ⟨hmoved.wellFormed, ⟨fun hdo => absurd hdo hcall, fun _ => hmoved.perm⟩, hmoved.port⟩

theorem atStart_wellFormed (timer : T → Timer R N) : WellFormed (atStart timer).loops where
  modes_nodup _ := List.nodup_nil
  timers_nodup _ _ := List.nodup_nil
  mem_iff _ _ _ := by simp [atStart, timersIn, timerArray]
  free _ _ := rfl
  ordered _ _ := List.Pairwise.nil

theorem execution_wellFormed {timer : T → Timer R N} (h : Execution settings (atStart timer) events run) :
    WellFormed run.loops := by
  generalize hstart : atStart timer = start at h
  induction h with
  | nil => exact hstart ▸ atStart_wellFormed timer
  | snoc _ hstep ih => exact (step_spec ih hstep).1

/-! ## Every run -/

/-- The place that `__CFRunLoopInsertionIndexInTimerArray` finds in the mode `m`
for `rlt` with the fire time `tsr`: after the timers that are not later. -/
structure FindsPlace (s : RunLoops T R N) (rl : R) (m : N) (rlt : T) (tsr : Int) (idx : Nat) : Prop where
  index : insertionIndexInTimerArray (Function.update (fun t => (s.timer t).fireTSR) rlt tsr)
    ((s.timersIn rl m).erase rlt) rlt = some idx
  count : idx = ((s.timersIn rl m).erase rlt).countP fun t => (s.timer t).fireTSR ≤ tsr
  before : ∀ t ∈ ((s.timersIn rl m).erase rlt).take idx, (s.timer t).fireTSR ≤ tsr
  after : ∀ t ∈ ((s.timersIn rl m).erase rlt).drop idx, tsr < (s.timer t).fireTSR

theorem WellFormed.findsPlace (h : WellFormed s) (hfew : (s.timersIn rl m).length < 2 ^ 29) (tsr : Int) :
    FindsPlace s rl m rlt tsr
      (((s.timersIn rl m).erase rlt).countP fun t => (s.timer t).fireTSR ≤ tsr) := by
  have hs : SortedBy (fun t => (s.timer t).fireTSR) ((s.timersIn rl m).erase rlt) :=
    (h.ordered rl m).sublist List.erase_sublist
  have hkey : ∀ t ∈ (s.timersIn rl m).erase rlt,
      Function.update (fun t => (s.timer t).fireTSR) rlt tsr t = (s.timer t).fireTSR := by
    intro t ht
    have hne : t ≠ rlt := by
      rintro rfl
      exact (h.timers_nodup rl m).not_mem_erase ht
    rw [Function.update_of_ne hne]
  refine ⟨?_, rfl, fun t ht => hs.le_of_mem_take ht, fun t ht => hs.lt_of_mem_drop ht⟩
  rw [insertionIndex_sorted (hs.congr hkey) (lt_of_le_of_lt List.erase_sublist.length_le hfew),
    Function.update_self, Option.some_inj]
  exact List.countP_congr fun t ht => by rw [hkey t ht]

/-- The timer that `__CFArmNextTimerInMode` sets the port for is the earliest
one that is not firing. The port is left as it was when all are firing, or when
it takes relative times and the time is in the past. -/
def ArmsEarliest (settings : Settings) (now : Int) (s : RunLoops T R N) (rl : R) (m : N) : Prop :=
  (∃ t, Earliest s rl m t ∧ (armNextTimerInMode settings now s rl m).port rl m =
    (settings.platform.arming settings.tenus now t (s.timer t).fireTSR).or (s.port rl m)) ∨
  ((∀ t ∈ s.timersIn rl m, (s.timer t).isFiring = true) ∧
    (armNextTimerInMode settings now s rl m).port rl m = s.port rl m)

theorem WellFormed.armsEarliest (h : WellFormed s) (now : Int) : ArmsEarliest settings now s rl m := by
  rw [ArmsEarliest, port_armNextTimerInMode]
  rcases nextArming_earliest settings now (h.ordered rl m) with ⟨t, ht, hnext⟩ | ⟨hall, hnext⟩
  · exact .inl ⟨t, ht, by rw [hnext]⟩
  · exact .inr ⟨hall, by rw [hnext, Option.none_or]⟩

/-- After any run, the modes hold the timers that say so, each once and in the
order of their fire times; a timer finds its place after those that are not
later; and the next timer of a mode is its earliest that is not firing. -/
structure InOrder (settings : Settings) (s : RunLoops T R N) : Prop where
  ordered : ∀ rl m, (s.timersIn rl m).Pairwise fun t u => (s.timer t).fireTSR ≤ (s.timer u).fireTSR
  once : ∀ rl m, (s.timersIn rl m).Nodup
  mem_iff : ∀ t rl m, t ∈ s.timersIn rl m ↔ (s.timer t).runLoop = some rl ∧ m ∈ (s.timer t).rlModes
  place : ∀ rl m rlt tsr, (s.timersIn rl m).length < 2 ^ 29 → ∃ idx, FindsPlace s rl m rlt tsr idx
  next : ∀ now rl m, ArmsEarliest settings now s rl m

theorem WellFormed.inOrder (h : WellFormed s) : InOrder settings s where
  ordered := h.ordered
  once := h.timers_nodup
  mem_iff := h.mem_iff
  place _ _ _ tsr hfew := ⟨_, h.findsPlace hfew tsr⟩
  next now _ _ := h.armsEarliest now

/-- The calls that move timers return while no mode holds `2 ^ 29` timers. For
the second half of `__CFRunLoopDoTimer`, the next fire time must be found: a
repeating timer whose interval is less than a tick never gets past the present. -/
structure CallsReturn (settings : Settings) (now : N → Int) (s : RunLoops T R N) : Prop where
  addTimer : ∀ rl rlt m, (addTimer settings (now m) s rl rlt m).isSome
  setNextFireDate : ∀ rlt tsr, (timerSetNextFireDate settings now s rlt tsr).isSome
  doTimerEnd : ∀ currentTSR (call : Callout T R N),
    (nextFireTSR (s.timer call.rlt).interval currentTSR call.oldFireTSR).isSome →
    (doTimerEnd settings now currentTSR s call).isSome

theorem WellFormed.callsReturn (h : WellFormed s) (hfew : ∀ rl m, (s.timersIn rl m).length < 2 ^ 29) :
    CallsReturn settings now s where
  addTimer rl _ m := addTimer_isSome settings now (hfew rl m)
  setNextFireDate rlt tsr := by
    rw [timerSetNextFireDate]
    split
    · exact setFireTSR_isSome h hfew tsr
    · rfl
  doTimerEnd currentTSR call hnext := by
    by_cases hcall : call.Invalidates s
    · have hout : Invalidated settings now s (timerInvalidate settings now s call.rlt) call.rlt :=
        timerInvalidate_valid h hcall.2
      dsimp only [doTimerEnd]
      rw [if_pos hcall.1, hout.invalid, if_neg Bool.false_ne_true]
      rfl
    · dsimp only [doTimerEnd]
      rw [called_eq settings now hcall]
      split
      · split
        · rfl
        · obtain ⟨next, hnext⟩ := Option.isSome_iff_exists.mp hnext
          rw [hnext]
          exact setFireTSR_isSome (h.setFiring false) hfew next
      · rfl

/-- The timers of run loop modes stay in order, whatever calls are made. -/
theorem execution_ordered {timer : T → Timer R N} (h : Execution settings (atStart timer) events run) :
    InOrder settings run.loops ∧
      (∀ now, (∀ rl m, (run.loops.timersIn rl m).length < 2 ^ 29) → CallsReturn settings now run.loops) ∧
      ∀ now event run', Step settings now run event run' →
        event.Holds run.loops run'.loops ∧ ∀ rl m, PortSet settings now run.loops run'.loops rl m := by
  have hwf := execution_wellFormed h
  exact ⟨hwf.inOrder, fun now hfew => hwf.callsReturn hfew, fun now event run' hstep => (step_spec hwf hstep).2⟩

/-- Two timers enter a mode. -/
theorem execution_ordered_two : ∃ run : Running Nat Unit Unit,
    Execution ⟨.relative 1, 10000⟩ (atStart fun t : Nat => ⟨true, false, none, [], some 5, 7 - t⟩)
      [.addTimer () 0 (), .addTimer () 1 ()] run ∧ InOrder ⟨.relative 1, 10000⟩ run.loops := by
  obtain ⟨s, hs⟩ : ∃ s, addTimer ⟨.relative 1, 10000⟩ 3
      (atStart fun t : Nat => (⟨true, false, none, [], some 5, 7 - t⟩ : Timer Unit Unit)).loops () 0 () = some s :=
    ⟨_, rfl⟩
  have hfirst : Execution ⟨.relative 1, 10000⟩ (atStart fun t : Nat => ⟨true, false, none, [], some 5, 7 - t⟩)
      [.addTimer () 0 ()] ⟨s, []⟩ := .snoc .nil (.addTimer hs : Step _ (fun _ => 3) _ _ _)
  have hone : s.timersIn () () = [0] := by
    obtain rfl := Option.some_inj.mp hs
    rfl
  obtain ⟨s', hs'⟩ : ∃ s', addTimer ⟨.relative 1, 10000⟩ 3 s () 1 () = some s' := by
    refine Option.isSome_iff_exists.mp (addTimer_isSome _ (fun _ => 3) ?_)
    rw [hone]
    decide
  have hsecond : Execution ⟨.relative 1, 10000⟩ (atStart fun t : Nat => ⟨true, false, none, [], some 5, 7 - t⟩)
      [.addTimer () 0 (), .addTimer () 1 ()] ⟨s', []⟩ := 
    .snoc hfirst (.addTimer hs' : Step _ (fun _ => 3) _ _ _)
  exact ⟨_, hsecond, (execution_ordered hsecond).1⟩

/-- A port that takes relative times is not set for a timer whose time, rounded
up, is in the past: after one overdue timer entered a mode, nothing is armed. -/
theorem overdue_unarmed :
    ¬ ∀ (settings : Settings) (timer : Nat → Timer Unit Unit) (events : List (Event Nat Unit Unit))
      (run : Running Nat Unit Unit), Execution settings (atStart timer) events run → ∀ now rl m,
        (∃ t, Earliest run.loops rl m t) →
        ∃ t, Earliest run.loops rl m t ∧
          ((armNextTimerInMode settings now run.loops rl m).port rl m).map Arming.timer = some t := by
  intro h
  obtain ⟨s, hs⟩ : ∃ s, addTimer ⟨.relative 1, 10000⟩ 100000
      (atStart fun _ : Nat => (⟨true, false, none, [], some 5, 0⟩ : Timer Unit Unit)).loops () 0 () = some s :=
    ⟨_, rfl⟩
  have hstep : Step ⟨.relative 1, 10000⟩ (fun _ => 100000) (atStart fun _ : Nat => ⟨true, false, none, [], some 5, 0⟩)
      (.addTimer () 0 ()) ⟨s, []⟩ := .addTimer hs
  have hearliest : Earliest s () () 0 := by
    obtain rfl := Option.some_inj.mp hs
    refine ⟨List.mem_singleton_self 0, rfl, fun u hu _ => ?_⟩
    obtain rfl : u = 0 := List.mem_singleton.mp hu
    exact le_rfl
  obtain ⟨t, _, hport⟩ := h _ _ _ _ (Execution.nil.snoc hstep) 100000 () () ⟨0, hearliest⟩
  obtain rfl := Option.some_inj.mp hs
  cases hport

end CFLite.RunLoop
