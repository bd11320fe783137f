import CFLite.Base.Prefix
import Mathlib.Data.List.InsertIdx
import Mathlib.Logic.Function.Basic

/-!
# Timers of run loop modes

`CFRunLoop.c`: the arrays of timers that the modes of run loops keep, and the
functions that change them. A timer has one fire time, whichever modes it is
in.

* the double arithmetic on dates is outside: a fire date and an interval enter
  as the TSR (the ticks of `mach_absolute_time`) they are converted to;
* sets of mode names are lists, in the order in which they were added.
-/

namespace CFLite.RunLoop

variable {T R N : Type} [DecidableEq T] [DecidableEq R] [DecidableEq N]

/-- `struct __CFRunLoopTimer` -/
structure Timer (R N : Type) where
  isValid : Bool
  isFiring : Bool
  runLoop : Option R
  rlModes : List N
  /-- The TSR of `_interval`, at most that of `TIMER_INTERVAL_LIMIT`. A timer
  with interval `0.0` has none. -/
  interval : Option Int
  fireTSR : Int

/-- What a mode's timer port is set to: the time, and the timer it was set for. -/
structure Arming (T : Type) where
  timer : T
  time : Int
  deriving DecidableEq

/-- `struct __CFRunLoopMode` -/
structure Mode (T : Type) where
  timers : Option (List T)
  timerPort : Option (Arming T)

/-- All timers and all modes of all run loops. -/
structure RunLoops (T R N : Type) where
  timer : T → Timer R N
  mode : R → N → Option (Mode T)

/-- Timer ports are told the time at which to fire (Mach, Windows), or how
many units of that many TSR ticks from now (kqueue). -/
inductive Platform
  | absolute
  | relative (unit : Int)

namespace RunLoops

def setTimer (s : RunLoops T R N) (rlt : T) (timer : Timer R N) : RunLoops T R N :=
  { s with timer := Function.update s.timer rlt timer }

def setMode (s : RunLoops T R N) (rl : R) (name : N) (mode : Mode T) : RunLoops T R N :=
  { s with mode := Function.update s.mode rl (Function.update (s.mode rl) name (some mode)) }

/-- `rlm->_timers` -/
def timerArray (s : RunLoops T R N) (rl : R) (name : N) : Option (List T) := (s.mode rl name).bind Mode.timers

/-- The timers of a mode, none when it has no array. -/
def timersIn (s : RunLoops T R N) (rl : R) (name : N) : List T := (s.timerArray rl name).getD []

/-- What the port of a mode is set to. -/
def port (s : RunLoops T R N) (rl : R) (name : N) : Option (Arming T) := (s.mode rl name).bind Mode.timerPort

def setTimers (s : RunLoops T R N) (rl : R) (name : N) (timers : List T) : RunLoops T R N :=
  s.setMode rl name { timers := some timers, timerPort := s.port rl name }

def setPort (s : RunLoops T R N) (rl : R) (name : N) (arming : Option (Arming T)) : RunLoops T R N :=
  s.setMode rl name { timers := s.timerArray rl name, timerPort := arming }

end RunLoops

open RunLoops

/-! ## The place of a timer -/

/-- `(1 << flsl(cnt)) * 2`, in an `int`. -/
def firstAdd (cnt : Nat) : Option Nat :=
  if flsl cnt < 31 ∧ oneShl (flsl cnt) * 2 < 2 ^ 31 then some (oneShl (flsl cnt) * 2).toNat else none

/-- The loop of `__CFRunLoopInsertionIndexInTimerArray`. -/
def probe (fireTSR : T → Int) (array : List T) (rlt : T) (add idx : Nat) : Nat :=
  let add' := add / 2
  let lastTestLEQ := (array[idx + add']?).any fun item => fireTSR item ≤ fireTSR rlt
  let idx' := if lastTestLEQ then idx + add' else idx
  if 0 < add' then probe fireTSR array rlt add' idx'
  else if lastTestLEQ then idx' + 1 else idx'
termination_by add

/-- `__CFRunLoopInsertionIndexInTimerArray`. There is no result when the first
step does not fit an `int`. -/
def insertionIndexInTimerArray (fireTSR : T → Int) (array : List T) (rlt : T) : Option Nat :=
  let cnt := array.length
  if cnt = 0 then some 0
  else if 256 < cnt ∧ (array[cnt - 1]?).any (fun item => fireTSR item ≤ fireTSR rlt) then some cnt
  else if 256 < cnt ∧ (array[0]?).any (fun item => fireTSR rlt < fireTSR item) then some 0
  else (firstAdd cnt).map fun add => probe fireTSR array rlt add 0

/-! ## The timer port -/

/-- `__CFTimerRoundFireTSRToTenus`, with C's division. -/
def roundFireTSRToTenus (tenus fireTSR : Int) : Int := (fireTSR.tdiv tenus + 1) * tenus

/-- What `__CFArmTimerInMode` sets the port to, if it does. A time in the past
is skipped when ports take relative times. -/
def Platform.arming (p : Platform) (tenus now : Int) (rlt : T) (fireTSR : Int) : Option (Arming T) :=
  match p with
  | .absolute => some ⟨rlt, roundFireTSRToTenus tenus fireTSR⟩
  | .relative unit =>
    let data := (roundFireTSRToTenus tenus fireTSR - now).tdiv unit
    if 0 ≤ data then some ⟨rlt, data⟩ else none

/-- The clock and the ports. -/
structure Settings where
  platform : Platform
  tenus : Int

/-- `__CFArmTimerInMode`, when the clock shows `now`. -/
def armTimerInMode (settings : Settings) (now : Int) (s : RunLoops T R N) (rl : R) (rlm : N) (rlt : T) :
    RunLoops T R N :=
  match settings.platform.arming settings.tenus now rlt (s.timer rlt).fireTSR with
  | some arming => s.setPort rl rlm (some arming)
  | none => s

/-- `__CFArmNextTimerInMode` -/
def armNextTimerInMode (settings : Settings) (now : Int) (s : RunLoops T R N) (rl : R) (rlm : N) : RunLoops T R N :=
  match (s.timersIn rl rlm).find? fun t => !(s.timer t).isFiring with
  | some nextTimer => armTimerInMode settings now s rl rlm nextTimer
  | none => s

/-! ## Timers and modes -/

/-- Enters `rlt` into `timers`, the timers of the mode. -/
def insertTimer (settings : Settings) (now : Int) (s : RunLoops T R N) (rl : R) (rlm : N) (timers : List T)
    (rlt : T) : Option (RunLoops T R N) :=
  (insertionIndexInTimerArray (fun t => (s.timer t).fireTSR) timers rlt).map fun newIdx =>
    armNextTimerInMode settings now (s.setTimers rl rlm (timers.insertIdx newIdx rlt)) rl rlm

/-- `__CFRepositionTimerInMode` -/
def repositionTimerInMode (settings : Settings) (now : Int) (s : RunLoops T R N) (rl : R) (rlm : N) (rlt : T)
    (isInArray : Bool) : Option (RunLoops T R N) :=
  match s.timerArray rl rlm with
  | none => some s
  | some timers =>
    if isInArray then
      match timers.idxOf? rlt with
      | some idx => insertTimer settings now s rl rlm (timers.eraseIdx idx) rlt
      | none => some s
    else insertTimer settings now s rl rlm timers rlt

/-- `__CFRunLoopFindMode` with `create`, and the array of timers that
`CFRunLoopAddTimer` makes for a mode without one. -/
def findModeWithTimers (s : RunLoops T R N) (rl : R) (modeName : N) : RunLoops T R N :=
  s.setTimers rl modeName (s.timersIn rl modeName)

/-- `CFRunLoopAddTimer` -/
def addTimer (settings : Settings) (now : Int) (s : RunLoops T R N) (rl : R) (rlt : T) (modeName : N) :
    Option (RunLoops T R N) :=
  let timer := s.timer rlt
  if !timer.isValid || (timer.runLoop.isSome && timer.runLoop != some rl) then some s
  else
    let found := findModeWithTimers s rl modeName
    if modeName ∈ timer.rlModes then some found
    else
      let added := found.setTimer rlt { timer with runLoop := some rl, rlModes := timer.rlModes ++ [modeName] }
      repositionTimerInMode settings now added rl modeName rlt false

/-- The timer is no more in the mode. -/
def leaveMode (timer : Timer R N) (modeName : N) : Timer R N :=
  let rlModes := timer.rlModes.erase modeName
  { timer with rlModes, runLoop := if rlModes = [] then none else timer.runLoop }

/-- `CFRunLoopRemoveTimer` -/
def removeTimer (settings : Settings) (now : Int) (s : RunLoops T R N) (rl : R) (rlt : T) (modeName : N) :
    RunLoops T R N :=
  match s.timerArray rl modeName with
  | none => s
  | some timers =>
    match timers.idxOf? rlt with
    | none => s
    | some idx =>
      let left := (s.setTimer rlt (leaveMode (s.timer rlt) modeName)).setTimers rl modeName (timers.eraseIdx idx)
      if timers.eraseIdx idx = [] then left.setPort rl modeName none
      else if idx = 0 then armNextTimerInMode settings now left rl modeName
      else left

/-- `CFRunLoopTimerInvalidate`. The clock shows `now name` when the port of the
mode `name` is set. -/
def timerInvalidate (settings : Settings) (now : N → Int) (s : RunLoops T R N) (rlt : T) : RunLoops T R N :=
  let timer := s.timer rlt
  if timer.isValid then
    let unset := s.setTimer rlt { timer with isValid := false }
    match timer.runLoop with
    | some rl => timer.rlModes.foldl (fun s name => removeTimer settings (now name) s rl rlt name) unset
    | none => unset
  else s

/-- Gives a timer a new fire time, and its new place in all its modes. -/
def setFireTSR (settings : Settings) (now : N → Int) (s : RunLoops T R N) (rlt : T) (nextFireTSR : Int) :
    Option (RunLoops T R N) :=
  let timer := s.timer rlt
  let set := s.setTimer rlt { timer with fireTSR := nextFireTSR }
  match timer.runLoop with
  | some rl =>
    timer.rlModes.foldlM (fun s name => repositionTimerInMode settings (now name) s rl name rlt true) set
  | none => some set

/-- `CFRunLoopTimerSetNextFireDate` -/
def timerSetNextFireDate (settings : Settings) (now : N → Int) (s : RunLoops T R N) (rlt : T) (nextFireTSR : Int) :
    Option (RunLoops T R N) :=
  if (s.timer rlt).isValid then setFireTSR settings now s rlt nextFireTSR else some s

/-! ## Firing -/

/-- A call of `__CFRunLoopDoTimer` that calls out: its arguments and locals. -/
structure Callout (T R N : Type) where
  rl : R
  rlm : N
  rlt : T
  oldFireTSR : Int
  doInvalidate : Bool

/-- `__CFRunLoopDoTimer` up to the call of the timer's function, at `currentTSR`. -/
def doTimerBegin (settings : Settings) (now : N → Int) (currentTSR : Int) (s : RunLoops T R N) (rl : R) (rlm : N)
    (rlt : T) : Option (Callout T R N × RunLoops T R N) :=
  let timer := s.timer rlt
  if timer.isValid && timer.fireTSR ≤ currentTSR && !timer.isFiring && timer.runLoop == some rl then
    let firing := s.setTimer rlt { timer with isFiring := true }
    some (⟨rl, rlm, rlt, timer.fireTSR, timer.interval.isNone⟩,
      armNextTimerInMode settings (now rlm) firing rl rlm)
  else none

/-- `while (nextFireTSR <= currentTSR) nextFireTSR += intervalTSR`. Without an
interval it does not end. -/
def skipPast (intervalTSR currentTSR nextFireTSR : Int) : Option Int :=
  if nextFireTSR ≤ currentTSR then
    if 0 < intervalTSR then skipPast intervalTSR currentTSR (nextFireTSR + intervalTSR) else none
  else some nextFireTSR
termination_by (currentTSR + 1 - nextFireTSR).toNat

/-- `LLONG_MAX` -/
def llongMax : Int := 2 ^ 63 - 1

/-- The fire time that follows `oldFireTSR`. -/
def nextFireTSR (interval : Option Int) (currentTSR oldFireTSR : Int) : Option Int :=
  let intervalTSR := interval.getD 0
  if llongMax - intervalTSR ≤ oldFireTSR then some llongMax else skipPast intervalTSR currentTSR oldFireTSR

/-- `__CFRunLoopDoTimer` from the return of the timer's function on. -/
def doTimerEnd (settings : Settings) (now : N → Int) (currentTSR : Int) (s : RunLoops T R N)
    (call : Callout T R N) : Option (RunLoops T R N) :=
  let called := if call.doInvalidate then timerInvalidate settings now s call.rlt else s
  let timer := called.timer call.rlt
  let unset := called.setTimer call.rlt { timer with isFiring := false }
  if timer.isValid then
    if call.oldFireTSR < timer.fireTSR then
      some (armNextTimerInMode settings (now call.rlm) unset call.rl call.rlm)
    else
      (nextFireTSR timer.interval currentTSR call.oldFireTSR).bind fun next =>
        setFireTSR settings now unset call.rlt next
  else some unset

end CFLite.RunLoop
