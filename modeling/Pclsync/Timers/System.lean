import Pclsync.TimingWheel
import Pclsync.Transition

/-!
# Timers

`ptimer.c`: timers which are called after a number of seconds, and again after each such period,
until they are stopped. They are in a timing wheel of three levels of 64 slots. The timer thread
sets `psync_current_time`, and then takes the mutex and goes through the seconds since the last
time; a timer which is registered in between is placed by the new time in a wheel which is still at
the old one.

What runs under the mutex is one step, and so is the call of each callback. The state records the
periods, which are numbered as they start: those which were called (`calls`), and those of timers
stopped before that.
-/

namespace Pclsync.Timers

open TimingWheel

/-- `TIMER_ARRAY_SIZE_SHIFT`. -/
def timerArraySizeShift : ℕ := 6

/-- `TIMER_ARRAY_SIZE`. -/
def timerArraySize : ℕ := 64

/-- `TIMER_LEVELS`. -/
def timerLevels : ℕ := 3

/-- `psync_timer_structure_t`. -/
structure Timer where
  /-- Which timer it is: the pointer to it. -/
  id : ℕ
  numsec : ℕ
  level : ℕ
  runat : ℕ
  /-- `PTIMER_IS_RUNNING`. -/
  running : Bool
  /-- `PTIMER_STOP_AFTER_RUN`. -/
  stopAfterRun : Bool
  /-- The number of its current period. -/
  period : ℕ
  deriving DecidableEq

/-- `timerlists`: the list `[i][j]` consists of the entries at the level `i` in the slot `j`. -/
abbrev Lists := List (Entry Timer)

/-- `psync_list_add_tail` to `timerlists[i][j]`. -/
def addTail (lists : Lists) (i j : ℕ) (timer : Timer) : Lists := lists ++ [⟨i, j, timer⟩]

/-! ## The wheel -/

/-- `timer_check_upper_levels`. -/
def timerCheckUpperLevels (tmdiv level sh : ℕ) (lists : Lists) : Lists :=
  let m := tmdiv % timerArraySize
  let lists :=
    if _h : m = 0 ∧ level < timerLevels - 2 then
      timerCheckUpperLevels (tmdiv / timerArraySize) (level + 1) (sh + timerArraySizeShift) lists
    else lists
  cascade (fun timer => (timer.runat >>> sh) % timerArraySize) level m lists
termination_by timerLevels - level
decreasing_by
  have hlevel := _h.2
  rw [timerLevels] at hlevel ⊢
  omega

/-- A timer which was taken out of the wheel at the second `tick`. -/
structure Picked where
  timer : Timer
  tick : ℕ

/-- The body of the loop of `timer_prepare_timers`. -/
def prepareTick (x : Lists × List Picked) (i : ℕ) : Lists × List Picked :=
  let m := i % timerArraySize
  let lists := if m = 0 then timerCheckUpperLevels (i / timerArraySize) 0 0 x.1 else x.1
  (lists.filter fun e => !e.at 0 m,
    x.2 ++ (lists.filter fun e => e.at 0 m).map fun e => ⟨{ e.item with running := true }, i⟩)

/-- `timer_prepare_timers`, for the seconds after `t`, up to `t'`. -/
def timerPrepareTimers (t t' : ℕ) (lists : Lists) : Lists × List Picked :=
  (List.range' (t + 1) (t' - t)).foldl prepareTick (lists, [])

/-- The loop of `psync_timer_register`, with the number of its remaining steps. -/
def levelLoop (numsec : ℕ) : ℕ → ℕ → ℕ → ℕ × ℕ
  | 0, i, n => (i, n)
  | k + 1, i, n => if numsec ≤ n then (i, n) else levelLoop numsec k (i + 1) (n * timerArraySize)

/-- The level of a timer, and the number of seconds, which is at most the maximum. -/
def levelOf (numsec : ℕ) : ℕ × ℕ :=
  let (i, n) := levelLoop numsec timerLevels 0 timerArraySize
  if i = timerLevels then (i - 1, n / timerArraySize) else (i, numsec)

/-! ## The machine -/

/-- Where the timer thread is. -/
inductive Phase
  | sleeping
  /-- `psync_current_time` is set. -/
  | updated
  /-- The timers are taken out of the wheel, and are called. -/
  | calling
  deriving DecidableEq

/-- A callback which was called. -/
structure Fired where
  period : ℕ
  runat : ℕ
  tick : ℕ

structure System where
  lists : Lists
  /-- `psync_current_time`. -/
  currentTime : ℕ
  /-- The time up to which the wheel was advanced, a variable of the timer thread. -/
  lt : ℕ
  phase : Phase
  /-- The timers of the timer thread which are still to be called. -/
  timers : List Picked
  /-- Those which were called. -/
  done : List Timer
  /-- The number of timers registered. -/
  registered : ℕ
  /-- The number of periods started. -/
  periods : ℕ
  /-- The periods which were called. -/
  calls : List Fired
  /-- The periods of timers which were stopped before they were called. -/
  stopped : List ℕ
  /-- The timers which were freed. -/
  freed : List ℕ

/-- A thread registers or stops a timer, or the timer thread goes on. -/
inductive Action
  | register (numsec : ℕ)
  | stop (id : ℕ)
  | update (time : ℕ)
  | prepare
  | call
  | finish

namespace System

variable (S : System)

/-- `psync_timer_register`. -/
def register (numsec : ℕ) : System :=
  let timer : Timer := {
    id := S.registered
    numsec := (levelOf numsec).2
    level := (levelOf numsec).1
    runat := S.currentTime + (levelOf numsec).2
    running := false
    stopAfterRun := false
    period := S.periods }
  { S with
    lists := addTail S.lists timer.level
      ((timer.runat >>> (timer.level * timerArraySizeShift)) % timerArraySize) timer
    registered := S.registered + 1
    periods := S.periods + 1 }

/-- The timers which can be stopped. -/
def live : List Timer := S.lists.map Entry.item ++ S.timers.map Picked.timer ++ S.done

/-- The timer is marked, if it is this one. -/
def stopRun (id : ℕ) (timer : Timer) : Timer :=
  if timer.id = id then { timer with stopAfterRun := true } else timer

/-- `psync_timer_stop`. -/
def stopTimer (timer : Timer) : System :=
  if timer.running then
    { S with
      timers := S.timers.map fun p => { p with timer := stopRun timer.id p.timer }
      done := S.done.map (stopRun timer.id) }
  else
    { S with
      lists := S.lists.eraseP fun e => e.item = timer
      stopped := S.stopped ++ [timer.period]
      freed := S.freed ++ [timer.id] }

/-- A timer which was called goes back to the wheel, or is freed, in `timer_process_timers`. -/
def processTimer (S : System) (timer : Timer) : System :=
  if timer.stopAfterRun then { S with freed := S.freed ++ [timer.id] }
  else
    let timer := { timer with
      running := false
      stopAfterRun := false
      runat := S.currentTime + timer.numsec
      period := S.periods }
    { S with
      lists := addTail S.lists timer.level
        ((timer.runat >>> (timer.level * timerArraySizeShift)) % timerArraySize) timer
      periods := S.periods + 1 }

def step : Action → Option System
  | .register numsec => some (S.register numsec)
  | .stop id => (S.live.find? fun timer => timer.id = id).map S.stopTimer
  | .update time =>
    if S.phase = .sleeping then some { S with currentTime := time, phase := .updated } else none
  | .prepare =>
    if S.phase = .updated then
      let (lists, timers) := timerPrepareTimers S.lt S.currentTime S.lists
      some { S with lists := lists, timers := timers, phase := .calling }
    else none
  | .call =>
    match S.timers with
    | [] => none
    | p :: timers => some { S with
        timers := timers
        done := S.done ++ [p.timer]
        calls := S.calls ++ [⟨p.timer.period, p.timer.runat, p.tick⟩] }
  | .finish =>
    if S.phase = .calling ∧ S.timers = [] then
      let S' := S.done.foldl processTimer S
      some { S' with done := [], lt := S.currentTime, phase := .sleeping }
    else none

/-- `psync_timer_init`. -/
def start (time : ℕ) : System where
  lists := []
  currentTime := time
  lt := time
  phase := .sleeping
  timers := []
  done := []
  registered := 0
  periods := 0
  calls := []
  stopped := []
  freed := []

end System

/-- The machine of the timer thread and those which use timers. -/
def machine : Machine System Action where
  init S := ∃ time, S = .start time
  step := System.step

end Pclsync.Timers
