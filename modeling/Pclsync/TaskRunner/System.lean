import Pclsync.Transition
import Mathlib.Data.Fintype.Basic

/-!
# Tasks run by a manager

`psync_task_run_tasks` (`plibs.c`) starts a thread for each of `n` callbacks. A callback hands its
result to the master by `psync_task_complete`, which says whether the master took it; the master
asks for the results of single tasks (`psync_task_get_result`), and lets the manager go
(`psync_task_free`) when it likes, also while callbacks are running. The manager is freed by whoever
lets go of it last.

A critical section on the mutex of the manager is two steps: the mutex is taken and all of the
section is done up to the unlock, or up to a `pthread_cond_wait`, which gives the mutex back; the
unlock is a step of its own. A wait may end at any time. `psync_task_free` reads the counter of
references without the mutex, before its critical section.

* `Worker`, `Master`: where a thread is; `TaskManager`: the memory they share.
* `System.step`: the steps of the threads. A step which uses the manager after it was freed makes
  the system `invalid`.
-/

namespace Pclsync.TaskRunner

variable {n : ℕ} {δ : Type}

/-- `PSYNC_TASK_STATUS_…`. -/
inductive Status
  | running
  | ready
  | done
  | returned

/-- `PSYNC_WAIT_NOBODY`. -/
def waitNobody : ℤ := -2

/-- `PSYNC_WAIT_FREED`. -/
def waitFreed : ℤ := -3

/-- `psync_task_t_`; its callback and its id do not change. -/
structure Task (δ : Type) where
  param : δ
  status : Status

/-- A completed task whose data was not taken is handed back. -/
def Task.giveBack (t : Task δ) : Task δ :=
  match t.status with
  | .ready => { t with status := .returned }
  | _ => t

/-- The threads: the one which started the tasks, and one for each task. -/
inductive Party (n : ℕ)
  | master
  | worker (i : Fin n)
  deriving DecidableEq

/-- `psync_task_manager_t`. -/
structure TaskManager (n : ℕ) (δ : Type) where
  /-- Who holds the mutex. -/
  lockedBy : Option (Party n)
  refcnt : ℤ
  /-- The task the master waits for, `waitNobody` or `waitFreed`. -/
  waitfor : ℤ
  tasks : Fin n → Task δ

/-- Where a thread of a task is. -/
inductive Worker (δ : Type)
  /-- In its callback, before `psync_task_complete`. -/
  | callback
  /-- In `pthread_cond_wait` of `psync_task_complete`. -/
  | waiting (data : δ)
  /-- Before the unlock of `psync_task_complete`, which will return `ret`. -/
  | completing (data : δ) (ret : ℤ)
  /-- In its callback, after `psync_task_complete`. -/
  | completed
  /-- Before the unlock of `psync_task_dec_refcnt`. -/
  | leaving (refcnt : ℤ)
  /-- Before `psync_task_destroy`. -/
  | destroying
  | exited

/-- Where the master is. -/
inductive Master (n : ℕ) (δ : Type)
  /-- Between calls. -/
  | idle
  /-- In `pthread_cond_wait` of `psync_task_get_result`. -/
  | waiting (i : Fin n)
  /-- Before the unlock of `psync_task_get_result`, which will return `ret`. -/
  | returning (i : Fin n) (ret : Option δ)
  /-- In `psync_task_free`, before it takes the mutex. -/
  | freeing
  /-- Before the unlock of `psync_task_free`. -/
  | releasing (refcnt : ℤ)
  /-- Before `psync_task_destroy`. -/
  | destroying
  | gone

/-- The manager and the threads. -/
structure System (n : ℕ) (δ : Type) where
  tm : TaskManager n δ
  workers : Fin n → Worker δ
  master : Master n δ
  /-- How often the manager was freed. -/
  frees : ℕ
  /-- The manager was used after it was freed. -/
  invalid : Bool
  /-- The data a task was completed with, and what `psync_task_complete` returned. -/
  outcomes : Fin n → Option (δ × ℤ)
  /-- The data which `psync_task_get_result` returned, for the tasks asked for. -/
  results : List (Fin n × δ)

/-- The steps of the threads. -/
inductive Action (n : ℕ) (δ : Type)
  /-- `psync_task_complete` takes the mutex. -/
  | complete (i : Fin n) (data : δ)
  /-- A wait in `psync_task_complete` ends. -/
  | wake (i : Fin n)
  /-- `psync_task_dec_refcnt` takes the mutex. -/
  | decRefcnt (i : Fin n)
  /-- A thread of a task releases the mutex. -/
  | unlock (i : Fin n)
  | destroy (i : Fin n)
  /-- `psync_task_get_result` takes the mutex. -/
  | getResult (i : Fin n)
  /-- A wait in `psync_task_get_result` ends. -/
  | wakeMaster
  /-- `psync_task_free` reads the counter of references. -/
  | free
  /-- `psync_task_free` takes the mutex. -/
  | freeLocked
  | unlockMaster
  | destroyMaster

namespace System

variable (S : System n δ)

/-- A party uses the manager. -/
def use : System n δ := { S with invalid := S.invalid || decide (0 < S.frees) }

def setWorker (i : Fin n) (w : Worker δ) : System n δ :=
  { S with workers := Function.update S.workers i w }

def setTask (i : Fin n) (t : Task δ) : System n δ :=
  { S with tm := { S.tm with tasks := Function.update S.tm.tasks i t } }

def setLock (p : Option (Party n)) : System n δ := { S with tm := { S.tm with lockedBy := p } }

def setWaitfor (w : ℤ) : System n δ := { S with tm := { S.tm with waitfor := w } }

def decr : System n δ := { S with tm := { S.tm with refcnt := S.tm.refcnt - 1 } }

/-- `psync_task_complete`, up to the unlock or the wait. -/
def complete (i : Fin n) (data : δ) : System n δ :=
  if S.tm.waitfor = i then
    ((S.setTask i ⟨data, .ready⟩).setLock (some (.worker i))).setWorker i (.completing data 0)
  else if S.tm.waitfor = waitNobody ∨ S.tm.waitfor ≥ 0 then
    (S.setTask i ⟨data, .ready⟩).setWorker i (.waiting data)
  -- the manager was freed, or the value is not a valid one
  else (S.setLock (some (.worker i))).setWorker i (.completing data (-1))

/-- `psync_task_complete`, when its wait ends. -/
def wake (i : Fin n) (data : δ) : System n δ :=
  match (S.tm.tasks i).status with
  | .ready => S
  | .returned => (S.setLock (some (.worker i))).setWorker i (.completing data (-1))
  | _ => (S.setLock (some (.worker i))).setWorker i (.completing data 0)

/-- `psync_task_dec_refcnt`, up to the unlock. -/
def decRefcnt (i : Fin n) : System n δ :=
  (S.decr.setLock (some (.worker i))).setWorker i (.leaving (S.tm.refcnt - 1))

/-- The result is taken from a task. -/
def take (i : Fin n) : System n δ :=
  { (S.setTask i { S.tm.tasks i with status := .done }).setLock (some .master) with
    master := .returning i (some (S.tm.tasks i).param) }

/-- `psync_task_get_result`, up to the unlock or the wait. -/
def getResult (i : Fin n) : System n δ :=
  match (S.tm.tasks i).status with
  | .running => { S.setWaitfor i with master := .waiting i }
  | .ready => S.take i
  | _ => { S.setLock (some .master) with master := .returning i none }

/-- `psync_task_get_result`, when its wait ends. -/
def wakeMaster (i : Fin n) : System n δ :=
  match (S.tm.tasks i).status with
  | .running => S.setWaitfor i
  | _ => (S.setWaitfor waitNobody).take i

/-- `psync_task_free`, up to the unlock. -/
def freeLocked : System n δ :=
  { S with
    tm := { S.tm with
      waitfor := waitFreed
      tasks := fun i => (S.tm.tasks i).giveBack
      refcnt := S.tm.refcnt - 1
      lockedBy := some .master }
    master := .releasing (S.tm.refcnt - 1) }

/-- A thread of a task releases the mutex. -/
def unlock (i : Fin n) : Option (System n δ) :=
  match S.workers i with
  | .completing data ret =>
    some { (S.setLock none).setWorker i .completed with
      outcomes := Function.update S.outcomes i (some (data, ret)) }
  | .leaving refcnt =>
    some ((S.setLock none).setWorker i (if refcnt = 0 then .destroying else .exited))
  | _ => none

/-- The master releases the mutex. -/
def unlockMaster : Option (System n δ) :=
  match S.master with
  | .returning i ret =>
    some { S.setLock none with
      master := .idle, results := S.results ++ (ret.map fun data => (i, data)).toList }
  | .releasing refcnt =>
    some { S.setLock none with master := if refcnt = 0 then .destroying else .gone }
  | _ => none

/-- The state after a step. -/
def step : Action n δ → Option (System n δ)
  | .complete i data =>
    match S.workers i, S.tm.lockedBy with
    | .callback, none => some (S.use.complete i data)
    | _, _ => none
  | .wake i =>
    match S.workers i, S.tm.lockedBy with
    | .waiting data, none => some (S.use.wake i data)
    | _, _ => none
  -- a callback need not complete its task
  | .decRefcnt i =>
    match S.workers i, S.tm.lockedBy with
    | .callback, none => some (S.use.decRefcnt i)
    | .completed, none => some (S.use.decRefcnt i)
    | _, _ => none
  | .unlock i => S.use.unlock i
  | .destroy i =>
    match S.workers i with
    | .destroying => some { S.use.setWorker i .exited with frees := S.frees + 1 }
    | _ => none
  | .getResult i =>
    match S.master, S.tm.lockedBy with
    | .idle, none => some (S.use.getResult i)
    | _, _ => none
  | .wakeMaster =>
    match S.master, S.tm.lockedBy with
    | .waiting i, none => some (S.use.wakeMaster i)
    | _, _ => none
  | .free =>
    match S.master with
    | .idle => some { S.use with master := if S.tm.refcnt = 1 then .destroying else .freeing }
    | _ => none
  | .freeLocked =>
    match S.master, S.tm.lockedBy with
    | .freeing, none => some S.use.freeLocked
    | _, _ => none
  | .unlockMaster => S.use.unlockMaster
  | .destroyMaster =>
    match S.master with
    | .destroying => some { S.use with master := .gone, frees := S.frees + 1 }
    | _ => none

/-- `psync_task_run_tasks`: the state in which it returns, when no thread has done anything yet. -/
def start (params : Fin n → δ) : System n δ where
  tm :=
    { lockedBy := none
      refcnt := n + 1
      waitfor := waitNobody
      tasks := fun i => ⟨params i, .running⟩ }
  workers _ := .callback
  master := .idle
  frees := 0
  invalid := false
  outcomes _ := none
  results := []

end System

/-- The machine of the threads. -/
def machine (n : ℕ) (δ : Type) : Machine (System n δ) (Action n δ) where
  init S := ∃ params, S = System.start params
  step := System.step

end Pclsync.TaskRunner
