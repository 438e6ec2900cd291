import Mathlib.Data.Fintype.Card
import Pclsync.Transition

/-!
# Recursive locks with a reservation

`psync_rwlock_t` (`plocks.c`): held by any number of readers, one of which may own the
*reservation*, or by one writer. A reader that owns the reservation waits for the others to become
a writer, and no writer comes before it.

How often a thread holds the lock is known to the thread only, in two counters packed into a pointer
(`Cnt`): the first one counts when it reads, the second one when it writes. The value `wrReserved`
of the second one marks the owner of the reservation.

A call is one step, up to where it waits: what it does after the mutex is released concerns its own
thread only. A wait may end at any time (`Action.wake`), and goes on when the condition of the loop
still holds; which condition variables are signalled does not matter then. `held` counts the calls
which took the lock, less those which released it.
-/

namespace Pclsync.RwLock

/-- The values of `uint_halfptr_t`. -/
def halfptrSize : ℕ := 0x100000000

/-- `PSYNC_WR_RESERVED`. -/
def wrReserved : ℕ := halfptrSize - 1

/-- `psync_rwlock_lockcnt_t`: `cnt[0]` and `cnt[1]`. -/
structure Cnt where
  rd : ℕ
  wr : ℕ

/-- `++` of a `uint_halfptr_t`. -/
def incr (c : ℕ) : ℕ := (c + 1) % halfptrSize

/-- The loops in which a thread waits, by the functions they are in. -/
inductive Wait
  | rdlock
  | timedrdlock
  | rdlockStarvewr
  | wrlock
  | timedwrlock
  | rslock
  | towrlock
  deriving DecidableEq

/-- Whether the threads in the loop are counted in `rwait`, and not in `wwait`. -/
def Wait.reads : Wait → Bool
  | .rdlock | .timedrdlock | .rdlockStarvewr => true
  | .wrlock | .timedwrlock | .rslock | .towrlock => false

structure Thread where
  cnt : Cnt
  waiting : Option Wait
  held : ℕ

/-- `psync_rwlock_t`, and the threads which use it. -/
structure State (ι : Type*) where
  rcount : ℕ
  rwait : ℕ
  wcount : ℕ
  wwait : ℕ
  /-- `PSYNC_RW_OPT_RESERVED`. -/
  reserved : Bool
  thread : ι → Thread
  /-- An assertion has failed. -/
  aborted : Bool

/-! ## Recursion -/

/-- What is known from the counters of the thread which takes the lock. -/
inductive In
  | failed
  | recursive (cnt : Cnt)
  | first

/-- `psync_rwlock_check_rdrecursive_in`. -/
def checkRdrecursiveIn (cnt : Cnt) : In :=
  if cnt.rd ≠ 0 then .recursive { cnt with rd := incr cnt.rd }
  else if cnt.wr ≠ 0 then
    if cnt.wr = wrReserved then .failed else .recursive { cnt with wr := incr cnt.wr }
  else .first

/-- `psync_rwlock_check_wrrecursive_in`. -/
def checkWrrecursiveIn (cnt : Cnt) : In :=
  if cnt.rd ≠ 0 then .failed
  else if cnt.wr ≠ 0 then
    if cnt.wr = wrReserved then .failed else .recursive { cnt with wr := incr cnt.wr }
  else .first

/-- `psync_rwlock_check_recursive_out`: the counters, and whether the lock is still held; `none`
    when the assertion fails. -/
def checkRecursiveOut (cnt : Cnt) : Option (Cnt × Bool) :=
  if cnt.rd ≠ 0 then some ({ cnt with rd := cnt.rd - 1 }, decide (0 < cnt.rd - 1))
  else if cnt.wr = 0 then none
  else some ({ cnt with wr := cnt.wr - 1 }, decide (0 < cnt.wr - 1))

/-! ## The calls -/

namespace State

variable {ι : Type*} [DecidableEq ι] (S : State ι) (i : ι)

def setThread (t : Thread) : State ι := { S with thread := Function.update S.thread i t }

def abort : State ι := { S with aborted := true }

/-- The conditions of the loops. -/
def Blocked : Wait → Prop
  | .rdlock | .timedrdlock => S.wcount ≠ 0 ∨ S.wwait ≠ 0 ∧ S.reserved = false
  | .rdlockStarvewr => S.wcount ≠ 0
  | .wrlock | .timedwrlock => S.rcount ≠ 0 ∨ S.wcount ≠ 0 ∨ S.reserved = true
  | .rslock => S.wcount ≠ 0 ∨ S.reserved = true
  | .towrlock => S.rcount ≠ 0

instance (w : Wait) : Decidable (S.Blocked w) :=
  match w with
  | .rdlock | .timedrdlock => inferInstanceAs (Decidable (_ ∨ _ ∧ _))
  | .rdlockStarvewr | .towrlock => inferInstanceAs (Decidable (_ ≠ _))
  | .wrlock | .timedwrlock => inferInstanceAs (Decidable (_ ∨ _ ∨ _))
  | .rslock => inferInstanceAs (Decidable (_ ∨ _))

/-- The thread starts to wait. -/
def enterWait (w : Wait) : State ι :=
  { S with
    rwait := if w.reads then S.rwait + 1 else S.rwait
    wwait := if w.reads then S.wwait else S.wwait + 1 }.setThread i
      { S.thread i with waiting := some w }

/-- A wait of the kind ends. -/
def leaveWait (w : Wait) : State ι :=
  { S with
    rwait := if w.reads then S.rwait - 1 else S.rwait
    wwait := if w.reads then S.wwait else S.wwait - 1 }

/-- What follows the loop. -/
def acquire : Wait → State ι
  | .rdlock | .timedrdlock | .rdlockStarvewr =>
    { S with rcount := S.rcount + 1 }.setThread i ⟨⟨1, 0⟩, none, (S.thread i).held + 1⟩
  | .wrlock | .timedwrlock =>
    { S with wcount := S.wcount + 1 }.setThread i ⟨⟨0, 1⟩, none, (S.thread i).held + 1⟩
  | .rslock =>
    { S with rcount := S.rcount + 1, reserved := true }.setThread i
      ⟨⟨1, wrReserved⟩, none, (S.thread i).held + 1⟩
  | .towrlock =>
    if S.wcount ≠ 0 then S.abort
    else
      { S with wcount := S.wcount + 1, reserved := false }.setThread i
        ⟨⟨0, (S.thread i).cnt.rd⟩, none, (S.thread i).held⟩

/-- A loop, up to its first wait. -/
def await (w : Wait) : State ι := if S.Blocked w then S.enterWait i w else S.acquire i w

/-- The loop of the `try` variants. -/
def tryAcquire (w : Wait) : State ι := if S.Blocked w then S else S.acquire i w

/-- The lock is taken once more by a thread which holds it, or for the first time, with the state
    after that. -/
def lockIn (first : State ι) : In → State ι
  | .failed => S.abort
  | .recursive cnt => S.setThread i { S.thread i with cnt := cnt, held := (S.thread i).held + 1 }
  | .first => first

/-- `psync_rwlock_rdlock`. -/
def rdlock : State ι := S.lockIn i (S.await i .rdlock) (checkRdrecursiveIn (S.thread i).cnt)

/-- `psync_rwlock_tryrdlock`. -/
def tryrdlock : State ι := S.lockIn i (S.tryAcquire i .rdlock) (checkRdrecursiveIn (S.thread i).cnt)

/-- `psync_rwlock_timedrdlock`. -/
def timedrdlock : State ι :=
  S.lockIn i (S.await i .timedrdlock) (checkRdrecursiveIn (S.thread i).cnt)

/-- `psync_rwlock_rdlock_starvewr`. -/
def rdlockStarvewr : State ι :=
  S.lockIn i (S.await i .rdlockStarvewr) (checkRdrecursiveIn (S.thread i).cnt)

/-- `psync_rwlock_wrlock`. -/
def wrlock : State ι := S.lockIn i (S.await i .wrlock) (checkWrrecursiveIn (S.thread i).cnt)

/-- `psync_rwlock_trywrlock`. -/
def trywrlock : State ι := S.lockIn i (S.tryAcquire i .wrlock) (checkWrrecursiveIn (S.thread i).cnt)

/-- `psync_rwlock_timedwrlock`. -/
def timedwrlock : State ι :=
  S.lockIn i (S.await i .timedwrlock) (checkWrrecursiveIn (S.thread i).cnt)

/-- `psync_rwlock_rslock`. -/
def rslock : State ι :=
  let cnt := (S.thread i).cnt
  S.lockIn i (S.await i .rslock) (if cnt.rd ≠ 0 then .failed
    else if cnt.wr ≠ 0 then
      if cnt.wr = wrReserved then .recursive { cnt with rd := incr cnt.rd }
      else .recursive { cnt with wr := incr cnt.wr }
    else .first)

/-- `psync_rwlock_towrlock`. -/
def towrlock : State ι :=
  let cnt := (S.thread i).cnt
  if cnt.wr ≠ 0 ∧ cnt.wr ≠ wrReserved then S
  else if cnt.rd = 0 ∨ S.rcount = 0 ∨ S.wcount ≠ 0 then S.abort
  else if S.reserved ∧ cnt.wr ≠ wrReserved then S
  else { S with reserved := true, rcount := S.rcount - 1 }.await i .towrlock

/-- `psync_rwlock_unlock`. -/
def unlock : State ι :=
  let t := S.thread i
  match checkRecursiveOut t.cnt with
  | none => S.abort
  | some (cnt, true) => S.setThread i { t with cnt := cnt, held := t.held - 1 }
  | some (cnt, false) =>
    if S.rcount ≠ 0 ∧ S.wcount ≠ 0 then S.abort
    else if S.rcount ≠ 0 then
      -- `psync_rwlock_is_reserved_by_this_thread_clr`
      if S.reserved ∧ cnt.wr = wrReserved then
        { S with reserved := false, rcount := S.rcount - 1 }.setThread i
          { t with cnt := { cnt with wr := 0 }, held := t.held - 1 }
      else
        { S with rcount := S.rcount - 1 }.setThread i { t with cnt := cnt, held := t.held - 1 }
    else if S.wcount = 0 ∨ S.wcount - 1 = 0 ∧ S.reserved ∧ S.wwait = 0 then S.abort
    else { S with wcount := S.wcount - 1 }.setThread i { t with cnt := cnt, held := t.held - 1 }

/-- `psync_rwlock_init`. -/
def start : State ι where
  rcount := 0
  rwait := 0
  wcount := 0
  wwait := 0
  reserved := false
  thread := fun _ => ⟨⟨0, 0⟩, none, 0⟩
  aborted := false

end State

/-! ## The machine -/

/-- The functions a thread calls. -/
inductive Call
  | rdlock
  | tryrdlock
  | timedrdlock
  | rdlockStarvewr
  | wrlock
  | trywrlock
  | timedwrlock
  | rslock
  | towrlock
  | unlock

/-- A thread makes a call, a wait ends, or its time is over. -/
inductive Action (ι : Type*)
  | call (i : ι) (c : Call)
  | wake (i : ι)
  | timeout (i : ι)

namespace State

variable {ι : Type*} [DecidableEq ι] (S : State ι)

def call (i : ι) : Call → State ι
  | .rdlock => S.rdlock i
  | .tryrdlock => S.tryrdlock i
  | .timedrdlock => S.timedrdlock i
  | .rdlockStarvewr => S.rdlockStarvewr i
  | .wrlock => S.wrlock i
  | .trywrlock => S.trywrlock i
  | .timedwrlock => S.timedwrlock i
  | .rslock => S.rslock i
  | .towrlock => S.towrlock i
  | .unlock => S.unlock i

def step : Action ι → Option (State ι)
  | .call i c => if S.aborted ∨ (S.thread i).waiting ≠ none then none else some (S.call i c)
  | .wake i =>
    if S.aborted then none
    else (S.thread i).waiting.map fun w =>
      -- the conditions of the loops do not depend on the count which the thread leaves
      if S.Blocked w then S else (S.leaveWait w).acquire i w
  | .timeout i =>
    if S.aborted then none
    else (S.thread i).waiting.bind fun w =>
      if w = .timedrdlock ∨ w = .timedwrlock then
        some ((S.leaveWait w).setThread i { S.thread i with waiting := none })
      else none

end State

/-- The machine of the threads `ι` using a lock. -/
def machine (ι : Type*) [DecidableEq ι] : Machine (State ι) (Action ι) where
  init S := S = .start
  step := State.step

end Pclsync.RwLock
