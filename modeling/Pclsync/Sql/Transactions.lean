import Mathlib.Algebra.BigOperators.Group.List.Basic
import Mathlib.Algebra.Order.Ring.Nat
import Pclsync.Transition

/-!
# Transactions in which operations fail

The calls of `plibs.c` that write to the database, when any operation of SQLite can fail. A caller
holds `psync_db_lock` for the transaction, once more for each statement and query that it has not
freed, and as often as it locked it itself.

* `State`: the variables of `plibs.c`, the results which are not freed, and a record of what
  happened, in which each transaction has a number.
* `startTransaction`, `commitTransaction`, `rollbackTransaction`, `addCallbacks`, `statement`,
  `prepStatement`, `query`, `run`, `runFree`, `freeResult`: the calls.
* `Sound`: a transaction in which a write failed is not committed, callbacks are called once, the
  right ones, and the lock is held as often as it should be.
* `transactions_of_reachable`: this is so as long as `BEGIN` does not fail, `COMMIT` and `ROLLBACK`
  can be prepared, and no failure in a transaction is one of those which do not set
  `transaction_failed`.
-/

namespace Pclsync.Sql.Transactions

open List Option

/-! ## States -/

/-- `locked` of a `psync_sql_res`. -/
inductive Locked
  | noLock
  | readLock
  | writeLock
  deriving DecidableEq

/-- How often a result holds the lock. -/
def Locked.count : Locked → ℕ
  | .noLock => 0
  | .readLock => 1
  | .writeLock => 1

/-- A `psync_sql_res` which is not freed; its address. -/
structure Res where
  id : ℕ
  locked : Locked
  deriving DecidableEq

/-- Callbacks that were registered: in which transaction, and with which pointer. -/
structure Registered where
  number : ℕ
  ptr : ℕ

/-- A callback that was called; `success` is the one for a commit. -/
structure Called where
  callbacks : Registered
  success : Bool

/-- What `psync_sql_commit_transaction` returned. -/
structure Report where
  number : ℕ
  ret : ℤ

/-- The state of a thread that uses the database. -/
structure State where
  /-- How often the thread holds `psync_db_lock`. -/
  depth : ℕ
  inTransaction : Bool
  transactionFailed : Bool
  /-- The pointers in `tran_callbacks`. -/
  tranCallbacks : List ℕ
  /-- A transaction is open in SQLite. -/
  active : Bool
  /-- Results of the callers. -/
  results : List Res
  /-- Locks that the callers took themselves. -/
  ownLocks : ℕ
  /-- The number of the last transaction. -/
  number : ℕ
  /-- Transactions in which a write failed, once for each of these. -/
  failedWrites : List ℕ
  /-- Transactions for which a `COMMIT` was done. -/
  committed : List ℕ
  registered : List Registered
  called : List Called
  reports : List Report
  /-- A null pointer was read. -/
  crashed : Bool

/-- Nothing happened yet. -/
def State.start : State :=
  ⟨0, false, false, [], false, [], 0, 0, [], [], [], [], [], false⟩

/-- How often results hold the lock. -/
def held (results : List Res) : ℕ := (results.map fun r => r.locked.count).sum

/-- What comes out of executing a statement. -/
structure Exec where
  /-- `sqlite3_step` gives `SQLITE_DONE`. -/
  done : Bool
  /-- `sqlite3_reset` succeeds after that. -/
  reset : Bool
  /-- After a failure SQLite has rolled the transaction back on its own. -/
  rolledBack : Bool

namespace State

variable (s : State)

/-! ## Statements -/

/-- A write statement fails: it is recorded for its transaction. -/
def writeFails : State :=
  if s.inTransaction then { s with failedWrites := s.number :: s.failedWrites } else s

/-- SQLite's transaction after a statement. -/
def afterExec (e : Exec) : State :=
  { s with active := s.active && (e.done || !e.rolledBack) }

/-- `psync_sql_lock`, by a caller. -/
def lock : State := { s with depth := s.depth + 1, ownLocks := s.ownLocks + 1 }

/-- `psync_sql_unlock`, by a caller that has the lock. -/
def unlock : Option State :=
  if s.ownLocks = 0 then none
  else some { s with depth := s.depth - 1, ownLocks := s.ownLocks - 1 }

/-- `psync_sql_statement`: the flag is not set when it fails. -/
def statement (e : Exec) : State :=
  if e.done then s.afterExec e else (s.afterExec e).writeFails

/-- A new result, with the lock that it holds. -/
def addResult (id : ℕ) (locked : Locked) : Option State :=
  if id ∈ s.results.map Res.id then none
  else some { s with depth := s.depth + locked.count, results := ⟨id, locked⟩ :: s.results }

/-- `psync_sql_prep_statement`: a statement that cannot be prepared gives a null pointer. -/
def prepStatement (id : ℕ) (prepared : Bool) : Option State :=
  if prepared then s.addResult id .writeLock else some s.writeFails

/-- `psync_sql_query` and its variants. -/
def query (id : ℕ) (locked : Locked) (prepared : Bool) : Option State :=
  if prepared then s.addResult id locked else some s

/-- A step of a statement which was prepared. -/
def step (e : Exec) : State :=
  if e.done then s.afterExec e
  else { (s.afterExec e).writeFails with transactionFailed := true }

/-- A result goes, with the lock that it holds. -/
def dropResult (r : Res) : State :=
  { s with depth := s.depth - r.locked.count, results := s.results.erase r }

/-- The result at an address. -/
def result (id : ℕ) : Option Res := s.results.find? fun r => r.id = id

/-- `psync_sql_run` -/
def run (id : ℕ) (e : Exec) : Option State := (s.result id).map fun _ => s.step e

/-- `psync_sql_run_free` -/
def runFree (id : ℕ) (e : Exec) : Option State :=
  (s.result id).map fun r =>
    let s := s.step e
    let s := if e.done && !e.reset then { s with transactionFailed := true } else s
    s.dropResult r

/-- `psync_sql_run_free_nocache` -/
def runFreeNocache (id : ℕ) (e : Exec) : Option State :=
  (s.result id).map fun r => (s.step e).dropResult r

/-- `psync_sql_free_result` -/
def freeResult (id : ℕ) : Option State := (s.result id).map s.dropResult

/-! ## Transactions -/

/-- `psync_sql_run_free` for `BEGIN`, `COMMIT` and `ROLLBACK`, which are prepared and freed by the
    functions themselves: the flag, and SQLite's transaction when the statement is done. -/
def runControl (e : Exec) (active : Bool) : State :=
  { s with
    active := if e.done then active else (s.afterExec e).active
    transactionFailed := s.transactionFailed || !(e.done && e.reset) }

/-- `psync_sql_start_transaction`; with an open transaction `BEGIN` fails. When it gives -1, the
    lock stays. -/
def startTransaction (prepared : Bool) (e : Exec) : Option State :=
  if s.inTransaction then none
  else if prepared && e.done && s.active then none
  else
    let s := { s with depth := s.depth + 1 }
    if !prepared then some s
    else
      let s := s.runControl e true
      if !(e.done && e.reset) then some s
      else
        some { s with
          inTransaction := true, transactionFailed := false, tranCallbacks := []
          number := s.number + 1 }

/-- `run_commit_callbacks` -/
def runCommitCallbacks (success : Bool) : State :=
  { s with
    called := s.called ++ s.tranCallbacks.map fun ptr => ⟨⟨s.number, ptr⟩, success⟩
    tranCallbacks := [] }

/-- The callbacks, the flag and the lock. -/
def finish (success : Bool) : State :=
  let s := s.runCommitCallbacks success
  { s with inTransaction := false, depth := s.depth - 1 }

/-- `psync_sql_rollback_transaction`; without a transaction `ROLLBACK` fails. -/
def rollbackTransaction (prepared : Bool) (e : Exec) : Option State :=
  if !s.inTransaction then none
  else if !prepared then some { s with crashed := true }
  else if e.done && !s.active then none
  else some ((s.runControl e false).finish false)

/-- What is returned, when the call does return. -/
def report (ret : ℤ) : State :=
  if s.crashed then s else { s with reports := ⟨s.number, ret⟩ :: s.reports }

/-- The `COMMIT` itself. -/
def runCommit (e : Exec) : State :=
  let s := s.runControl e false
  if e.done then { s with committed := s.number :: s.committed } else s

/-- `psync_sql_commit_transaction`; without a transaction `COMMIT` fails. -/
def commitTransaction (prepared : Bool) (e : Exec) (rollbackPrepared : Bool) (re : Exec) :
    Option State :=
  if !s.inTransaction then none
  else if s.transactionFailed then
    (s.rollbackTransaction rollbackPrepared re).map fun s => s.report (-1)
  else if !prepared then some { s with crashed := true }
  else if e.done && !s.active then none
  else
    let s := s.runCommit e
    if e.done && e.reset then some ((s.finish true).report 0)
    else (s.rollbackTransaction rollbackPrepared re).map fun s => s.report (-1)

/-- `psync_sql_transation_add_callbacks` -/
def addCallbacks (ptr : ℕ) : Option State :=
  if s.inTransaction then
    some { s with
      tranCallbacks := s.tranCallbacks ++ [ptr], registered := s.registered ++ [⟨s.number, ptr⟩] }
  else none

end State

/-! ## Runs -/

/-- The calls, with what the operations of SQLite give. -/
inductive Action
  | lock
  | unlock
  | start (prepared : Bool) (e : Exec)
  | statement (e : Exec)
  | prepStatement (id : ℕ) (prepared : Bool)
  | query (id : ℕ) (locked : Locked) (prepared : Bool)
  | run (id : ℕ) (e : Exec)
  | runFree (id : ℕ) (e : Exec)
  | runFreeNocache (id : ℕ) (e : Exec)
  | freeResult (id : ℕ)
  | addCallbacks (ptr : ℕ)
  | commit (prepared : Bool) (e : Exec) (rollbackPrepared : Bool) (re : Exec)
  | rollback (prepared : Bool) (e : Exec)

/-- One call. -/
def State.after (s : State) : Action → Option State
  | .lock => some s.lock
  | .unlock => s.unlock
  | .start prepared e => s.startTransaction prepared e
  | .statement e => some (s.statement e)
  | .prepStatement id prepared => s.prepStatement id prepared
  | .query id locked prepared => s.query id locked prepared
  | .run id e => s.run id e
  | .runFree id e => s.runFree id e
  | .runFreeNocache id e => s.runFreeNocache id e
  | .freeResult id => s.freeResult id
  | .addCallbacks ptr => s.addCallbacks ptr
  | .commit prepared e rollbackPrepared re => s.commitTransaction prepared e rollbackPrepared re
  | .rollback prepared e => s.rollbackTransaction prepared e

/-- Sequences of calls; there are none after a crash. -/
def machine : Machine State Action where
  init s := s = .start
  step s a := if s.crashed then none else s.after a

/-- What is asked of every state. -/
structure Sound (s : State) : Prop where
  /-- A transaction in which a write failed is not committed. -/
  not_committed : ∀ n ∈ s.failedWrites, n ∉ s.committed
  /-- Success is only reported for transactions which are committed, and failure for those in which
      a write failed. -/
  reported : ∀ r ∈ s.reports, (r.ret = 0 → r.number ∈ s.committed) ∧
    (r.number ∈ s.failedWrites → r.ret = -1)
  /-- All callbacks which were registered have been called, one of the two and once, or belong to
      the transaction that is not ended. -/
  callbacks : s.registered = s.called.map Called.callbacks ++ s.tranCallbacks.map (⟨s.number, ·⟩)
  /-- After a transaction no callbacks are left. -/
  no_callbacks : s.inTransaction = false → s.tranCallbacks = []
  /-- Callbacks for a commit are called after the commit. -/
  after_commit : ∀ c ∈ s.called, c.success = true → c.callbacks.number ∈ s.committed
  /-- The lock is held by the callers, by results, and once in a transaction. -/
  depth : s.depth = s.ownLocks + held s.results + if s.inTransaction then 1 else 0
  /-- No null pointer is read. -/
  alive : s.crashed = false

/-- A failure of this kind is noticed: there is no transaction, or it has failed already. -/
def State.Harmless (s : State) : Prop := s.inTransaction = true → s.transactionFailed = true

/-- The operations which must not fail. -/
def Fine (s : State) : Action → Prop
  | .start prepared e => prepared = true ∧ e.done = true ∧ e.reset = true
  | .statement e => e.done = true ∨ s.Harmless
  | .prepStatement _ prepared => prepared = true ∨ s.Harmless
  | .commit prepared e rollbackPrepared _ =>
    (s.transactionFailed = false → prepared = true) ∧
      (s.transactionFailed = true ∨ e.done = false ∨ e.reset = false → rollbackPrepared = true)
  | .rollback prepared _ => prepared = true
  | _ => True

instance (s : State) : Decidable s.Harmless := inferInstanceAs (Decidable (_ → _))

instance (s : State) : ∀ a, Decidable (Fine s a)
  | .lock => .isTrue trivial
  | .unlock => .isTrue trivial
  | .start _ _ => inferInstanceAs (Decidable (_ ∧ _))
  | .statement _ => inferInstanceAs (Decidable (_ ∨ _))
  | .prepStatement _ _ => inferInstanceAs (Decidable (_ ∨ _))
  | .query _ _ _ => .isTrue trivial
  | .run _ _ => .isTrue trivial
  | .runFree _ _ => .isTrue trivial
  | .runFreeNocache _ _ => .isTrue trivial
  | .freeResult _ => .isTrue trivial
  | .addCallbacks _ => .isTrue trivial
  | .commit _ _ _ _ => inferInstanceAs (Decidable (_ ∧ _))
  | .rollback _ _ => inferInstanceAs (Decidable (_ = _))

/-- What also holds while a transaction is ended. -/
structure Bounded (s : State) : Prop extends Sound s where
  failedWrites_le : ∀ n ∈ s.failedWrites, n ≤ s.number
  committed_le : ∀ n ∈ s.committed, n ≤ s.number
  reports_le : ∀ r ∈ s.reports, r.number ≤ s.number

/-- What holds in every state reached. -/
structure Inv (s : State) : Prop extends Bounded s where
  /-- A failure is noticed. -/
  flag : s.inTransaction = true → s.number ∈ s.failedWrites → s.transactionFailed = true
  /-- The transaction is not ended. -/
  open_committed : s.inTransaction = true → s.number ∉ s.committed
  open_reports : s.inTransaction = true → ∀ r ∈ s.reports, r.number ≠ s.number

variable {s s' : State} {e re : Exec} {id : ℕ} {r : Res} {success : Bool} {a : Action} {ret : ℤ}

/-! ## Steps -/

theorem Bounded.setActive (h : Bounded s) (active failed : Bool) :
    Bounded { s with active := active, transactionFailed := failed } := { h with }

theorem Inv.setFailed (h : Inv s) : Inv { s with transactionFailed := true } :=
  { h with flag := fun _ _ => rfl }

theorem Inv.afterExec (h : Inv s) (e : Exec) : Inv (s.afterExec e) := { h with }

theorem Inv.writeFails (h : Inv s) (hflag : s.Harmless) : Inv s.writeFails := by
  rw [State.writeFails]
  split
  · next htran =>
    refine { h with
      not_committed := ?_, reported := ?_, failedWrites_le := ?_, flag := fun _ _ => hflag htran }
    · exact forall_mem_cons.2 ⟨h.open_committed htran, h.not_committed⟩
    · intro r hr
      refine ⟨(h.reported r hr).1, fun hfailed => (h.reported r hr).2 ?_⟩
      exact (mem_cons.1 hfailed).resolve_left (h.open_reports htran r hr)
    · exact forall_mem_cons.2 ⟨Nat.le_refl _, h.failedWrites_le⟩
  · exact h

theorem Inv.step (h : Inv s) (e : Exec) : Inv (s.step e) := by
  rw [State.step]
  split
  · exact h.afterExec e
  · have hnoticed := ((h.afterExec e).setFailed).writeFails fun _ => rfl
    have hcomm : { (s.afterExec e).writeFails with transactionFailed := true } =
        ({ s.afterExec e with transactionFailed := true } : State).writeFails := by
      rw [State.writeFails, State.writeFails]
      split <;> rfl
    exact hcomm ▸ hnoticed

theorem Inv.addResult {locked : Locked} (h : Inv s) (hs : s.addResult id locked = some s') :
    Inv s' := by
  rw [State.addResult, ite_none_left_eq_some] at hs
  obtain rfl := some.inj hs.2
  refine { h with depth := ?_ }
  have hdepth := h.depth
  rw [held, map_cons, sum_cons, ← held]
  dsimp only
  omega

theorem Inv.dropResult (h : Inv s) (hr : r ∈ s.results) : Inv (s.dropResult r) := by
  refine { h with depth := ?_ }
  have hdepth := h.depth
  have hheld : r.locked.count + held (s.results.erase r) = held s.results :=
    sum_map_erase (fun r : Res => r.locked.count) hr
  rw [State.dropResult]
  dsimp only
  omega

theorem mem_of_result (h : s.result id = some r) : r ∈ s.results := mem_of_find?_eq_some h

theorem results_step : (s.step e).results = s.results := by
  rw [State.step, State.writeFails]
  split
  · rfl
  · split <;> rfl

theorem Inv.run (h : Inv s) (hs : s.run id e = some s') : Inv s' := by
  obtain ⟨r, -, rfl⟩ := map_eq_some_iff.1 hs
  exact h.step e

theorem Inv.runFreeNocache (h : Inv s) (hs : s.runFreeNocache id e = some s') : Inv s' := by
  obtain ⟨r, hr, rfl⟩ := map_eq_some_iff.1 hs
  refine (h.step e).dropResult ?_
  rw [results_step]
  exact mem_of_result hr

theorem Inv.runFree (h : Inv s) (hs : s.runFree id e = some s') : Inv s' := by
  obtain ⟨r, hr, rfl⟩ := map_eq_some_iff.1 hs
  have hmem : r ∈ (s.step e).results := by
    rw [results_step]
    exact mem_of_result hr
  dsimp only
  split
  · exact (h.step e).setFailed.dropResult hmem
  · exact (h.step e).dropResult hmem

theorem Inv.freeResult (h : Inv s) (hs : s.freeResult id = some s') : Inv s' := by
  obtain ⟨r, hr, rfl⟩ := map_eq_some_iff.1 hs
  exact h.dropResult (mem_of_result hr)

theorem Inv.addCallbacks {ptr : ℕ} (h : Inv s) (hs : s.addCallbacks ptr = some s') : Inv s' := by
  rw [State.addCallbacks, ite_none_right_eq_some] at hs
  obtain ⟨htran, hs⟩ := hs
  obtain ⟨⟩ := hs
  refine { h with callbacks := ?_, no_callbacks := fun hnot => ?_ }
  · dsimp only
    rw [h.callbacks, map_append, append_assoc]
    rfl
  · rw [htran] at hnot
    cases hnot

/-! ## The ends of transactions -/

/-- The callbacks are called and the lock goes. -/
theorem Bounded.finish (h : Bounded s) (htran : s.inTransaction = true)
    (hcommit : success = true → s.number ∈ s.committed) : Inv (s.finish success) := by
  refine { not_committed := h.not_committed, reported := h.reported, no_callbacks := fun _ => rfl,
           alive := h.alive, failedWrites_le := h.failedWrites_le, committed_le := h.committed_le,
           reports_le := h.reports_le, callbacks := ?_, after_commit := ?_, depth := ?_,
           flag := fun hopen => (by cases hopen), open_committed := fun hopen => (by cases hopen),
           open_reports := fun hopen => (by cases hopen) }
  · change s.registered = (s.called ++ _).map Called.callbacks ++ []
    rw [append_nil, map_append, List.map_map, h.callbacks]
    rfl
  · intro c hc hsuccess
    rcases mem_append.1 hc with hc | hc
    · exact h.after_commit c hc hsuccess
    · obtain ⟨ptr, -, rfl⟩ := mem_map.1 hc
      exact hcommit hsuccess
  · have hdepth := h.depth
    rw [if_pos htran] at hdepth
    change s.depth - 1 = s.ownLocks + held s.results + 0
    omega

/-- A call that has ended its transaction returns. -/
theorem Inv.report (h : Inv s) (htran : s.inTransaction = false)
    (hret : (ret = 0 → s.number ∈ s.committed) ∧ (s.number ∈ s.failedWrites → ret = -1)) :
    Inv (s.report ret) := by
  rw [State.report, if_neg (by rw [h.alive]; exact Bool.false_ne_true)]
  refine { h with reported := ?_, reports_le := ?_, open_reports := fun hopen => ?_ }
  · exact forall_mem_cons.2 ⟨hret, h.reported⟩
  · exact forall_mem_cons.2 ⟨Nat.le_refl _, h.reports_le⟩
  · rw [htran] at hopen
    cases hopen

/-- A rollback, from which also the commit of a transaction that failed returns. -/
theorem Bounded.rollback (h : Bounded s) (hs : s.rollbackTransaction true re = some s') :
    Inv s' ∧ Inv (s'.report (-1)) := by
  rw [State.rollbackTransaction, ite_none_left_eq_some] at hs
  obtain ⟨htran, hs⟩ := hs
  rw [Bool.not_eq_true', Bool.not_eq_false] at htran
  rw [if_neg (by decide), ite_none_left_eq_some] at hs
  obtain rfl := some.inj hs.2
  have hcontrol : Bounded (s.runControl re false) := h.setActive _ _
  have hfinish : Inv ((s.runControl re false).finish false) :=
    hcontrol.finish htran fun hfalse => (by cases hfalse)
  exact ⟨hfinish, hfinish.report rfl ⟨fun hzero => (by cases hzero), fun _ => rfl⟩⟩

theorem Inv.runCommit (h : Inv s) (htran : s.inTransaction = true)
    (hflag : s.transactionFailed = false) : Bounded (s.runCommit e) := by
  have hcontrol : Bounded (s.runControl e false) := h.toBounded.setActive _ _
  have hfine : s.number ∉ s.failedWrites := fun hfailed => by
    have hset := h.flag htran hfailed
    rw [hflag] at hset
    cases hset
  rw [State.runCommit]
  split
  · refine { hcontrol with
      not_committed := ?_, reported := ?_, after_commit := ?_, committed_le := ?_ }
    · intro n hn hcommitted
      rcases mem_cons.1 hcommitted with rfl | hcommitted
      · exact hfine hn
      · exact h.not_committed n hn hcommitted
    · exact fun r hr => ⟨fun hret => mem_cons_of_mem _ ((h.reported r hr).1 hret),
        (h.reported r hr).2⟩
    · exact fun c hc hsuccess => mem_cons_of_mem _ (h.after_commit c hc hsuccess)
    · exact forall_mem_cons.2 ⟨Nat.le_refl _, h.committed_le⟩
  · exact hcontrol

theorem Inv.commit {prepared rollbackPrepared : Bool} (h : Inv s)
    (hfine : Fine s (.commit prepared e rollbackPrepared re))
    (hs : s.commitTransaction prepared e rollbackPrepared re = some s') : Inv s' := by
  rw [State.commitTransaction, ite_none_left_eq_some] at hs
  obtain ⟨htran, hs⟩ := hs
  rw [Bool.not_eq_true', Bool.not_eq_false] at htran
  split at hs
  · next hfailed =>
    rw [hfine.2 (.inl hfailed)] at hs
    obtain ⟨t, ht, rfl⟩ := map_eq_some_iff.1 hs
    exact (h.toBounded.rollback ht).2
  · next hflag =>
    have hflag := Bool.eq_false_iff.2 hflag
    rw [hfine.1 hflag, if_neg (by decide), ite_none_left_eq_some] at hs
    obtain ⟨-, hs⟩ := hs
    have hcommit : Bounded (s.runCommit e) := h.runCommit htran hflag
    have htran' : (s.runCommit e).inTransaction = true := by
      rw [State.runCommit]
      split <;> exact htran
    dsimp only at hs
    split at hs
    · next hdone =>
      rw [Bool.and_eq_true] at hdone
      obtain ⟨⟩ := hs
      have hnumber : (s.runCommit e).number ∈ (s.runCommit e).committed := by
        rw [State.runCommit, if_pos hdone.1]
        exact mem_cons_self
      have hfinish : Inv ((s.runCommit e).finish true) := hcommit.finish htran' fun _ => hnumber
      exact hfinish.report rfl
        ⟨fun _ => hnumber, fun hfailed => absurd hnumber (hfinish.not_committed _ hfailed)⟩
    · next hnot =>
      rw [Bool.and_eq_true, not_and_or, Bool.not_eq_true, Bool.not_eq_true] at hnot
      rw [hfine.2 (.inr hnot)] at hs
      obtain ⟨t, ht, rfl⟩ := map_eq_some_iff.1 hs
      exact (hcommit.rollback ht).2

theorem Inv.start (h : Inv s) (hdone : e.done = true) (hreset : e.reset = true)
    (hs : s.startTransaction true e = some s') : Inv s' := by
  rw [State.startTransaction, ite_none_left_eq_some, ite_none_left_eq_some,
    if_neg (by decide), hdone, hreset, if_neg (by decide)] at hs
  obtain ⟨htran, -, hs⟩ := hs
  obtain ⟨⟩ := hs
  have htran := Bool.eq_false_iff.2 htran
  have hcallbacks := h.callbacks
  have hdepth := h.depth
  rw [h.no_callbacks htran, map_nil] at hcallbacks
  rw [htran] at hdepth
  refine { not_committed := h.not_committed, reported := h.reported, callbacks := hcallbacks,
           no_callbacks := fun _ => rfl, after_commit := h.after_commit, alive := h.alive,
           depth := congrArg (· + 1) hdepth, failedWrites_le := ?_, committed_le := ?_,
           reports_le := ?_, flag := fun _ hfailed => ?_, open_committed := fun _ hcommitted => ?_,
           open_reports := fun _ r hr => ?_ }
  · exact fun n hn => Nat.le_succ_of_le (h.failedWrites_le n hn)
  · exact fun n hn => Nat.le_succ_of_le (h.committed_le n hn)
  · exact fun r hr => Nat.le_succ_of_le (h.reports_le r hr)
  · exact absurd (h.failedWrites_le _ hfailed) (Nat.not_succ_le_self _)
  · exact absurd (h.committed_le _ hcommitted) (Nat.not_succ_le_self _)
  · exact Nat.ne_of_lt (Nat.lt_succ_of_le (h.reports_le r hr))

/-! ## All calls -/

theorem Inv.after (h : Inv s) (hfine : Fine s a) (hs : s.after a = some s') : Inv s' := by
  cases a with
  | lock =>
    obtain ⟨⟩ := hs
    have hdepth := h.depth
    refine { h with depth := ?_ }
    rw [State.lock]
    dsimp only
    omega
  | unlock =>
    obtain ⟨hown, hs⟩ := ite_none_left_eq_some.1 hs
    obtain ⟨⟩ := hs
    have hdepth := h.depth
    refine { h with depth := ?_ }
    dsimp only
    omega
  | start prepared e =>
    obtain ⟨rfl, hdone, hreset⟩ := hfine
    exact h.start hdone hreset hs
  | statement e =>
    obtain ⟨⟩ := hs
    rw [State.statement]
    split
    · exact h.afterExec e
    · next hnot => exact (h.afterExec e).writeFails (hfine.resolve_left hnot)
  | prepStatement id prepared =>
    cases prepared with
    | true => exact h.addResult hs
    | false =>
      obtain ⟨⟩ := hs
      exact h.writeFails (hfine.resolve_left Bool.false_ne_true)
  | query id locked prepared =>
    cases prepared with
    | true => exact h.addResult hs
    | false => exact some.inj hs ▸ h
  | run id e => exact h.run hs
  | runFree id e => exact h.runFree hs
  | runFreeNocache id e => exact h.runFreeNocache hs
  | freeResult id => exact h.freeResult hs
  | addCallbacks ptr => exact h.addCallbacks hs
  | commit prepared e rollbackPrepared re => exact h.commit hfine hs
  | rollback prepared e =>
    obtain rfl : prepared = true := hfine
    exact (h.toBounded.rollback hs).1

theorem inv_start : Inv State.start where
  not_committed := forall_mem_nil _
  reported := forall_mem_nil _
  callbacks := rfl
  no_callbacks _ := rfl
  after_commit := forall_mem_nil _
  depth := rfl
  alive := rfl
  failedWrites_le := forall_mem_nil _
  committed_le := forall_mem_nil _
  reports_le := forall_mem_nil _
  flag h := (by cases h)
  open_committed h := (by cases h)
  open_reports h := (by cases h)

/-- In runs in which no failure gets lost. -/
theorem transactions_of_reachable (s : State) (h : machine.Reachable Fine s) : Sound s := by
  have hinv : Inv s := by
    refine h.invariant ?_ ?_
    · rintro s rfl
      exact inv_start
    · intro s a s' hs hfine hstep
      exact hs.after hfine (ite_none_left_eq_some.1 hstep).2
  exact hinv.toSound

/-- A statement that is done, and one that fails. -/
def Exec.ok : Exec := ⟨true, true, false⟩
def Exec.fails : Exec := ⟨false, false, false⟩

/-- A prepared statement fails, and the commit becomes a rollback. -/
theorem sound_rolled_back :
    Sound ⟨0, false, true, [], false, [], 0, 1, [1], [], [⟨1, 7⟩], [⟨⟨1, 7⟩, false⟩], [⟨1, -1⟩],
      false⟩ := by
  have h : machine.Reachable Fine State.start := .init rfl
  replace h := h.next (.start true .ok) (by decide) rfl
  replace h := h.next (.addCallbacks 7) (by decide) rfl
  replace h := h.next (.prepStatement 0 true) (by decide) rfl
  replace h := h.next (.runFree 0 .fails) (by decide) rfl
  replace h := h.next (.commit true .ok true .ok) (by decide) rfl
  exact transactions_of_reachable _ h

/-- A transaction is committed in which `psync_sql_statement` failed, and one in which a statement
    could not be prepared; after a `BEGIN` that fails the lock stays; and when `COMMIT` cannot be
    prepared, a null pointer is read. -/
theorem transactions_not_sound :
    (∃ s, machine.run .start [.start true .ok, .statement .fails, .commit true .ok true .ok] =
      some s ∧ ¬Sound s) ∧
    (∃ s, machine.run .start
      [.start true .ok, .prepStatement 0 false, .commit true .ok true .ok] = some s ∧ ¬Sound s) ∧
    (∃ s, machine.run .start [.start true .fails] = some s ∧ ¬Sound s) ∧
    ∃ s, machine.run .start [.start true .ok, .commit false .ok true .ok] = some s ∧ ¬Sound s := by
  refine ⟨⟨_, rfl, fun h => ?_⟩, ⟨_, rfl, fun h => ?_⟩, ⟨_, rfl, fun h => ?_⟩,
    ⟨_, rfl, fun h => ?_⟩⟩
  · exact h.not_committed 1 mem_cons_self mem_cons_self
  · exact h.not_committed 1 mem_cons_self mem_cons_self
  · exact absurd h.depth Nat.one_ne_zero
  · cases h.alive

end Pclsync.Sql.Transactions
