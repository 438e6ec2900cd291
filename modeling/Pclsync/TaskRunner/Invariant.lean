import Pclsync.Counting
import Pclsync.TaskRunner.System
import Mathlib.Algebra.Order.BigOperators.Group.Finset

/-!
# The invariant of the task manager

The invariant has two parts. `TaskOk` says for each task where its data is. Of the manager,
`Running` holds as long as somebody has a reference or is about to give the last one back, and
`Over` from there on.

* `Inv.complete`, `Inv.wake`, `Inv.decRefcnt`, `Inv.unlock_completing`, `Inv.unlock_leaving`: the
  steps of the threads of the tasks.
* `Inv.getResult`, `Inv.wakeMaster`, `Inv.free`, `Inv.freeLocked`, `Inv.unlockMaster`: those of the
  master.
-/

namespace Pclsync.TaskRunner

open Finset Function

variable {n : ℕ} {δ : Type}

/-- The references of a thread. -/
def Worker.refs : Worker δ → ℤ
  | .callback | .waiting _ | .completing _ _ | .completed => 1
  | .leaving _ | .destroying | .exited => 0

/-- The thread holds the mutex. -/
def Worker.Holds : Worker δ → Prop
  | .completing _ _ | .leaving _ => True
  | _ => False

/-- The references of the master. -/
def Master.refs : Master n δ → ℤ
  | .idle | .waiting _ | .returning _ _ | .freeing => 1
  | .releasing _ | .destroying | .gone => 0

/-- The master holds the mutex. -/
def Master.Holds : Master n δ → Prop
  | .returning _ _ | .releasing _ => True
  | _ => False

/-- What `waitfor` is where the master is. -/
def Master.waitfor : Master n δ → ℤ
  | .idle | .returning _ _ | .freeing => waitNobody
  | .waiting i => i
  | .releasing _ | .destroying | .gone => waitFreed

/-- What the master has taken and will return. -/
def Master.inHand (i : Fin n) : Master n δ → List δ
  | .returning j ret => if j = i then ret.toList else []
  | _ => []

theorem Worker.refs_nonneg (w : Worker δ) : 0 ≤ w.refs := by
  cases w <;> simp [refs]

namespace System

variable (S : System n δ)

/-- The data of a task which the master took. -/
def taken (i : Fin n) : List δ :=
  (S.results.filter fun r => r.1 = i).map Prod.snd ++ S.master.inHand i

/-- A thread has nothing more to do with the manager. -/
def Out : Party n → Prop
  | .master => S.master = .gone
  | .worker i => S.workers i = .exited

/-- A thread is to free the manager. -/
def Destroys : Party n → Prop
  | .master => S.master = .destroying
  | .worker i => S.workers i = .destroying

/-! ## The data of the tasks -/

/-- The master has the data of a completed task, or is woken to take it. -/
def Handed (data : δ) (t : Task δ) (taken : List δ) (waits : Prop) : Prop :=
  t.status = .done ∧ taken = [data] ∧ ¬ waits ∨ t = ⟨data, .ready⟩ ∧ taken = [] ∧ waits

/-- Where the data of a task is, after its completion. -/
def Settled (data : δ) (ret : ℤ) (t : Task δ) (taken : List δ) (waits freed : Prop) : Prop :=
  ret = 0 ∧ Handed data t taken waits ∨ ret = -1 ∧ taken = [] ∧ freed

/-- The state of a task, given where its thread is: `taken` is what the master took from it, `waits`
    says that the master waits for it, and `freed` that the master let the manager go. -/
def TaskState (w : Worker δ) (outcome : Option (δ × ℤ)) (t : Task δ) (taken : List δ)
    (waits freed : Prop) : Prop :=
  match w, outcome with
  | .callback, none => t.status = .running ∧ taken = []
  | .waiting data, none =>
    t = ⟨data, .ready⟩ ∧ taken = [] ∧ ¬ waits ∨ t.status = .done ∧ taken = [data] ∧ ¬ waits ∨
      t.status = .returned ∧ taken = [] ∧ freed
  | .completing data ret, none => Settled data ret t taken waits freed
  | .leaving _, none | .destroying, none | .exited, none => t.status = .running ∧ taken = []
  | .completed, some (data, ret) | .leaving _, some (data, ret) | .destroying, some (data, ret)
  | .exited, some (data, ret) => Settled data ret t taken waits freed
  | _, _ => False

/-- The state of a task of the system. -/
def TaskOk (i : Fin n) : Prop :=
  TaskState (S.workers i) (S.outcomes i) (S.tm.tasks i) (S.taken i) (S.master = .waiting i)
    (S.tm.waitfor = waitFreed)

/-! ## The references -/

/-- The manager is in use. -/
structure Running : Prop where
  valid : S.invalid = false
  frees : S.frees = 0
  refcnt : S.tm.refcnt = ∑ i, (S.workers i).refs + S.master.refs
  lockWorker : ∀ i, S.tm.lockedBy = some (.worker i) ↔ (S.workers i).Holds
  lockMaster : S.tm.lockedBy = some .master ↔ S.master.Holds
  leaving : ∀ i k, S.workers i = .leaving k → S.tm.refcnt = k
  releasing : ∀ k, S.master = .releasing k → S.tm.refcnt = k
  waitfor : S.tm.waitfor = S.master.waitfor
  busy : ∀ p, ¬ S.Destroys p
  alive : ∃ p, ¬ S.Out p

/-- Nobody but the thread which is to free the manager uses it. -/
structure Over : Prop where
  valid : S.invalid = false
  last : S.frees = 0 ∧ (∃ p, S.Destroys p ∧ ∀ q, q ≠ p → S.Out q) ∨ S.frees = 1 ∧ ∀ p, S.Out p

variable {S} {S' : System n δ} {i : Fin n} {w : Worker δ} {m : Master n δ} {data : δ}

theorem use_eq (h : S.frees = 0) : S.use = S := by
  have hvalid : (S.invalid || decide (0 < S.frees)) = S.invalid := by simp [h]
  rw [use, hvalid]

variable (S S' i w) in
/-- What a step of the thread of a task leaves as it was; `w` is where it is after the step. -/
structure WorkerStep : Prop where
  /-- The thread holds the mutex, or finds it free. -/
  lock : S.tm.lockedBy = none ∨ S.tm.lockedBy = some (.worker i)
  workers : S'.workers = update S.workers i w
  master : S'.master = S.master
  waitfor : S'.tm.waitfor = S.tm.waitfor
  frees : S'.frees = S.frees
  invalid : S'.invalid = S.invalid
  results : S'.results = S.results
  tasks : ∀ j, j ≠ i → S'.tm.tasks j = S.tm.tasks j
  outcomes : ∀ j, j ≠ i → S'.outcomes j = S.outcomes j

variable (S S' m) in
/-- What a step of the master leaves as it was; `m` is where it is after the step. -/
structure MasterStep : Prop where
  /-- The master holds the mutex, or finds it free. -/
  lock : S.tm.lockedBy = none ∨ S.tm.lockedBy = some .master
  workers : S'.workers = S.workers
  master : S'.master = m
  waitfor : S'.tm.waitfor = m.waitfor
  frees : S'.frees = S.frees
  invalid : S'.invalid = S.invalid
  outcomes : S'.outcomes = S.outcomes

theorem Running.ofWorker (h : S.Running) (hs : WorkerStep S S' i w)
    (hlock : w.Holds → S'.tm.lockedBy = some (.worker i))
    (hunlock : ¬ w.Holds → S'.tm.lockedBy = none)
    (href : S'.tm.refcnt + (S.workers i).refs = S.tm.refcnt + w.refs)
    (hleave : ∀ k, w = .leaving k → S'.tm.refcnt = k) (hbusy : w ≠ .destroying)
    (halive : ∃ p, ¬ S'.Out p) : S'.Running := by
  obtain ⟨hfree, hw, hm, hwait, hfrees, hvalid, -⟩ := hs
  -- nobody else holds the mutex
  have hothers : ∀ j, j ≠ i → ¬ (S.workers j).Holds := by
    intro j hj hh
    rw [← h.lockWorker j] at hh
    rcases hfree with hfree | hfree
    · rw [hfree] at hh
      cases hh
    · rw [hfree] at hh
      cases hh
      exact hj rfl
  have hmaster : ¬ S.master.Holds := by
    rw [← h.lockMaster]
    rcases hfree with hfree | hfree <;> rw [hfree] <;> simp
  have hself : S'.workers i = w := by rw [hw, update_self]
  have hother : ∀ j, j ≠ i → S'.workers j = S.workers j := by
    intro j hj
    rw [hw, update_of_ne hj]
  constructor
  · rw [hvalid, h.valid]
  · rw [hfrees, h.frees]
  · have hsum := sum_comp_update S.workers i w Worker.refs
    have hcount := h.refcnt
    rw [hw, hm]
    omega
  · intro j
    by_cases hj : j = i
    · subst hj
      rw [hself]
      refine ⟨fun hl => by_contra fun hh => ?_, hlock⟩
      rw [hunlock hh] at hl
      cases hl
    · rw [hother j hj]
      refine ⟨fun hl => ?_, fun hh => absurd hh (hothers j hj)⟩
      by_cases hh : w.Holds
      · rw [hlock hh] at hl
        cases hl
        exact absurd rfl hj
      · rw [hunlock hh] at hl
        cases hl
  · rw [hm]
    refine ⟨fun hl => ?_, fun hh => absurd hh hmaster⟩
    by_cases hh : w.Holds
    · rw [hlock hh] at hl
      cases hl
    · rw [hunlock hh] at hl
      cases hl
  · intro j k hk
    by_cases hj : j = i
    · subst hj
      exact hleave k (hself ▸ hk)
    · rw [hother j hj] at hk
      exact absurd (hk ▸ trivial) (hothers j hj)
  · intro k hk
    rw [hm] at hk
    exact absurd (hk ▸ trivial) hmaster
  · rw [hwait, hm, h.waitfor]
  · intro p hp
    cases p with
    | master => exact h.busy .master (hm.symm.trans hp)
    | worker j =>
      by_cases hj : j = i
      · subst hj
        exact hbusy (hself ▸ hp)
      · exact h.busy (.worker j) ((hother j hj).symm.trans hp)
  · exact halive

theorem Running.ofMaster (h : S.Running) (hs : MasterStep S S' m)
    (hlock : m.Holds → S'.tm.lockedBy = some .master) (hunlock : ¬ m.Holds → S'.tm.lockedBy = none)
    (href : S'.tm.refcnt + S.master.refs = S.tm.refcnt + m.refs)
    (hrelease : ∀ k, m = .releasing k → S'.tm.refcnt = k) (hbusy : m ≠ .destroying)
    (halive : ∃ p, ¬ S'.Out p) : S'.Running := by
  obtain ⟨hfree, hw, hm, hwait, hfrees, hvalid, -⟩ := hs
  have hothers : ∀ j, ¬ (S.workers j).Holds := by
    intro j
    rw [← h.lockWorker j]
    rcases hfree with hfree | hfree <;> rw [hfree] <;> simp
  constructor
  · rw [hvalid, h.valid]
  · rw [hfrees, h.frees]
  · have hcount := h.refcnt
    rw [hw, hm]
    omega
  · intro j
    rw [hw]
    refine ⟨fun hl => ?_, fun hh => absurd hh (hothers j)⟩
    by_cases hh : m.Holds
    · rw [hlock hh] at hl
      cases hl
    · rw [hunlock hh] at hl
      cases hl
  · rw [hm]
    refine ⟨fun hl => by_contra fun hh => ?_, hlock⟩
    rw [hunlock hh] at hl
    cases hl
  · intro j k hk
    rw [hw] at hk
    exact absurd (hk ▸ trivial) (hothers j)
  · intro k hk
    exact hrelease k (hm ▸ hk)
  · rw [hwait, hm]
  · intro p hp
    cases p with
    | master => exact hbusy (hm ▸ hp)
    | worker j => exact h.busy (.worker j) ((congrFun hw j).symm.trans hp)
  · exact halive

/-! ## The steps -/

variable (S) in
/-- The invariant while the manager is in use. -/
structure Inv : Prop extends S.Running where
  tasks : ∀ i, S.TaskOk i

theorem WorkerStep.taskOk (hs : WorkerStep S S' i w) (h : ∀ j, S.TaskOk j) (hi : S'.TaskOk i)
    (j : Fin n) : S'.TaskOk j := by
  by_cases hj : j = i
  · exact hj ▸ hi
  · have hother := h j
    rw [TaskOk, taken] at hother ⊢
    rw [hs.workers, update_of_ne hj, hs.outcomes j hj, hs.tasks j hj, hs.master,
      hs.waitfor, hs.results]
    exact hother

theorem Inv.ofWorker (h : S.Inv) (hs : WorkerStep S S' i w)
    (hlock : w.Holds → S'.tm.lockedBy = some (.worker i))
    (hunlock : ¬ w.Holds → S'.tm.lockedBy = none)
    (href : S'.tm.refcnt + (S.workers i).refs = S.tm.refcnt + w.refs)
    (hleave : ∀ k, w = .leaving k → S'.tm.refcnt = k) (hbusy : w ≠ .destroying) (hout : w ≠ .exited)
    (hi : S'.TaskOk i) : S'.Inv := by
  refine ⟨h.toRunning.ofWorker hs hlock hunlock href hleave hbusy ⟨.worker i, ?_⟩,
    hs.taskOk h.tasks hi⟩
  rw [Out, hs.workers, update_self]
  exact hout

theorem Inv.ofMaster (h : S.Inv) (hs : MasterStep S S' m)
    (hlock : m.Holds → S'.tm.lockedBy = some .master) (hunlock : ¬ m.Holds → S'.tm.lockedBy = none)
    (href : S'.tm.refcnt + S.master.refs = S.tm.refcnt + m.refs)
    (hrelease : ∀ k, m = .releasing k → S'.tm.refcnt = k) (hbusy : m ≠ .destroying)
    (hout : m ≠ .gone) (ht : ∀ j, S'.TaskOk j) : S'.Inv := by
  refine ⟨h.toRunning.ofMaster hs hlock hunlock href hrelease hbusy ⟨.master, ?_⟩, ht⟩
  rw [Out, hs.master]
  exact hout

theorem Master.waitfor_eq_iff : m.waitfor = (i : ℤ) ↔ m = .waiting i := by
  cases m with
  | waiting j => simp [Master.waitfor, Fin.ext_iff]
  | _ => simp [Master.waitfor, waitNobody, waitFreed]

/-- The state of a task whose thread has not completed it. -/
theorem Inv.callback (h : S.Inv) (hw : S.workers i = .callback) :
    S.outcomes i = none ∧ (S.tm.tasks i).status = .running ∧ S.taken i = [] := by
  have hi := h.tasks i
  rw [TaskOk, hw] at hi
  cases ho : S.outcomes i with
  | some o =>
    rw [ho] at hi
    cases hi
  | none =>
    rw [ho] at hi
    exact ⟨rfl, hi⟩

theorem Inv.complete (h : S.Inv) (hw : S.workers i = .callback) (hl : S.tm.lockedBy = none) :
    (S.complete i data).Inv := by
  obtain ⟨ho, -, htaken⟩ := h.callback hw
  rw [System.complete]
  split_ifs with h1 h2
  · -- the master waits for this task, and will take its data
    have hm := Master.waitfor_eq_iff.1 (h.waitfor ▸ h1)
    refine h.ofWorker ⟨.inl hl, rfl, rfl, rfl, rfl, rfl, rfl,
      fun j hj => update_of_ne hj _ _, fun _ _ => rfl⟩ (fun _ => rfl)
      (fun hh => absurd trivial hh) (by rw [hw]; rfl) (fun k hk => by cases hk) (by simp)
      (by simp) ?_
    simp only [TaskOk, setWorker, setLock, setTask, update_self, ho]
    exact .inl ⟨rfl, .inr ⟨rfl, htaken, hm⟩⟩
  · refine h.ofWorker ⟨.inl hl, rfl, rfl, rfl, rfl, rfl, rfl,
      fun j hj => update_of_ne hj _ _, fun _ _ => rfl⟩ (fun hh => hh.elim)
      (fun _ => hl) (by rw [hw]; rfl) (fun k hk => by cases hk) (by simp) (by simp) ?_
    simp only [TaskOk, setWorker, setTask, update_self, ho]
    exact .inl ⟨rfl, htaken, fun hm => h1 (h.waitfor ▸ Master.waitfor_eq_iff.2 hm)⟩
  · have hfreed : S.tm.waitfor = waitFreed := by
      have hwait := h.waitfor
      cases hm : S.master <;> rw [hm] at hwait <;>
        simp only [Master.waitfor, waitNobody, waitFreed] at * <;> omega
    refine h.ofWorker ⟨.inl hl, rfl, rfl, rfl, rfl, rfl, rfl, fun _ _ => rfl, fun _ _ => rfl⟩
      (fun _ => rfl) (fun hh => absurd trivial hh) (by rw [hw]; rfl) (fun k hk => by cases hk)
      (by simp) (by simp) ?_
    simp only [TaskOk, setWorker, setLock, update_self, ho]
    exact .inr ⟨rfl, htaken, hfreed⟩

theorem Inv.wake (h : S.Inv) (hw : S.workers i = .waiting data) (hl : S.tm.lockedBy = none) :
    (S.wake i data).Inv := by
  have hi := h.tasks i
  rw [TaskOk, hw] at hi
  cases ho : S.outcomes i with
  | some o =>
    rw [ho] at hi
    cases hi
  | none =>
  rw [ho] at hi
  have hstep : ∀ ret, Settled data ret (S.tm.tasks i) (S.taken i) (S.master = .waiting i)
      (S.tm.waitfor = waitFreed) →
      ((S.setLock (some (.worker i))).setWorker i (.completing data ret)).Inv := by
    intro ret hret
    refine h.ofWorker ⟨.inl hl, rfl, rfl, rfl, rfl, rfl, rfl, fun _ _ => rfl, fun _ _ => rfl⟩
      (fun _ => rfl) (fun hh => absurd trivial hh) (by rw [hw]; rfl) (fun k hk => by cases hk)
      (by simp) (by simp) ?_
    simp only [TaskOk, setWorker, setLock, update_self, ho]
    exact hret
  rw [System.wake]
  rcases hi with ⟨ht, -, -⟩ | ⟨ht, htaken, hwaits⟩ | ⟨ht, htaken, hfreed⟩
  · rw [ht]
    exact h
  · rw [ht]
    exact hstep 0 (.inl ⟨rfl, .inl ⟨ht, htaken, hwaits⟩⟩)
  · rw [ht]
    exact hstep (-1) (.inr ⟨rfl, htaken, hfreed⟩)

theorem Inv.decRefcnt (h : S.Inv) (hw : S.workers i = .callback ∨ S.workers i = .completed)
    (hl : S.tm.lockedBy = none) : (S.decRefcnt i).Inv := by
  have hi := h.tasks i
  rw [System.decRefcnt]
  refine h.ofWorker ⟨.inl hl, rfl, rfl, rfl, rfl, rfl, rfl, fun _ _ => rfl, fun _ _ => rfl⟩
    (fun _ => rfl) (fun hh => absurd trivial hh) ?_ ?_ (by simp) (by simp) ?_
  · rcases hw with hw | hw <;> rw [hw] <;> simp [Worker.refs, decr, setLock, setWorker]
  · intro k hk
    cases hk
    rfl
  · simp only [TaskOk, setWorker, setLock, decr, update_self]
    rw [TaskOk] at hi
    rcases hw with hw | hw <;> rw [hw] at hi <;> cases ho : S.outcomes i <;> rw [ho] at hi
    · exact hi
    · cases hi
    · cases hi
    · exact hi

theorem Inv.unlock_completing {ret : ℤ} (h : S.Inv) (hw : S.workers i = .completing data ret) :
    Inv { (S.setLock none).setWorker i .completed with
      outcomes := update S.outcomes i (some (data, ret)) } := by
  have hl := (h.lockWorker i).2 (hw ▸ trivial)
  have hi := h.tasks i
  rw [TaskOk, hw] at hi
  refine h.ofWorker ⟨.inr hl, rfl, rfl, rfl, rfl, rfl, rfl, fun _ _ => rfl,
    fun j hj => update_of_ne hj _ _⟩ (fun hh => hh.elim) (fun _ => rfl) (by rw [hw]; rfl)
    (fun k hk => by cases hk) (by simp) (by simp) ?_
  cases ho : S.outcomes i with
  | some o =>
    rw [ho] at hi
    cases hi
  | none =>
    rw [ho] at hi
    simp only [TaskOk, setWorker, setLock, update_self]
    exact hi

/-- When no reference is left, the thread which gives the last one back is alone. -/
theorem Inv.last (h : S.Inv) (hr : S.tm.refcnt = 0) {p : Party n} (hp : S.tm.lockedBy = some p) :
    ∀ q, q ≠ p → S.Out q := by
  have hcount := h.refcnt
  have hsum : 0 ≤ ∑ i, (S.workers i).refs := sum_nonneg fun i _ => Worker.refs_nonneg _
  have hmaster : 0 ≤ S.master.refs := by cases S.master <;> simp [Master.refs]
  have hzero : ∀ i, (S.workers i).refs = 0 := fun i =>
    (sum_eq_zero_iff_of_nonneg fun i _ => Worker.refs_nonneg _).1 (by omega) i (mem_univ i)
  intro q hq
  cases q with
  | master =>
    have hhold : ¬ S.master.Holds := fun hh => hq (by
      rw [← h.lockMaster, hp] at hh
      exact (Option.some.inj hh).symm)
    have hbusy := h.busy .master
    rw [Destroys] at hbusy
    have href : S.master.refs = 0 := by omega
    rw [Out]
    cases hm : S.master <;> rw [hm] at hhold hbusy href <;>
      first | rfl | exact absurd trivial hhold | exact absurd rfl hbusy | cases href
  | worker j =>
    have hhold : ¬ (S.workers j).Holds := fun hh => hq (by
      rw [← h.lockWorker j, hp] at hh
      exact (Option.some.inj hh).symm)
    have hbusy := h.busy (.worker j)
    rw [Destroys] at hbusy
    have href := hzero j
    rw [Out]
    cases hw : S.workers j <;> rw [hw] at hhold hbusy href <;>
      first | rfl | exact absurd trivial hhold | exact absurd rfl hbusy | cases href

/-- As long as a reference is left, somebody has it. -/
theorem Running.exists_refs (h : S.Running) (hr : S.tm.refcnt ≠ 0) :
    (∃ j, (S.workers j).refs ≠ 0) ∨ S.master.refs ≠ 0 := by
  by_contra hc
  rw [not_or, not_exists] at hc
  have hzero : ∑ j, (S.workers j).refs = 0 := sum_eq_zero fun j _ => not_not.1 (hc.1 j)
  have hcount := h.refcnt
  rw [hzero, not_not.1 hc.2] at hcount
  exact hr hcount

variable (S) in
/-- The state of the system between steps. -/
def Kept : Prop := S.Inv ∨ S.Over ∧ ∀ i, S.TaskOk i

theorem Inv.unlock_leaving {k : ℤ} (h : S.Inv) (hw : S.workers i = .leaving k) :
    Kept ((S.setLock none).setWorker i (if k = 0 then .destroying else .exited)) := by
  have hl := (h.lockWorker i).2 (hw ▸ trivial)
  have hk := h.leaving i k hw
  have hs : ∀ v : Worker δ, WorkerStep S ((S.setLock none).setWorker i v) i v := fun v =>
    ⟨.inr hl, rfl, rfl, rfl, rfl, rfl, rfl, fun _ _ => rfl, fun _ _ => rfl⟩
  have hi := h.tasks i
  rw [TaskOk, hw] at hi
  split_ifs with hzero
  · -- the last reference was given back
    refine .inr ⟨⟨h.valid, .inl ⟨h.frees, .worker i, update_self .., ?_⟩⟩, (hs _).taskOk h.tasks ?_⟩
    · intro q hq
      have hout := h.last (hk.trans hzero) hl q hq
      cases q with
      | master => exact hout
      | worker j =>
        have hj : j ≠ i := fun hji => hq (congrArg Party.worker hji)
        exact (update_of_ne hj ..).trans hout
    · simp only [TaskOk, setWorker, setLock, update_self]
      cases ho : S.outcomes i <;> rw [ho] at hi <;> exact hi
  · refine .inl ⟨h.toRunning.ofWorker (hs _) (fun hh => hh.elim) (fun _ => rfl) (by rw [hw]; rfl)
      (fun k hk => by cases hk) (by simp) ?_, (hs _).taskOk h.tasks ?_⟩
    · rcases h.exists_refs (hk ▸ hzero) with ⟨j, hj⟩ | hm
      · have hji : j ≠ i := by
          rintro rfl
          exact hj (hw ▸ rfl)
        refine ⟨.worker j, fun hout => hj ?_⟩
        rw [Out, (hs _).workers, update_of_ne hji] at hout
        rw [hout]
        rfl
      · refine ⟨.master, fun hout => hm ?_⟩
        rw [show S.master = .gone from hout]
        rfl
    · simp only [TaskOk, setWorker, setLock, update_self]
      cases ho : S.outcomes i <;> rw [ho] at hi <;> exact hi

/-! ## The steps of the master -/

/-- What is known of a task depends on the master only through what it took from the task, whether
    it waits for it, and whether it let the manager go. -/
theorem TaskOk.ofMaster {j : Fin n} (h : S.TaskOk j) (hw : S'.workers j = S.workers j)
    (ho : S'.outcomes j = S.outcomes j) (ht : S'.tm.tasks j = S.tm.tasks j)
    (htaken : S'.taken j = S.taken j) (hm : S'.master = .waiting j ↔ S.master = .waiting j)
    (hwait : S'.tm.waitfor = waitFreed ↔ S.tm.waitfor = waitFreed) : S'.TaskOk j := by
  rw [TaskOk, hw, ho, ht, htaken, hm, hwait]
  exact h

theorem TaskOk.take {j : Fin n} (h : S.TaskOk j) (hw : S'.workers j = S.workers j)
    (ho : S'.outcomes j = S.outcomes j) (hready : (S.tm.tasks j).status = .ready)
    (ht : (S'.tm.tasks j).status = .done)
    (htaken : S'.taken j = S.taken j ++ [(S.tm.tasks j).param]) (hm : S'.master ≠ .waiting j)
    (hfreed : S.tm.waitfor ≠ waitFreed) : S'.TaskOk j := by
  rw [TaskOk] at h ⊢
  rw [hw, ho, htaken]
  have key : ∀ data ret, Settled data ret (S.tm.tasks j) (S.taken j) (S.master = .waiting j)
      (S.tm.waitfor = waitFreed) → Settled data ret (S'.tm.tasks j)
        (S.taken j ++ [(S.tm.tasks j).param]) (S'.master = .waiting j)
        (S'.tm.waitfor = waitFreed) := by
    rintro data ret (⟨rfl, ⟨hd, -⟩ | ⟨hd, hnil, -⟩⟩ | ⟨-, -, hf⟩)
    · rw [hready] at hd
      cases hd
    · refine .inl ⟨rfl, .inl ⟨ht, ?_, hm⟩⟩
      rw [hnil, hd]
      rfl
    · exact absurd hf hfreed
  cases hwj : S.workers j <;> cases hoj : S.outcomes j <;> rw [hwj, hoj] at h <;>
    simp only [TaskState] at h ⊢ <;>
    first
    | exact key _ _ h
    | exact absurd (hready.symm.trans h.1) (by simp)
    | skip
  rcases h with ⟨hd, hnil, -⟩ | ⟨hd, -⟩ | ⟨-, -, hf⟩
  · refine .inr (.inl ⟨ht, ?_, hm⟩)
    rw [hnil, hd]
    rfl
  · rw [hready] at hd
    cases hd
  · exact absurd hf hfreed

theorem TaskOk.running {j : Fin n} (h : S.TaskOk j) (hw : S'.workers j = S.workers j)
    (ho : S'.outcomes j = S.outcomes j) (hrun : (S.tm.tasks j).status = .running)
    (ht : S'.tm.tasks j = S.tm.tasks j) (htaken : S'.taken j = S.taken j)
    (hfreed : S.tm.waitfor ≠ waitFreed) : S'.TaskOk j := by
  rw [TaskOk] at h ⊢
  rw [hw, ho, ht, htaken]
  have key : ∀ data ret, ¬ Settled data ret (S.tm.tasks j) (S.taken j) (S.master = .waiting j)
      (S.tm.waitfor = waitFreed) := by
    rintro data ret (⟨-, ⟨hd, -⟩ | ⟨hd, -⟩⟩ | ⟨-, -, hf⟩)
    · rw [hrun] at hd
      cases hd
    · rw [hd] at hrun
      cases hrun
    · exact hfreed hf
  cases hwj : S.workers j <;> cases hoj : S.outcomes j <;> rw [hwj, hoj] at h <;>
    simp only [TaskState] at h ⊢ <;>
    first
    | exact absurd h (key _ _)
    | exact h
    | skip
  rcases h with ⟨hd, -⟩ | ⟨hd, -⟩ | ⟨hd, -⟩
  · rw [hd] at hrun
    cases hrun
  · rw [hrun] at hd
    cases hd
  · rw [hrun] at hd
    cases hd

theorem TaskOk.ready (h : S.TaskOk i) (hm : S.master = .waiting i)
    (hfreed : S.tm.waitfor ≠ waitFreed) (hrun : (S.tm.tasks i).status ≠ .running) :
    (S.tm.tasks i).status = .ready := by
  rw [TaskOk] at h
  have key : ∀ data ret, Settled data ret (S.tm.tasks i) (S.taken i) (S.master = .waiting i)
      (S.tm.waitfor = waitFreed) → (S.tm.tasks i).status = .ready := by
    rintro data ret (⟨-, ⟨-, -, hw⟩ | ⟨hd, -⟩⟩ | ⟨-, -, hf⟩)
    · exact absurd hm hw
    · rw [hd]
    · exact absurd hf hfreed
  cases hwj : S.workers i <;> cases hoj : S.outcomes i <;> rw [hwj, hoj] at h <;>
    simp only [TaskState] at h <;>
    first
    | exact key _ _ h
    | exact absurd h.1 hrun
    | skip
  rcases h with ⟨hd, -⟩ | ⟨-, -, hw⟩ | ⟨-, -, hf⟩
  · rw [hd]
  · exact absurd hm hw
  · exact absurd hf hfreed

/-- What is taken from a task which is ready is in the hand of the master. -/
theorem Inv.take (h : S.Inv) (hm : S.master.refs = 1) (hhold : ¬ S.master.Holds)
    (hl : S.tm.lockedBy = none) (hready : (S.tm.tasks i).status = .ready)
    (hS : S'.workers = S.workers)
    (hmaster : S'.master = .returning i (some (S.tm.tasks i).param))
    (hwait : S'.tm.waitfor = waitNobody) (hfrees : S'.frees = S.frees)
    (hvalid : S'.invalid = S.invalid) (hout : S'.outcomes = S.outcomes)
    (hresults : S'.results = S.results) (hlock : S'.tm.lockedBy = some .master)
    (href : S'.tm.refcnt = S.tm.refcnt)
    (ht : S'.tm.tasks = update S.tm.tasks i { S.tm.tasks i with status := .done })
    (hwaits : ∀ j, j ≠ i → S.master ≠ .waiting j) : S'.Inv := by
  have hfreed : S.tm.waitfor ≠ waitFreed := by
    rw [h.waitfor]
    cases hc : S.master <;> rw [hc] at hm <;> simp [Master.refs] at hm <;>
      simp [Master.waitfor, waitNobody, waitFreed]
  have hin : ∀ j, S.master.inHand j = [] := by
    intro j
    cases hc : S.master <;> rw [hc] at hhold <;> first | rfl | exact absurd trivial hhold
  refine h.ofMaster ⟨.inl hl, hS, hmaster, hwait, hfrees, hvalid, hout⟩ (fun _ => hlock)
    (fun hh => absurd trivial hh) (by rw [href, hm]; rfl) (fun k hk => by cases hk) (by simp)
    (by simp) fun j => ?_
  by_cases hj : j = i
  · subst hj
    refine (h.tasks j).take (congrFun hS j) (congrFun hout j) hready ?_ ?_ ?_ hfreed
    · rw [ht, update_self]
    · rw [taken, taken, hresults, hmaster, hin j, List.append_nil]
      simp [Master.inHand]
    · rw [hmaster]
      simp
  · refine (h.tasks j).ofMaster (congrFun hS j) (congrFun hout j) ?_ ?_ ?_ ?_
    · rw [ht, update_of_ne hj]
    · rw [taken, taken, hresults, hmaster, hin j, Master.inHand, if_neg (Ne.symm hj)]
    · rw [hmaster]
      exact ⟨fun hc => (by cases hc), fun hc => absurd hc (hwaits j hj)⟩
    · rw [hwait]
      exact ⟨fun hc => absurd hc (by decide), fun hc => absurd hc hfreed⟩

theorem Inv.getResult (h : S.Inv) (hm : S.master = .idle) (hl : S.tm.lockedBy = none) :
    (S.getResult i).Inv := by
  have hwait : S.tm.waitfor = waitNobody := by rw [h.waitfor, hm]; rfl
  have hhold : ¬ S.master.Holds := hm ▸ fun hh => hh
  rw [System.getResult]
  split
  · next hrun =>
    refine h.ofMaster ⟨.inl hl, rfl, rfl, rfl, rfl, rfl, rfl⟩ (fun hh => hh.elim) (fun _ => hl)
      (by rw [hm]; rfl) (fun k hk => by cases hk) (by simp) (by simp) fun j => ?_
    by_cases hj : j = i
    · subst hj
      refine (h.tasks j).running rfl rfl hrun rfl ?_ (by rw [hwait]; decide)
      rw [taken, taken, hm]
      rfl
    · refine (h.tasks j).ofMaster rfl rfl rfl ?_ ?_ ?_
      · rw [taken, taken, hm]
        rfl
      · rw [hm]
        simp [Ne.symm hj]
      · rw [hwait]
        simp [setWaitfor, waitNobody, waitFreed]
  · next hready =>
    exact h.take (by rw [hm]; rfl) hhold hl hready rfl rfl hwait rfl rfl rfl rfl rfl rfl rfl
      (fun j _ => by rw [hm]; simp)
  · refine h.ofMaster ⟨.inl hl, rfl, rfl, hwait, rfl, rfl, rfl⟩ (fun _ => rfl)
      (fun hh => absurd trivial hh) (by rw [hm]; rfl) (fun k hk => by cases hk) (by simp) (by simp)
      fun j => (h.tasks j).ofMaster rfl rfl rfl ?_ ?_ Iff.rfl
    · rw [taken, taken, hm]
      simp [Master.inHand, setLock]
    · rw [hm]
      simp

theorem Inv.wakeMaster (h : S.Inv) (hm : S.master = .waiting i) (hl : S.tm.lockedBy = none) :
    (S.wakeMaster i).Inv := by
  have hhold : ¬ S.master.Holds := hm ▸ fun hh => hh
  have hwait : S.tm.waitfor = i := by rw [h.waitfor, hm]; rfl
  have hfreed : S.tm.waitfor ≠ waitFreed := by
    rw [hwait, waitFreed]
    omega
  rw [System.wakeMaster]
  split
  · next hrun =>
    -- it goes on waiting
    refine h.ofMaster ⟨.inl hl, rfl, hm, rfl, rfl, rfl, rfl⟩ (fun hh => hh.elim) (fun _ => hl)
      (by rw [hm]; rfl) (fun k hk => by cases hk) (by simp) (by simp) fun j =>
        (h.tasks j).ofMaster rfl rfl rfl rfl Iff.rfl ?_
    rw [hwait]
    rfl
  · next hrun =>
    have hready := (h.tasks i).ready hm hfreed hrun
    exact h.take (by rw [hm]; rfl) hhold hl hready rfl rfl rfl rfl rfl rfl rfl rfl rfl rfl
      (fun j hj => by rw [hm]; simp [Ne.symm hj])

theorem Inv.free (h : S.Inv) (hm : S.master = .idle)
    (hok : S.tm.refcnt = 1 → S.tm.lockedBy = none) :
    Kept { S with master := if S.tm.refcnt = 1 then .destroying else .freeing } := by
  have ht : ∀ m : Master n δ, (∀ j, m ≠ .waiting j) → (∀ j, m.inHand j = []) →
      ∀ j, TaskOk { S with master := m } j := by
    intro m hw hin j
    refine (h.tasks j).ofMaster rfl rfl rfl ?_ ?_ Iff.rfl
    · rw [taken, taken, hm, hin]
      rfl
    · rw [hm]
      exact ⟨fun hc => absurd hc (hw j), fun hc => (by cases hc)⟩
  split_ifs with hr
  · -- the other references are given back, and nobody is inside a critical section
    have hl := hok hr
    refine .inr ⟨⟨h.valid, .inl ⟨h.frees, .master, rfl, ?_⟩⟩, ht _ (by simp) fun _ => rfl⟩
    intro q hq
    cases q with
    | master => exact absurd rfl hq
    | worker j =>
      have hcount := h.refcnt
      rw [hr, hm] at hcount
      have hzero : (S.workers j).refs = 0 :=
        (sum_eq_zero_iff_of_nonneg fun i _ => Worker.refs_nonneg _).1
          (left_eq_add.1 (by rw [add_comm]; exact hcount)) j (mem_univ j)
      have hhold : ¬ (S.workers j).Holds := by
        rw [← h.lockWorker j, hl]
        simp
      have hbusy := h.busy (.worker j)
      rw [Destroys] at hbusy
      rw [Out]
      change S.workers j = .exited
      cases hw : S.workers j <;> rw [hw] at hhold hbusy hzero <;>
        first | rfl | exact absurd trivial hhold | exact absurd rfl hbusy | cases hzero
  · -- the mutex may be held here
    refine .inl ⟨⟨h.valid, h.frees, ?_, h.lockWorker, ?_, h.leaving, fun k hk => (by cases hk), ?_,
      ?_, .master, by simp [Out]⟩, ht _ (by simp) fun _ => rfl⟩
    · have hcount := h.refcnt
      rw [hm] at hcount
      exact hcount
    · have hlock := h.lockMaster
      rw [hm] at hlock
      exact hlock
    · have hwait := h.waitfor
      rw [hm] at hwait
      exact hwait
    · intro p hp
      cases p with
      | master => cases hp
      | worker j => exact h.busy (.worker j) hp

theorem Inv.freeLocked (h : S.Inv) (hm : S.master = .freeing) (hl : S.tm.lockedBy = none) :
    S.freeLocked.Inv := by
  refine h.ofMaster (m := .releasing (S.tm.refcnt - 1)) ⟨.inl hl, rfl, rfl, rfl, rfl, rfl, rfl⟩
    (fun _ => rfl) (fun hh => absurd trivial hh) ?_ ?_ (by simp) (by simp) fun j => ?_
  · rw [hm]
    change S.tm.refcnt - 1 + 1 = S.tm.refcnt + 0
    omega
  · intro k hk
    cases hk
    rfl
  · have ht := h.tasks j
    have htaken : S.freeLocked.taken j = S.taken j := by
      rw [taken, taken, hm]
      rfl
    have hwaits : ¬ S.master = .waiting j := by
      rw [hm]
      simp
    have hback : ∀ data, S.tm.tasks j = ⟨data, .ready⟩ →
        ((S.tm.tasks j).giveBack).status = .returned := by
      intro data hd
      rw [hd]
      rfl
    have hsame : (S.tm.tasks j).status ≠ .ready → (S.tm.tasks j).giveBack = S.tm.tasks j := by
      intro hne
      rw [Task.giveBack]
      split
      · next hc => exact absurd hc hne
      · rfl
    rw [TaskOk] at ht ⊢
    rw [htaken]
    have key : ∀ data ret, Settled data ret (S.tm.tasks j) (S.taken j) (S.master = .waiting j)
        (S.tm.waitfor = waitFreed) → Settled data ret (S.freeLocked.tm.tasks j) (S.taken j)
          (S.freeLocked.master = .waiting j) (S.freeLocked.tm.waitfor = waitFreed) := by
      rintro data ret (⟨rfl, ⟨hd, htk, -⟩ | ⟨-, -, hw⟩⟩ | ⟨rfl, htk, -⟩)
      · have hs := hsame (by rw [hd]; simp)
        refine .inl ⟨rfl, .inl ⟨?_, htk, by simp [System.freeLocked]⟩⟩
        exact (congrArg Task.status hs).trans hd
      · exact absurd hw hwaits
      · exact .inr ⟨rfl, htk, rfl⟩
    change TaskState (S.workers j) (S.outcomes j) (S.tm.tasks j).giveBack _ _ _
    cases hwj : S.workers j <;> cases hoj : S.outcomes j <;> rw [hwj, hoj] at ht <;>
      simp only [TaskState] at ht ⊢ <;>
      first
      | exact key _ _ ht
      | exact ⟨by rw [hsame (by rw [ht.1]; simp)]; exact ht.1, ht.2⟩
      | skip
    rcases ht with ⟨hd, htk, -⟩ | ⟨hd, htk, -⟩ | ⟨hd, htk, -⟩
    · exact .inr (.inr ⟨hback _ hd, htk, rfl⟩)
    · refine .inr (.inl ⟨?_, htk, by simp [System.freeLocked]⟩)
      rw [hsame (by rw [hd]; simp)]
      exact hd
    · refine .inr (.inr ⟨?_, htk, rfl⟩)
      rw [hsame (by rw [hd]; simp)]
      exact hd

theorem Inv.unlockMaster (h : S.Inv) (hs : S.unlockMaster = some S') : Kept S' := by
  rw [System.unlockMaster] at hs
  split at hs
  · next j ret hm =>
    cases hs
    have hl := h.lockMaster.2 (hm ▸ trivial)
    refine .inl (h.ofMaster ⟨.inr hl, rfl, rfl, ?_, rfl, rfl, rfl⟩ (fun hh => hh.elim)
      (fun _ => rfl) (by rw [hm]; rfl) (fun k hk => by cases hk) (by simp) (by simp)
      fun i => (h.tasks i).ofMaster rfl rfl rfl ?_ ?_ Iff.rfl)
    · have hwait := h.waitfor
      rw [hm] at hwait
      exact hwait
    · rw [taken, taken, hm]
      cases ret with
      | none => simp [Master.inHand]
      | some data =>
        by_cases hj : j = i <;> simp [Master.inHand, hj]
    · rw [hm]
      exact ⟨fun hc => (by cases hc), fun hc => (by cases hc)⟩
  · next k hm =>
    cases hs
    have hl := h.lockMaster.2 (hm ▸ trivial)
    have hk := h.releasing k hm
    have ht : ∀ m : Master n δ, (∀ j, m ≠ .waiting j) → (∀ j, m.inHand j = []) →
        ∀ i, TaskOk { S.setLock none with master := m } i := by
      intro m hw hin i
      refine (h.tasks i).ofMaster rfl rfl rfl ?_ ?_ Iff.rfl
      · rw [taken, taken, hm, hin]
        rfl
      · rw [hm]
        exact ⟨fun hc => absurd hc (hw i), fun hc => (by cases hc)⟩
    split_ifs with hzero
    · refine .inr ⟨⟨h.valid, .inl ⟨h.frees, .master, rfl, ?_⟩⟩, ht _ (by simp) fun _ => rfl⟩
      intro q hq
      have hout := h.last (hk.trans hzero) hl q hq
      cases q with
      | master => exact absurd rfl hq
      | worker j => exact hout
    · refine .inl ⟨h.toRunning.ofMaster (m := .gone) ⟨.inr hl, rfl, rfl, ?_, rfl, rfl, rfl⟩
        (fun hh => hh.elim) (fun _ => rfl) (by rw [hm]; rfl) (fun k hk => by cases hk) (by simp) ?_,
        ht _ (by simp) fun _ => rfl⟩
      · have hwait := h.waitfor
        rw [hm] at hwait
        exact hwait
      · rcases h.exists_refs (hk ▸ hzero) with ⟨j, hj⟩ | hm'
        · refine ⟨.worker j, fun hout => hj ?_⟩
          rw [show S.workers j = .exited from hout]
          rfl
        · rw [hm] at hm'
          exact absurd rfl hm'
  · cases hs

end System

end Pclsync.TaskRunner
