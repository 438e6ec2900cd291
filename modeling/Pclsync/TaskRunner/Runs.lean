import Pclsync.TaskRunner.Invariant

/-!
# Runs of the task manager

In every run in which `psync_task_free` does not read the counter of references as `1` while a
thread is inside its last critical section (`Ok`), the data of every completion that returns `0` is
delivered to the master once, the data of any other stays with the callback, and the manager is
freed once, when nobody uses it any more (`runs_safe`). Otherwise a thread may unlock the mutex of a
manager that was freed (`freed_in_use`).
-/

namespace Pclsync.TaskRunner.System

open Function

variable {n : ℕ} {δ : Type} {S S' : System n δ} {i : Fin n} {data : δ}

variable (S) in
/-- What the users of the manager can rely on. -/
structure Safe : Prop where
  /-- The data of a completion which returned `0` is delivered once; or the master, woken for it, is
      about to take it. -/
  delivered : ∀ i data, S.outcomes i = some (data, 0) →
    S.taken i = [data] ∨
      S.taken i = [] ∧ S.tm.tasks i = ⟨data, .ready⟩ ∧ S.master = .waiting i
  /-- Any other completion returned `-1`, and its data is not delivered. -/
  kept : ∀ i data ret, S.outcomes i = some (data, ret) → ret ≠ 0 → ret = -1 ∧ S.taken i = []
  /-- Only data that was completed, or is being completed, is delivered. -/
  genuine : ∀ i data, data ∈ S.taken i →
    S.outcomes i = some (data, 0) ∨ S.workers i = .waiting data ∨ S.workers i = .completing data 0
  /-- The manager is not used after it was freed. -/
  valid : S.invalid = false
  /-- The manager is freed at most once, and it is freed when everybody has let go of it. -/
  frees : S.frees ≤ 1
  freed_iff : S.frees = 1 ↔ ∀ p, S.Out p

variable (S) in
/-- The master does not take the counter of references for the last one while a thread is inside
    its last critical section. -/
def Ok : Action n δ → Prop
  | .free => S.tm.refcnt = 1 → S.tm.lockedBy = none
  | _ => True

theorem Inv.step {a : Action n δ} (h : S.Inv) (hok : S.Ok a) (hs : S.step a = some S') :
    Kept S' := by
  have huse := use_eq h.frees
  cases a <;> simp only [System.step, huse] at hs
  case complete i data =>
    split at hs
    · next hw hl =>
      cases hs
      exact .inl (h.complete hw hl)
    · cases hs
  case wake i =>
    split at hs
    · next hw hl =>
      cases hs
      exact .inl (h.wake hw hl)
    · cases hs
  case decRefcnt i =>
    split at hs
    · next hw hl =>
      cases hs
      exact .inl (h.decRefcnt (.inl hw) hl)
    · next hw hl =>
      cases hs
      exact .inl (h.decRefcnt (.inr hw) hl)
    · cases hs
  case unlock i =>
    rw [System.unlock] at hs
    split at hs
    · next hw =>
      cases hs
      exact .inl (h.unlock_completing hw)
    · next hw =>
      cases hs
      exact h.unlock_leaving hw
    · cases hs
  case destroy i =>
    split at hs
    · next hw => exact absurd hw (h.busy (.worker i))
    · cases hs
  case getResult i =>
    split at hs
    · next hm hl =>
      cases hs
      exact .inl (h.getResult hm hl)
    · cases hs
  case wakeMaster =>
    split at hs
    · next hm hl =>
      cases hs
      exact .inl (h.wakeMaster hm hl)
    · cases hs
  case free =>
    split at hs
    · next hm =>
      cases hs
      exact h.free hm hok
    · cases hs
  case freeLocked =>
    split at hs
    · next hm hl =>
      cases hs
      exact .inl (h.freeLocked hm hl)
    · cases hs
  case unlockMaster => exact h.unlockMaster hs
  case destroyMaster =>
    split at hs
    · next hm => exact absurd hm (h.busy .master)
    · cases hs

theorem Over.party (h : S.Over) (p : Party n) : S.Out p ∨ S.Destroys p ∧ S.frees = 0 ∧
    ∀ q, q ≠ p → S.Out q := by
  rcases h.last with ⟨hf, r, hr, hout⟩ | ⟨-, hout⟩
  · by_cases hp : p = r
    · exact .inr ⟨hp ▸ hr, hf, hp ▸ hout⟩
    · exact .inl (hout p hp)
  · exact .inl (hout p)

theorem Over.worker (h : S.Over) (i : Fin n) : S.workers i = .exited ∨ S.workers i = .destroying :=
  (h.party (.worker i)).imp id And.left

theorem Over.master (h : S.Over) : S.master = .gone ∨ S.master = .destroying :=
  (h.party .master).imp id And.left

/-- Nothing but freeing the manager is left to do. -/
theorem Over.step {a : Action n δ} (h : S.Over) (ht : ∀ i, S.TaskOk i)
    (hs : S.step a = some S') : Kept S' := by
  have hvalid : S.frees = 0 → S.use = S := use_eq
  cases a <;> simp only [System.step] at hs
  case destroy i =>
    rcases h.party (.worker i) with hout | ⟨hd, hf, hout⟩
    · rw [show S.workers i = .exited from hout] at hs
      cases hs
    · rw [show S.workers i = .destroying from hd, hvalid hf] at hs
      cases hs
      refine .inr ⟨⟨h.valid, .inr ⟨congrArg (· + 1) hf, fun q => ?_⟩⟩, fun j => ?_⟩
      · by_cases hq : q = .worker i
        · rw [hq]
          exact update_self ..
        · cases q with
          | master => exact hout .master hq
          | worker j =>
            have hj : j ≠ i := fun hji => hq (congrArg Party.worker hji)
            exact (update_of_ne hj ..).trans (hout (.worker j) hq)
      · have hj := ht j
        by_cases hji : j = i
        · subst hji
          rw [TaskOk, show S.workers j = .destroying from hd] at hj
          simp only [TaskOk, setWorker, update_self]
          cases ho : S.outcomes j <;> rw [ho] at hj <;> exact hj
        · exact (ht j).ofMaster (update_of_ne hji ..) rfl rfl rfl Iff.rfl Iff.rfl
  case destroyMaster =>
    rcases h.party .master with hout | ⟨hd, hf, hout⟩
    · rw [show S.master = .gone from hout] at hs
      cases hs
    · rw [show S.master = .destroying from hd, hvalid hf] at hs
      cases hs
      refine .inr ⟨⟨h.valid, .inr ⟨congrArg (· + 1) hf, fun q => ?_⟩⟩, fun j => ?_⟩
      · cases q with
        | master => rfl
        | worker j => exact hout (.worker j) (by simp)
      · refine (ht j).ofMaster rfl rfl rfl ?_ ?_ Iff.rfl
        · rw [taken, taken, show S.master = .destroying from hd]
          rfl
        · rw [show S.master = .destroying from hd]
          exact ⟨fun hc => (by cases hc), fun hc => (by cases hc)⟩
  case unlock i =>
    rw [System.unlock] at hs
    rcases h.worker i with hw | hw <;> simp [use, hw] at hs
  case unlockMaster =>
    rw [System.unlockMaster] at hs
    rcases h.master with hm | hm <;> simp [use, hm] at hs
  case complete i data => rcases h.worker i with hw | hw <;> simp [hw] at hs
  case wake i => rcases h.worker i with hw | hw <;> simp [hw] at hs
  case decRefcnt i => rcases h.worker i with hw | hw <;> simp [hw] at hs
  case getResult i => rcases h.master with hm | hm <;> simp [hm] at hs
  case wakeMaster => rcases h.master with hm | hm <;> simp [hm] at hs
  case free => rcases h.master with hm | hm <;> simp [hm] at hs
  case freeLocked => rcases h.master with hm | hm <;> simp [hm] at hs

theorem inv_start (params : Fin n → δ) : (start params).Inv where
  valid := rfl
  frees := rfl
  refcnt := by simp [start, Worker.refs, Master.refs]
  lockWorker i := ⟨fun h => (by cases h), fun h => h.elim⟩
  lockMaster := ⟨fun h => (by cases h), fun h => h.elim⟩
  leaving i k h := by cases h
  releasing k h := by cases h
  waitfor := rfl
  busy p h := by cases p <;> cases h
  alive := ⟨.master, by simp [Out, start]⟩
  tasks i := ⟨rfl, rfl⟩

theorem Settled.safe {ret : ℤ} {t : Task δ} {taken : List δ} {waits freed : Prop}
    (h : Settled data ret t taken waits freed) :
    (ret = 0 ∧ (taken = [data] ∨ taken = [] ∧ t = ⟨data, .ready⟩ ∧ waits)) ∨
      ret = -1 ∧ taken = [] := by
  rcases h with ⟨hr, ⟨-, htaken, -⟩ | ⟨ht, htaken, hw⟩⟩ | ⟨hr, htaken, -⟩
  · exact .inl ⟨hr, .inl htaken⟩
  · exact .inl ⟨hr, .inr ⟨htaken, ht, hw⟩⟩
  · exact .inr ⟨hr, htaken⟩

theorem TaskOk.settled {ret : ℤ} (h : S.TaskOk i) (ho : S.outcomes i = some (data, ret)) :
    Settled data ret (S.tm.tasks i) (S.taken i) (S.master = .waiting i)
      (S.tm.waitfor = waitFreed) := by
  rw [TaskOk, ho] at h
  cases hw : S.workers i <;> rw [hw] at h <;> first | exact h | cases h

theorem TaskOk.genuine (h : S.TaskOk i) (hd : data ∈ S.taken i) :
    S.outcomes i = some (data, 0) ∨ S.workers i = .waiting data ∨
      S.workers i = .completing data 0 := by
  have key : ∀ d ret, Settled d ret (S.tm.tasks i) (S.taken i) (S.master = .waiting i)
      (S.tm.waitfor = waitFreed) → d = data ∧ ret = 0 := by
    intro d ret hs
    rcases hs.safe with ⟨hr, htaken | ⟨htaken, -⟩⟩ | ⟨-, htaken⟩ <;> rw [htaken] at hd
    · exact ⟨(List.mem_singleton.1 hd).symm, hr⟩
    · cases hd
    · cases hd
  cases ho : S.outcomes i with
  | some o =>
    obtain ⟨d, ret⟩ := o
    obtain ⟨rfl, rfl⟩ := key d ret (h.settled ho)
    exact .inl rfl
  | none =>
    rw [TaskOk, ho] at h
    cases hw : S.workers i <;> rw [hw] at h <;> simp only [TaskState] at h
    case waiting d =>
      rcases h with ⟨-, htaken, -⟩ | ⟨-, htaken, -⟩ | ⟨-, htaken, -⟩ <;> rw [htaken] at hd
      · cases hd
      · rw [List.mem_singleton.1 hd]
        exact .inr (.inl rfl)
      · cases hd
    case completing d ret =>
      obtain ⟨rfl, rfl⟩ := key d ret h
      exact .inr (.inr rfl)
    all_goals
      rw [h.2] at hd
      cases hd

theorem Kept.safe (h : Kept S) : S.Safe := by
  have ht : ∀ i, S.TaskOk i := h.elim Inv.tasks And.right
  refine ⟨fun i data ho => ?_, fun i data ret ho hne => ?_, fun i data => (ht i).genuine, ?_, ?_,
    ?_⟩
  · rcases ((ht i).settled ho).safe with ⟨-, hd⟩ | ⟨hr, -⟩
    · exact hd
    · cases hr
  · rcases ((ht i).settled ho).safe with ⟨hr, -⟩ | hd
    · exact absurd hr hne
    · exact hd
  · exact h.elim (·.valid) (·.1.valid)
  · rcases h with h | ⟨h, -⟩
    · rw [h.frees]
      exact Nat.zero_le 1
    · rcases h.last with ⟨hf, -⟩ | ⟨hf, -⟩ <;> rw [hf]
      exact Nat.zero_le 1
  · rcases h with h | ⟨h, -⟩
    · obtain ⟨p, hp⟩ := h.alive
      rw [h.frees]
      exact ⟨fun hc => (by cases hc), fun hc => absurd (hc p) hp⟩
    · rcases h.last with ⟨hf, p, hp, -⟩ | ⟨hf, hout⟩
      · rw [hf]
        refine ⟨fun hc => (by cases hc), fun hc => ?_⟩
        have hout := hc p
        cases p <;> rw [Out] at hout <;> rw [Destroys, hout] at hp <;> cases hp
      · exact ⟨fun _ => hout, fun _ => hf⟩

/-- In every run whose steps meet the condition, the users of the manager can rely on it. -/
theorem runs_safe (h : (machine n δ).Reachable System.Ok S) : S.Safe := by
  have hkept : Kept S := Machine.Reachable.invariant (P := Kept)
    (fun S hS => ?_) (fun S a S' hi hok hs => ?_) h
  · exact hkept.safe
  · obtain ⟨params, rfl⟩ := hS
    exact .inl (inv_start params)
  · rcases hi with hi | ⟨hi, ht⟩
    · exact hi.step hok hs
    · exact hi.step ht hs

/-! ## Runs on fixed tasks -/

/-- The master takes the result of the first task, while the second one waits to be asked for. -/
def firstResult : List (Action 2 ℕ) :=
  [.getResult 0, .complete 0 7, .unlock 0, .complete 1 8, .wakeMaster, .unlockMaster]

/-- `psync_task_free` sends the second task away, and the last thread frees the manager. -/
def lastThread : List (Action 2 ℕ) :=
  [.freeLocked, .unlockMaster, .wake 1, .unlock 1, .decRefcnt 0, .unlock 0, .decRefcnt 1, .unlock 1,
    .destroy 1]

theorem runs_safe_twoTasks : ∃ S : System 2 ℕ, S.results = [(0, 7)] ∧ S.outcomes 1 = some (8, -1) ∧
    S.frees = 1 ∧ S.Safe := by
  have hok : ∀ a ∈ firstResult ++ lastThread, ∀ S : System 2 ℕ, S.Ok a := by
    simp [firstResult, lastThread, Ok]
  have h0 : (machine 2 ℕ).Reachable System.Ok (start fun _ => 0) := .init ⟨fun _ => 0, rfl⟩
  have h1 := h0.of_run_of (fun a ha => hok a (List.mem_append_left _ ha)) rfl
  have h2 : (machine 2 ℕ).Reachable System.Ok _ :=
    .step (a := .free) h1 (fun hlast => absurd hlast (by decide)) rfl
  have h3 : (machine 2 ℕ).Reachable System.Ok _ :=
    h2.of_run_of (fun a ha => hok a (List.mem_append_right _ ha)) rfl
  exact ⟨_, rfl, rfl, rfl, runs_safe h3⟩

/-- The thread of a task has completed it and given its reference back, and the master lets the
    manager go and frees it before that thread releases the mutex. -/
def earlyFree : List (Action 1 ℕ) :=
  [.getResult ⟨0, Nat.one_pos⟩, .complete ⟨0, Nat.one_pos⟩ 7, .unlock ⟨0, Nat.one_pos⟩,
    .wakeMaster, .unlockMaster, .decRefcnt ⟨0, Nat.one_pos⟩, .free, .destroyMaster,
    .unlock ⟨0, Nat.one_pos⟩]

theorem freed_in_use : ¬ ∀ S, (machine 1 ℕ).Reachable (fun _ _ => True) S → S.Safe := by
  intro h
  obtain ⟨S, hS, hinvalid⟩ : ∃ S, (machine 1 ℕ).run (start fun _ => 0) earlyFree = some S ∧
      S.invalid = true := ⟨_, rfl, rfl⟩
  have hvalid := (h S (.of_run (.init ⟨fun _ => 0, rfl⟩) hS)).valid
  rw [hinvalid] at hvalid
  cases hvalid

end Pclsync.TaskRunner.System
