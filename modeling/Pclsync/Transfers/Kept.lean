import Mathlib.Data.List.Nodup
import Pclsync.Transfers.Tasks

/-!
# No version is lost

A worker deletes and resets only the row it was started for, and the newest version of a file that
was recorded is transferred or has a row (`kept_of_reachable`), in every run in which

* no row gets the id of a row that a worker, which is not done yet, was started for,
* and no worker of a newest version ends with a permanent error, on which the source gives the
  version up.

The first condition is needed: cancelling the only transfer and recording the next version gives the
new row the id of the old one, and the old worker deletes it when it is done (`not_kept_reused`).
-/

namespace Pclsync.Transfers.State

open List Option

/-- A worker and its row. -/
def Own (s : State) : Prop := ∀ w ∈ s.workers, ∀ r ∈ s.tasks, r.id = w.taskid → r.stamp = w.stamp

/-- The newest versions are transferred or have rows. -/
def Kept (s : State) : Prop :=
  ∀ item v, s.latest item = some v → v ∈ s.transferred ∨
    ∃ r ∈ s.tasks, r.item = item ∧ r.stamp = v

/-- No row gets the id of a row that a worker was started for. -/
def Fresh : State → List Statement → Prop
  | _, [] => True
  | s, .insert item :: l =>
    (∀ w ∈ s.workers, w.taskid ≠ s.newId) ∧ Fresh (s.insert item) l
  | s, t :: l => Fresh (s.apply t) l

/-- The condition on a step. -/
def Ok (s : State) : Action → Prop
  | .event e => s.Fresh e.statements
  | .finish i .refused => ∀ w ∈ s.workers[i]?, ∀ item, s.latest item ≠ some w.stamp
  | _ => True

/-- What holds in every run that meets the condition. -/
structure Inv (s : State) : Prop where
  own : s.Own
  kept : s.Kept
  /-- The ids are different. -/
  nodup : (s.tasks.map Task.id).Nodup
  /-- The numbers are used. -/
  latest_lt : ∀ item v, s.latest item = some v → v < s.stamps
  worker_lt : ∀ w ∈ s.workers, w.stamp < s.stamps
  task_lt : ∀ r ∈ s.tasks, r.stamp < s.stamps
  /-- What is given up is not the newest version. -/
  refused : ∀ w ∈ s.workers, w.result = some .refused → ∀ item, s.latest item ≠ some w.stamp

/-! ## Ids -/

theorem le_foldr_max {l : List ℕ} {n : ℕ} (h : n ∈ l) : n ≤ l.foldr max 0 := by
  induction l with
  | nil => cases h
  | cons m l ih =>
    rcases mem_cons.1 h with rfl | h
    · exact le_max_left _ _
    · exact (ih h).trans (le_max_right _ _)

/-- The id of a new row is above all others. -/
theorem lt_newId {s : State} {r : Task} (hr : r ∈ s.tasks) : r.id < s.newId :=
  Nat.lt_succ_of_le (le_foldr_max (mem_map_of_mem hr))

namespace Inv

variable {s : State}

section

variable (h : s.Inv)
include h

theorem eq_of_id {r r' : Task} (hr : r ∈ s.tasks) (hr' : r' ∈ s.tasks)
    (hid : r.id = r'.id) : r = r' := inj_on_of_nodup_map h.nodup hr hr' hid

/-! ## Transactions -/

theorem insert (item : Item) (hfresh : ∀ w ∈ s.workers, w.taskid ≠ s.newId) :
    (s.insert item).Inv where
  own w hw r hr hid := by
    rcases mem_append.1 hr with hr | hr
    · exact h.own w hw r hr hid
    · obtain rfl := mem_singleton.1 hr
      exact absurd hid.symm (hfresh w hw)
  kept i v hv := by
    dsimp only [State.insert] at hv ⊢
    split at hv
    · obtain ⟨⟩ := hv
      rename_i hi
      exact .inr ⟨_, mem_append_right _ (mem_singleton_self _), hi.symm, rfl⟩
    · exact (h.kept i v hv).imp_right fun ⟨r, hr, hrv⟩ => ⟨r, mem_append_left _ hr, hrv⟩
  nodup := by
    dsimp only [State.insert]
    rw [map_append, map_singleton]
    refine List.Nodup.append h.nodup (nodup_singleton _) fun n hn hn' => ?_
    obtain ⟨r, hr, rfl⟩ := mem_map.1 hn
    exact (lt_newId hr).ne (mem_singleton.1 hn')
  latest_lt i v hv := by
    dsimp only [State.insert] at hv ⊢
    split at hv
    · exact some.inj hv ▸ Nat.lt_succ_self _
    · exact Nat.lt_succ_of_lt (h.latest_lt i v hv)
  worker_lt w hw := Nat.lt_succ_of_lt (h.worker_lt w hw)
  task_lt r hr := by
    rcases mem_append.1 hr with hr | hr
    · exact Nat.lt_succ_of_lt (h.task_lt r hr)
    · exact mem_singleton.1 hr ▸ Nat.lt_succ_self _
  refused w hw hres i hv := by
    dsimp only [State.insert] at hv
    split at hv
    · exact (h.worker_lt w hw).ne' (some.inj hv)
    · exact h.refused w hw hres i hv

theorem cancel (which : Item → Bool) (stop : ℕ) : (s.cancel which stop).Inv := by
  have hworker : ∀ w ∈ (s.cancel which stop).workers, ∃ w₀ ∈ s.workers, w.taskid = w₀.taskid ∧
      w.stamp = w₀.stamp ∧ w.result = w₀.result := by
    intro w hw
    obtain ⟨w₀, hw0, rfl⟩ := mem_map.1 hw
    refine ⟨w₀, hw0, ?_⟩
    split <;> exact ⟨rfl, rfl, rfl⟩
  have hlatest : ∀ i v, (s.cancel which stop).latest i = some v → s.latest i = some v := by
    intro i v hv
    dsimp only [State.cancel] at hv
    split at hv
    · cases hv
    · exact hv
  refine ⟨fun w hw r hr hid => ?_, fun i v hv => ?_, ?_, ?_, ?_, ?_, ?_⟩
  · obtain ⟨w₀, hw0, htask, hstamp, -⟩ := hworker w hw
    exact (h.own w₀ hw0 r (mem_filter.1 hr).1 (hid.trans htask)).trans hstamp.symm
  · have hi : which i = false := by
      dsimp only [State.cancel] at hv
      by_contra hc
      rw [if_pos (by simpa using hc)] at hv
      cases hv
    refine (h.kept i v (hlatest i v hv)).imp_right fun ⟨r, hr, hitem, hrv⟩ => ⟨r, ?_, hitem, hrv⟩
    exact mem_filter.2 ⟨hr, by rw [hitem, hi]; rfl⟩
  · exact h.nodup.sublist (filter_sublist.map _)
  · exact fun i v hv => h.latest_lt i v (hlatest i v hv)
  · intro w hw
    obtain ⟨w₀, hw0, -, hstamp, -⟩ := hworker w hw
    exact hstamp ▸ h.worker_lt w₀ hw0
  · exact fun r hr => h.task_lt r (mem_filter.1 hr).1
  · intro w hw hres i hv
    obtain ⟨w₀, hw0, -, hstamp, hresult⟩ := hworker w hw
    exact h.refused w₀ hw0 (hresult ▸ hres) i (hstamp ▸ hlatest i _ hv)

theorem present (item : Item) : (s.present item).Inv where
  own := h.own
  kept i v hv := by
    dsimp only [State.present] at hv ⊢
    split at hv
    · exact .inl (some.inj hv ▸ mem_cons_self)
    · exact (h.kept i v hv).imp_left (mem_cons_of_mem _)
  nodup := h.nodup
  latest_lt i v hv := by
    dsimp only [State.present] at hv ⊢
    split at hv
    · exact some.inj hv ▸ Nat.lt_succ_self _
    · exact Nat.lt_succ_of_lt (h.latest_lt i v hv)
  worker_lt w hw := Nat.lt_succ_of_lt (h.worker_lt w hw)
  task_lt r hr := Nat.lt_succ_of_lt (h.task_lt r hr)
  refused w hw hres i hv := by
    dsimp only [State.present] at hv
    split at hv
    · exact (h.worker_lt w hw).ne' (some.inj hv)
    · exact h.refused w hw hres i hv

/-- A transaction whose new rows get unused ids. -/
theorem foldl_apply {l : List Statement} (hfresh : s.Fresh l) : (l.foldl apply s).Inv := by
  induction l generalizing s with
  | nil => exact h
  | cons t l ih =>
    cases t with
    | cancel which stop => exact ih (h.cancel which stop) hfresh
    | insert item => exact ih (h.insert item hfresh.1) hfresh.2
    | present item => exact ih (h.present item) hfresh

/-! ## Workers -/

theorem setWorker {i : ℕ} {w w' : Worker} (hw : s.workers[i]? = some w)
    (htask : w'.taskid = w.taskid) (hstamp : w'.stamp = w.stamp)
    (href : w'.result = some .refused → ∀ item, s.latest item ≠ some w'.stamp) :
    (s.setWorker i w').Inv := by
  have hmem : w ∈ s.workers := mem_of_getElem? hw
  have hset : ∀ v ∈ (s.setWorker i w').workers, v ∈ s.workers ∨ v = w' := fun v hv =>
    mem_or_eq_of_mem_set hv
  refine { h with own := ?_, worker_lt := ?_, refused := ?_ }
  · intro v hv r hr hid
    rcases hset v hv with hv | rfl
    · exact h.own v hv r hr hid
    · exact (h.own w hmem r hr (hid.trans htask)).trans hstamp.symm
  · intro v hv
    rcases hset v hv with hv | rfl
    · exact h.worker_lt v hv
    · exact hstamp ▸ h.worker_lt w hmem
  · intro v hv hres
    rcases hset v hv with hv | rfl
    · exact h.refused v hv hres
    · exact href hres

theorem dropWorker (i : ℕ) : (s.dropWorker i).Inv := by
  have hmem : ∀ v ∈ (s.dropWorker i).workers, v ∈ s.workers := fun v hv =>
    (eraseIdx_sublist _ _).subset hv
  exact { h with
    own := fun v hv => h.own v (hmem v hv)
    worker_lt := fun v hv => h.worker_lt v (hmem v hv)
    refused := fun v hv => h.refused v (hmem v hv) }

theorem setTaskInprogress (taskid : ℕ) (val : Bool) : (s.setTaskInprogress taskid val).Inv := by
  have hrow : ∀ r : Task, (if r.id = taskid then { r with inprogress := val } else r).id = r.id ∧
      (if r.id = taskid then { r with inprogress := val } else r).item = r.item ∧
      (if r.id = taskid then { r with inprogress := val } else r).stamp = r.stamp := by
    intro r
    split <;> exact ⟨rfl, rfl, rfl⟩
  have hids : (s.setTaskInprogress taskid val).tasks.map Task.id = s.tasks.map Task.id := by
    unfold State.setTaskInprogress
    rw [List.map_map]
    exact map_congr_left fun r _ => (hrow r).1
  refine { h with own := ?_, kept := ?_, nodup := hids ▸ h.nodup, task_lt := ?_ }
  · intro w hw r hr hid
    obtain ⟨r₀, hr0, rfl⟩ := mem_map.1 hr
    obtain ⟨hid0, -, hstamp⟩ := hrow r₀
    exact hstamp.trans (h.own w hw r₀ hr0 (hid0.symm.trans hid))
  · intro i v hv
    refine (h.kept i v hv).imp_right fun ⟨r, hr, hitem, hrv⟩ => ?_
    obtain ⟨-, hitem', hstamp⟩ := hrow r
    exact ⟨_, mem_map_of_mem hr, hitem'.trans hitem, hstamp.trans hrv⟩
  · intro r hr
    obtain ⟨r₀, hr0, rfl⟩ := mem_map.1 hr
    exact (hrow r₀).2.2.trans_lt (h.task_lt r₀ hr0)

/-- The row of a worker is deleted, when its version is transferred or is not the newest. -/
theorem deleteTask {w : Worker} (hw : w ∈ s.workers)
    (hdone : w.stamp ∈ s.transferred ∨ ∀ item, s.latest item ≠ some w.stamp) :
    (s.deleteTask w.taskid).Inv := by
  refine { h with own := ?_, kept := ?_, nodup := ?_, task_lt := ?_ }
  · exact fun v hv r hr => h.own v hv r (mem_filter.1 hr).1
  · intro i v hv
    rcases h.kept i v hv with ht | ⟨r, hr, hitem, hrv⟩
    · exact .inl ht
    · by_cases hid : r.id = w.taskid
      · -- the worker deletes its own row
        have hown : v = w.stamp := hrv.symm.trans (h.own w hw r hr hid)
        rcases hdone with ht | hne
        · exact .inl (hown ▸ ht)
        · exact absurd (hown ▸ hv) (hne i)
      · exact .inr ⟨r, mem_filter.2 ⟨hr, by simpa using hid⟩, hitem, hrv⟩
  · exact h.nodup.sublist (filter_sublist.map _)
  · exact fun r hr => h.task_lt r (mem_filter.1 hr).1

theorem settle {i : ℕ} {w : Worker} (hw : s.workers[i]? = some w) {r : Result}
    (hr : w.result = some r) : (s.settle i w r).Inv := by
  have hmem : w ∈ s.workers := mem_of_getElem? hw
  cases r with
  | transferred =>
    have ht : State.Inv { s with transferred := w.stamp :: s.transferred } := { h with
      kept := fun i v hv => (h.kept i v hv).imp_left (mem_cons_of_mem _) }
    exact (ht.deleteTask hmem (.inl mem_cons_self)).dropWorker i
  | refused => exact (h.deleteTask hmem (.inr (h.refused w hmem hr))).dropWorker i
  | failed | stopped => exact (h.setTaskInprogress _ _).dropWorker i
  | dropped => exact h.dropWorker i

theorem select {r : Task} (hr : r ∈ s.tasks) : State.Inv { s with
      workers := s.workers ++ [{ taskid := r.id, item := r.item, stamp := r.stamp }] } := by
  refine { h with own := ?_, worker_lt := ?_, refused := ?_ }
  · intro w hw r' hr' hid
    rcases mem_append.1 hw with hw | hw
    · exact h.own w hw r' hr' hid
    · obtain rfl := mem_singleton.1 hw
      exact congrArg Task.stamp (h.eq_of_id hr' hr hid)
  · intro w hw
    rcases mem_append.1 hw with hw | hw
    · exact h.worker_lt w hw
    · rw [mem_singleton.1 hw]
      exact h.task_lt r hr
  · intro w hw hres
    rcases mem_append.1 hw with hw | hw
    · exact h.refused w hw hres
    · obtain rfl := mem_singleton.1 hw
      cases hres

theorem restart : State.Inv { s with
      tasks := s.tasks.map fun r => { r with inprogress := false }
      workers := [] } where
  own _ hw := absurd hw not_mem_nil
  kept i v hv := (h.kept i v hv).imp_right fun ⟨_, hr, hitem, hrv⟩ =>
    ⟨_, mem_map_of_mem hr, hitem, hrv⟩
  nodup := by
    rw [List.map_map]
    exact h.nodup
  latest_lt := h.latest_lt
  worker_lt _ hw := absurd hw not_mem_nil
  task_lt r hr := by
    obtain ⟨r₀, hr0, rfl⟩ := mem_map.1 hr
    exact h.task_lt r₀ hr0
  refused _ hw := absurd hw not_mem_nil

theorem step {a : Action} (hok : s.Ok a) {s' : State} (hs : s.step a = some s') : s'.Inv := by
  cases a with
  | event e => exact some.inj hs ▸ h.foldl_apply hok
  | select i =>
    obtain ⟨r, hr, hs⟩ := bind_eq_some_iff.1 hs
    split at hs
    · cases hs
    · exact some.inj hs ▸ h.select (mem_of_getElem? hr)
  | enlist i =>
    obtain ⟨w, hw, rfl⟩ := map_eq_some_iff.1 hs
    exact h.setWorker hw rfl rfl (h.refused w (mem_of_getElem? hw))
  | mark i =>
    obtain ⟨w, hw, hs⟩ := bind_eq_some_iff.1 hs
    split at hs
    · exact some.inj hs ▸ h.setTaskInprogress _ _
    · cases hs
  | finish i r =>
    obtain ⟨w, hw, hs⟩ := bind_eq_some_iff.1 hs
    obtain ⟨-, ⟨⟩⟩ := ite_none_right_eq_some.1 hs
    refine h.setWorker hw rfl rfl fun hres => ?_
    obtain ⟨⟩ := hres
    exact hok w hw
  | settle i =>
    obtain ⟨w, hw, hs⟩ := bind_eq_some_iff.1 hs
    obtain ⟨r, hr, rfl⟩ := map_eq_some_iff.1 hs
    exact h.settle hw hr
  | restart => exact some.inj hs ▸ h.restart

end

end Inv

/-- In every run that meets the condition, workers delete and reset only their own rows, and the
newest versions are transferred or have rows. -/
theorem kept_of_reachable {s : State} (h : system.Reachable Ok s) : s.Own ∧ s.Kept := by
  have hinv : s.Inv := by
    refine h.invariant (fun s hs => ?_) fun s a s' hs hok hstep => hs.step hok hstep
    obtain rfl := hs
    exact
      { own := forall_mem_nil _
        kept := fun _ _ hv => by cases hv
        nodup := nodup_nil
        latest_lt := fun _ _ hv => by cases hv
        worker_lt := forall_mem_nil _
        task_lt := forall_mem_nil _
        refused := fun _ hw => absurd hw not_mem_nil }
  exact ⟨hinv.own, hinv.kept⟩

/-! ## Runs -/

/-- A local file is uploaded, and is modified while it is. -/
def modifiedFile : List Action :=
  [.event (.uploadFile 7), .select 0, .mark 0, .enlist 0, .event (.uploadModifiedFile 7),
    .finish 0 .transferred, .settle 0]

/-- Another task has the largest id, and the modified version gets a new one. -/
theorem kept_of_reachable_modified :
    ∃ s : State, (s.latest (.upload 7)).isSome ∧ s.Own ∧ s.Kept := by
  have h : system.Reachable Ok {} := .init rfl
  replace h := h.next (.event (.uploadFile 7)) ⟨forall_mem_nil _, trivial⟩ rfl
  replace h := h.next (.event .task) ⟨forall_mem_nil _, trivial⟩ rfl
  replace h := h.next (.select 0) trivial rfl
  replace h := h.next (.mark 0) trivial rfl
  replace h := h.next (.enlist 0) trivial rfl
  replace h := h.next (.event (.uploadModifiedFile 7)) ⟨by decide, trivial⟩ rfl
  replace h := h.next (.finish 0 .transferred) trivial rfl
  replace h := h.next (.settle 0) trivial rfl
  exact ⟨_, rfl, kept_of_reachable h⟩

/-- Without the condition a version is lost: the row of the modified file gets the id of the row
that was cancelled, and the worker which ends then deletes it. -/
theorem not_kept_reused : ∃ s : State, system.Reachable (fun _ _ => True) s ∧ ¬s.Kept := by
  have hrun : system.run {} modifiedFile = some _ := rfl
  refine ⟨_, .of_run (.init rfl) hrun, fun h => ?_⟩
  rcases h (.upload 7) 1 rfl with ht | ⟨r, hr, -⟩
  · exact absurd ht (by decide)
  · exact absurd hr not_mem_nil

end Pclsync.Transfers.State
