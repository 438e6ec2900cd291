import Pclsync.Diff.Engine
import Pclsync.Diff.FileEvents
import Pclsync.Sql.Triple

/-!
# What the syncs do not touch

The parts of the handlers which are about syncs, local folders and tasks keep the tables of folders
and files and the used quota. An invariant of these (`Apart`) is one of all such programs.
-/

namespace Pclsync.Diff

open Sql Sql.Program

/-- The statement is about `folder` or `file`. -/
def Stmt.remote : Stmt → Bool
  | .insertFolder _ | .updateFolder _ | .incSubdircnt _ _ | .decSubdircnt _ _ | .deleteFolder _
  | .insertFile _ | .updateFile _ | .deleteFile _ => true
  | _ => false

theorem Tables.run_of_not_remote {s : Stmt} (hs : s.remote = false) (d : Tables) :
    (run s d).2.folder = d.folder ∧ (run s d).2.file = d.file := by
  cases s with
  | insertFolder row | updateFolder row | incSubdircnt mtime id | decSubdircnt mtime id
  | deleteFolder id | insertFile row | updateFile row | deleteFile id => cases hs
  | insertSynced row =>
    simp only [run, insertSynced]
    split <;> exact ⟨rfl, rfl⟩
  | updateSyncedFolder folderid syncid localfolderid =>
    simp only [run, updateSynced]
    split <;> exact ⟨rfl, rfl⟩
  | updateSyncedSync syncid synctype oldsyncid folderid =>
    simp only [run, updateSynced]
    split <;> exact ⟨rfl, rfl⟩
  | insertLocalfolder localparentfolderid folderid syncid name =>
    simp only [run, insertLocalfolder]
    split <;> exact ⟨rfl, rfl⟩
  | _ => exact ⟨rfl, rfl⟩

/-- The invariant is only about the folders, the files and the used quota. -/
def Apart (I : Tables → Memory → Prop) : Prop :=
  ∀ d d' m m', d'.folder = d.folder → d'.file = d.file → m'.used_quota = m.used_quota → I d m →
    I d' m'

/-! ## Programs that only read -/

section reading

variable {δ : Type} {E : Engine Stmt Query δ} {I : δ → Memory → Prop}

theorem keeps_is_folder_in_downloadlist (folderid : ℕ) :
    Keeps E I (psync_is_folder_in_downloadlist folderid) := .bind .memory fun _ => .pure _

theorem keeps_add_path_to_list (stack folderid : ℕ) (lst : List String) :
    Keeps E I (psync_add_path_to_list stack folderid lst) := by
  induction stack generalizing folderid lst with
  | zero => exact .crash
  | succ stack ih =>
    unfold psync_add_path_to_list
    refine .ite (.pure _) (.bind (.query _) fun row => ?_)
    cases row with
    | none => exact .pure _
    | some row => exact ih _ _

theorem keeps_get_path_by_folderid (env : Env) (folderid : ℕ) :
    Keeps E I (psync_get_path_by_folderid env folderid) := by
  refine .bind (keeps_add_path_to_list _ _ _) fun lst => ?_
  cases lst with
  | none | some lst => exact .pure _

theorem keeps_get_path_by_fileid (env : Env) (fileid : ℕ) :
    Keeps E I (psync_get_path_by_fileid env fileid) := by
  refine .bind (.query _) fun row => ?_
  cases row with
  | none => exact .pure _
  | some row => exact .bind (keeps_add_path_to_list _ _ _) fun _ => .pure _

end reading

/-! ## Programs about syncs -/

namespace Apart

variable {I : Tables → Memory → Prop} (hI : Apart I)
include hI

theorem statement {s : Stmt} (hs : s.remote = false) : Keeps Tables.engine I (statement s) :=
  .statement fun d _ =>
    hI _ _ _ _ (Tables.run_of_not_remote hs d).1 (Tables.run_of_not_remote hs d).2 rfl

theorem execute {s : Stmt} (hs : s.remote = false) : Keeps Tables.engine I (execute s) :=
  .execute fun d _ =>
    hI _ _ _ _ (Tables.run_of_not_remote hs d).1 (Tables.run_of_not_remote hs d).2 rfl

theorem modifyMemory {g : Memory → Memory} (hg : ∀ m, (g m).used_quota = m.used_quota) :
    Keeps Tables.engine I (modifyMemory g) :=
  .modifyMemory fun _ m => hI _ _ _ _ rfl rfl (hg m)

theorem psync_add_folder_to_downloadlist (folderid : ℕ) :
    Keeps Tables.engine I (psync_add_folder_to_downloadlist folderid) :=
  hI.modifyMemory fun _ => rfl

theorem psync_del_folder_from_downloadlist (folderid : ℕ) :
    Keeps Tables.engine I (psync_del_folder_from_downloadlist folderid) :=
  hI.modifyMemory fun _ => rfl

theorem setNeeddownload : Keeps Tables.engine I setNeeddownload := hI.modifyMemory fun _ => rfl

theorem psync_create_local_folder_in_db (env : Env) (syncid folderid localparentfolderid : ℕ)
    (name : String) : Keeps Tables.engine I
      (psync_create_local_folder_in_db env syncid folderid localparentfolderid name) := by
  unfold Diff.psync_create_local_folder_in_db
  refine .bind (.query _) fun _ => .ite (.pure _) (.bind (hI.statement rfl) fun _ =>
    .ite (.pure _) (.bind (.query _) fun _ => ?_))
  dsimp only
  refine .ite (.bind (hI.execute rfl) fun _ => ?_) ?_ <;>
    exact .bind (hI.execute rfl) fun _ => .pure _

theorem psync_add_folder_for_downloadsync (env : Env)
    (stack syncid synctype folderid lfolderid : ℕ) : Keeps Tables.engine I
      (psync_add_folder_for_downloadsync env stack syncid synctype folderid lfolderid) := by
  induction stack generalizing folderid lfolderid with
  | zero => exact .crash
  | succ stack ih =>
    unfold Diff.psync_add_folder_for_downloadsync
    refine .bind (hI.execute rfl) fun _ =>
      .bind (hI.psync_add_folder_to_downloadlist folderid) fun _ =>
      .bind (.query _) fun _ => .bind (.forM fun row => .ite ?_ (.pure _)) fun _ =>
      .bind (.query _) fun _ => .forM fun row => .ite (hI.execute rfl) (.pure _)
    exact .bind (hI.psync_create_local_folder_in_db env _ _ _ _) fun _ =>
      .bind (hI.execute rfl) fun _ => ih _ _

theorem del_synced_folder_rec (stack folderid syncid : ℕ) :
    Keeps Tables.engine I (del_synced_folder_rec stack folderid syncid) := by
  induction stack generalizing folderid with
  | zero => exact .crash
  | succ stack ih =>
    exact .bind (hI.execute rfl) fun _ => .bind (.query _) fun _ => .forM fun row => ih _

theorem createSynced (env : Env) (row : Folder) (parent : Synced) :
    Keeps Tables.engine I (createSynced env row parent) :=
  .bind (hI.psync_create_local_folder_in_db env _ _ _ _) fun _ =>
    .bind (hI.statement rfl) fun _ =>
    .ite (.bind (hI.execute rfl) fun _ => hI.setNeeddownload) (hI.execute rfl)

theorem renameSynced (row : Folder) (old new : Synced) :
    Keeps Tables.engine I (renameSynced row old new) := by
  refine .bind (.query _) fun lfolderid => ?_
  cases lfolderid with
  | none => exact .pure _
  | some lfolderid =>
    exact .bind (hI.execute rfl) fun _ => .bind hI.setNeeddownload fun _ =>
      .ite (hI.execute rfl) (.pure _)

theorem removeSynced (env : Env) (row : Folder) (old : Synced) :
    Keeps Tables.engine I (removeSynced env row old) := by
  refine .bind (.query _) fun lfolderid => ?_
  cases lfolderid with
  | none => exact .pure _
  | some lfolderid =>
    exact .bind (hI.del_synced_folder_rec _ _ _) fun _ => .bind (hI.execute rfl) fun _ =>
      hI.setNeeddownload

theorem addSynced (env : Env) (row : Folder) (new : Synced) :
    Keeps Tables.engine I (addSynced env row new) :=
  .bind (hI.psync_create_local_folder_in_db env _ _ _ _) fun _ => .bind (hI.execute rfl) fun _ =>
    .bind (hI.psync_add_folder_for_downloadsync env _ _ _ _ _) fun _ => hI.setNeeddownload

theorem moveSynced (env : Env) (old row : Folder) (oldsync newsync : Bool) :
    Keeps Tables.engine I (moveSynced env old row oldsync newsync) := by
  have hloops : ∀ (l : List (Synced × Synced)) (l₁ l₂ : List Synced), Keeps Tables.engine I (do
      l.forM fun p => Diff.renameSynced row p.1 p.2
      l₁.forM (Diff.removeSynced env row)
      l₂.forM (Diff.addSynced env row) : Handler PUnit) := fun l l₁ l₂ =>
    .bind (.forM fun _ => hI.renameSynced _ _ _) fun _ =>
      .bind (.forM fun _ => hI.removeSynced _ _ _) fun _ => .forM fun _ => hI.addSynced _ _ _
  unfold Diff.moveSynced
  refine .ite (.bind (hI.psync_add_folder_to_downloadlist _) fun _ => ?_) (.ite (.bind (.query _)
    fun _ => .ite (.bind (hI.psync_del_folder_from_downloadlist _) fun _ => ?_) ?_) ?_) <;>
    exact .bind (.query _) fun _ => .bind (.query _) fun _ => hloops _ _ _

theorem deleteSyncedFolder (env : Env) (folderid : ℕ) (s : Synced) :
    Keeps Tables.engine I (deleteSyncedFolder env folderid s) :=
  .bind (hI.statement rfl) fun _ => .ite
    (.bind (keeps_get_path_by_folderid env _) fun _ => .bind (hI.execute rfl) fun _ =>
      hI.setNeeddownload) (.pure _)

theorem downloadUnlessThere (row : File) (s : Synced) :
    Keeps Tables.engine I (downloadUnlessThere row s) :=
  .bind (.query _) fun _ => .ite (.bind (hI.execute rfl) fun _ => hI.setNeeddownload) (.pure _)

theorem renameSyncedFile (row : File) (needrename needdownload : Bool) (old new : Synced) :
    Keeps Tables.engine I (renameSyncedFile row needrename needdownload old new) :=
  .ite (.bind (hI.execute rfl) fun _ => .bind hI.setNeeddownload fun _ =>
    .ite (hI.downloadUnlessThere _ _) (.pure _)) (.ite (hI.downloadUnlessThere _ _) (.pure _))

theorem removeSyncedFile (env : Env) (fileid : ℕ) (s : Synced) :
    Keeps Tables.engine I (removeSyncedFile env fileid s) :=
  .bind (keeps_get_path_by_fileid env _) fun _ => .bind (hI.execute rfl) fun _ =>
    .bind (hI.execute rfl) fun _ => hI.setNeeddownload

theorem modifySyncedFile (env : Env) (old row : File) :
    Keeps Tables.engine I (modifySyncedFile env old row) := by
  unfold Diff.modifySyncedFile
  refine .ite (.bind (hI.execute rfl) fun _ => .bind (keeps_get_path_by_fileid env _) fun _ =>
    .bind (hI.execute rfl) fun _ => hI.setNeeddownload) ?_
  dsimp only
  have hloops : ∀ (l : List (Synced × Synced)) (l₁ l₂ : List Synced) (b b' : Bool),
      Keeps Tables.engine I (do
        l.forM fun p => Diff.renameSyncedFile row b b' p.1 p.2
        l₂.forM fun s => do
          psync_task_download_file_silent s.syncid row.id s.localfolderid row.name
          Diff.setNeeddownload
        l₁.forM (Diff.removeSyncedFile env row.id) : Handler PUnit) := fun l l₁ l₂ b b' =>
    .bind (.forM fun _ => hI.renameSyncedFile _ _ _ _ _) fun _ =>
      .bind (.forM fun _ => .bind (hI.execute rfl) fun _ => hI.setNeeddownload) fun _ =>
      .forM fun _ => hI.removeSyncedFile _ _ _
  refine .ite (.bind (hI.execute rfl) fun _ => ?_) ?_ <;>
    exact .bind (.query _) fun _ => .bind (.query _) fun _ => hloops _ _ _ _ _

end Apart

end Pclsync.Diff
