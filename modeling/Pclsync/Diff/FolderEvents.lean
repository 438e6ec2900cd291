import Pclsync.Diff.Tables

/-!
# Folder events

The handlers of `createfolder`, `modifyfolder` and `deletefolder` of `pdiff.c`, with what they call
in `psyncer.c`, `ptasks.c`, `pfolder.c` and `psynclib.c`.

All of them but `process_modifyfolder` are programs; this one is a call, as
`psync_delete_backup_device` has a transaction of its own.
-/

namespace Pclsync.Diff

open Sql Sql.Program

/-! ## The download list and the tasks -/

/-- `psync_is_folder_in_downloadlist`. -/
def psync_is_folder_in_downloadlist (folderid : ℕ) : Handler Bool := do
  return decide (folderid ∈ (← memory).downloadlist)

/-- `psync_add_folder_to_downloadlist`. -/
def psync_add_folder_to_downloadlist (folderid : ℕ) : Handler Unit :=
  modifyMemory fun m => { m with downloadlist := m.downloadlist.insert folderid }

/-- `psync_del_folder_from_downloadlist`. -/
def psync_del_folder_from_downloadlist (folderid : ℕ) : Handler Unit :=
  modifyMemory fun m => { m with downloadlist := m.downloadlist.filter (· ≠ folderid) }

/-- `needdownload=1`. -/
def setNeeddownload : Handler Unit := modifyMemory fun m => { m with needdownload := true }

/-- `psync_task_create_local_folder`. -/
def psync_task_create_local_folder (syncid folderid localfolderid : ℕ) : Handler Unit :=
  execute (.insertTask
    { type := .createLocalFolder, syncid := syncid, itemid := folderid,
      localitemid := localfolderid })

/-- `psync_task_delete_local_folder`. -/
def psync_task_delete_local_folder (syncid folderid localfolderid : ℕ)
    (remotepath : Option String) : Handler Unit :=
  execute (.insertTask
    { type := .deleteLocalFolder, syncid := syncid, itemid := folderid,
      localitemid := localfolderid, name := remotepath })

/-- `psync_task_delete_local_folder_recursive`. -/
def psync_task_delete_local_folder_recursive (syncid folderid localfolderid : ℕ) : Handler Unit :=
  execute (.insertTask
    { type := .delrecLocalFolder, syncid := syncid, itemid := folderid,
      localitemid := localfolderid })

/-- `psync_task_rename_local_folder`. -/
def psync_task_rename_local_folder (syncid folderid localfolderid newlocalparentfolderid : ℕ)
    (newname : String) : Handler Unit :=
  execute (.insertTask
    { type := .renameLocalFolder, syncid := syncid, itemid := folderid,
      localitemid := localfolderid, newitemid := newlocalparentfolderid, name := newname })

/-- `psync_task_download_file_silent`. -/
def psync_task_download_file_silent (syncid fileid localfolderid : ℕ) (name : String) :
    Handler Unit :=
  execute (.insertTask
    { type := .downloadFile, syncid := syncid, itemid := fileid, localitemid := localfolderid,
      name := name })

/-! ## Paths -/

/-- `psync_add_path_to_list`: the names from the root to a folder, before those of `lst`. -/
def psync_add_path_to_list : ℕ → ℕ → List String → Handler (Option (List String))
  | 0, _, _ => crash
  | stack + 1, folderid, lst =>
    if folderid = 0 then return some ("" :: lst)
    else do
      match ← query (.folder folderid) with
      | some row => psync_add_path_to_list stack row.parentfolderid (row.name :: lst)
      | none => return none

/-- `psync_join_string_list`. -/
def psync_join_string_list (sep : String) (lst : List String) : String := sep.intercalate lst

/-- `psync_get_path_by_folderid`. -/
def psync_get_path_by_folderid (env : Env) (folderid : ℕ) : Handler (Option String) := do
  match ← psync_add_path_to_list env.stack folderid [] with
  | some lst =>
    let ret := psync_join_string_list "/" lst
    return some (if ret = "" then "/" else ret)
  | none => return none

/-! ## Folders of syncs -/

/-- `psync_create_local_folder_in_db`: the local folder of a folder, which is made if there is
    none. -/
def psync_create_local_folder_in_db (env : Env) (syncid folderid localparentfolderid : ℕ)
    (name : String) : Handler ℕ := do
  let lfolderid := (← query (.localfolder syncid folderid)).getD 0
  if lfolderid ≠ 0 then return lfolderid
  else
    let vname := name.map fun c => if env.invalid c then '_' else c
    let r ← statement (.insertLocalfolder localparentfolderid folderid syncid vname)
    if r.affected > 0 then return r.insertid
    else
      let (lfolderid, dbfolderid) :=
        (← query (.localfolderNamed localparentfolderid syncid vname)).getD (0, 0)
      if lfolderid ≠ 0 ∧ dbfolderid ≠ folderid then
        -- the values are bound in this order
        execute (.updateLocalfolder lfolderid folderid)
      execute (.incTaskcnt lfolderid)
      return lfolderid

/-- `psync_add_folder_for_downloadsync`: a folder with all that is in it becomes part of a sync. -/
def psync_add_folder_for_downloadsync (env : Env) : ℕ → ℕ → ℕ → ℕ → ℕ → Handler Unit
  | 0, _, _, _, _ => crash
  | stack + 1, syncid, synctype, folderid, lfolderid => do
    execute (.replaceSynced ⟨syncid, folderid, lfolderid, synctype⟩)
    psync_add_folder_to_downloadlist folderid
    (← query (.subfolders folderid)).forM fun row => do
      if row.permissions &&& 1 ≠ 0 ∧ ¬ env.ignored row.name then
        let clfolderid ← psync_create_local_folder_in_db env syncid row.id lfolderid row.name
        psync_task_create_local_folder syncid row.id clfolderid
        psync_add_folder_for_downloadsync env stack syncid synctype row.id clfolderid
    (← query (.files folderid)).forM fun row => do
      if ¬ env.ignored row.name then
        psync_task_download_file_silent syncid row.id lfolderid row.name

/-- `del_synced_folder_rec`: a folder with all that is in it is no longer part of a sync. -/
def del_synced_folder_rec : ℕ → ℕ → ℕ → Handler Unit
  | 0, _, _ => crash
  | stack + 1, folderid, syncid => do
    execute (.deleteSynced syncid folderid)
    (← query (.subfolders folderid)).forM fun row => del_synced_folder_rec stack row.id syncid

/-! ## `createfolder` -/

/-- `psync_get_permissions`. -/
def psync_get_permissions (metadata : BinResult) : ℕ :=
  (if metadata.findBool "canread" then 1 else 0) +
  (if metadata.findBool "canmodify" then 4 else 0) +
  (if metadata.findBool "candelete" then 8 else 0) +
  (if metadata.findBool "cancreate" then 2 else 0) +
  (if metadata.checkBool "canmanage" = some true then 16 else 0)

/-- `PSYNC_PERM_ALL`. -/
def permAll : ℕ := 15

/-- `PSYNC_FOLDER_FLAG_BACKUP_DEVICE`. -/
def flagBackupDevice : ℕ := 16

/-- `PSYNC_FOLDER_FLAG_BACKUP_ROOT`. -/
def flagBackupRoot : ℕ := 32

/-- `extract_meta_folder_flags`. -/
def extract_meta_folder_flags (metadata : BinResult) : ℕ :=
  (if metadata.checkBool "encrypted" = some true then 1 else 0) |||
  (if metadata.checkBool "ispublicroot" = some true then 4 else 0) |||
  (if metadata.checkBool "isbackupdevicelist" = some true then 8 else 0) |||
  (if metadata.checkBool "isbackupdevice" = some true then flagBackupDevice else 0) |||
  (if metadata.checkBool "isbackuproot" = some true then flagBackupRoot else 0) |||
  (if metadata.checkBool "isbackup" = some true then 64 else 0)

/-- The user of a file or folder. -/
def useridOf (env : Env) (metadata : BinResult) : ℕ :=
  if metadata.findBool "ismine" then env.psync_my_userid else metadata.findNum "userid"

/-- The columns of a folder, as `process_createfolder` and `process_modifyfolder` read them. -/
def folderOf (env : Env) (metadata : BinResult) : Folder where
  id := metadata.findNum "folderid"
  parentfolderid := metadata.findNum "parentfolderid"
  userid := useridOf env metadata
  permissions := if metadata.findBool "ismine" then permAll else psync_get_permissions metadata
  name := metadata.findStr "name"
  ctime := metadata.findNum "created"
  mtime := metadata.findNum "modified"
  flags := extract_meta_folder_flags metadata

/-- The folder becomes part of a sync which has its parent. -/
def createSynced (env : Env) (row : Folder) (parent : Synced) : Handler Unit := do
  let localfolderid ←
    psync_create_local_folder_in_db env parent.syncid row.id parent.localfolderid row.name
  let r ← statement (.insertSynced ⟨parent.syncid, row.id, localfolderid, parent.synctype⟩)
  if r.affected = 1 then do
    psync_task_create_local_folder parent.syncid row.id localfolderid
    setNeeddownload
  else execute (.updateSyncedFolder row.id parent.syncid localfolderid)

/-- `process_createfolder`. -/
def process_createfolder (env : Env) (entry : BinResult) : Handler Unit := do
  let row := folderOf env (entry.findHash "metadata")
  let r ← statement (.insertFolder row)
  if r.affected = 0 then execute (.updateFolder row)
  execute (.incSubdircnt row.mtime row.parentfolderid)
  if (← psync_is_folder_in_downloadlist row.parentfolderid) ∧ ¬ env.ignored row.name then
    psync_add_folder_to_downloadlist row.id
    (← query (.downloads row.parentfolderid)).forM (createSynced env row)

/-! ## `modifyfolder` -/

/-- Two rows change places. -/
def swapRows (r : List Synced) (i l : ℕ) : List Synced :=
  match r[i]?, r[l]? with
  | some a, some b => (r.set i b).set l a
  | _, _ => r

/-- `group_results_by_col`, with column 0: the rows with common syncs come first, in the same
    order. -/
def group_results_by_col (r1 r2 : List Synced) : List Synced × List Synced :=
  let grouped := (List.range r1.length).foldl (fun st i =>
    (List.range r2.length).foldl (fun (st : List Synced × List Synced × ℕ) j =>
      if st.1[i]?.map Synced.syncid = st.2.1[j]?.map Synced.syncid then
        (swapRows st.1 i st.2.2, swapRows st.2.1 j st.2.2, st.2.2 + 1)
      else st) st) (r1, r2, 0)
  (grouped.1, grouped.2.1)

/-- The folder stays in a sync, or goes to another one. -/
def renameSynced (row : Folder) (old new : Synced) : Handler Unit := do
  match ← query (.syncedLocal row.id old.syncid) with
  | some localfolderid =>
    psync_task_rename_local_folder new.syncid row.id localfolderid new.localfolderid row.name
    setNeeddownload
    if new.syncid ≠ old.syncid then
      execute (.updateSyncedSync new.syncid new.synctype old.syncid row.id)
  | none => pure ()

/-- The folder leaves a sync. -/
def removeSynced (env : Env) (row : Folder) (old : Synced) : Handler Unit := do
  match ← query (.syncedLocal row.id old.syncid) with
  | some localfolderid =>
    del_synced_folder_rec env.stack row.id old.syncid
    psync_task_delete_local_folder_recursive old.syncid row.id localfolderid
    setNeeddownload
  | none => pure ()

/-- The folder comes to a sync. -/
def addSynced (env : Env) (row : Folder) (new : Synced) : Handler Unit := do
  let localfolderid ←
    psync_create_local_folder_in_db env new.syncid row.id new.localfolderid row.name
  psync_task_create_local_folder new.syncid row.id localfolderid
  psync_add_folder_for_downloadsync env env.stack new.syncid new.synctype row.id localfolderid
  setNeeddownload

/-- The syncs of the old and the new parent. -/
def moveSynced (env : Env) (old row : Folder) (oldsync newsync : Bool) : Handler Unit := do
  if ¬ oldsync then psync_add_folder_to_downloadlist row.id
  else if ¬ newsync then
    if (← query (.downloadSync row.id)) = none then psync_del_folder_from_downloadlist row.id
  let fres1 ← query (.downloads old.parentfolderid)
  let fres2 ← query (.downloads row.parentfolderid)
  let (fres1, fres2) := group_results_by_col fres1 (if env.ignored row.name then [] else fres2)
  let cnt := min fres1.length fres2.length
  ((fres1.take cnt).zip (fres2.take cnt)).forM fun p => renameSynced row p.1 p.2
  (fres1.drop cnt).forM (removeSynced env row)
  (fres2.drop cnt).forM (addSynced env row)

/-- The part of `process_modifyfolder` after the backups. -/
def modifyfolder (env : Env) (old row : Folder) : Handler Unit := do
  execute (.updateFolder row)
  if old.parentfolderid ≠ row.parentfolderid then
    execute (.decSubdircnt row.mtime old.parentfolderid)
    execute (.incSubdircnt row.mtime row.parentfolderid)
  let oldsync ← psync_is_folder_in_downloadlist old.parentfolderid
  let newsync ← psync_is_folder_in_downloadlist row.parentfolderid
  if (oldsync ∨ newsync) ∧ (old.parentfolderid ≠ row.parentfolderid ∨ row.name ≠ old.name) then
    moveSynced env old row oldsync newsync

/-- `psync_delete_sync_by_folderid`: the sync is deleted in a thread. -/
def psync_delete_sync_by_folderid (folderid : ℕ) : Handler Unit := do
  match ← query (.syncfolder folderid) with
  | some syncid => modifyMemory fun m => { m with deletedSyncs := syncid :: m.deletedSyncs }
  | none => pure ()

section

variable {δ : Type} (E : Engine Stmt Query δ) (env : Env) (commit : Bool)

/-- `psync_delete_backup_device`, and whether its commit succeeds. -/
def psync_delete_backup_device (folderid : ℕ) : Call Stmt δ Memory Unit := do
  let bFId := (← Call.lift E (query (.setting "BackupRootFoId"))).getD 0
  if bFId = folderid then
    Call.psync_sql_start_transaction
    Call.lift E (execute (.deleteSettings ["BackupRootFoId"]))
    Call.psync_sql_commit_transaction commit

/-- `process_modifyfolder` for a folder that is there. -/
def modifyExisting (old row : Folder) : Call Stmt δ Memory Unit := do
  Call.onlyIf (old.flags &&& flagBackupRoot ≠ 0 ∧ row.flags &&& flagBackupRoot = 0)
    (Call.lift E (psync_delete_sync_by_folderid row.id))
  Call.onlyIf (old.flags &&& flagBackupDevice ≠ 0 ∧ row.flags &&& flagBackupDevice = 0)
    (psync_delete_backup_device E commit row.id)
  Call.lift E (modifyfolder env old row)

/-- `process_modifyfolder`. -/
def process_modifyfolder (entry : BinResult) : Call Stmt δ Memory Unit := do
  let row := folderOf env (entry.findHash "metadata")
  match ← Call.lift E (query (.folder row.id)) with
  | none => Call.lift E (process_createfolder env entry)
  | some old => modifyExisting E env commit old row

end

/-! ## `deletefolder` -/

/-- `psync_fs_folder_deleted`. -/
def psync_fs_folder_deleted (folderid : ℕ) : Handler Unit :=
  execute (.deleteXattrs (folderid * 8))

/-- The folder is deleted in a sync. -/
def deleteSyncedFolder (env : Env) (folderid : ℕ) (s : Synced) : Handler Unit := do
  let r ← statement (.deleteSynced s.syncid folderid)
  if r.affected = 1 then
    let path ← psync_get_path_by_folderid env folderid
    psync_task_delete_local_folder s.syncid folderid s.localfolderid path
    setNeeddownload

/-- `process_deletefolder`. -/
def process_deletefolder (env : Env) (entry : BinResult) : Handler Unit := do
  let metadata := entry.findHash "metadata"
  let folderid := metadata.findNum "folderid"
  if ← psync_is_folder_in_downloadlist folderid then
    psync_del_folder_from_downloadlist folderid
    (← query (.synced folderid)).forM (deleteSyncedFolder env folderid)
  let r ← statement (.deleteFolder folderid)
  if r.affected ≠ 0 then
    execute (.decSubdircnt (metadata.findNum "modified") (metadata.findNum "parentfolderid"))
    psync_fs_folder_deleted folderid

end Pclsync.Diff
