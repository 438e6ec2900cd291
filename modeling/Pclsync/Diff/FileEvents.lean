import Pclsync.Diff.FolderEvents

/-!
# File events

The handlers of `createfile`, `modifyfile` and `deletefile` of `pdiff.c`, with what they call in
`pdownload.c`, `ptasks.c` and `pfsxattr.c`. The used quota is counted in them, and is saved at the
end of the diff.
-/

namespace Pclsync.Diff

open Sql Sql.Program

/-! ## Columns -/

/-- `bind_opt_str`. -/
def optStr (metadata : BinResult) (name : String) : Column :=
  match metadata.checkStr name with
  | some s => .text s
  | none => .null

/-- `bind_opt_num`. -/
def optNum (metadata : BinResult) (name : String) : Column :=
  match metadata.checkNum name with
  | some n => .int n
  | none => .null

/-- `bind_opt_double`. -/
def optDouble (metadata : BinResult) (name : String) : Column :=
  match metadata.checkStr name with
  | some s => .real s
  | none => .null

/-- `bind_meta`: `ctime` to `rotate`. -/
def bind_meta (metadata : BinResult) : List Column :=
  [.int (metadata.findNum "created"), .int (metadata.findNum "modified"),
    .int (metadata.findNum "category"), .int (metadata.findBool "thumb").toNat,
    .text (metadata.findStr "icon"), optStr metadata "artist", optStr metadata "album",
    optStr metadata "title", optStr metadata "genre", optNum metadata "trackno",
    optNum metadata "width", optNum metadata "height", optDouble metadata "duration",
    optDouble metadata "fps", optStr metadata "videocodec", optStr metadata "audiocodec",
    optNum metadata "videobitrate", optNum metadata "audiobitrate",
    optNum metadata "audiosamplerate", optNum metadata "rotate"]

/-- The row of a file, as `process_createfile` and `process_modifyfile` read it. -/
def fileOf (env : Env) (metadata : BinResult) : File where
  id := metadata.findNum "fileid"
  parentfolderid := metadata.findNum "parentfolderid"
  userid := useridOf env metadata
  size := metadata.findNum "size"
  hash := metadata.findNum "hash"
  name := metadata.findStr "name"
  columns := bind_meta metadata

/-! ## What the handlers share -/

/-- `used_quota+=size`. -/
def addQuota (size : ℕ) : Handler Unit :=
  modifyMemory fun m => { m with used_quota := m.used_quota + UInt64.ofNat size }

/-- `used_quota-=size`. -/
def subQuota (size : ℕ) : Handler Unit :=
  modifyMemory fun m => { m with used_quota := m.used_quota - UInt64.ofNat size }

/-- `psync_fs_file_deleted`. -/
def psync_fs_file_deleted (fileid : ℕ) : Handler Unit := execute (.deleteXattrs (fileid * 8 + 1))

/-- `check_for_deletedfileid`: the file that was replaced is deleted. -/
def check_for_deletedfileid (metadata : BinResult) : Handler Unit := do
  match metadata.checkNum "deletedfileid" with
  | some delfileid =>
    execute (.deleteFile delfileid)
    psync_fs_file_deleted delfileid
  | none => pure ()

/-- `psync_get_path_by_fileid`. -/
def psync_get_path_by_fileid (env : Env) (fileid : ℕ) : Handler (Option String) := do
  match ← query (.file fileid) with
  | some row =>
    return (← psync_add_path_to_list env.stack row.parentfolderid [row.name]).map
      (psync_join_string_list "/")
  | none => return none

/-- `psync_task_rename_local_file`. -/
def psync_task_rename_local_file
    (oldsyncid newsyncid fileid oldlocalfolderid newlocalfolderid : ℕ) (newname : String) :
    Handler Unit :=
  execute (.insertTask
    { type := .renameLocalFile, syncid := oldsyncid, newsyncid := newsyncid, itemid := fileid,
      localitemid := oldlocalfolderid, newitemid := newlocalfolderid, name := newname })

/-- `psync_task_delete_local_file`. -/
def psync_task_delete_local_file (fileid : ℕ) (remotepath : Option String) : Handler Unit :=
  execute (.insertTask
    { type := .deleteLocalFile, itemid := fileid, localitemid := 0, name := remotepath })

/-- `psync_task_delete_local_file_syncid`. -/
def psync_task_delete_local_file_syncid (syncid fileid : ℕ) (remotepath : Option String) :
    Handler Unit :=
  execute (.insertTask
    { type := .deleteLocalFile, syncid := syncid, itemid := fileid, localitemid := 0,
      name := remotepath })

/-- `psync_delete_download_tasks_for_file`; 0 is no sync. -/
def psync_delete_download_tasks_for_file (fileid syncid : ℕ) : Handler Unit :=
  execute (.deleteTasks .downloadFile fileid (if syncid = 0 then none else some syncid))

/-! ## `createfile` -/

/-- The file is downloaded to a sync, unless it is there. -/
def downloadUnlessThere (row : File) (s : Synced) : Handler Unit := do
  if ¬ (← query (.hasLocalfile s.localfolderid row.id row.hash s.syncid)) then
    psync_task_download_file_silent s.syncid row.id s.localfolderid row.name
    setNeeddownload

/-- `process_createfile`. -/
def process_createfile (env : Env) (entry : BinResult) : Handler Unit := do
  let metadata := entry.findHash "metadata"
  let row := fileOf env metadata
  if metadata.findBool "ismine" then addQuota row.size
  check_for_deletedfileid metadata
  let r ← statement (.insertFile row)
  if r.affected = 0 then execute (.updateFile row)
  execute (.replaceRevision row.id row.hash (metadata.findNum "modified") row.size)
  if (← psync_is_folder_in_downloadlist row.parentfolderid) ∧ ¬ env.ignored row.name then
    (← query (.downloads row.parentfolderid)).forM (downloadUnlessThere row)

/-! ## `modifyfile` -/

/-- The file stays in a sync, or goes to another one. -/
def renameSyncedFile (row : File) (needrename needdownload : Bool) (old new : Synced) :
    Handler Unit := do
  if needrename then
    psync_task_rename_local_file old.syncid new.syncid row.id old.localfolderid new.localfolderid
      row.name
    setNeeddownload
  if needdownload then downloadUnlessThere row new

/-- The file leaves a sync. -/
def removeSyncedFile (env : Env) (fileid : ℕ) (s : Synced) : Handler Unit := do
  let path ← psync_get_path_by_fileid env fileid
  psync_task_delete_local_file_syncid s.syncid fileid path
  psync_delete_download_tasks_for_file fileid s.syncid
  setNeeddownload

/-- What a modification of a file does to the syncs of its old and its new parent. -/
def modifySyncedFile (env : Env) (old row : File) : Handler Unit := do
  if env.ignored row.name then
    psync_delete_download_tasks_for_file row.id 0
    let path ← psync_get_path_by_fileid env row.id
    psync_task_delete_local_file row.id path
    setNeeddownload
  else
    let lneeddownload : Bool := row.hash ≠ old.hash ∨ row.size ≠ old.size
    if lneeddownload then psync_delete_download_tasks_for_file row.id 0
    let needrename : Bool := old.parentfolderid ≠ row.parentfolderid ∨ row.name ≠ old.name
    let fres1 ← query (.downloads old.parentfolderid)
    let fres2 ← query (.downloads row.parentfolderid)
    let (fres1, fres2) := group_results_by_col fres1 fres2
    let cnt := min fres1.length fres2.length
    ((fres1.take cnt).zip (fres2.take cnt)).forM fun p =>
      renameSyncedFile row needrename lneeddownload p.1 p.2
    (fres2.drop cnt).forM fun s => do
      psync_task_download_file_silent s.syncid row.id s.localfolderid row.name
      setNeeddownload
    -- the loop goes on where the one over the new syncs stopped
    (fres1.drop (max cnt fres2.length)).forM (removeSyncedFile env row.id)

/-- `process_modifyfile`. -/
def process_modifyfile (env : Env) (entry : BinResult) : Handler Unit := do
  let metadata := entry.findHash "metadata"
  let row := fileOf env metadata
  match ← query (.file row.id) with
  | none => process_createfile env entry
  | some old =>
    if old.userid = env.psync_my_userid then subQuota old.size
    if metadata.checkBool "encrypted" = some true then
      execute (.deleteOldFileKeys row.id row.hash)
    if metadata.findBool "ismine" then addQuota row.size
    check_for_deletedfileid metadata
    execute (.updateFile row)
    execute (.replaceRevision row.id row.hash (metadata.findNum "modified") row.size)
    let oldsync ← psync_is_folder_in_downloadlist old.parentfolderid
    let newsync ← psync_is_folder_in_downloadlist row.parentfolderid
    if oldsync ∨ newsync then modifySyncedFile env old row

/-! ## `deletefile` -/

/-- `process_deletefile`. -/
def process_deletefile (env : Env) (entry : BinResult) : Handler Unit := do
  let metadata := entry.findHash "metadata"
  let fileid := metadata.findNum "fileid"
  if ← psync_is_folder_in_downloadlist (metadata.findNum "parentfolderid") then
    psync_delete_download_tasks_for_file fileid 0
    let path ← psync_get_path_by_fileid env fileid
    if path.isSome then
      psync_task_delete_local_file fileid path
      setNeeddownload
  let r ← statement (.deleteFile fileid)
  if r.affected ≠ 0 then
    if metadata.findBool "ismine" then subQuota (metadata.findNum "size")
    psync_fs_file_deleted fileid

end Pclsync.Diff
