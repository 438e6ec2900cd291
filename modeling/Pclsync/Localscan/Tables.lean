import Pclsync.Sql.AutoTable

/-!
# The tables of the local scanner

The rows of `syncfolder`, `localfolder`, `localfile` and `task` which `plocalscan.c` reads and
writes, with the functions that delete folders and look up paths.

Names are of any type, in the order of `strcmp`. A path is the list of its names. An id of `0`
stands for `NULL`, as the source reads it.
-/

namespace Pclsync.Localscan

variable {Name : Type}

/-- A row of `syncfolder`. -/
structure SyncRow (Name : Type) where
  id : ℕ
  folderid : ℕ
  localpath : List Name
  synctype : ℕ
  inode : UInt64
  deviceid : UInt64

/-- A row of `localfolder`. -/
structure FolderRow (Name : Type) where
  id : ℕ
  localparentfolderid : ℕ
  folderid : ℕ
  syncid : ℕ
  inode : UInt64
  deviceid : UInt64
  /-- `NULL` until the folder exists on the disk. -/
  mtimenative : Option UInt64
  name : Name

/-- A row of `localfile`. -/
structure FileRow (Name : Type) where
  id : ℕ
  localparentfolderid : ℕ
  fileid : ℕ
  syncid : ℕ
  size : UInt64
  inode : UInt64
  mtimenative : UInt64
  name : Name

/-- The columns of the index `klocalfolderpsn`. -/
def FolderRow.key (r : FolderRow Name) : ℕ × ℕ × Name := (r.syncid, r.localparentfolderid, r.name)

/-- The columns of the index `klocalfilerpsn`. -/
def FileRow.key (r : FileRow Name) : ℕ × ℕ × Name := (r.syncid, r.localparentfolderid, r.name)

/-- The rows of `task` which the scanner adds. -/
inductive Task (Name : Type)
  | createRemoteFolder (syncid localfolderid : ℕ) (name : Name)
  | delrecRemoteFolder (syncid folderid : ℕ)
  | renameRemoteFolder (oldsyncid newsyncid localfolderid newlocalparentfolderid : ℕ)
    (newname : Name)
  | uploadFile (syncid localfileid : ℕ) (name : Name)
  | deleteRemoteFile (syncid fileid : ℕ)
  | renameRemoteFile (oldsyncid newsyncid localfileid newlocalparentfolderid : ℕ) (newname : Name)

/-- The database. -/
structure Db (Name : Type) where
  syncs : List (SyncRow Name)
  folders : Sql.AutoTable FolderRow.id (@FolderRow.key Name)
  files : Sql.AutoTable FileRow.id (@FileRow.key Name)
  tasks : List (Task Name)

namespace Db

variable (db : Db Name)

/-- A row of `task` is added. -/
def addTask (t : Task Name) : Db Name := { db with tasks := db.tasks ++ [t] }

/-- `psync_delete_upload_tasks_for_file` -/
def deleteUploadTasksForFile (localfileid : ℕ) : Db Name :=
  { db with tasks := db.tasks.filter fun t =>
      match t with
      | .uploadFile _ id _ => id ≠ localfileid
      | _ => true }

/-- The rows of `localfolder` with a parent. -/
def children (localfolderid : ℕ) : List (FolderRow Name) :=
  db.folders.rows.filter fun r => r.localparentfolderid = localfolderid

/-- `delete_local_folder_rec`; `n` bounds the depth of the calls. -/
def deleteLocalFolderRec : ℕ → Db Name → ℕ → Option (Db Name)
  | 0, _, _ => none
  | n + 1, db, localfolderid => do
    let db ← ((db.children localfolderid).map FolderRow.id).foldlM (deleteLocalFolderRec n) db
    let files := db.files.rows.filter fun r => r.localparentfolderid = localfolderid
    let db := (files.map FileRow.id).foldl deleteUploadTasksForFile db
    some { db with
      files := db.files.delete fun r => r.localparentfolderid = localfolderid
      folders := db.folders.delete fun r => r.id = localfolderid }

/-- `psync_local_path_for_local_folder` below the folder of the sync: `some none` where a row is
missing, and `none` where the rows form a cycle, as the source does not come back. -/
def pathBelow : ℕ → ℕ → Option (Option (List Name))
  | 0, _ => none
  | n + 1, localfolderid =>
    if localfolderid = 0 then some (some [])
    else
      match db.folders.get localfolderid with
      | none => some none
      | some r => (pathBelow n r.localparentfolderid).map (·.map (· ++ [r.name]))

/-- `psync_local_path_for_local_folder` -/
def localPathForLocalFolder (localfolderid syncid : ℕ) : Option (Option (List Name)) :=
  match db.syncs.find? fun r => r.id = syncid with
  | none => some none
  | some sync =>
    (db.pathBelow (db.folders.rows.length + 1) localfolderid).map (·.map (sync.localpath ++ ·))

end Db

end Pclsync.Localscan
