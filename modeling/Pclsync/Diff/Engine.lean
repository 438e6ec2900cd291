import Pclsync.Diff.Tables
import Mathlib.Data.Int.Notation

/-!
# The tables of folders, files and syncs

The engine of the statements and queries of the diff on `folder`, `file`, `syncfolder`,
`syncedfolder`, `localfolder`, `localfile`, `setting` and `task`. A statement on another table
changes nothing of these.

The unique indexes are kept: `INSERT OR IGNORE` does nothing, `REPLACE` deletes the rows that are in
the way, and an `UPDATE` fails.
-/

namespace Pclsync.Diff

open Sql

/-- A row of `folder`. -/
structure FolderRow extends Folder where
  subdircnt : ℤ

/-- A row of `syncfolder`; `flags` is 1 when its folders are there. -/
structure SyncFolder where
  id : ℕ
  folderid : Option ℕ
  synctype : ℕ
  flags : ℕ

/-- A row of `localfolder`. -/
structure LocalFolder where
  id : ℕ
  localparentfolderid : ℕ
  folderid : ℕ
  syncid : ℕ
  taskcnt : ℕ
  name : String

/-- A row of `localfile`. -/
structure LocalFile where
  syncid : ℕ
  localparentfolderid : ℕ
  fileid : ℕ
  hash : ℕ
  deriving DecidableEq

/-- The tables. -/
structure Tables where
  folder : List FolderRow := []
  file : List File := []
  syncfolder : List SyncFolder := []
  syncedfolder : List Synced := []
  localfolder : List LocalFolder := []
  /-- The id of the next row of `localfolder`. -/
  nextLocalfolder : ℕ := 1
  localfile : List LocalFile := []
  setting : List (String × Column) := []
  task : List Task := []
  /-- A statement failed. -/
  failed : Bool := false

namespace Tables

variable (d : Tables)

/-- `subdircnt` is changed by `n`. -/
def addSubdircnt (n : ℤ) (mtime id : ℕ) : Ran × Tables :=
  (⟨(d.folder.filter fun r => r.id = id).length, 0⟩,
    { d with folder := d.folder.map fun r =>
        if r.id = id then { r with mtime := mtime, subdircnt := r.subdircnt + n } else r })

/-- A row of `folder` is inserted, unless there is one. -/
def insertFolder (row : Folder) : Ran × Tables :=
  if ∃ r ∈ d.folder, r.id = row.id then (⟨0, 0⟩, d)
  else (⟨1, row.id⟩, { d with folder := d.folder ++ [{ row with subdircnt := 0 }] })

/-- A row of `folder` is updated. -/
def updateFolder (row : Folder) : Ran × Tables :=
  (⟨(d.folder.filter fun r => r.id = row.id).length, 0⟩,
    { d with folder := d.folder.map fun r =>
        if r.id = row.id then { row with subdircnt := r.subdircnt } else r })

/-- A row of `folder` is deleted; syncs of the folder have none any more. -/
def deleteFolder (id : ℕ) : Ran × Tables :=
  (⟨(d.folder.filter fun r => r.id = id).length, 0⟩,
    { d with
      folder := d.folder.filter fun r => r.id ≠ id
      syncfolder := d.syncfolder.map fun s =>
        if s.folderid = some id then { s with folderid := none } else s })

/-- A row of `file` is inserted, unless there is one. -/
def insertFile (row : File) : Ran × Tables :=
  if ∃ r ∈ d.file, r.id = row.id then (⟨0, 0⟩, d)
  else (⟨1, row.id⟩, { d with file := d.file ++ [row] })

/-- A row of `file` is updated. -/
def updateFile (row : File) : Ran × Tables :=
  (⟨(d.file.filter fun r => r.id = row.id).length, 0⟩,
    { d with file := d.file.map fun r => if r.id = row.id then row else r })

/-- A row of `file` is deleted. -/
def deleteFile (id : ℕ) : Ran × Tables :=
  (⟨(d.file.filter fun r => r.id = id).length, 0⟩,
    { d with file := d.file.filter fun r => r.id ≠ id })

/-- Two rows of `syncedfolder` cannot both be there. -/
def Clash (a b : Synced) : Prop :=
  a.syncid = b.syncid ∧ (a.folderid = b.folderid ∨ a.localfolderid = b.localfolderid)

instance : DecidableRel Clash := fun a b =>
  inferInstanceAs (Decidable
    (a.syncid = b.syncid ∧ (a.folderid = b.folderid ∨ a.localfolderid = b.localfolderid)))

/-- `INSERT OR IGNORE INTO syncedfolder`. -/
def insertSynced (row : Synced) : Ran × Tables :=
  if ∃ r ∈ d.syncedfolder, Clash r row then (⟨0, 0⟩, d)
  else (⟨1, 0⟩, { d with syncedfolder := d.syncedfolder ++ [row] })

/-- `REPLACE INTO syncedfolder`. -/
def replaceSynced (row : Synced) : Ran × Tables :=
  (⟨1, 0⟩, { d with syncedfolder := (d.syncedfolder.filter fun r => ¬ Clash r row) ++ [row] })

/-- An `UPDATE` of `syncedfolder` fails when a row would clash with another one. -/
def updateSynced (p : Synced → Bool) (f : Synced → Synced) : Ran × Tables :=
  if (d.syncedfolder.map fun r => if p r then f r else r).Pairwise fun a b => ¬ Clash a b then
    (⟨(d.syncedfolder.filter p).length, 0⟩,
      { d with syncedfolder := d.syncedfolder.map fun r => if p r then f r else r })
  else (⟨0, 0⟩, { d with failed := true })

/-- `DELETE FROM syncedfolder`. -/
def deleteSynced (p : Synced → Bool) : Ran × Tables :=
  (⟨(d.syncedfolder.filter p).length, 0⟩,
    { d with syncedfolder := d.syncedfolder.filter fun r => ¬ p r })

/-- A row of `localfolder` is inserted, unless its parent has one with the name. -/
def insertLocalfolder (localparentfolderid folderid syncid : ℕ) (name : String) : Ran × Tables :=
  if ∃ r ∈ d.localfolder,
      r.syncid = syncid ∧ r.localparentfolderid = localparentfolderid ∧ r.name = name then
    (⟨0, 0⟩, d)
  else
    (⟨1, d.nextLocalfolder⟩, { d with
        localfolder := d.localfolder ++
          [⟨d.nextLocalfolder, localparentfolderid, folderid, syncid, 1, name⟩]
        nextLocalfolder := d.nextLocalfolder + 1 })

/-- A row of `localfolder` is updated. -/
def updateLocalfolder (id : ℕ) (f : LocalFolder → LocalFolder) : Ran × Tables :=
  (⟨(d.localfolder.filter fun r => r.id = id).length, 0⟩,
    { d with localfolder := d.localfolder.map fun r => if r.id = id then f r else r })

/-- A statement. -/
def run : Stmt → Tables → Ran × Tables
  | .insertFolder row, d => d.insertFolder row
  | .updateFolder row, d => d.updateFolder row
  | .incSubdircnt mtime id, d => d.addSubdircnt 1 mtime id
  | .decSubdircnt mtime id, d => d.addSubdircnt (-1) mtime id
  | .deleteFolder id, d => d.deleteFolder id
  | .insertFile row, d => d.insertFile row
  | .updateFile row, d => d.updateFile row
  | .deleteFile id, d => d.deleteFile id
  | .insertSynced row, d => d.insertSynced row
  | .replaceSynced row, d => d.replaceSynced row
  | .updateSyncedFolder folderid syncid localfolderid, d =>
    d.updateSynced (fun r => r.syncid = syncid ∧ r.localfolderid = localfolderid)
      fun r => { r with folderid := folderid }
  | .updateSyncedSync syncid synctype oldsyncid folderid, d =>
    d.updateSynced (fun r => r.syncid = oldsyncid ∧ r.folderid = folderid)
      fun r => { r with syncid := syncid, synctype := synctype }
  | .deleteSynced syncid folderid, d =>
    d.deleteSynced fun r => r.syncid = syncid ∧ r.folderid = folderid
  | .insertLocalfolder localparentfolderid folderid syncid name, d =>
    d.insertLocalfolder localparentfolderid folderid syncid name
  | .updateLocalfolder folderid id, d =>
    d.updateLocalfolder id fun r => { r with folderid := folderid }
  | .incTaskcnt id, d => d.updateLocalfolder id fun r => { r with taskcnt := r.taskcnt + 1 }
  | .insertTask row, d => (⟨1, 0⟩, { d with task := d.task ++ [row] })
  | .deleteTasks type itemid syncid, d =>
    let p := fun t : Task => t.type = type ∧ t.itemid = itemid ∧ (syncid = none ∨ t.syncid = syncid)
    (⟨(d.task.filter p).length, 0⟩, { d with task := d.task.filter fun t => ¬ p t })
  | .replaceSetting id value, d =>
    (⟨1, 0⟩, { d with setting := (id, value) :: d.setting.filter fun s => s.1 ≠ id })
  | .deleteSettings ids, d =>
    (⟨(d.setting.filter fun s => s.1 ∈ ids).length, 0⟩,
      { d with setting := d.setting.filter fun s => s.1 ∉ ids })
  | .replaceRevision _ _ _ _, d | .deleteOldFileKeys _ _, d | .deleteFolderKeys, d
  | .deleteFileKeys, d | .deleteXattrs _, d | .replaceShare _ _, d | .deleteShare _ _, d
  | .updatePermissions _ _ _, d => (⟨0, 0⟩, d)

/-- A value as a number. -/
def number : Column → ℕ
  | .int n => n
  | .text s | .real s => s.toNat?.getD 0
  | .null => 0

/-- A query. -/
def ask : {β : Type} → Query β → Tables → β
  | _, .folder id, d => (d.folder.find? fun r => r.id = id).map FolderRow.toFolder
  | _, .subfolders parentfolderid, d =>
    (d.folder.filter fun r => r.parentfolderid = parentfolderid).map FolderRow.toFolder
  | _, .file id, d => d.file.find? fun r => r.id = id
  | _, .files parentfolderid, d => d.file.filter fun r => r.parentfolderid = parentfolderid
  | _, .downloads folderid, d =>
    d.syncedfolder.filter fun r => r.folderid = folderid ∧ r.synctype &&& 1 = 1
  | _, .synced folderid, d => d.syncedfolder.filter fun r => r.folderid = folderid
  | _, .syncedLocal folderid syncid, d =>
    (d.syncedfolder.find? fun r => r.folderid = folderid ∧ r.syncid = syncid).map
      Synced.localfolderid
  | _, .syncfolder folderid, d =>
    (d.syncfolder.find? fun s => s.folderid = some folderid).map SyncFolder.id
  | _, .downloadSync folderid, d =>
    (d.syncfolder.find? fun s => s.folderid = some folderid ∧ s.synctype &&& 1 = 1).map
      SyncFolder.id
  | _, .localfolder syncid folderid, d =>
    (d.localfolder.find? fun r => r.syncid = syncid ∧ r.folderid = folderid).map LocalFolder.id
  | _, .localfolderNamed localparentfolderid syncid name, d =>
    (d.localfolder.find? fun r =>
      r.localparentfolderid = localparentfolderid ∧ r.syncid = syncid ∧ r.name = name).map
        fun r => (r.id, r.folderid)
  | _, .hasLocalfile localparentfolderid fileid hash syncid, d =>
    decide (⟨syncid, localparentfolderid, fileid, hash⟩ ∈ d.localfile)
  | _, .setting id, d => (d.setting.find? fun s => s.1 = id).map fun s => number s.2

/-- The engine of the tables. -/
def engine : Engine Stmt Query Tables := ⟨run, ask⟩

end Tables

end Pclsync.Diff
