import Pclsync.Transition
import Pclsync.PathStatus.Tracker

/-!
# Folders with tasks of the drive and of the syncs

The trackers of the drive and of all syncs, with the tables of folders they look up parents in and
the tasks they are told of. A move of a folder is made in a transaction: its effect on the counts
is deferred to the commit, and dropped by a rollback, while the tables change at once.

* `State`, `Action`, `step`: the system. The commit runs one callback at a time.
* `State.driveFolderChanged` and so on: the functions, on the trackers.
-/

namespace Pclsync.PathStatus

open Tracker Function

abbrev SyncId := ℕ

/-- The tables of folders in the database. -/
inductive Table
  | folder
  | localfolder
  deriving DecidableEq

/-- The drive and the syncs. -/
inductive Key
  | drive
  | sync (syncid : SyncId)
  deriving DecidableEq

/-- The table in which the parents are looked up. -/
def Key.table : Key → Table
  | drive => .folder
  | sync _ => .localfolder

/-- `PARENT_CACHE_SIZE` and `SYNC_PARENT_CACHE_SIZE`. -/
def Key.cacheSize : Key → ℕ
  | drive => 128
  | sync _ => 64

/-- `folder_moved_params_t` and `sync_folder_moved_params_t`. -/
structure Move where
  folderid : FolderId
  oldKey : Key
  oldParent : FolderId
  newKey : Key
  newParent : FolderId

/-- What a rollback restores: the tables, which include those of the tasks of the syncs. -/
structure Database where
  tree : Table → Forest FolderId
  tasks : SyncId → FolderId → Bool

structure State where
  tree : Table → Forest FolderId
  /-- The folders that have tasks of their own. -/
  own : Key → FolderId → Bool
  tracker : Key → Tracker
  /-- The syncs with a `sync_data_t`. -/
  created : SyncId → Bool
  /-- The callbacks of the transaction. -/
  pending : List Move
  /-- The database at the start of the transaction, in a transaction. -/
  snapshot : Option Database
  committing : Bool
  /-- A function failed an assertion, or does not return. -/
  failed : Bool

namespace State

variable (s : State)

def treeOf (k : Key) : Forest FolderId := s.tree k.table

def setOwn (k : Key) (f : FolderId) (b : Bool) : State :=
  { s with own := update s.own k (update (s.own k) f b) }

def setTree (T : Table) (tree : Forest FolderId) : State :=
  { s with tree := update s.tree T tree }

/-- The state with the result of a function on one of the trackers. -/
def put (k : Key) : Option Tracker → State
  | none => { s with failed := true }
  | some t => { s with tracker := update s.tracker k t }

/-! ## Functions -/

/-- `psync_path_status_drive_folder_changed`, when the folder has creates or mkdirs (`changed`) or
    not. -/
def driveFolderChanged (f : FolderId) (changed : Bool) : State :=
  let t := s.tracker .drive
  let tree := s.treeOf .drive
  (s.setOwn .drive f changed).put .drive
    (if changed then t.taskAdded Key.drive.cacheSize tree f
      else t.taskCompleted Key.drive.cacheSize tree false f)

/-- `psync_path_status_folder_moved`: `old` is the parent before the change of the table. -/
def folderMoved (f old new : FolderId) : State :=
  if old = new then s
  else
    let s := s.put .drive (some ((s.tracker .drive).delFromParentCache f))
    match (s.tracker .drive).folderTasks f with
    | none => s
    | some _ => { s with pending := s.pending ++ [⟨f, .drive, old, .drive, new⟩] }

/-- `psync_path_status_folder_deleted`. -/
def folderDeleted (f : FolderId) : State :=
  (s.setOwn .drive f false).put .drive
    ((s.tracker .drive).folderDeleted Key.drive.cacheSize (s.treeOf .drive) f)

/-- `psync_path_status_sync_folder_task_added_locked`. -/
def syncFolderTaskAdded (i : SyncId) (f : FolderId) : State :=
  ({ s.setOwn (.sync i) f true with created := update s.created i true } : State).put
    (.sync i) ((s.tracker (.sync i)).taskAdded (Key.sync i).cacheSize (s.treeOf (.sync i)) f)

/-- `psync_path_status_sync_folder_task_completed`, when the folder is left with tasks (`left`) or
    not. -/
def syncFolderTaskCompleted (i : SyncId) (f : FolderId) (left : Bool) : State :=
  let s' := s.setOwn (.sync i) f left
  if left = true ∨ s.created i = false then s'
  else s'.put (.sync i)
    ((s.tracker (.sync i)).taskCompleted (Key.sync i).cacheSize (s.treeOf (.sync i)) true f)

/-- `psync_path_status_sync_folder_moved`, which looks for the entry of the folder among those of
    the drive. -/
def syncFolderMoved (f : FolderId) (i : SyncId) (old : FolderId) (j : SyncId) (new : FolderId) :
    State :=
  if old = new ∧ i = j then s
  else if s.created i = false then s
  else
    let s := s.put (.sync i) (some ((s.tracker (.sync i)).delFromParentCache f))
    match (s.tracker .drive).folderTasks f with
    | none => s
    | some _ => { s with pending := s.pending ++ [⟨f, .sync i, old, .sync j, new⟩] }

/-- `psync_path_status_sync_folder_deleted`. -/
def syncFolderDeleted (i : SyncId) (f : FolderId) : State :=
  let s' := s.setOwn (.sync i) f false
  if s.created i = false then s'
  else s'.put (.sync i)
    ((s.tracker (.sync i)).folderDeleted (Key.sync i).cacheSize (s.treeOf (.sync i)) f)

/-- Whether there is a tracker: the one of the drive always exists. -/
def exists' : Key → Bool
  | .drive => true
  | .sync i => s.created i

/-- `get_sync_data` with `create`. -/
def create : Key → State
  | .drive => s
  | .sync i => { s with created := update s.created i true }

/-- `folder_moved_commit` and `sync_folder_moved_commit`. -/
def movedCommit (m : Move) : State :=
  let s₁ := (s.create m.newKey).put m.newKey
    ((s.tracker m.newKey).moveTo m.newKey.cacheSize (s.treeOf m.newKey) m.newParent)
  if s₁.failed = true then s₁
  else if s₁.exists' m.oldKey = false then { s₁ with failed := true }
  else s₁.put m.oldKey
    ((s₁.tracker m.oldKey).moveFrom m.oldKey.cacheSize (s.treeOf m.oldKey) m.oldParent)

end State

/-! ## Steps -/

inductive Action
  | driveFolderChanged (f : FolderId) (changed : Bool)
  | folderMoved (f new : FolderId)
  | folderDeleted (f : FolderId)
  | syncFolderTaskAdded (i : SyncId) (f : FolderId)
  | syncFolderTaskCompleted (i : SyncId) (f : FolderId) (left : Bool)
  | syncFolderMoved (f : FolderId) (i j : SyncId) (new : FolderId)
  | syncFolderDeleted (i : SyncId) (f : FolderId)
  /-- A row is inserted in a table of folders. -/
  | folderCreated (T : Table) (f parent : FolderId)
  | startTransaction
  | commitTransaction
  /-- The commit runs its first callback. -/
  | commitCallback
  /-- The commit returns, after its last callback. -/
  | commitEnd
  | rollbackTransaction

/-- The tree with a new parent for a folder, if the folder is not above it. -/
def reparent (tree : Forest FolderId) (f : FolderId) (q : Option FolderId) :
    Option (Forest FolderId) :=
  if h : ∀ p, q = some p → isBelow tree.parent tree.height p f = false then
    some (tree.setParent f q h)
  else none

/-- One call, with the change of the tables and of the tasks it is about, or one step of a
    transaction. The calls for moves and deleted folders come with the change of their row, which is
    there until the call is over (`delete_local_folder_from_db` deletes it before, which is not part
    of the model); those for moves are made in a transaction. -/
def step (s : State) (a : Action) : Option State :=
  if s.failed = true then none
  else if s.committing = true then
    match a, s.pending with
    | .commitCallback, m :: rest => some (({ s with pending := rest } : State).movedCommit m)
    | .commitEnd, [] => some { s with committing := false, snapshot := none }
    | _, _ => none
  else match a with
    | .driveFolderChanged f changed => some (s.driveFolderChanged f changed)
    | .folderMoved f new => match (s.tree .folder).parent f with
      | none => none
      | some old =>
        if s.snapshot.isNone = true then none
        else (reparent (s.tree .folder) f (some new)).map fun tree =>
          (s.setTree .folder tree).folderMoved f old new
    | .folderDeleted f =>
      (reparent (s.tree .folder) f none).map fun tree =>
        (s.folderDeleted f).setTree .folder tree
    | .syncFolderTaskAdded i f => some (s.syncFolderTaskAdded i f)
    | .syncFolderTaskCompleted i f left =>
      if left = true ∧ s.own (.sync i) f = false then none
      else some (s.syncFolderTaskCompleted i f left)
    | .syncFolderMoved f i j new => match (s.tree .localfolder).parent f with
      | none => none
      | some old =>
        if s.snapshot.isNone = true then none
        else (reparent (s.tree .localfolder) f (some new)).map fun tree =>
          (s.setTree .localfolder tree).syncFolderMoved f i old j new
    | .syncFolderDeleted i f =>
      (reparent (s.tree .localfolder) f none).map fun tree =>
        (s.syncFolderDeleted i f).setTree .localfolder tree
    | .folderCreated T f parent =>
      if f = 0 ∨ ((s.tree T).parent f).isSome then none
      else (reparent (s.tree T) f (some parent)).map fun tree => s.setTree T tree
    | .startTransaction =>
      if s.snapshot.isSome then none
      else some { s with snapshot := some ⟨s.tree, fun i => s.own (.sync i)⟩ }
    | .commitTransaction =>
      if s.snapshot.isNone then none else some { s with committing := true }
    | .rollbackTransaction => s.snapshot.map fun d =>
      { s with
        tree := d.tree
        own := fun | .drive => s.own .drive | .sync i => d.tasks i
        pending := [], snapshot := none }
    | .commitCallback => none
    | .commitEnd => none

end Pclsync.PathStatus
