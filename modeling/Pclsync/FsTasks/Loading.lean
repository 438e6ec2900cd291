import Pclsync.FsTasks.System

/-!
# Loading and dropping all pending changes

When the drive is started, `psync_fstask_init` makes the pending changes again, from the rows of
the table `fstask`, one function for each type of task. `psync_fstask_clean` drops them all.

`System.fsTasksMachine` has the runs of `pfstasks.c` with these: the operations of `System.machine`,
the rows loaded one by one, and the cleaning. No file is open while rows are loaded, so that the
open file which `psync_init_task_renfile_to` looks for is not there.
-/

namespace Pclsync

/-- The types of the rows of `fstask` which are loaded. -/
inductive InitTaskType
  | mkdir
  | rmdir
  | creat
  | unlink
  | renfileFrom
  | renfileTo
  | renfolderFrom
  | renfolderTo
  | modify
  | unlinkSetRev

/-- The columns of a row of `fstask` which are loaded; `text2` is read only for being null. -/
structure InitRow where
  id : ℕ
  type : InitTaskType
  folderid : ℤ
  fileid : ℤ
  text1 : Name
  text2 : Bool
  int1 : ℤ
  int2 : ℤ
  sfolderid : ℤ

namespace State

/-- Get or create a folder object, edit it and release it. -/
def editOrCreateFolderTasks (s : State) (folderid : ℤ) (g : Folder → Folder) : State :=
  match s.getOrCreateFolderTasks folderid with
  | (p, s) => (s.modify p g).releaseFolderTasks p

/-- `psync_init_task_mkdir`. -/
def initTaskMkdir (row : InitRow) (f : Folder) : Folder :=
  let task : Mkdir :=
    { folderid := -row.id, taskid := row.id, ctime := row.int1.toNat, mtime := row.int1.toNat
      subdircnt := 0, flags := if row.text2 then encryptedFlag else 0, name := row.text1 }
  (f.insert .mkdirs task).count 1

/-- `psync_init_task_rmdir`. -/
def initTaskRmdir (row : InitRow) (f : Folder) : Folder :=
  let task : Rmdir := { folderid := row.sfolderid, taskid := row.id, name := row.text1 }
  ((f.dropFound .mkdirs row.text1 0).insert .rmdirs task).count 1

/-- `psync_init_task_creat`. -/
def initTaskCreat (row : InitRow) (f : Folder) : Folder :=
  let un : Unlink := { fileid := -row.id, taskid := row.id, name := row.text1 }
  let task : Creat :=
    { fileid := -row.id, rfileid := row.fileid, taskid := row.id, name := row.text1
      localCreat := none }
  ((f.insert .unlinks un).insert .creats task).count 2

/-- `psync_init_do_task_unlink`. -/
def initDoTaskUnlink (row : InitRow) (fileid : ℤ) (f : Folder) : Folder :=
  let task : Unlink := { fileid := fileid, taskid := row.id, name := row.text1 }
  ((f.dropFound .creats row.text1 0).insert .unlinks task).count 1

/-- `psync_init_task_unlink`. -/
def initTaskUnlink (row : InitRow) : Folder → Folder := initDoTaskUnlink row row.fileid

/-- `psync_init_task_unlink_set_rev`. -/
def initTaskUnlinkSetRev (row : InitRow) : Folder → Folder := initDoTaskUnlink row row.int1

/-- `psync_init_task_renfile_from`. -/
def initTaskRenfileFrom (row : InitRow) : Folder → Folder := initDoTaskUnlink row row.fileid

/-- `psync_init_task_renfile_to`: the names of the pending deletions are compared at the offset they
    have in a `psync_fstask_creat_t`, so that the record is added at any position `k`. -/
def initTaskRenfileTo (row : InitRow) (k : ℕ) (f : Folder) : Folder :=
  let un : Unlink := { fileid := row.fileid, taskid := row.id, name := row.text1 }
  let cr : Creat :=
    { fileid := row.fileid, rfileid := row.int2, taskid := row.id, name := row.text1
      localCreat := none }
  (((f.dropFound .creats row.text1 0).insertAt .unlinks k un).insert .creats cr).count 2

/-- `psync_init_task_renfolder_from`. -/
def initTaskRenfolderFrom (row : InitRow) : Folder → Folder := initTaskRmdir row

/-- `psync_init_task_renfolder_to`. -/
def initTaskRenfolderTo (env : Env) (row : InitRow) (f : Folder) : Folder :=
  let rm : Rmdir := { folderid := row.sfolderid, taskid := row.id, name := row.text1 }
  let mk : Mkdir := fillMkdirData env row.sfolderid
    { folderid := row.sfolderid, taskid := row.id, ctime := 0, mtime := 0, subdircnt := 0
      flags := UInt32.ofInt row.int2, name := row.text1 }
  ((f.insert .rmdirs rm).insert .mkdirs mk).count 2

/-- `psync_init_task_modify`: the id of the file is computed from memory not yet written,
    `fileid`. -/
def initTaskModify (row : InitRow) (fileid : ℤ) (f : Folder) : Folder :=
  let un : Unlink := { fileid := row.fileid, taskid := row.id, name := row.text1 }
  let cr : Creat :=
    { fileid := fileid, rfileid := row.fileid, taskid := row.id, name := row.text1
      localCreat := none }
  (((f.dropFound .creats row.text1 0).insert .unlinks un).insert .creats cr).count 2

/-- `psync_init_task_func`. -/
def initTask (env : Env) (row : InitRow) (fileid : ℤ) (k : ℕ) : Folder → Folder :=
  match row.type with
  | .mkdir => initTaskMkdir row
  | .rmdir => initTaskRmdir row
  | .creat => initTaskCreat row
  | .unlink => initTaskUnlink row
  | .renfileFrom => initTaskRenfileFrom row
  | .renfileTo => initTaskRenfileTo row k
  | .renfolderFrom => initTaskRenfolderFrom row
  | .renfolderTo => initTaskRenfolderTo env row
  | .modify => initTaskModify row fileid
  | .unlinkSetRev => initTaskUnlinkSetRev row

/-- A row of `psync_fstask_init`. -/
def load (env : Env) (row : InitRow) (fileid : ℤ) (k : ℕ) (s : State) : State :=
  s.editOrCreateFolderTasks row.folderid (initTask env row fileid k)

/-- A folder object without tasks. -/
def emptied (f : Folder) : Folder :=
  { f with creats := .nil, unlinks := .nil, mkdirs := .nil, rmdirs := .nil, taskscnt := 0 }

/-- `psync_fstask_clean`, for one folder. -/
def cleanFolder (s : State) (f : Folder) : State :=
  if f.refcnt = 0 then
    { s with folders := s.folders.removeAt (s.position f.ptr), freed := emptied f :: s.freed }
  else s.modify f.ptr emptied

/-- `psync_fstask_clean`. -/
def clean (s : State) : State := s.folders.toList.foldl cleanFolder s

end State

/-! ## Runs -/

/-- The steps of `pfstasks.c`. -/
inductive FsTasksAction
  | operation (a : TasksAction)
  | load (env : Env) (row : InitRow) (fileid : ℤ) (k : ℕ)
  | clean

namespace System

/-- The state after a step of `pfstasks.c`. -/
def fsTasksStep (S : System) : FsTasksAction → Option System
  | .operation a => S.step a
  | .load env row fileid k => some { S with tasks := S.tasks.load env row fileid k }
  | .clean => some { S with tasks := S.tasks.clean }

/-- The machine of `pfstasks.c`. -/
def fsTasksMachine : Machine System FsTasksAction where
  init S := S = initial
  step := fsTasksStep

end System

end Pclsync
