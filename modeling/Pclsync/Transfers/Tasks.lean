import Pclsync.Transition
import Mathlib.Data.List.Basic

/-!
# Transfer tasks and their workers

The rows of `task` which transfer files, as the diff thread (`process_createfile`,
`process_modifyfile`, `process_deletefile`) and the local scanner (`scan_upload_file`,
`scan_upload_modified_file`, `scan_delete_file`) add and cancel them, and the workers of
`pdownload.c` and `pupload.c` which are started for rows and in the end delete or reset "their" row
by its id.

The table has no `AUTOINCREMENT`: a new row gets the id above the largest one that is present, so
that the id of a deleted row can be used again (`newId`). Rows and workers carry a number that no
other row gets (`stamp`), which nothing reads. Each statement is one step of a transaction, which no
other thread interrupts; the workers take their steps between transactions in any order.
-/

namespace Pclsync.Transfers

/-! ## Rows and workers -/

/-- What a row is about. -/
inductive Item
  /-- `PSYNC_DOWNLOAD_FILE` -/
  | download (fileid syncid : ℕ)
  /-- `PSYNC_UPLOAD_FILE` -/
  | upload (localfileid : ℕ)
  /-- A task of another type. -/
  | other
  deriving DecidableEq

/-- A row of `task`. -/
structure Task where
  id : ℕ
  item : Item
  inprogress : Bool
  stamp : ℕ

/-- How the work for a row ends. -/
inductive Result
  /-- The file is transferred: the row is deleted. -/
  | transferred
  /-- A permanent error: the row is deleted. -/
  | refused
  /-- A temporary error: the row is reset. -/
  | failed
  /-- The worker was stopped: the row is reset. -/
  | stopped
  /-- The row is left as it is, as it was not marked yet, or as a stopped download is dropped. -/
  | dropped
  deriving DecidableEq

/-- A worker, with the id and the number of the row it was started for. -/
structure Worker where
  taskid : ℕ
  item : Item
  stamp : ℕ
  /-- It is in `downloads` or `uploads`. -/
  listed : Bool := false
  stop : ℕ := 0
  result : Option Result := none

/-- The rows and the workers that are not done. -/
structure State where
  tasks : List Task := []
  workers : List Worker := []
  /-- The number of the next row. -/
  stamps : ℕ := 0
  /-- The row of the newest version of a file that was recorded, unless it was deleted since. -/
  latest : Item → Option ℕ := fun _ => none
  /-- The rows whose versions are transferred. -/
  transferred : List ℕ := []

namespace State

variable (s : State)

/-! ## Statements -/

/-- The id of a new row. -/
def newId : ℕ := (s.tasks.map Task.id).foldr max 0 + 1

/-- What is done about a file. -/
inductive Statement
  /-- The rows of items are deleted, and their transfers are stopped. -/
  | cancel (which : Item → Bool) (stop : ℕ)
  /-- A row is added. -/
  | insert (item : Item)
  /-- A version is recorded which is there already. -/
  | present (item : Item)

/-- A row is added, for a version that is the newest one. -/
def insert (item : Item) : State :=
  { s with
    tasks := s.tasks ++ [⟨s.newId, item, false, s.stamps⟩]
    stamps := s.stamps + 1
    latest := fun i => if i = item then some s.stamps else s.latest i }

/-- `psync_delete_download_tasks_for_file` and `psync_delete_upload_tasks_for_file`. -/
def cancel (which : Item → Bool) (stop : ℕ) : State :=
  { s with
    tasks := s.tasks.filter fun r => !which r.item
    workers := s.workers.map fun w =>
      if w.listed && which w.item then { w with stop := stop } else w
    latest := fun i => if which i then none else s.latest i }

/-- A version that needs no transfer. -/
def present (item : Item) : State :=
  { s with
    stamps := s.stamps + 1
    latest := fun i => if i = item then some s.stamps else s.latest i
    transferred := s.stamps :: s.transferred }

/-- What a statement does. -/
def apply : Statement → State
  | .cancel which stop => s.cancel which stop
  | .insert item => s.insert item
  | .present item => s.present item

/-! ## Who adds and cancels rows -/

/-- The downloads of a file, for one sync or for all. -/
def downloadsOf (fileid : ℕ) (syncid : Option ℕ) : Item → Bool
  | .download f sync => f = fileid && syncid.all fun id => sync = id
  | _ => false

/-- The uploads of a local file. -/
def uploadsOf (localfileid : ℕ) : Item → Bool
  | .upload f => f = localfileid
  | _ => false

/-- `process_createfile`, for the syncs of the folder. -/
def processCreatefile (fileid : ℕ) (syncs : List ℕ) : List Statement :=
  syncs.map fun sync => .insert (.download fileid sync)

/-- `process_modifyfile`: whether there is a new version, and a new name or folder, the syncs which
the file stays in (with whether the database has the hash of the version there), and those it comes
into and goes out of. -/
def processModifyfile (fileid : ℕ) (needdownload needrename : Bool) (both : List (ℕ × Bool))
    (into out : List ℕ) : List Statement :=
  (if needdownload then [.cancel (downloadsOf fileid none) 1] else []) ++
    both.flatMap (fun p =>
      (if needrename then [.insert .other] else []) ++
        if needdownload then
          [if p.2 then .present (.download fileid p.1) else .insert (.download fileid p.1)]
        else []) ++
    into.map (fun sync => .insert (.download fileid sync)) ++
    out.flatMap fun sync => [.insert .other, .cancel (downloadsOf fileid (some sync)) 2]

/-- `process_deletefile`, and `process_modifyfile` for a name to ignore: the row to delete the local
file is added when the file has a path. -/
def processDeletefile (fileid : ℕ) (path : Bool) : List Statement :=
  .cancel (downloadsOf fileid none) 2 :: if path then [.insert .other] else []

/-- `scan_upload_file` -/
def scanUploadFile (localfileid : ℕ) : List Statement := [.insert (.upload localfileid)]

/-- `scan_upload_modified_file` -/
def scanUploadModifiedFile (localfileid : ℕ) : List Statement :=
  [.cancel (uploadsOf localfileid) 1, .insert (.upload localfileid)]

/-- `scan_delete_file`: the row to delete the remote file is added when there is one. -/
def scanDeleteFile (localfileid : ℕ) (remote : Bool) : List Statement :=
  .cancel (uploadsOf localfileid) 1 :: if remote then [.insert .other] else []

/-- A transaction of the diff thread or of the local scanner, of one file. -/
inductive Event
  | createfile (fileid : ℕ) (syncs : List ℕ)
  | modifyfile (fileid : ℕ) (needdownload needrename : Bool) (both : List (ℕ × Bool))
      (into out : List ℕ)
  | deletefile (fileid : ℕ) (path : Bool)
  | uploadFile (localfileid : ℕ)
  | uploadModifiedFile (localfileid : ℕ)
  | deleteLocalFile (localfileid : ℕ) (remote : Bool)
  /-- A task of another type. -/
  | task

/-- What is done. -/
def Event.statements : Event → List Statement
  | .createfile fileid syncs => processCreatefile fileid syncs
  | .modifyfile fileid needdownload needrename both into out =>
    processModifyfile fileid needdownload needrename both into out
  | .deletefile fileid path => processDeletefile fileid path
  | .uploadFile localfileid => scanUploadFile localfileid
  | .uploadModifiedFile localfileid => scanUploadModifiedFile localfileid
  | .deleteLocalFile localfileid remote => scanDeleteFile localfileid remote
  | .task => [.insert .other]

/-! ## Workers -/

/-- `delete_task`, and the statement of `delete_upload_task`. -/
def deleteTask (taskid : ℕ) : State := { s with tasks := s.tasks.filter fun r => r.id ≠ taskid }

/-- `set_task_inprogress` -/
def setTaskInprogress (taskid : ℕ) (val : Bool) : State :=
  { s with tasks := s.tasks.map fun r => if r.id = taskid then { r with inprogress := val } else r }

/-- A worker goes on. -/
def setWorker (i : ℕ) (w : Worker) : State := { s with workers := s.workers.set i w }

/-- A worker is done. -/
def dropWorker (i : ℕ) : State := { s with workers := s.workers.eraseIdx i }

/-- A worker does to its row what its result says, and is done. -/
def settle (i : ℕ) (w : Worker) : Result → State
  | .transferred =>
    { (s.deleteTask w.taskid).dropWorker i with transferred := w.stamp :: s.transferred }
  | .refused => (s.deleteTask w.taskid).dropWorker i
  | .failed | .stopped => (s.setTaskInprogress w.taskid false).dropWorker i
  | .dropped => s.dropWorker i

/-- What happens. -/
inductive Action
  /-- The diff thread or the local scanner. -/
  | event (e : Event)
  /-- A row is selected that is not in progress. -/
  | select (i : ℕ)
  /-- The transfer of a worker is added to the list. -/
  | enlist (i : ℕ)
  /-- The row of a worker is marked. -/
  | mark (i : ℕ)
  /-- The work ends. -/
  | finish (i : ℕ) (r : Result)
  /-- The row is deleted or reset. -/
  | settle (i : ℕ)
  /-- The client is started again: the workers are gone, and all rows are reset. -/
  | restart

/-- The state after an action. -/
def step : Action → Option State
  | .event e => some (e.statements.foldl apply s)
  | .select i =>
    s.tasks[i]?.bind fun r =>
      if r.inprogress then none
      else some { s with
        workers := s.workers ++ [{ taskid := r.id, item := r.item, stamp := r.stamp }] }
  | .enlist i => s.workers[i]?.map fun w => s.setWorker i { w with listed := true }
  | .mark i =>
    s.workers[i]?.bind fun w =>
      if w.result.isNone then some (s.setTaskInprogress w.taskid true) else none
  | .finish i r =>
    s.workers[i]?.bind fun w =>
      if w.result.isNone ∧ (r = .stopped → w.stop ≠ 0) then
        some (s.setWorker i { w with result := some r })
      else none
  | .settle i => s.workers[i]?.bind fun w => w.result.map (s.settle i w)
  | .restart =>
    some { s with
      tasks := s.tasks.map fun r => { r with inprogress := false }
      workers := [] }

end State

/-- The system, which begins without tasks. -/
def system : Machine State State.Action where
  init s := s = {}
  step := State.step

end Pclsync.Transfers
