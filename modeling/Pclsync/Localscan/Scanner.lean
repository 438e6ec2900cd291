import Pclsync.Localscan.Listing
import Pclsync.Transition
import Mathlib.Data.Nat.Bitwise

/-!
# The local scanner

`scanner_scan` of `plocalscan.c` as a machine: the folders of the syncs are listed one after
another, what was found is paired and applied in rounds, and at last the files are queued. Each call
of `scanner_scan_folder`, and each element of a list, is one step. Between the steps other threads
change the database, and a restart may be asked for.

What the file system answers is part of the actions: `stat` of the folders of syncs, and the reading
of each directory.

The remote deletions that are queued are recorded with the ids of their rows (`deletions`). The rows
of `syncedfolder`, which the scanner writes but does not read, the path status and the notifications
are left out.
-/

namespace Pclsync.Localscan

variable {Name : Type} [LinearOrder Name]

/-! ## Comparing what was found -/

/-- The comparison of two numbers in `compare_sizeinodemtime`. -/
def compareDifference (a b : UInt64) : Ordering :=
  if (a - b).toInt64 < 0 then .lt else if 0 < (a - b).toInt64 then .gt else .eq

/-- `compare_sizeinodemtime` -/
def compareSizeinodemtime (f₁ f₂ : Elem Name) : Ordering :=
  ((compareDifference f₁.size f₂.size).then (compareDifference f₁.inode f₂.inode)).then
    (compareDifference f₁.mtimenat f₂.mtimenat)

/-- `compare_inode` -/
def compareInode (f₁ f₂ : Elem Name) : Ordering := compareDifference f₁.inode f₂.inode

/-! ## Applying what was found -/

namespace Db

variable (db : Db Name)

/-- Whether the foreign keys allow a row in a folder of a sync. -/
def allows (localparentfolderid syncid : ℕ) : Bool :=
  (localparentfolderid = 0 ∨ (db.folders.get localparentfolderid).isSome) ∧
    db.syncs.any fun r => r.id = syncid

/-- `scan_rename_file` -/
def scanRenameFile (rnfr rnto : Elem Name) : Db Name :=
  match db.files.get rnfr.localid with
  | none => db
  | some _ =>
    let files :=
      if db.allows rnto.localparentfolderid rnto.syncid then
        db.files.update (fun r => r.id = rnfr.localid)
          (fun r => { r with
            localparentfolderid := rnto.localparentfolderid
            syncid := rnto.syncid
            name := rnto.name }) (fun _ => rfl)
      else db.files
    { db with files := files }.addTask (.renameRemoteFile rnfr.syncid rnto.syncid rnfr.localid
      rnto.localparentfolderid rnto.name)

/-- `scan_upload_file` -/
def scanUploadFile (fl : Elem Name) : Db Name :=
  let inserted := db.files.insertOrIgnore (db.allows fl.localparentfolderid fl.syncid)
    (fun id =>
      { id := id
        localparentfolderid := fl.localparentfolderid
        fileid := 0
        syncid := fl.syncid
        size := fl.size
        inode := fl.inode
        mtimenative := fl.mtimenat
        name := fl.name }) (fun _ => rfl)
  let db := { db with files := inserted.1 }
  match inserted.2 with
  | none => db
  | some id => db.addTask (.uploadFile fl.syncid id fl.name)

/-- `scan_upload_modified_file` -/
def scanUploadModifiedFile (fl : Elem Name) : Db Name :=
  let db := db.deleteUploadTasksForFile fl.localid
  { db with
    files := db.files.update (fun r => r.id = fl.localid)
      (fun r => { r with
        size := fl.size
        inode := fl.inode
        mtimenative := fl.mtimenat }) (fun _ => rfl) }.addTask
    (.uploadFile fl.syncid fl.localid fl.name)

/-- `scan_create_folder`, with the element, which gets the id of the row. -/
def scanCreateFolder (fl : Elem Name) : Db Name × Elem Name :=
  let inserted := db.folders.insertOrIgnore (db.allows fl.localparentfolderid fl.syncid)
    (fun id =>
      { id := id
        localparentfolderid := fl.localparentfolderid
        folderid := 0
        syncid := fl.syncid
        inode := fl.inode
        deviceid := fl.deviceid
        mtimenative := some fl.mtimenat
        name := fl.name }) (fun _ => rfl)
  let db := { db with folders := inserted.1 }
  match inserted.2 with
  | none =>
    ({ db with
      folders := db.folders.update
        (fun r => r.syncid = fl.syncid ∧ r.localparentfolderid = fl.localparentfolderid ∧
          r.name = fl.name)
        (fun r => { r with
          inode := fl.inode
          deviceid := fl.deviceid
          mtimenative := some fl.mtimenat }) (fun _ => rfl) }, fl)
  | some id =>
    (db.addTask (.createRemoteFolder fl.syncid id fl.name), { fl with localid := id })

/-- `update_syncid_rec`; `n` bounds the depth of the calls. -/
def updateSyncidRec (syncid : ℕ) : ℕ → Db Name → ℕ → Option (Db Name)
  | 0, _, _ => none
  | n + 1, db, localfolderid =>
    let folders :=
      if db.syncs.any fun r => r.id = syncid then
        db.folders.update (fun r => r.id = localfolderid) (fun r => { r with syncid := syncid })
          (fun _ => rfl)
      else db.folders
    let db := { db with folders := folders }
    ((db.children localfolderid).map FolderRow.id).foldlM (updateSyncidRec syncid n) db

/-- `scan_rename_folder` -/
def scanRenameFolder (stack : ℕ) (rnfr rnto : Elem Name) : Option (Db Name) :=
  match db.folders.get rnfr.localid with
  | none => some db
  | some _ =>
    let folders :=
      if db.allows rnto.localparentfolderid rnto.syncid then
        db.folders.update (fun r => r.id = rnfr.localid)
          (fun r => { r with
            localparentfolderid := rnto.localparentfolderid
            syncid := rnto.syncid
            name := rnto.name }) (fun _ => rfl)
      else db.folders
    let db := { db with folders := folders }
    let moved :=
      if rnfr.syncid ≠ rnto.syncid then db.updateSyncidRec rnto.syncid stack rnfr.localid
      else some db
    moved.map fun db => db.addTask (.renameRemoteFolder rnfr.syncid rnto.syncid rnfr.localid
      rnto.localparentfolderid rnto.name)

end Db

/-! ## The state -/

/-- Where the scanner is. -/
inductive Pc
  | idle
  /-- The folders of the syncs are scanned. -/
  | walk
  /-- A round begins. -/
  | round
  /-- Folders are renamed and created. -/
  | folders
  /-- The created folders are scanned. -/
  | created
  /-- The files, and what was deleted, are queued. -/
  | queue
  deriving DecidableEq

/-- A remote deletion: of the folder tree or file of the row `localid`. -/
structure Deletion where
  isfolder : Bool
  localid : ℕ
  remoteid : ℕ
  deriving DecidableEq

/-- The database and the scanner. -/
structure State (Name : Type) where
  db : Db Name
  pc : Pc := .idle
  ignoredPaths : List (UInt64 × UInt64) := []
  /-- The folders of the syncs that are scanned, with their devices. -/
  devices : List (List Name × UInt64) := []
  /-- The syncs whose folders are still to be scanned. -/
  slist : List (SyncRow Name) := []
  /-- The folders to scan: the calls of `scanner_scan_folder` that are to be made. -/
  jobs : List (Job Name) := []
  lists : Lists Name := {}
  /-- `newtmp` -/
  newtmp : List (Elem Name) := []
  changes : Bool := false
  /-- Whether the round did something. -/
  i : Bool := false
  movedfolders : Bool := false
  restartScan : Bool := false
  tries : ℕ := 0
  deletions : List Deletion := []

/-- What happens. -/
inductive Action (Name : Type)
  /-- Other threads change the database. -/
  | change (db : Db Name)
  /-- `psync_restart_localscan` -/
  | restart
  /-- A scan begins, with the paths to ignore and what `stat` gives. -/
  | start (ignoredPaths : List (UInt64 × UInt64)) (stat : List Name → Option Stat)
  /-- The next sync, with `stat` of its folder. -/
  | sync (stat : Option Stat)
  /-- The next folder, with its directory, and the rows for which the lock is upgraded. -/
  | scan (dir : Directory Name) (upgraded : ℕ → Bool)
  /-- The devices are checked at the end of the walk. -/
  | recheck (stat : List Name → Option Stat)
  /-- The scanner goes on. -/
  | go

namespace State

variable (env : Env Name) (s : State Name)

/-! ## Steps -/

/-- `goto restart`: the lists are freed, and the scan begins again. -/
def stop : State Name :=
  { s with
    pc := .idle
    slist := []
    jobs := []
    lists := {}
    newtmp := [] }

/-- `PSYNC_UPLOAD_ONLY` -/
def uploadOnly : ℕ := 2

/-- Whether `scanner_set_syncs_to_list` takes a sync. -/
def takesSync (stat : List Name → Option Stat) (r : SyncRow Name) : Bool :=
  r.synctype &&& uploadOnly = uploadOnly && !env.onDrive r.localpath &&
    (stat r.localpath).any fun st => !(r.deviceid ≠ st.dev && r.inode ≠ st.ino)

/-- The beginning of `scanner_scan`. -/
def start (ignoredPaths : List (UInt64 × UInt64)) (stat : List Name → Option Stat) : State Name :=
  let slist := s.db.syncs.filter (takesSync env stat)
  { s with
    pc := .walk
    ignoredPaths := ignoredPaths
    devices := slist.filterMap fun r => (stat r.localpath).map fun st => (r.localpath, st.dev)
    slist := slist
    jobs := []
    lists := {}
    newtmp := []
    changes := false
    i := false
    movedfolders := false
    restartScan := false }

/-- The folder of a sync is scanned, unless it cannot be read or is to be ignored. -/
def sync (stat : Option Stat) : Option (State Name) :=
  match s.jobs, s.slist with
  | [], l :: slist =>
    match stat with
    | none => some { s with slist := slist }
    | some st =>
      if isPathToIgnore s.ignoredPaths st.dev st.ino then some { s with slist := slist }
      else
        some { s with
          slist := slist
          jobs := [
            { localpath := l.localpath
              folderid := l.folderid
              localfolderid := 0
              syncid := l.id
              synctype := l.synctype
              deviceid := st.dev }] }
  | _, _ => none

/-- `scanner_scan_folder` of the next folder. -/
def scan (dir : Directory Name) (upgraded : ℕ → Bool) : Option (State Name) :=
  match s.jobs with
  | [] => none
  | job :: jobs =>
    match scannerLocalFolderToList s.ignoredPaths dir with
    | none => some { s with jobs := jobs }
    | some disk =>
      let comparison := compareFolder job.deviceid disk
        (s.db.entries env job.syncid job.localfolderid)
      (s.db.deleteIgnored env job.syncid job.localfolderid upgraded).map fun db =>
        { s with
          db := db
          jobs := job.subfolders comparison.disk ++ jobs
          lists := comparison.found.foldl (Lists.add env job) s.lists
          changes := s.changes || comparison.found.any (job.changes env) }

/-- The end of the walk: the scan is restarted if a folder of a sync is gone or is on another
device. -/
def recheck (stat : List Name → Option Stat) : Option (State Name) :=
  match s.jobs, s.slist with
  | [], [] =>
    some { s with
      pc := .round
      restartScan := s.restartScan ||
        s.devices.any fun d => !(stat d.1).any fun st => st.dev = d.2 }
  | _, _ => none

/-- The beginning of a round. -/
def goRound : State Name :=
  if s.restartScan then s.stop
  else
    let extracted := SortedLists.extractRepeating compareInode s.lists.delfolders s.lists.newfolders
    { s with
      pc := .folders
      i := false
      movedfolders := s.movedfolders || !extracted.pairs.isEmpty || !extracted.right.isEmpty
      lists := { s.lists with
        delfolders := extracted.left
        newfolders := extracted.right
        renfolders := extracted.pairs } }

/-- A folder is renamed or created. -/
def goFolders : Option (State Name) :=
  match s.lists.renfolders with
  | p :: renfolders =>
    (s.db.scanRenameFolder env.stack p.1 p.2).map fun db =>
      { s with
        db := db
        i := true
        lists := { s.lists with renfolders := renfolders } }
  | [] =>
    match s.lists.newfolders with
    | fl :: newfolders =>
      some { s with
        db := (s.db.scanCreateFolder fl).1
        i := true
        newtmp := s.newtmp ++ [(s.db.scanCreateFolder fl).2]
        lists := { s.lists with newfolders := newfolders } }
    | [] => some { s with pc := .created }

/-- The queue begins. -/
def startQueue : State Name :=
  if s.restartScan then s.stop
  else
    let extracted := SortedLists.extractRepeating compareSizeinodemtime s.lists.delfiles
      s.lists.newfiles
    { s with
      pc := .queue
      lists := { s.lists with
        delfiles := extracted.left
        newfiles := extracted.right
        renfiles := extracted.pairs } }

/-- `scan_created_folder` of the next folder that was created; then the round ends. -/
def goCreated : Option (State Name) :=
  match s.jobs, s.newtmp with
  | _ :: _, _ => none
  | [], fl :: newtmp =>
    if fl.localid = 0 then some { s with newtmp := newtmp }
    else
      (s.db.localPathForLocalFolder fl.localid fl.syncid).map fun path =>
        match path with
        | none => { s with newtmp := newtmp }
        | some localpath =>
          { s with
            newtmp := newtmp
            jobs := [
              { localpath := localpath
                folderid := 0
                localfolderid := fl.localid
                syncid := fl.syncid
                synctype := fl.synctype
                deviceid := fl.deviceid }] }
  | [], [] =>
    if s.i || s.changes then some { s with pc := .round, changes := false }
    else some s.startQueue

/-- `scan_delete_file` -/
def scanDeleteFile (fl : Elem Name) : State Name :=
  match s.db.files.get fl.localid with
  | none => s
  | some r =>
    let db := s.db.deleteUploadTasksForFile fl.localid
    let db := { db with files := db.files.delete fun r => r.id = fl.localid }
    if r.fileid = 0 then { s with db := db }
    else
      { s with
        db := db.addTask (.deleteRemoteFile fl.syncid r.fileid)
        deletions := s.deletions ++ [⟨false, fl.localid, r.fileid⟩] }

/-- The tasks which create a remote folder are deleted. -/
def deleteCreateTasks (db : Db Name) (syncid localfolderid : ℕ) : Db Name :=
  { db with tasks := db.tasks.filter fun t =>
      match t with
      | .createRemoteFolder sync id _ => !(sync = syncid && id = localfolderid)
      | _ => true }

/-- `scan_delete_folder` of the first folder in the list, which stays there while it is waited for
the folder to be created remotely. -/
def scanDeleteFolder (fl : Elem Name) (delfolders : List (Elem Name)) : Option (State Name) :=
  let s' := { s with tries := 0, lists := { s.lists with delfolders := delfolders } }
  match s.db.folders.get fl.localid with
  | none => some s'
  | some r =>
    if r.folderid = 0 then
      if s.tries < 50 then some { s with tries := s.tries + 1 }
      else
        ((deleteCreateTasks s.db fl.syncid fl.localid).deleteLocalFolderRec env.stack
          fl.localid).map fun db => { s' with db := db }
    else
      (s.db.deleteLocalFolderRec env.stack fl.localid).map fun db =>
        { s' with
          db := db.addTask (.delrecRemoteFolder fl.syncid r.folderid)
          deletions := s.deletions ++ [⟨true, fl.localid, r.folderid⟩] }

/-- The next element of the queue. -/
def goQueue : Option (State Name) :=
  match s.lists.renfiles with
  | p :: renfiles =>
    some { s with
      db := s.db.scanRenameFile p.1 p.2
      lists := { s.lists with renfiles := renfiles } }
  | [] =>
    match s.lists.newfiles with
    | fl :: newfiles =>
      some { s with
        db := s.db.scanUploadFile fl
        lists := { s.lists with newfiles := newfiles } }
    | [] =>
      match s.lists.modfiles with
      | fl :: modfiles =>
        some { s with
          db := s.db.scanUploadModifiedFile fl
          lists := { s.lists with modfiles := modfiles } }
      | [] =>
        match s.lists.delfiles with
        | fl :: delfiles =>
          some { s.scanDeleteFile fl with lists := { s.lists with delfiles := delfiles } }
        | [] =>
          match s.lists.delfolders with
          | fl :: delfolders => s.scanDeleteFolder env fl delfolders
          | [] => some s.stop

/-- What an action does; none where it is not the scanner's turn, or the scanner does not come
back. -/
def step : Action Name → Option (State Name)
  | .change db => some { s with db := db }
  | .restart => some { s with restartScan := true }
  | .start ignoredPaths stat => if s.pc = .idle then some (s.start env ignoredPaths stat) else none
  | .sync stat => if s.pc = .walk then s.sync stat else none
  | .scan dir upgraded =>
    if s.pc = .walk ∨ s.pc = .created then s.scan env dir upgraded else none
  | .recheck stat => if s.pc = .walk then s.recheck stat else none
  | .go =>
    match s.pc with
    | .round => some s.goRound
    | .folders => s.goFolders env
    | .created => s.goCreated
    | .queue => s.goQueue env
    | _ => none

end State

/-- The scanner, beginning with a database. -/
def scanner (env : Env Name) (db : Db Name) : Machine (State Name) (Action Name) where
  init s := s = { db := db }
  step := State.step env

end Pclsync.Localscan
