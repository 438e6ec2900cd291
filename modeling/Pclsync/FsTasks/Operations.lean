import Pclsync.FsTasks.State

/-!
# The operations on pending changes

The operations of `pfstasks.c`: what the file system does (`mkdir`, `rmdir`, `unlink`,
`renameFile`, `renameFolder`, …) and what the upload thread reports when the server has confirmed a
task (`folderCreated`, `fileDeleted`, …). All of them run under the lock of the database, so that
each is one function on the state.

What an operation learns from the database and from the rest of the program is in its argument
`env : Env`; the rows it adds to the tables of tasks and dependencies are not modelled, except for
their ids. Functions which take a folder object rather than a folder id take its address.
-/

namespace Pclsync

/-- The error codes returned. -/
inductive Errno
  | eexist
  | eacces
  | enoent
  | enotempty
  | eio
  | crypto (code : ℤ)

/-- The columns of a row of `fstask` which are read back. -/
structure FstaskRow where
  folderid : ℤ
  sfolderid : ℤ
  text1 : Name
  int1 : ℕ

/-- What an operation learns from the database and from the rest of the program. -/
structure Env where
  /-- `SELECT id, flags FROM folder WHERE parentfolderid=? AND name=?`. -/
  folder : ℤ → Name → Option (ℤ × UInt32)
  /-- `SELECT id FROM file WHERE parentfolderid=? AND name=?`. -/
  file : ℤ → Name → Option ℤ
  /-- `SELECT name FROM file WHERE parentfolderid=?`. -/
  fileNames : ℤ → List Name
  /-- `SELECT name FROM folder WHERE parentfolderid=?`. -/
  folderNames : ℤ → List Name
  /-- `SELECT ctime, mtime, subdircnt FROM folder WHERE id=?`. -/
  folderTimes : ℤ → Option (ℕ × ℕ × ℕ)
  /-- The row of `fstask` with an id. -/
  fstask : ℕ → Option FstaskRow
  /-- `psync_sql_insertid` after the rows inserted by the operation, in turn. -/
  insertid : ℕ → ℕ
  /-- `psync_sql_commit_transaction` succeeds. -/
  commit : Bool
  /-- `psync_timer_time`. -/
  time : ℕ
  /-- The error of `psync_cloud_crypto_get_new_encoded_key`. -/
  keyError : Option ℤ
  /-- The location kept in the cache for a renamed file. -/
  history : ℤ → Option (ℤ × Name)

/-- `PSYNC_FOLDER_FLAG_ENCRYPTED`. -/
def encryptedFlag : UInt32 := 1

/-- `PSYNC_FOLDER_FLAG_INVISIBLE`. -/
def invisibleFlag : UInt32 := 2

namespace State

/-- Release a folder object, when there is one. -/
def releaseOption (s : State) : Option ℕ → State
  | some p => s.releaseFolderTasks p
  | none => s

/-- Get a folder object, when there is one, edit it and release it. -/
def editFolderTasks (s : State) (folderid : ℤ) (g : Folder → Folder) : State :=
  match s.getFolderTasks folderid with
  | (some p, s) => (s.modify p g).releaseFolderTasks p
  | (none, s) => s

/-! ## Folders -/

/-- `psync_fstask_mkdir`. -/
def mkdir (env : Env) (folderid : ℤ) (name : Name) (folderflags : UInt32) (s : State) :
    Except Errno Unit × State :=
  match s.getOrCreateFolderTasks folderid with
  | (p, s) =>
    if folderid ≥ 0 ∧ (env.folder folderid name).isSome ∧
        ((s.folder p).find .rmdirs name 0).isNone then
      (.error .eexist, s.releaseFolderTasks p)
    else match (s.folder p).find .mkdirs name 0 with
      | some (_, task) =>
        (.error (if task.flags &&& invisibleFlag ≠ 0 then .eacces else .eexist),
          s.releaseFolderTasks p)
      | none =>
        match if folderflags &&& encryptedFlag ≠ 0 then env.keyError else none with
        | some code => (.error (.crypto code), s.releaseFolderTasks p)
        | none =>
          if env.commit then
            let task : Mkdir :=
              { folderid := -(env.insertid 0), taskid := env.insertid 0, ctime := env.time
                mtime := env.time, subdircnt := 0, flags := folderflags &&& encryptedFlag
                name := name }
            (.ok (), (s.modify p fun f => (f.insert .mkdirs task).count 1).releaseFolderTasks p)
          else (.error .eio, s.releaseFolderTasks p)

/-- The checks of `psync_fstask_rmdir` on the folder to be removed: it has no pending files or
    folders, and all that the server has in it is pending to be removed. -/
def folderEmpty (env : Env) (cfolder : Option Folder) (cfolderid : ℤ) : Bool :=
  if cfolder.any fun c => c.creats ≠ .nil ∨ c.mkdirs ≠ .nil then false
  else if cfolderid ≥ 0 then
    ((env.fileNames cfolderid).all fun n => cfolder.any fun c => (c.find .unlinks n 0).isSome) &&
    ((env.folderNames cfolderid).all fun n => cfolder.any fun c => (c.find .rmdirs n 0).isSome)
  else true

/-- `psync_fstask_rmdir`, from where the folder to be removed is known; `mk` is the position of the
    pending `mkdir` which creates it. -/
def rmdirFolder (env : Env) (p : ℕ) (name : Name) (cfolderid : ℤ) (mk : Option ℕ) (s : State) :
    Except Errno Unit × State :=
  match s.getFolderTasks cfolderid with
  | (c, s) =>
    if folderEmpty env (c.map s.folder) cfolderid then
      let s := match mk with
        | some k => s.modify p fun f => f.del .mkdirs k
        | none => s
      let s := s.releaseOption c
      if env.commit then
        let task : Rmdir := { folderid := cfolderid, taskid := env.insertid 0, name := name }
        (.ok (), (s.modify p fun f => (f.insert .rmdirs task).count 1).releaseFolderTasks p)
      else (.error .eio, s.releaseFolderTasks p)
    else (.error .enotempty, (s.releaseOption c).releaseFolderTasks p)

/-- `psync_fstask_rmdir`. -/
def rmdir (env : Env) (folderid : ℤ) (parentflags : UInt32) (name : Name) (s : State) :
    Except Errno Unit × State :=
  match s.getOrCreateFolderTasks folderid with
  | (p, s) =>
    match (s.folder p).find .mkdirs name 0 with
    | none =>
      match env.folder folderid name with
      | none => (.error .enoent, s.releaseFolderTasks p)
      | some (cfolderid, flags) =>
        if ((s.folder p).find .rmdirs name 0).isSome then
          (.error .enoent, s.releaseFolderTasks p)
        else if flags &&& encryptedFlag ≠ 0 ∧ parentflags &&& encryptedFlag = 0 then
          (.error .eacces, s.releaseFolderTasks p)
        else rmdirFolder env p name cfolderid none s
    -- the pending `mkdir` is counted off here, and deleted when the checks have passed
    | some (k, task) => rmdirFolder env p name task.folderid (some k) (s.modify p Folder.uncount)

/-- `psync_fstask_delete_folder_if_ex`: the id of the task which deletes the target of a rename. -/
def deleteFolderIfEx (env : Env) (folderid : ℤ) (name : Name) (fromFid : ℤ) (s : State) :
    ℕ × State :=
  let query : ℕ :=
    if folderid < 0 then 0
    else match (env.folder folderid name).filter fun row => row.1 ≠ fromFid with
      | some row => if row.1 = 0 then 0 else env.insertid 0
      | none => 0
  match s.getFolderTasks folderid with
  | (none, s) => (query, s)
  | (some p, s) =>
    match (s.folder p).find .mkdirs name 0 with
    | some (_, task) =>
      (if task.folderid = 0 then query else env.insertid 0, s.releaseFolderTasks p)
    | none =>
      if ((s.folder p).find .rmdirs name 0).isSome then (0, s.releaseFolderTasks p)
      else (query, s.releaseFolderTasks p)

/-- `fill_mkdir_data`. -/
def fillMkdirData (env : Env) (folderid : ℤ) (mk : Mkdir) : Mkdir :=
  if folderid < 0 then
    match env.fstask (-folderid).toNat with
    | some row => { mk with ctime := row.int1, mtime := row.int1, subdircnt := 0 }
    | none => { mk with ctime := env.time, mtime := env.time, subdircnt := 0 }
  else
    match env.folderTimes folderid with
    | some (ctime, mtime, subdircnt) =>
      { mk with ctime := ctime, mtime := mtime, subdircnt := subdircnt }
    | none => { mk with ctime := env.time, mtime := env.time, subdircnt := 0 }

/-- `psync_fstask_rename_folder`. -/
def renameFolder (env : Env) (folderid parentfolderid : ℤ) (name : Name) (toFolderid : ℤ)
    (newName : Option Name) (targetflags : UInt32) (s : State) : Except Errno Unit × State :=
  let newName := newName.getD name
  match s.deleteFolderIfEx env toFolderid newName folderid with
  | (rmtask, s) =>
    let inserted := if rmtask = 0 then 0 else 1
    let ftaskid := env.insertid inserted
    let ttaskid := env.insertid (inserted + 1)
    match s.getOrCreateFolderTasks parentfolderid with
    | (p, s) =>
      if env.commit then
        let rm : Rmdir := { folderid := folderid, taskid := ftaskid, name := name }
        let s := s.modify p fun f => ((f.dropFound .mkdirs name 0).insert .rmdirs rm).count 1
        match (s.releaseFolderTasks p).getOrCreateFolderTasks toFolderid with
        | (p, s) =>
          let rm : Rmdir := { folderid := folderid, taskid := ttaskid, name := newName }
          let mk : Mkdir := fillMkdirData env folderid
            { folderid := folderid, taskid := ttaskid, ctime := 0, mtime := 0, subdircnt := 0
              flags := targetflags, name := newName }
          -- the mkdir renamed over is looked for under the old name
          (.ok (), (s.modify p fun f => (((f.dropFound .mkdirs name 0).insert .rmdirs rm).insert
            .mkdirs mk).count 2).releaseFolderTasks p)
      else (.error .eio, s.releaseFolderTasks p)

/-! ## Files -/

/-- `psync_fstask_add_creat`, for a folder object; `none` when the transaction fails. -/
def addCreat (env : Env) (p : ℕ) (name : Name) (fileid : ℤ) (s : State) : Option Creat × State :=
  if env.commit then
    let taskid := env.insertid 0
    let un : Unlink := { fileid := -taskid, taskid := taskid, name := name }
    let task : Creat :=
      { fileid := -taskid, rfileid := fileid, taskid := taskid, name := name, localCreat := none }
    (some task, s.modify p fun f => ((f.insert .unlinks un).insert .creats task).count 2)
  else (none, s)

/-- `psync_fstask_inject_creat`. -/
def injectCreat (p : ℕ) (cr : Creat) (s : State) : State :=
  s.modify p fun f => (f.insert .creats cr).count 1

/-- `psync_fstask_inject_unlink`: the names are compared at the offset they have in a
    `psync_fstask_creat_t`, so that the record is added at any position. -/
def injectUnlink (p : ℕ) (un : Unlink) (k : ℕ) (s : State) : State :=
  s.modify p fun f => (f.insertAt .unlinks k un).count 1

/-- `psync_fstask_add_modified_file`, for a folder object; `none` when the transaction fails, after
    the previous pending file is deleted. -/
def addModifiedFile (env : Env) (p : ℕ) (name : Name) (fileid : ℤ) (s : State) :
    Option Creat × State :=
  let s := s.modify p fun f => f.dropFound .creats name 0
  if env.commit then
    let taskid := env.insertid 0
    let un : Unlink := { fileid := fileid, taskid := taskid, name := name }
    let task : Creat :=
      { fileid := -taskid, rfileid := fileid, taskid := taskid, name := name, localCreat := none }
    (some task, s.modify p fun f => ((f.insert .unlinks un).insert .creats task).count 2)
  else (none, s)

/-- `psync_fstask_add_local_creat_static`; `false` when the file exists. -/
def addLocalCreatStatic (env : Env) (folderid : ℤ) (name : Name) (data : List UInt8) (s : State) :
    Bool × State :=
  match s.getOrCreateFolderTasks folderid with
  | (p, s) =>
    if ((s.folder p).find .creats name 0).isSome then (false, s.releaseFolderTasks p)
    else if folderid ≥ 0 ∧ ((s.folder p).find .unlinks name 0).isNone ∧
        (env.file folderid name).isSome then
      (false, s.releaseFolderTasks p)
    else
      let un : Unlink := { fileid := 0, taskid := s.localTaskid, name := name }
      let cr : Creat :=
        { fileid := 0, rfileid := 0, taskid := s.localTaskid, name := name
          localCreat := some { data := data, ctime := env.time } }
      let s := s.modify p fun f => ((f.insert .unlinks un).insert .creats cr).count 2
      (true, { s with localTaskid := (s.localTaskid + (2 ^ 64 - 1)) % 2 ^ 64 }.releaseFolderTasks p)

/-- `get_file_at_old_location`: the file now found where a file was renamed from. -/
def getFileAtOldLocation (env : Env) (fileid : ℤ) (s : State) : ℤ × State :=
  if fileid < 0 then (0, s)
  else match env.history fileid with
    | none => (0, s)
    | some (folderid, name) =>
      let query : ℤ := (env.file folderid name).getD 0
      match s.getFolderTasks folderid with
      | (none, s) => (query, s)
      | (some p, s) =>
        match (s.folder p).find .creats name 0 with
        | some (_, cr) => (cr.fileid, s.releaseFolderTasks p)
        | none =>
          if ((s.folder p).find .unlinks name 0).isSome then (0, s.releaseFolderTasks p)
          else (query, s.releaseFolderTasks p)

/-- `psync_fstask_unlink`, from where the id of the file is known. -/
def unlinkFile (env : Env) (p : ℕ) (name : Name) (fileid : ℤ) (s : State) :
    Except Errno Unit × State :=
  match s.getFileAtOldLocation env fileid with
  | (_, s) =>
    if env.commit then
      let task : Unlink := { fileid := fileid, taskid := env.insertid 0, name := name }
      (.ok (), (s.modify p fun f => (f.insert .unlinks task).count 1).releaseFolderTasks p)
    else (.error .eio, s.releaseFolderTasks p)

/-- `psync_fstask_unlink`. -/
def unlink (env : Env) (folderid : ℤ) (name : Name) (s : State) : Except Errno Unit × State :=
  match s.getOrCreateFolderTasks folderid with
  | (p, s) =>
    match (s.folder p).find .creats name 0 with
    | none =>
      match env.file folderid name with
      | none => (.error .enoent, s.releaseFolderTasks p)
      | some fileid =>
        if ((s.folder p).find .unlinks name 0).isSome then (.error .enoent, s.releaseFolderTasks p)
        else unlinkFile env p name fileid s
    | some (k, cr) =>
      -- a static file has no task
      if cr.fileid = 0 then
        (.ok (), (s.modify p fun f => (((f.dropFound .unlinks cr.name cr.taskid).del .creats
          k).uncount)).releaseFolderTasks p)
      else unlinkFile env p name cr.fileid (s.modify p fun f => (f.del .creats k).uncount)

/-- `psync_fs_rename_openfile_locked`: an open file holds a reference to its folder, `current`. -/
def renameOpenfile (current : Option ℕ) (folderid : ℤ) (s : State) : Option ℕ × State :=
  match current with
  | none => (none, s)
  | some q =>
    if (s.folder q).folderid ≠ folderid then
      match (s.releaseFolderTasks q).getOrCreateFolderTasks folderid with
      | (q, s) => (some q, s)
    else (some q, s)

/-- `psync_fstask_rename_file`, with the folder reference of the file when it is open, before and
    after. -/
def renameFile (env : Env) (current : Option ℕ) (fileid parentfolderid : ℤ) (name : Name)
    (toFolderid : ℤ) (newName : Option Name) (s : State) :
    Except Errno Unit × Option ℕ × State :=
  let newName := newName.getD name
  match s.getOrCreateFolderTasks parentfolderid with
  | (p, s) =>
    let rfileid : ℤ := match (s.folder p).find .creats name 0 with
      | some (_, cr) => cr.rfileid
      | none => 0
    let ftaskid := env.insertid 0
    let ttaskid := env.insertid 1
    if env.commit then
      let s := s.modify p fun f => f.dropFound .creats name 0
      match s.renameOpenfile current toFolderid with
      | (current, s) =>
        let rm : Unlink := { fileid := fileid, taskid := ftaskid, name := name }
        let s := s.modify p fun f => (f.insert .unlinks rm).count 1
        match (s.releaseFolderTasks p).getOrCreateFolderTasks toFolderid with
        | (p, s) =>
          let rm : Unlink := { fileid := fileid, taskid := ttaskid, name := newName }
          let cr : Creat :=
            { fileid := fileid, rfileid := rfileid, taskid := ttaskid, name := newName
              localCreat := none }
          (.ok (), current, (s.modify p fun f => (((f.dropFound .creats newName 0).insert .unlinks
            rm).insert .creats cr).count 2).releaseFolderTasks p)
    else (.error .eio, current, s.releaseFolderTasks p)

/-! ## Confirmed tasks -/

/-- `psync_fstask_folder_created`, from where the pending `mkdir` was deleted or not found. -/
def folderCreatedReinsert (taskid : ℕ) (folderid : ℤ) (s : State) : State :=
  match s.getFolderTasks (-taskid) with
  | (none, s) => s
  | (some p, s) => (s.setFolderid p folderid).releaseFolderTasks p

/-- The assignment of `psync_fstask_folder_created` to a `mkdir` which was renamed meanwhile. -/
def assignMkdir (taskid : ℕ) (folderid : ℤ) (f : Folder) : Folder :=
  match walkTree f.mkdirs fun mk => mk.folderid = -taskid with
  | some (k, _) => f.assign .mkdirs k fun mk => { mk with folderid := folderid }
  | none => f

/-- A folder object is there and has a record with a name and a task id. -/
def hasTask {τ : Type} [TaskRecord τ] (s : State) (K : TaskTree τ) (folderid : ℤ) (name : Name)
    (taskid : ℕ) : Bool :=
  (s.getFolderTasksRdlocked folderid).any fun f => (f.find K name taskid).isSome

/-- `psync_fstask_folder_created`. -/
def folderCreated (env : Env) (parentfolderid : ℤ) (taskid : ℕ) (folderid : ℤ) (name : Name)
    (s : State) : State :=
  let found := s.hasTask .mkdirs parentfolderid name taskid
  let s := s.editFolderTasks parentfolderid fun f => f.dropFound .mkdirs name taskid
  folderCreatedReinsert taskid folderid <|
    if found then s
    else match env.fstask taskid with
      | none => s
      | some row => s.editFolderTasks row.sfolderid (assignMkdir taskid folderid)

/-- `psync_fstask_folder_deleted`. -/
def folderDeleted (parentfolderid : ℤ) (taskid : ℕ) (name : Name) (s : State) : State :=
  s.editFolderTasks parentfolderid fun f => f.dropFound .rmdirs name taskid

/-- The assignment of `psync_fstask_look_for_creat_in_db` to a `creat` which was renamed
    meanwhile. -/
def assignCreat (taskid : ℕ) (fileid : ℤ) (f : Folder) : Folder :=
  match walkTree f.creats fun cr => cr.fileid = -taskid with
  | some (k, _) => f.assign .creats k fun cr => { cr with fileid := fileid }
  | none => f

/-- `psync_fstask_look_for_creat_in_db`. -/
def lookForCreatInDb (env : Env) (taskid : ℕ) (fileid : ℤ) (s : State) : State :=
  match env.fstask taskid with
  | none => s
  | some row => s.editFolderTasks row.sfolderid (assignCreat taskid fileid)

/-- `psync_fstask_file_created`. -/
def fileCreated (env : Env) (parentfolderid : ℤ) (taskid : ℕ) (name : Name) (fileid : ℤ)
    (s : State) : State :=
  let found := s.hasTask .creats parentfolderid name taskid
  let s := s.editFolderTasks parentfolderid fun f =>
    (f.dropFound .creats name taskid).dropFound .unlinks name taskid
  if found then s else lookForCreatInDb env taskid fileid s

/-- `psync_fstask_file_modified`. -/
def fileModified (env : Env) (parentfolderid : ℤ) (taskid : ℕ) (name : Name) (fileid : ℤ)
    (s : State) : State :=
  fileCreated env parentfolderid taskid name fileid s

/-- `psync_fstask_file_deleted`. -/
def fileDeleted (parentfolderid : ℤ) (taskid : ℕ) (name : Name) (s : State) : State :=
  s.editFolderTasks parentfolderid fun f => f.dropFound .unlinks name taskid

/-- `psync_fstask_file_renamed`. -/
def fileRenamed (env : Env) (folderid : ℤ) (taskid : ℕ) (name : Name) (frtaskid : ℕ) (s : State) :
    State :=
  let s := s.editFolderTasks folderid fun f =>
    (f.dropFound .unlinks name taskid).dropFound .creats name taskid
  match env.fstask frtaskid with
  | none => s
  | some row => s.editFolderTasks row.folderid fun f => f.dropFound .unlinks row.text1 frtaskid

/-- `psync_fstask_folder_renamed`. -/
def folderRenamed (env : Env) (parentfolderid : ℤ) (taskid : ℕ) (name : Name) (frtaskid : ℕ)
    (s : State) : State :=
  let s := s.editFolderTasks parentfolderid fun f =>
    (f.dropFound .mkdirs name taskid).dropFound .rmdirs name taskid
  match env.fstask frtaskid with
  | none => s
  | some row => s.editFolderTasks row.folderid fun f => f.dropFound .rmdirs row.text1 frtaskid

end State

end Pclsync
