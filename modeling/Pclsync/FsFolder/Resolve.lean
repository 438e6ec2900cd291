import Pclsync.FsTasks.Operations
import Pclsync.Restrictions

/-!
# Resolving paths

`pfsfolder.c`: a path of the drive is walked from the root, component by component. A component is
a pending `mkdir` of the folder reached, or a row of the table `folder` whose removal is not
pending; in an encrypted folder it is looked up by its encoded name.

* `resolvePath` (`psync_fsfolder_resolve_path`): the folder of the last component, which is not
  looked up, with the permissions and the share on the way.
* `folderidByPath` (`psync_fsfolderid_by_path`) and `folderidpermByPath`
  (`psync_fsfolderidperm_by_path`): the folder which is the path, with its flags.

The three functions have a loop of their own each; they share `findComponent`, and differ in what
they do with the component found. A path is a string without its final zero. The loops skip
slashes and look for the next one, so that they go through the parts between the slashes which are
not empty.
-/

namespace Pclsync.FsFolder

/-- The columns of a row of `folder` which are read, the last three as they are read into unsigned
    integers. -/
structure FolderRow where
  id : ℤ
  parentfolderid : ℤ
  name : Name
  permissions : UInt32
  flags : UInt32
  userid : ℕ

/-- The columns of a row of `sharedfolder` which are read. -/
structure SharedFolderRow where
  id : UInt32
  userid : ℕ
  folderid : ℤ

/-- What the resolvers read besides the pending changes. -/
structure Tables where
  folder : List FolderRow
  sharedfolder : List SharedFolderRow
  /-- `psync_my_userid`. -/
  myUserid : ℕ
  /-- `psync_fake_prefix`. -/
  fakePrefix : Name
  /-- `psync_cloud_crypto_encode_filename` with the encoder of a folder, or the error of
      `psync_cloud_crypto_get_folder_encoder`. -/
  encodeFilename : ℤ → Name → Except ℤ Name

/-- `PSYNC_PERM_ALL`. -/
def permAll : UInt32 := 15

/-- `psync_fspath_t`. -/
structure FsPath where
  folderid : ℤ
  name : Name
  shareid : UInt32
  permissions : UInt16
  flags : UInt16

/-- A folder on the way, with its flags. -/
structure Place where
  cfolderid : ℤ
  flags : UInt32

/-- What a component of the path is found to be. -/
inductive Crossed
  /-- A pending folder. -/
  | pending (task : Mkdir)
  /-- A row of the database, and whether the folder it is in has pending changes. -/
  | row (r : FolderRow) (tasks : Bool)

/-- The folder reached. -/
def Crossed.place : Crossed → Place
  | .pending task => ⟨task.folderid, task.flags⟩
  | .row r _ => ⟨r.id, r.flags⟩

/-! ## Components -/

/-- The parts of a path between its slashes. -/
def parts (path : List UInt8) : List Name := path.splitOn 47

/-- The components of a path: `while (*path=='/') path++`. -/
def components (path : List UInt8) : List Name := (parts path).filter (· ≠ [])

/-- The components which have a slash after them: `sl=strchr(path, '/')`. -/
def folderNames (path : List UInt8) : List Name := (parts path).dropLast.filter (· ≠ [])

/-- What follows the last slash. -/
def lastName (path : List UInt8) : Name := (parts path).getLastD []

namespace Tables

variable (db : Tables) (s : State)

/-- The name under which a component is looked up: `get_encname_for_folder` in an encrypted
    folder. -/
def ename (w : Place) (name : Name) : Except ℤ Name :=
  if w.flags &&& encryptedFlag ≠ 0 then db.encodeFilename w.cfolderid name else .ok name

/-- `SELECT … FROM folder WHERE parentfolderid=? AND name=?`. -/
def folderRow (folderid : ℤ) (name : Name) : Option FolderRow :=
  db.folder.find? fun r => r.parentfolderid = folderid ∧ r.name = name

/-- Look for a component in the folder reached. An error is what `psync_fsfolder_crypto_error`
    returns afterwards: `0` when there is no such component. -/
def findComponent (w : Place) (name : Name) : Except ℤ Crossed := do
  let ename ← db.ename w name
  match s.getFolderTasksRdlocked w.cfolderid with
  | some folder =>
    match folder.find .mkdirs ename 0 with
    | some (_, task) => .ok (.pending task)
    | none =>
      match db.folderRow w.cfolderid ename with
      | some r => if (folder.find .rmdirs ename 0).isNone then .ok (.row r true) else .error 0
      | none => .error 0
  | none =>
    match db.folderRow w.cfolderid ename with
    | some r => .ok (.row r false)
    | none => .error 0

/-- `check_userid` and `do_check_userid`. -/
def checkUserid (userid : ℕ) (folderid : ℤ) (shareid : UInt32) : UInt32 :=
  if userid = db.myUserid ∨ shareid ≠ 0 then shareid
  else match db.sharedfolder.find? fun r => r.userid = userid ∧ r.folderid = folderid with
    | some r => r.id
    | none => shareid

/-! ## `psync_fsfolder_resolve_path` -/

/-- The variables of `psync_fsfolder_resolve_path`. -/
structure Walk extends Place where
  permissions : UInt32
  shareid : UInt32

/-- One component of `psync_fsfolder_resolve_path`. -/
def resolveStep (w : Walk) (name : Name) : Except ℤ Walk := do
  match ← db.findComponent s w.toPlace name with
  | .pending task =>
    if task.flags &&& invisibleFlag ≠ 0 then .error 0
    else .ok { w with cfolderid := task.folderid, flags := task.flags }
  | .row r true =>
    .ok
      { cfolderid := r.id
        flags := r.flags
        permissions := w.permissions &&& r.permissions
        shareid := db.checkUserid r.userid r.id w.shareid }
  -- without pending changes in the folder, the permissions are assigned
  | .row r false =>
    .ok
      { cfolderid := r.id
        flags := r.flags
        permissions := r.permissions
        shareid := db.checkUserid r.userid r.id w.shareid }

/-- The name `ret_folder_data` returns: encoded in an encrypted folder, unless it is one of the
    names made up to have a folder read again. -/
def storedName (w : Place) (name : Name) : Except ℤ Name :=
  if w.flags &&& encryptedFlag ≠ 0 ∧ ¬ db.fakePrefix.isPrefixOf name then
    db.encodeFilename w.cfolderid name
  else .ok name

/-- The `psync_fspath_t` for a name in the folder reached. -/
def Walk.fspath (w : Walk) (name : Name) : FsPath where
  folderid := w.cfolderid
  name := name
  shareid := w.shareid
  permissions := w.permissions.toUInt16
  flags := w.flags.toUInt16

/-- `ret_folder_data`. -/
def retFolderData (w : Walk) (name : Name) : Except ℤ FsPath := do
  let name ← db.storedName w.toPlace name
  .ok (w.fspath name)

/-- The variables at the root. -/
def Walk.root : Walk := { cfolderid := 0, flags := 0, permissions := permAll, shareid := 0 }

/-- `psync_fsfolder_resolve_path`. -/
def resolvePath (path : List UInt8) : Except ℤ FsPath :=
  if path.head? ≠ some 47 then .error 0
  else do
    let w ← (folderNames path).foldlM (db.resolveStep s) .root
    if lastName path = [] then .error 0 else db.retFolderData w (lastName path)

/-! ## `psync_fsfolderid_by_path` -/

/-- One component of `psync_fsfolderid_by_path`. -/
def byPathStep (w : Place) (name : Name) : Except ℤ Place := do
  match ← db.findComponent s w name with
  | .pending task => .ok ⟨task.folderid, task.flags⟩
  | .row r _ => .ok ⟨r.id, r.flags⟩

/-- `psync_fsfolderid_by_path`: the folder and `*pflags`. -/
def folderidByPath (path : List UInt8) : Except ℤ Place :=
  if path.head? ≠ some 47 then .error 0
  else (components path).foldlM (db.byPathStep s) ⟨0, 0⟩

/-! ## `psync_fsfolderidperm_by_path` -/

/-- One component of `psync_fsfolderidperm_by_path`. -/
def permByPathStep (w : Place × UInt32) (name : Name) : Except ℤ (Place × UInt32) := do
  match ← db.findComponent s w.1 name with
  | .pending task => .ok (⟨task.folderid, task.flags⟩, w.2)
  | .row r _ => .ok (⟨r.id, r.flags⟩, r.permissions)

/-- `psync_fsfolderidperm_by_path`: the folder and `*pflags`, and `*pPermissions`. -/
def folderidpermByPath (path : List UInt8) : Except ℤ (Place × UInt32) :=
  if path.head? ≠ some 47 then .error 0
  else (components path).foldlM (db.permByPathStep s) (⟨0, 0⟩, 0)

end Tables

end Pclsync.FsFolder
