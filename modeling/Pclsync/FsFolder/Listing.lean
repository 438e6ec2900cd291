import Pclsync.FsFolder.Resolve

/-!
# Listing folders

What the file system shows of a folder (`pfs.c`): `psync_fs_readdir` goes through the rows of the
database and the pending changes of the folder and lists what is left of them, and
`psync_fs_getattr` looks for one child.

Both fill a `struct stat` from the record of the child. `Stat` is that record.
-/

namespace Pclsync.FsFolder

/-- The columns of a row of `file` which are read, but for those that only go into the `stat`. -/
structure FileRow where
  id : ℤ
  parentfolderid : ℤ
  name : Name

/-- What a `stat` is filled from. -/
inductive Stat
  | root
  /-- `psync_row_to_folder_stat`. -/
  | folderRow (r : FolderRow)
  /-- `psync_mkdir_to_folder_stat`. -/
  | mkdir (task : Mkdir)
  /-- `psync_row_to_file_stat`. -/
  | fileRow (r : FileRow)
  /-- `psync_creat_to_file_stat`. -/
  | creat (cr : Creat)

/-- `S_IFDIR`. -/
def Stat.isDir : Stat → Bool
  | .root | .folderRow _ | .mkdir _ => true
  | .fileRow _ | .creat _ => false

/-- What the file system reads besides the pending changes. -/
structure Drive extends Tables where
  file : List FileRow
  waitingforlogin : Bool
  /-- `psync_fake_fileid`. -/
  fakeFileid : ℤ
  /-- The data file of a file created here can be `stat`ed. -/
  localStat : ℤ → Bool
  /-- The error of `psync_cloud_crypto_get_folder_decoder`. -/
  decoderError : ℤ → Option ℤ
  /-- `psync_cloud_crypto_decode_filename` with the decoder of a folder. -/
  decodeFilename : ℤ → Name → Option Name

/-- `FS_MAX_ACCEPTABLE_FILENAME_LEN`. -/
def maxAcceptableFilenameLen : ℕ := 255

/-- `psync_fsfolder_crypto_error` after a failed path, as an error of the file system. -/
def pathError (e : ℤ) : Errno := if e = 0 then .enoent else .crypto e

namespace Drive

variable (d : Drive) (s : State)

/-- `SELECT … FROM file WHERE parentfolderid=? AND name=?`. -/
def fileRow (folderid : ℤ) (name : Name) : Option FileRow :=
  d.file.find? fun r => r.parentfolderid = folderid ∧ r.name = name

/-- `psync_creat_to_file_stat`. -/
def creatToFileStat (cr : Creat) : Option Stat :=
  if cr.fileid > 0 then
    if d.file.any fun r => r.id = cr.fileid then some (.creat cr) else none
  else if cr.fileid < 0 then
    if cr.fileid < d.fakeFileid ∨ d.localStat cr.fileid then some (.creat cr) else none
  else some (.creat cr)

/-- A pending change of a name. -/
def has {τ : Type} [TaskRecord τ] (folder : Option Folder) (K : TaskTree τ) (name : Name) : Bool :=
  folder.any fun f => (f.find K name 0).isSome

/-! ## `psync_fs_getattr` -/

/-- `psync_fs_getattr`, from where the path is resolved. -/
def getattrAt (folderid : ℤ) (name : Name) : Except Errno Stat :=
  let folder := s.getFolderTasksRdlocked folderid
  match folder.bind fun f => f.find .mkdirs name 0 with
  | some (_, task) =>
    if task.flags &&& invisibleFlag ≠ 0 then .error .enoent else .ok (.mkdir task)
  | none =>
    match if has folder .rmdirs name then none else d.folderRow folderid name with
    | some r => .ok (.folderRow r)
    | none =>
      match if has folder .unlinks name then none else d.fileRow folderid name with
      | some r => .ok (.fileRow r)
      | none =>
        match folder.bind fun f => f.find .creats name 0 with
        | some (_, cr) =>
          match d.creatToFileStat cr with
          | some st => .ok st
          | none => .error .enoent
        | none => .error .enoent

/-- `psync_fs_getattr`. -/
def getattr (path : List UInt8) : Except Errno Stat :=
  if path = [47] then .ok .root
  else if d.waitingforlogin then .error .eacces
  else match d.resolvePath s path with
    | .error e => .error (pathError e)
    | .ok fpath => d.getattrAt s fpath.folderid fpath.name

/-! ## `psync_fs_readdir` -/

/-- The rows of `folder` which are listed. -/
def listFolderRows (folder : Option Folder) (folderid : ℤ) : List FolderRow :=
  d.folder.filter fun r => r.parentfolderid = folderid ∧
    r.name.length ≤ maxAcceptableFilenameLen ∧ r.name ≠ [] ∧
    ¬ (has folder .rmdirs r.name ∨ has folder .mkdirs r.name)

/-- The rows of `file` which are listed. -/
def listFileRows (folder : Option Folder) (folderid : ℤ) : List FileRow :=
  d.file.filter fun r => r.parentfolderid = folderid ∧
    r.name.length ≤ maxAcceptableFilenameLen ∧ r.name ≠ [] ∧ ¬ has folder .unlinks r.name

/-- The pending folders which are listed. -/
def listMkdirs (f : Folder) : List Mkdir :=
  f.mkdirs.toList.filter fun mk =>
    mk.name.length ≤ maxAcceptableFilenameLen ∧ mk.flags &&& invisibleFlag = 0

/-- The pending files which are listed. -/
def listCreats (f : Folder) : List Creat :=
  f.creats.toList.filter fun cr =>
    cr.name.length ≤ maxAcceptableFilenameLen ∧ (d.creatToFileStat cr).isSome

/-- The children of a folder as they are stored. -/
def children (folderid : ℤ) : List (Name × Stat) :=
  let folder := s.getFolderTasksRdlocked folderid
  (if folderid ≥ 0 then
    (d.listFolderRows folder folderid).map (fun r => (r.name, .folderRow r)) ++
      (d.listFileRows folder folderid).map fun r => (r.name, .fileRow r)
  else []) ++
  match folder with
  | some f => (listMkdirs f).map (fun mk => (mk.name, .mkdir mk)) ++
      (d.listCreats f).map fun cr => (cr.name, .creat cr)
  | none => []

/-- The name under which a stored child is listed: `filler_decoded`. -/
def shown (w : Place) (name : Name) : Option Name :=
  if w.flags &&& encryptedFlag ≠ 0 then d.decodeFilename w.cfolderid name else some name

/-- `filler(buf, ".", NULL, 0)` and `filler(buf, "..", NULL, 0)`. -/
def dots (folderid : ℤ) : List (Name × Option Stat) :=
  if folderid ≠ 0 then [([46], none), ([46, 46], none)] else [([46], none)]

/-- `psync_fs_readdir`: what is given to `filler`. -/
def readdir (path : List UInt8) : Except Errno (List (Name × Option Stat)) :=
  if d.waitingforlogin then .error .eacces
  else match d.folderidByPath s path with
    | .error e => .error (pathError e)
    | .ok w =>
      match if w.flags &&& encryptedFlag ≠ 0 then d.decoderError w.cfolderid else none with
      | some code => .error (.crypto code)
      | none => .ok (dots w.cfolderid ++ (d.children s w.cfolderid).filterMap fun c =>
          (d.shown w c.1).map fun n => (n, some c.2))

end Drive

end Pclsync.FsFolder
