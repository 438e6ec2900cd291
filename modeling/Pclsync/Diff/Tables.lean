import Pclsync.Sql.Connection

/-!
# What the diff reads and writes

The entries of a diff are hashes (`BinResult`), of which `psync_find_result` and
`psync_check_result` give the fields. The handlers of the entries run statements (`Stmt`) and ask
queries (`Query`); both are named by what they say, with the values which are bound to them.

Besides the database there is a memory (`Memory`), and the variables which the handlers only read
(`Env`).
-/

namespace Pclsync.Diff

/-! ## Entries -/

/-- A parsed value. -/
inductive BinResult
  | str (s : String)
  | num (n : ℕ)
  | bool (b : Bool)
  | hash (pairs : List (String × BinResult))

namespace BinResult

/-- The first value of a key. -/
def value (r : BinResult) (name : String) : Option BinResult :=
  match r with
  | hash pairs => (pairs.find? fun p => p.1 = name).map Prod.snd
  | _ => none

/-- `psync_check_result` with `PARAM_STR`. -/
def checkStr (r : BinResult) (name : String) : Option String :=
  match r.value name with
  | some (str s) => some s
  | _ => none

/-- `psync_check_result` with `PARAM_NUM`. -/
def checkNum (r : BinResult) (name : String) : Option ℕ :=
  match r.value name with
  | some (num n) => some n
  | _ => none

/-- `psync_check_result` with `PARAM_BOOL`. -/
def checkBool (r : BinResult) (name : String) : Option Bool :=
  match r.value name with
  | some (bool b) => some b
  | _ => none

/-- `psync_check_result` with `PARAM_HASH`. -/
def checkHash (r : BinResult) (name : String) : Option BinResult :=
  match r.value name with
  | some (hash pairs) => some (hash pairs)
  | _ => none

/-- `psync_find_result`: a field which is not there is empty. -/
def findStr (r : BinResult) (name : String) : String := (r.checkStr name).getD ""

@[inherit_doc findStr]
def findNum (r : BinResult) (name : String) : ℕ := (r.checkNum name).getD 0

@[inherit_doc findStr]
def findBool (r : BinResult) (name : String) : Bool := (r.checkBool name).getD false

@[inherit_doc findStr]
def findHash (r : BinResult) (name : String) : BinResult := (r.checkHash name).getD (hash [])

end BinResult

/-- A value bound to a statement. -/
inductive Column
  | null
  | int (n : ℕ)
  | text (s : String)
  /-- A number written as text, which is read by `atof`. -/
  | real (s : String)

/-! ## Rows -/

/-- The columns of `folder` which are set together; `subdircnt` is not one of them. -/
structure Folder where
  id : ℕ
  parentfolderid : ℕ
  userid : ℕ
  permissions : ℕ
  name : String
  ctime : ℕ
  mtime : ℕ
  flags : ℕ

/-- A row of `file`; the columns from `ctime` to `rotate` are those of `bind_meta`. -/
structure File where
  id : ℕ
  parentfolderid : ℕ
  userid : ℕ
  size : ℕ
  hash : ℕ
  name : String
  columns : List Column

/-- A row of `syncedfolder`. -/
structure Synced where
  syncid : ℕ
  folderid : ℕ
  localfolderid : ℕ
  synctype : ℕ

/-- The types of tasks. -/
inductive TaskType
  | createLocalFolder
  | deleteLocalFolder
  | delrecLocalFolder
  | renameLocalFolder
  | downloadFile
  | renameLocalFile
  | deleteLocalFile
  deriving DecidableEq

/-- A row of `task`, without its id. -/
structure Task where
  type : TaskType
  syncid : Option ℕ := none
  newsyncid : Option ℕ := none
  itemid : ℕ
  localitemid : ℕ
  newitemid : Option ℕ := none
  name : Option String := none

/-- The tables which have rows only for shares. -/
inductive ShareTable
  | sharerequest
  | sharedfolder
  | bsharedfolder

/-! ## Statements and queries -/

/-- The statements. -/
inductive Stmt
  /-- `INSERT OR IGNORE INTO folder`, with `subdircnt` 0. -/
  | insertFolder (row : Folder)
  /-- `UPDATE folder SET parentfolderid=?, ..., flags=? WHERE id=?`. -/
  | updateFolder (row : Folder)
  /-- `UPDATE folder SET subdircnt=subdircnt+1, mtime=? WHERE id=?`. -/
  | incSubdircnt (mtime id : ℕ)
  /-- `UPDATE folder SET subdircnt=subdircnt-1, mtime=? WHERE id=?`. -/
  | decSubdircnt (mtime id : ℕ)
  /-- `DELETE FROM folder WHERE id=?`. -/
  | deleteFolder (id : ℕ)
  /-- `INSERT OR IGNORE INTO file`. -/
  | insertFile (row : File)
  /-- `UPDATE file SET id=?, ..., rotate=? WHERE id=?`. -/
  | updateFile (row : File)
  /-- `DELETE FROM file WHERE id=?`. -/
  | deleteFile (id : ℕ)
  /-- `REPLACE INTO filerevision (fileid, hash, ctime, size)`. -/
  | replaceRevision (fileid hash ctime size : ℕ)
  /-- `DELETE FROM cryptofilekey WHERE fileid=? AND hash!=?`. -/
  | deleteOldFileKeys (fileid hash : ℕ)
  /-- `DELETE FROM cryptofolderkey`. -/
  | deleteFolderKeys
  /-- `DELETE FROM cryptofilekey`. -/
  | deleteFileKeys
  /-- `INSERT OR IGNORE INTO syncedfolder`. -/
  | insertSynced (row : Synced)
  /-- `REPLACE INTO syncedfolder`. -/
  | replaceSynced (row : Synced)
  /-- `UPDATE syncedfolder SET folderid=? WHERE syncid=? AND localfolderid=?`. -/
  | updateSyncedFolder (folderid syncid localfolderid : ℕ)
  /-- `UPDATE syncedfolder SET syncid=?, synctype=? WHERE syncid=? AND folderid=?`. -/
  | updateSyncedSync (syncid synctype oldsyncid folderid : ℕ)
  /-- `DELETE FROM syncedfolder WHERE syncid=? AND folderid=?`. -/
  | deleteSynced (syncid folderid : ℕ)
  /-- `INSERT OR IGNORE INTO localfolder (localparentfolderid, folderid, syncid, flags, taskcnt,
      name) VALUES (?, ?, ?, 0, 1, ?)`. -/
  | insertLocalfolder (localparentfolderid folderid syncid : ℕ) (name : String)
  /-- `UPDATE localfolder SET folderid=? WHERE id=?`. -/
  | updateLocalfolder (folderid id : ℕ)
  /-- `UPDATE localfolder SET taskcnt=taskcnt+1 WHERE id=?`. -/
  | incTaskcnt (id : ℕ)
  /-- `INSERT INTO task`. -/
  | insertTask (row : Task)
  /-- `DELETE FROM task WHERE type=? AND itemid=? AND syncid=?`, without `syncid=?` for `none`. -/
  | deleteTasks (type : TaskType) (itemid : ℕ) (syncid : Option ℕ)
  /-- `REPLACE INTO setting (id, value) VALUES (?, ?)`. -/
  | replaceSetting (id : String) (value : Column)
  /-- `DELETE FROM setting WHERE id IN (...)`. -/
  | deleteSettings (ids : List String)
  /-- `DELETE FROM fsxattr WHERE objectid=?`. -/
  | deleteXattrs (objectid : ℕ)
  /-- `REPLACE INTO` a table of shares. -/
  | replaceShare (table : ShareTable) (row : List (String × Column))
  /-- `DELETE FROM` a table of shares `WHERE id=?`. -/
  | deleteShare (table : ShareTable) (id : ℕ)
  /-- `UPDATE` a table of shares `SET permissions=? WHERE id=?`. -/
  | updatePermissions (table : ShareTable) (permissions id : ℕ)

/-- The queries, with the types of their results. -/
inductive Query : Type → Type
  /-- `SELECT parentfolderid, name, flags FROM folder WHERE id=?`, and `SELECT userid`. -/
  | folder (id : ℕ) : Query (Option Folder)
  /-- `SELECT id, permissions, name FROM folder WHERE parentfolderid=?`. -/
  | subfolders (parentfolderid : ℕ) : Query (List Folder)
  /-- `SELECT parentfolderid, userid, size, hash, name FROM file WHERE id=?`. -/
  | file (id : ℕ) : Query (Option File)
  /-- `SELECT id, name FROM file WHERE parentfolderid=?`. -/
  | files (parentfolderid : ℕ) : Query (List File)
  /-- `SELECT syncid, localfolderid, synctype FROM syncedfolder WHERE folderid=? AND
      synctype&1=1`. -/
  | downloads (folderid : ℕ) : Query (List Synced)
  /-- `SELECT syncid, localfolderid FROM syncedfolder WHERE folderid=?`. -/
  | synced (folderid : ℕ) : Query (List Synced)
  /-- `SELECT localfolderid FROM syncedfolder WHERE folderid=? AND syncid=?`. -/
  | syncedLocal (folderid syncid : ℕ) : Query (Option ℕ)
  /-- `SELECT id FROM syncfolder WHERE folderid=?`. -/
  | syncfolder (folderid : ℕ) : Query (Option ℕ)
  /-- `SELECT id FROM syncfolder WHERE folderid=? AND synctype&1=1`. -/
  | downloadSync (folderid : ℕ) : Query (Option ℕ)
  /-- `SELECT id FROM localfolder WHERE syncid=? AND folderid=?`. -/
  | localfolder (syncid folderid : ℕ) : Query (Option ℕ)
  /-- `SELECT id, folderid FROM localfolder WHERE localparentfolderid=? AND syncid=? AND name=?`. -/
  | localfolderNamed (localparentfolderid syncid : ℕ) (name : String) : Query (Option (ℕ × ℕ))
  /-- `SELECT 1 FROM localfile WHERE localparentfolderid=? AND fileid=? AND hash=? AND
      syncid=?`. -/
  | hasLocalfile (localparentfolderid fileid hash syncid : ℕ) : Query Bool
  /-- `SELECT value FROM setting WHERE id=?`, as a number. -/
  | setting (id : String) : Query (Option ℕ)

/-! ## Variables -/

/-- The variables which the handlers write. -/
structure Memory where
  /-- `synced_down_folders`. -/
  downloadlist : List ℕ
  used_quota : UInt64
  current_quota : ℕ
  free_quota : ℕ
  needdownload : Bool
  /-- The setting `owneruserid`. -/
  owneruserid : ℕ
  /-- The events which have `used` in `event_list`. -/
  used : List String
  /-- The syncs for which a thread was started which deletes them. -/
  deletedSyncs : List ℕ

/-- What the handlers only read. -/
structure Env where
  psync_my_userid : ℕ
  psync_is_business : Bool
  time : ℕ
  /-- `psync_is_name_to_ignore`. -/
  ignored : String → Bool
  /-- `psync_invalid_filename_chars`. -/
  invalid : Char → Bool
  /-- How deep recursions go before the stack ends. -/
  stack : ℕ

/-- A handler, or a part of one, without transactions. -/
abbrev Handler (α : Type) : Type 1 := Sql.Program Stmt Query Memory α

end Pclsync.Diff
