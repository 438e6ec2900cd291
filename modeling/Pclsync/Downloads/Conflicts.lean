import Pclsync.Transition
import Mathlib.Data.List.Basic

/-!
# Downloads and the files in their way

What the tasks of `pdownload.c` which download or rename a file do to the local files, step by step:
`task_run_download_file`, `task_download_file` and the ends of asynchronous downloads, down to
`rename_and_create_local` and `stat_and_create_local`, and `task_rename_file`. Between the steps
other programs change files in any way.

The content of a file is of any type, with a `Digest`, which is its size and checksum. Some digests
are known to be of revisions of the remote file (`revisions`): they are in the database, or the
server says so. A file without content has nothing to lose; `is_revision_local` takes it for a
revision, as the server does not list such revisions.

Every content that a step replaces or deletes is recorded in `lost`, unless it is known. The partial
file is the task's own.
-/

namespace Pclsync.Downloads

/-! ## Names -/

/-- The index of the last dot among the first ones. -/
def dotidxFrom (path : List Char) : ℕ → ℕ
  | 0 => path.length
  | i + 1 => if path[i + 1]? = some '.' then i + 1 else dotidxFrom path i

/-- The conflict names which `psync_rename_conflicted_file` tries. -/
def conflictName (path : String) (num : ℕ) : String :=
  let dotidx := dotidxFrom path.toList path.length
  let conflicted := if num = 0 then " (conflicted)" else " (conflicted " ++ toString num ++ ")"
  String.ofList (path.toList.take dotidx) ++ conflicted ++ String.ofList (path.toList.drop dotidx)

/-- `PSYNC_APPEND_PARTIAL_FILES`. -/
def partialSuffix : String := ".part"

/-! ## Files -/

/-- The size and the checksum of a content. -/
structure Digest (κ : Type) where
  size : ℕ
  checksum : κ
  deriving DecidableEq

/-- A row of `localfile`, as `task_rename_file` reads it. -/
structure LocalFile where
  id : ℕ
  localparentfolderid : ℕ
  syncid : ℕ
  name : String

/-- A task which renames a local file. -/
structure RenameTask where
  oldsyncid : ℕ
  newsyncid : ℕ
  newlocalfolderid : ℕ
  newname : String

/-- What `task_rename_file` finds in the database. -/
inductive RenamePlan
  | renamed
  | download
  | rename (lfileid : ℕ)

/-- The rows of the file, in turn. -/
def RenameTask.plan (t : RenameTask) : List LocalFile → RenamePlan
  | [] => .download
  | row :: rows =>
    if row.localparentfolderid = t.newlocalfolderid ∧ row.syncid = t.newsyncid ∧
        row.name = t.newname then .renamed
    else if row.syncid = t.oldsyncid then .rename row.id
    else t.plan rows

/-! ## Steps -/

/-- Where a task is: at the call it makes next. -/
inductive Pc (κ : Type)
  | idle
  /-- `psync_get_local_file_checksum` of the partial file, with the checksum that is wanted. -/
  | readPartial (target : Option (Digest κ))
  /-- `psync_get_local_file_checksum` of the file. -/
  | readLocal (target : Option (Digest κ))
  /-- The download. -/
  | transfer (localdigest : Option (Digest κ))
  /-- `rename_if_notex`: `psync_get_local_file_checksum` of the file. -/
  | check
  /-- `is_revision_local`. -/
  | revision (g : Digest κ)
  /-- `download_file_revisions`. -/
  | query (g : Digest κ)
  /-- `psync_rename_conflicted_file`: `psync_stat` of a conflict name. -/
  | stat (num : ℕ)
  /-- `psync_file_rename` to the conflict name. -/
  | move (num : ℕ)
  /-- `psync_file_rename_overwrite` of the partial file. -/
  | overwrite
  /-- `stat_and_create_local`. -/
  | create
  /-- `psync_file_delete`, as the file is no longer to be downloaded. -/
  | delete
  /-- `task_rename_file`: `psync_file_rename_overwrite`. -/
  | rename
  /-- The task is done, or is to be done again. -/
  | done (retry : Bool)

/-- What `listrevisions` gives. -/
inductive Revisions (κ : Type)
  | ok (revisions : List (Digest κ))
  | tempfail
  | permfail

/-- How a transfer ends. -/
inductive Transfer (C κ : Type)
  /-- The task is done, or is to be done again. -/
  | ended (retry : Bool)
  /-- The server has the file with this digest, which is that of the local file. -/
  | same (g : Digest κ)
  /-- The partial file has this content, whose checksum is that of the server. -/
  | got (content : C)

/-- What the environment answers to a call. -/
structure Outcome (C κ : Type) where
  /-- The call succeeds. -/
  ok : Bool := true
  transfer : Transfer C κ := .ended true
  revisions : Revisions κ := .tempfail
  /-- The file is in a folder of the download list. -/
  listed : Bool := true
  committed : Bool := true

/-- The local files and a task. -/
structure State (C κ : Type) where
  disk : String → Option C
  /-- What is known to be of revisions of the remote file. -/
  revisions : List (Digest κ)
  pc : Pc κ
  /-- The file that is renamed: the partial file of a download. -/
  old : String
  /-- The name it gets. -/
  new : String
  /-- The size and checksum on the server. -/
  server : Option (Digest κ)
  /-- The partial file, as it was verified. -/
  verified : Option C
  /-- The file at the new name, as it was checked last, or as it was put there. -/
  checked : Option C
  /-- The content that was found at the new name. -/
  found : Option C
  /-- What was moved to conflict names. -/
  moved : List (String × C)
  /-- What was replaced or deleted without being known. -/
  lost : List C

/-- What happens. -/
inductive Action (C κ : Type)
  /-- Another program changes a file. -/
  | change (path : String) (content : Option C)
  /-- A download task, with what the database has for the hash of the remote file. -/
  | download (localpath filename : String) (target : Option (Digest κ))
  /-- A rename task, with the rows of the file and the paths in the database. -/
  | rename (t : RenameTask) (rows : List LocalFile) (newfolder oldpath : Option String)
  /-- The task goes on. -/
  | go (o : Outcome C κ)

namespace State

variable {C κ : Type} [DecidableEq κ] (digest : C → Digest κ) (S : State C κ)

/-- The content is known: it is that of a revision, or there is none. -/
def Known (c : C) : Prop := (digest c).size = 0 ∨ digest c ∈ S.revisions

instance (c : C) : Decidable (S.Known digest c) :=
  inferInstanceAs (Decidable ((digest c).size = 0 ∨ digest c ∈ S.revisions))

/-- A file gets a content, or is deleted. -/
def set (path : String) (content : Option C) : State C κ :=
  { S with disk := fun p => if p = path then content else S.disk p }

/-- The file at a path is replaced or deleted. -/
def destroy (path : String) : State C κ :=
  match S.disk path with
  | some c => if S.Known digest c then S else { S with lost := c :: S.lost }
  | none => S

/-- A file is renamed, over what is there. -/
def replace (src dst : String) (content : C) : State C κ :=
  ((S.destroy digest dst).set dst (some content)).set src none

/-- The task ends. -/
def finish (retry : Bool) : State C κ := { S with pc := .done retry }

/-- A download task begins. -/
def startDownload (localpath filename : String) (target : Option (Digest κ)) : State C κ :=
  { S with
    pc := .readPartial target
    new := localpath ++ "/" ++ filename
    old := localpath ++ "/" ++ filename ++ partialSuffix
    revisions := target.toList ++ S.revisions
    server := target
    verified := none
    checked := none
    found := none }

/-- A rename task begins. -/
def startRename (t : RenameTask) (rows : List LocalFile) (newfolder oldpath : Option String) :
    State C κ :=
  match t.plan rows, newfolder, oldpath with
  | .rename _, some newfolder, some oldpath =>
    { S with pc := .rename, old := oldpath, new := newfolder ++ "/" ++ t.newname, found := none }
  | _, _, _ => { S with pc := .done false, found := none }

/-- The transfer ends. -/
def transferred (localdigest : Option (Digest κ)) : Transfer C κ → Option (State C κ)
  | .ended retry => some (S.finish retry)
  | .same g =>
    if localdigest = some g then
      some { S with revisions := g :: S.revisions, server := g, pc := .create }
    else none
  | .got c =>
    some { S.set S.old (some c) with
      revisions := digest c :: S.revisions, server := digest c, verified := c, pc := .check }

/-- The revisions of the file are there, or not. -/
def queried (g : Digest κ) : Revisions κ → State C κ
  | .tempfail => S.finish true
  | .permfail => { S with pc := .overwrite }
  | .ok revisions =>
    { S with
      revisions := revisions ++ S.revisions
      pc := if g ∈ revisions ++ S.revisions then .overwrite else .stat 0 }

/-- The task goes on. -/
def go (o : Outcome C κ) : Option (State C κ) :=
  match S.pc with
  | .idle | .done _ => none
  | .readPartial target =>
    some (if o.ok ∧ target.isSome ∧ (S.disk S.old).map digest = target then
      { S with verified := S.disk S.old, pc := .check }
    else { S with pc := .readLocal target })
  | .readLocal target =>
    let checked := if o.ok then S.disk S.new else none
    some { S with
      checked := checked
      pc := if target.isSome ∧ checked.map digest = target then .create
        else .transfer (checked.map digest) }
  | .transfer localdigest => S.transferred digest localdigest o.transfer
  | .check =>
    match S.disk S.new with
    | some c =>
      some (if o.ok then { S with checked := c, found := c, pc := .revision (digest c) }
        else { S with checked := c, found := none, pc := .overwrite })
    | none => some { S with checked := none, found := none, pc := .overwrite }
  | .revision g =>
    some { S with pc := if g.size = 0 ∨ g ∈ S.revisions then .overwrite else .query g }
  | .query g => some (S.queried g o.revisions)
  | .stat num =>
    some { S with
      pc := if (S.disk (conflictName S.new num)).isSome ∧ o.ok then .stat (num + 1)
        else .move num }
  | .move num =>
    match S.disk S.new with
    | some c =>
      some (if o.ok then
        { S.replace digest S.new (conflictName S.new num) c with
          checked := none
          found := c
          moved := (conflictName S.new num, c) :: S.moved
          pc := .overwrite }
      else S.finish true)
    | none => some (S.finish true)
  | .overwrite =>
    match S.disk S.old with
    | some c =>
      some (if o.ok then
        { S.replace digest S.old S.new c with checked := S.verified, pc := .create }
        else S.finish true)
    | none => some (S.finish true)
  | .create =>
    match S.disk S.new with
    | some c =>
      some (if o.ok ∧ S.server.map Digest.size = some (digest c).size then
        if o.listed then S.finish (¬ o.committed) else { S with pc := .delete }
      else S.finish true)
    | none => some (S.finish true)
  | .delete =>
    some (if o.ok then ((S.destroy digest S.new).set S.new none).finish false
      else S.finish false)
  | .rename =>
    if S.old = S.new then some (S.finish false)
    else
      match S.disk S.old with
      -- the file is downloaded by another task
      | none => some (S.finish false)
      | some c =>
        some (if o.ok then (S.replace digest S.old S.new c).finish false else S.finish true)

/-- One step. -/
def step : Action C κ → Option (State C κ)
  | .change path content => some (S.set path content)
  | .download localpath filename target =>
    match S.pc with
    | .idle | .done _ => some (S.startDownload localpath filename target)
    | _ => none
  | .rename t rows newfolder oldpath =>
    match S.pc with
    | .idle | .done _ => some (S.startRename t rows newfolder oldpath)
    | _ => none
  | .go o => S.go digest o

/-- Any files, and no task. -/
def Initial : Prop := S.pc = .idle ∧ S.lost = []

/-- The machine of the local files and the tasks. -/
def machine : Machine (State C κ) (Action C κ) := ⟨Initial, step digest⟩

end State

end Pclsync.Downloads
