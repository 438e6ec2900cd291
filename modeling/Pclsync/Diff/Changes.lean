import Pclsync.Diff.Effects
import Mathlib.Data.UInt

/-!
# The tree of the server and its changes

The server has a tree of folders and files (`Tree`), which is changed one folder or file at a time
(`Change`). A change is possible in a tree (`Tree.possible`) when it keeps it a tree: a parent is
there before its children, and is deleted after them. Each change has an event in the diff, with
the metadata of the folder or file.

In the tables a change is made twice: when the answer of the server is entered (`Change.enter`),
and when its event comes (`Change.deliver`). `Fits` says when the used quota remains right in this.
-/

namespace Pclsync.Diff

open Sql Sql.Table

/-! ## Trees -/

/-- The parent of the root; it is no id. -/
def noParent : ℕ := 18446744073709551616

/-- The root. -/
def rootFolder : Folder where
  id := 0
  parentfolderid := noParent
  userid := 0
  permissions := 0
  name := ""
  ctime := 0
  mtime := 0
  flags := 0

/-- What a change does. -/
inductive Kind
  | createfolder
  | modifyfolder
  | deletefolder
  | createfile
  | modifyfile
  | deletefile

/-- The name of the event. -/
def Kind.event : Kind → String
  | createfolder => "createfolder"
  | modifyfolder => "modifyfolder"
  | deletefolder => "deletefolder"
  | createfile => "createfile"
  | modifyfile => "modifyfile"
  | deletefile => "deletefile"

/-- A change on the server, with the metadata of what was changed. -/
structure Change where
  kind : Kind
  metadata : List (String × BinResult)

namespace Change

variable (env : Env) (c : Change)

/-- The metadata as a hash. -/
def hash : BinResult := .hash c.metadata

/-- The folder that was changed. -/
def folder : Folder := folderOf env c.hash

/-- The file that was changed. -/
def file : File := fileOf env c.hash

/-- The file that was replaced. -/
def deleted : Option ℕ := c.hash.checkNum "deletedfileid"

/-- The entry of the diff. -/
def entry : BinResult := .hash [("event", .str c.kind.event), ("metadata", c.hash)]

/-- Ids are 64-bit numbers, what is not the user's has another user, and a file does not replace
    itself. -/
def sound : Bool :=
  decide ((c.folder env).id < noParent) && decide (c.deleted ≠ some (c.file env).id) &&
    (c.hash.findBool "ismine" || decide (c.hash.findNum "userid" ≠ env.psync_my_userid))

end Change

/-- The folders and files of the server. -/
structure Tree where
  folders : List Folder
  files : List File

namespace Tree

/-- The tree of a new user. -/
def start : Tree := ⟨[rootFolder], []⟩

variable (env : Env)

/-- The tree after a change. -/
def apply (t : Tree) (c : Change) : Tree :=
  match c.kind with
  | .createfolder => { t with folders := t.folders ++ [c.folder env] }
  | .modifyfolder =>
    { t with folders := update Folder.id t.folders (c.folder env).id fun _ => c.folder env }
  | .deletefolder => { t with folders := without Folder.id t.folders (c.folder env).id }
  | .createfile => { t with files := Remote.dropFile c.deleted t.files ++ [c.file env] }
  | .modifyfile =>
    { t with
      files := update File.id (Remote.dropFile c.deleted t.files) (c.file env).id fun _ =>
        c.file env }
  | .deletefile => { t with files := without File.id t.files (c.file env).id }

/-- The change can happen. -/
def possible (t : Tree) (c : Change) : Bool :=
  c.sound env &&
  match c.kind with
  | .createfolder =>
    (lookup Folder.id t.folders (c.folder env).id).isNone &&
      (lookup Folder.id t.folders (c.folder env).parentfolderid).isSome
  | .modifyfolder =>
    (lookup Folder.id t.folders (c.folder env).id).isSome && decide ((c.folder env).id ≠ 0) &&
      (lookup Folder.id t.folders (c.folder env).parentfolderid).isSome
  | .deletefolder =>
    decide ((lookup Folder.id t.folders (c.folder env).id).map Folder.parentfolderid =
      some (c.folder env).parentfolderid) && decide ((c.folder env).id ≠ 0) &&
      t.folders.all fun f => decide (f.parentfolderid ≠ (c.folder env).id)
  | .createfile => (lookup File.id t.files (c.file env).id).isNone
  | .modifyfile | .deletefile => (lookup File.id t.files (c.file env).id).isSome

/-- The tree after some changes. -/
def after (t : Tree) (cs : List Change) : Tree := cs.foldl (apply env) t

/-- The number of subfolders of a folder. -/
def subfolders (l : List Folder) (id : ℕ) : ℤ :=
  total (fun f => if id = f.parentfolderid then 1 else 0) l

end Tree

/-! ## Changes in the tables -/

namespace Change

variable (env : Env) (c : Change) (r : Remote)

/-- What the event does. -/
def deliver : Remote :=
  match c.kind with
  | .createfolder => r.createfolder (c.folder env)
  | .modifyfolder => r.modifyfolder (c.folder env)
  | .deletefolder => r.deletefolder c.hash
  | .createfile => r.createfile env c.hash
  | .modifyfile => r.modifyfile env c.hash
  | .deletefile => r.deletefile c.hash

/-- What it does to enter the answer of the server; there is no such function for the other
    changes of folders. -/
def enter : Remote :=
  match c.kind with
  | .createfolder => r.enterFolder (enteredFolder env c.hash)
  | .modifyfolder | .deletefolder => r
  | .createfile => r.enterFile env c.hash
  | .modifyfile => r.modifyfile env c.hash
  | .deletefile => r.deletefile c.hash

end Change

/-- What a row of `file` counts: its own bytes, when the file is in the tree. -/
def counted (env : Env) (files : List File) (row : File) : UInt64 :=
  if (lookup File.id files row.id).isSome then Remote.own env row else 0

/-- The event counts as many bytes as the rows it changes: a file that is replaced has no own bytes
    which are counted; a file that is created is not in the tree, has no own bytes or is entered; a
    file that is modified is in the tree or keeps its own bytes; and a file that is deleted has as
    many of them as the event says. -/
def Fits (env : Env) (t : Tree) (r : Remote) (c : Change) : Prop :=
  match c.kind with
  | .createfolder | .modifyfolder | .deletefolder => True
  | .createfile =>
    (∀ id ∈ c.deleted, weight File.id (counted env t.files) r.file id = 0) ∧
      ((lookup File.id r.file (c.file env).id).isSome ∨ counted env t.files (c.file env) = 0)
  | .modifyfile =>
    (∀ id ∈ c.deleted, weight File.id (counted env t.files) r.file id = 0) ∧
      ((lookup File.id t.files (c.file env).id).isSome ∨
        weight File.id (Remote.own env) r.file (c.file env).id = Remote.own env (c.file env))
  | .deletefile =>
    ∀ row ∈ lookup File.id r.file (c.file env).id, counted env t.files row = Remote.amount c.hash

end Pclsync.Diff
