import Pclsync.KeyedTree
import Mathlib.Tactic.Ring

/-!
# The pending changes of a folder

`psync_fstask_folder_t` (`pfstasks.h`): what the file system of the drive shows of a folder differs
from the server by the tasks in its four trees, ordered by name: folders created and removed, files
created and unlinked. `taskscnt` is meant to be the number of records in the four trees; it is kept
by hand, next to the edits of the trees.

* `searchTree`, `walkTree`, `insertIntoTree`: the functions on task trees.
* `TaskTree`: one of the four trees, as a parameter; `Folder.insert`, `Folder.del` and
  `Folder.dropFound` edit it.
* `Folder.Edit`: what the operations do to a folder between taking a reference and giving it back,
  with the records by which the counter gets behind the trees.
-/

namespace Pclsync

/-- A file name, without its final zero; `psync_filename_cmp` is `strcmp`. -/
abbrev Name := List UInt8

/-- `psync_fstask_mkdir_t`. -/
structure Mkdir where
  folderid : ℤ
  taskid : ℕ
  ctime : ℕ
  mtime : ℕ
  subdircnt : ℕ
  flags : UInt32
  name : Name
  deriving DecidableEq

/-- `psync_fstask_rmdir_t`. -/
structure Rmdir where
  folderid : ℤ
  taskid : ℕ
  name : Name
  deriving DecidableEq

/-- `psync_fstask_local_creat_t`: the contents of a static file. -/
structure LocalCreat where
  data : List UInt8
  ctime : ℕ
  deriving DecidableEq

/-- `psync_fstask_creat_t`, with what follows the name of a static file. -/
structure Creat where
  fileid : ℤ
  rfileid : ℤ
  taskid : ℕ
  name : Name
  localCreat : Option LocalCreat
  deriving DecidableEq

/-- `psync_fstask_unlink_t`. -/
structure Unlink where
  fileid : ℤ
  taskid : ℕ
  name : Name
  deriving DecidableEq

/-- What the four kinds of records have in common. -/
class TaskRecord (τ : Type) where
  name : τ → Name
  taskid : τ → ℕ

instance : TaskRecord Mkdir := ⟨Mkdir.name, Mkdir.taskid⟩
instance : TaskRecord Rmdir := ⟨Rmdir.name, Rmdir.taskid⟩
instance : TaskRecord Creat := ⟨Creat.name, Creat.taskid⟩
instance : TaskRecord Unlink := ⟨Unlink.name, Unlink.taskid⟩

/-! ## Task trees -/

section
variable {τ : Type} [TaskRecord τ]

/-- Walk over neighbours as long as they have the name, to one with the task id. -/
def scanName (name : Name) (taskid : ℕ) (nameoff : τ → Name) : List τ → Option ℕ
  | [] => none
  | x :: xs =>
    if nameoff x ≠ name then none
    else if TaskRecord.taskid x = taskid then some 0
    else (scanName name taskid nameoff xs).map (· + 1)

/-- The position of a record with a name and a task id. -/
def searchPosition (tree : Tree τ) (name : Name) (taskid : ℕ)
    (nameoff : τ → Name := TaskRecord.name) : Option ℕ :=
  match tree.locate fun x => compare name (nameoff x) with
  | .vacant _ => none
  | .found k x =>
    if taskid = 0 ∨ TaskRecord.taskid x = taskid then some k
    else match scanName name taskid nameoff (tree.toList.take k).reverse with
      | some j => some (k - 1 - j)
      | none => (scanName name taskid nameoff (tree.toList.drop (k + 1))).map (k + 1 + ·)

/-- `psync_fstask_search_tree`: a record with a name and a task id, with its position; the task id
    `0` stands for any. `nameoff` gives the text at the offset of that name in a record: for all
    callers the name. -/
def searchTree (tree : Tree τ) (name : Name) (taskid : ℕ)
    (nameoff : τ → Name := TaskRecord.name) : Option (ℕ × τ) :=
  (searchPosition tree name taskid nameoff).bind fun k => (tree.toList[k]?).map (k, ·)

/-- `psync_fstask_insert_into_tree`, with the text at the offset `nameoff` in a record. -/
def insertIntoTree (tree : Tree τ) (x : τ) (nameoff : τ → Name := TaskRecord.name) : Tree τ :=
  tree.insertAt (tree.placeBy fun y => compare (nameoff x) (nameoff y) == .lt) x

end

/-- The text at `offsetof(psync_fstask_creat_t, name)` in a deletion, where
    `psync_fstask_inject_unlink` and `psync_init_task_renfile_to` take its name to be: for
    `rfileid`, 8 bytes behind. After the final zero of a shorter name it is what lies `beyond`. -/
def Unlink.atCreatName (beyond : Unlink → Name) (un : Unlink) : Name :=
  if 8 ≤ un.name.length then un.name.drop 8 else beyond un

/-- `psync_fstask_walk_tree`: the first record selected by `p`, with its position. -/
def walkTree {τ : Type} (tree : Tree τ) (p : τ → Bool) : Option (ℕ × τ) :=
  (tree.toList.findIdx? p).bind fun k => (tree.toList[k]?).map (k, ·)

theorem lt_size_of_searchTree {τ : Type} [TaskRecord τ] {tree : Tree τ} {name : Name} {taskid k : ℕ}
    {x : τ} (h : searchTree tree name taskid = some (k, x)) : k < tree.size := by
  obtain ⟨j, -, hj⟩ := Option.bind_eq_some_iff.1 h
  obtain ⟨y, hy, ⟨⟩⟩ := Option.map_eq_some_iff.1 hj
  rw [← Tree.length_toList]
  exact (List.getElem?_eq_some_iff.1 hy).1

/-! ## Folders -/

/-- `psync_fstask_folder_t`, at its address. -/
structure Folder where
  ptr : ℕ
  folderid : ℤ
  mkdirs : Tree Mkdir := .nil
  rmdirs : Tree Rmdir := .nil
  creats : Tree Creat := .nil
  unlinks : Tree Unlink := .nil
  taskscnt : UInt32 := 0
  refcnt : ℕ := 0
  deriving DecidableEq

instance : Inhabited Folder := ⟨{ ptr := 0, folderid := 0 }⟩

/-- The number of records in the four trees. -/
def Folder.nodes (f : Folder) : ℕ :=
  f.mkdirs.size + f.rmdirs.size + f.creats.size + f.unlinks.size

/-- The four trees are empty. -/
def Folder.NoTasks (f : Folder) : Prop :=
  f.mkdirs = .nil ∧ f.rmdirs = .nil ∧ f.creats = .nil ∧ f.unlinks = .nil

theorem Folder.noTasks_iff {f : Folder} : f.NoTasks ↔ f.nodes = 0 := by
  simp only [Folder.NoTasks, ← Tree.size_eq_zero, Folder.nodes]
  omega

/-- What two folder objects that differ in their trees and their counter have in common. -/
structure Folder.SameObject (f g : Folder) : Prop where
  ptr : g.ptr = f.ptr
  folderid : g.folderid = f.folderid
  refcnt : g.refcnt = f.refcnt

/-- One of the four task trees of a folder. -/
structure TaskTree (τ : Type) where
  get : Folder → Tree τ
  set : Folder → Tree τ → Folder
  nodes_set : ∀ f t, (set f t).nodes + (get f).size = f.nodes + t.size
  taskscnt_set : ∀ f t, (set f t).taskscnt = f.taskscnt
  sameObject_set : ∀ f t, Folder.SameObject f (set f t)

/-- The tree `mkdirs`. -/
def TaskTree.mkdirs : TaskTree Mkdir where
  get := Folder.mkdirs
  set f t := { f with mkdirs := t }
  nodes_set f t := by simp only [Folder.nodes]; omega
  taskscnt_set _ _ := rfl
  sameObject_set _ _ := ⟨rfl, rfl, rfl⟩

/-- The tree `rmdirs`. -/
def TaskTree.rmdirs : TaskTree Rmdir where
  get := Folder.rmdirs
  set f t := { f with rmdirs := t }
  nodes_set f t := by simp only [Folder.nodes]; omega
  taskscnt_set _ _ := rfl
  sameObject_set _ _ := ⟨rfl, rfl, rfl⟩

/-- The tree `creats`. -/
def TaskTree.creats : TaskTree Creat where
  get := Folder.creats
  set f t := { f with creats := t }
  nodes_set f t := by simp only [Folder.nodes]; omega
  taskscnt_set _ _ := rfl
  sameObject_set _ _ := ⟨rfl, rfl, rfl⟩

/-- The tree `unlinks`. -/
def TaskTree.unlinks : TaskTree Unlink where
  get := Folder.unlinks
  set f t := { f with unlinks := t }
  nodes_set f t := by simp only [Folder.nodes]; omega
  taskscnt_set _ _ := rfl
  sameObject_set _ _ := ⟨rfl, rfl, rfl⟩

namespace Folder

variable {τ : Type} (K : TaskTree τ) (f : Folder)

/-- `psync_fstask_find_mkdir` and its siblings: a record with a name and a task id, `0` for any. -/
def find [TaskRecord τ] (name : Name) (taskid : ℕ) : Option (ℕ × τ) :=
  searchTree (K.get f) name taskid

/-- Add a record to a tree. -/
def insert [TaskRecord τ] (x : τ) : Folder := K.set f (insertIntoTree (K.get f) x)

/-- Add a record to a tree at a position. -/
def insertAt (k : ℕ) (x : τ) : Folder := K.set f ((K.get f).insertAt k x)

/-- `psync_tree_del` and `psync_free` of the record at a position. -/
def del (k : ℕ) : Folder := K.set f ((K.get f).removeAt k)

/-- Assign to the record at a position. -/
def assign (k : ℕ) (g : τ → τ) : Folder := K.set f ((K.get f).modifyAt k g)

/-- `folder->taskscnt+=n`. -/
def count (n : UInt32) : Folder := { f with taskscnt := f.taskscnt + n }

/-- `folder->taskscnt--`. -/
def uncount : Folder := { f with taskscnt := f.taskscnt - 1 }

/-- Look for a record and, when there is one, delete it and count it off. -/
def dropFound [TaskRecord τ] (name : Name) (taskid : ℕ) : Folder :=
  match f.find K name taskid with
  | some (k, _) => (f.del K k).uncount
  | none => f

end Folder

/-! ## Edits -/

/-- `g` is the folder object `f` with at most `n` more records, whose counter has got behind its
    trees by `d`. -/
structure Folder.Edit (n : ℕ) (d : UInt32) (f g : Folder) : Prop extends f.SameObject g where
  nodes_le : g.nodes ≤ f.nodes + n
  drift : g.taskscnt + d + UInt32.ofNat f.nodes = f.taskscnt + UInt32.ofNat g.nodes

namespace Folder

variable {τ : Type} {K : TaskTree τ} {f g h : Folder} {n m : ℕ} {d e : UInt32}

theorem Edit.refl (f : Folder) : Edit 0 0 f f where
  ptr := rfl
  folderid := rfl
  refcnt := rfl
  nodes_le := le_rfl
  drift := by rw [UInt32.add_zero]

theorem Edit.trans (hfg : Edit n d f g) (hgh : Edit m e g h) : Edit (n + m) (d + e) f h where
  ptr := hgh.ptr.trans hfg.ptr
  folderid := hgh.folderid.trans hfg.folderid
  refcnt := hgh.refcnt.trans hfg.refcnt
  nodes_le := by have := hfg.nodes_le; have := hgh.nodes_le; omega
  drift := by have := hfg.drift; have := hgh.drift; grind

/-- The edit of one tree: what it adds to the tree is added to the drift. -/
theorem edit_set {t : Tree τ} (h : t.size ≤ (K.get f).size + n)
    (hd : d + UInt32.ofNat (K.get f).size = UInt32.ofNat t.size) : Edit n d f (K.set f t) where
  toSameObject := K.sameObject_set f t
  nodes_le := by have := K.nodes_set f t; omega
  drift := by
    have hn := congrArg UInt32.ofNat (K.nodes_set f t)
    rw [UInt32.ofNat_add, UInt32.ofNat_add] at hn
    rw [K.taskscnt_set]
    grind

theorem edit_insertAt (f : Folder) (k : ℕ) (x : τ) : Edit 1 1 f (f.insertAt K k x) :=
  edit_set (by rw [Tree.size_insertAt]) (by rw [Tree.size_insertAt, UInt32.ofNat_add]; grind)

theorem edit_insert [TaskRecord τ] (f : Folder) (x : τ) : Edit 1 1 f (f.insert K x) :=
  edit_insertAt f _ x

theorem edit_del {k : ℕ} (hk : k < (K.get f).size) : Edit 0 (-1) f (f.del K k) := by
  have hs := Tree.size_removeAt hk
  refine edit_set (by omega) ?_
  rw [← hs, UInt32.ofNat_add]
  grind

theorem edit_assign (f : Folder) (k : ℕ) (a : τ → τ) : Edit 0 0 f (f.assign K k a) :=
  edit_set (by rw [Tree.size_modifyAt]; omega) (by rw [Tree.size_modifyAt, UInt32.zero_add])

theorem edit_count (f : Folder) (n : UInt32) : Edit 0 (-n) f (f.count n) where
  ptr := rfl
  folderid := rfl
  refcnt := rfl
  nodes_le := le_rfl
  drift := by
    change f.taskscnt + n + -n + UInt32.ofNat f.nodes = f.taskscnt + UInt32.ofNat f.nodes
    grind

theorem edit_uncount (f : Folder) : Edit 0 1 f f.uncount where
  ptr := rfl
  folderid := rfl
  refcnt := rfl
  nodes_le := le_rfl
  drift := by
    change f.taskscnt - 1 + 1 + UInt32.ofNat f.nodes = f.taskscnt + UInt32.ofNat f.nodes
    grind

theorem Edit.drift_eq (h : Edit n d f g) (hd : d = e) : Edit n e f g := hd ▸ h

theorem edit_insert_count [TaskRecord τ] (f : Folder) (x : τ) :
    Edit 1 0 f ((f.insert K x).count 1) :=
  ((edit_insert f x).trans (edit_count _ 1)).drift_eq (by decide)

theorem edit_insert_insert_count {σ : Type} {L : TaskTree σ} [TaskRecord τ] [TaskRecord σ]
    (f : Folder) (x : τ) (y : σ) : Edit 2 0 f (((f.insert K x).insert L y).count 2) :=
  (((edit_insert f x).trans (edit_insert _ y)).trans (edit_count _ 2)).drift_eq (by decide)

/-- A record that was found is deleted and counted off. -/
theorem edit_del_uncount [TaskRecord τ] {name : Name} {taskid k : ℕ} {x : τ}
    (h : f.find K name taskid = some (k, x)) : Edit 0 0 f (f.del K k).uncount :=
  (edit_del (lt_size_of_searchTree h)).trans (edit_uncount _)

theorem edit_dropFound [TaskRecord τ] (f : Folder) (name : Name) (taskid : ℕ) :
    Edit 0 0 f (f.dropFound K name taskid) := by
  rw [dropFound]
  split
  · next h => exact edit_del_uncount h
  · exact .refl f

end Folder

end Pclsync
