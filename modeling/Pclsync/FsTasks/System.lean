import Pclsync.FsTasks.Counters
import Mathlib.Algebra.Order.Group.Multiset

/-!
# Runs of operations on pending changes

The tree of folders together with the references which its users hold between operations: open
files and the callers in `pfs.c`. Users take and release references in any order, and run any
operation on the folders; an operation on a folder object needs a reference to it.

* `System.counters`: in every run whose steps meet `System.Ok`, the counters are the numbers of
  records, no two folders have the same id, and only folders without tasks were freed.
* `System.rmdir_frees_pending`: a `rmdir` of a pending folder that is not empty, which fails, lets
  go of the pending `mkdir`.
-/

namespace Pclsync

/-- The steps: taking and releasing references, and the operations. -/
inductive TasksAction
  | getFolderTasks (folderid : ℤ)
  | getOrCreateFolderTasks (folderid : ℤ)
  | getRef (p : ℕ)
  | releaseFolderTasks (p : ℕ)
  | mkdir (env : Env) (folderid : ℤ) (name : Name) (folderflags : UInt32)
  | rmdir (env : Env) (folderid : ℤ) (parentflags : UInt32) (name : Name)
  | addCreat (env : Env) (p : ℕ) (name : Name) (fileid : ℤ)
  | injectCreat (p : ℕ) (cr : Creat)
  | injectUnlink (p : ℕ) (un : Unlink) (k : ℕ)
  | addModifiedFile (env : Env) (p : ℕ) (name : Name) (fileid : ℤ)
  | addLocalCreatStatic (env : Env) (folderid : ℤ) (name : Name) (data : List UInt8)
  | unlink (env : Env) (folderid : ℤ) (name : Name)
  | renameFile (env : Env) (current : Option ℕ) (fileid parentfolderid : ℤ) (name : Name)
      (toFolderid : ℤ) (newName : Option Name)
  | renameFolder (env : Env) (folderid parentfolderid : ℤ) (name : Name) (toFolderid : ℤ)
      (newName : Option Name) (targetflags : UInt32)
  | folderCreated (env : Env) (parentfolderid : ℤ) (taskid : ℕ) (folderid : ℤ) (name : Name)
  | folderDeleted (parentfolderid : ℤ) (taskid : ℕ) (name : Name)
  | fileCreated (env : Env) (parentfolderid : ℤ) (taskid : ℕ) (name : Name) (fileid : ℤ)
  | fileModified (env : Env) (parentfolderid : ℤ) (taskid : ℕ) (name : Name) (fileid : ℤ)
  | fileDeleted (parentfolderid : ℤ) (taskid : ℕ) (name : Name)
  | fileRenamed (env : Env) (folderid : ℤ) (taskid : ℕ) (name : Name) (frtaskid : ℕ)
  | folderRenamed (env : Env) (parentfolderid : ℤ) (taskid : ℕ) (name : Name) (frtaskid : ℕ)

/-- The state of `pfstasks.c` and the references held by its users. -/
structure System where
  tasks : State
  held : Multiset ℕ

namespace System

open State

/-- A step on a folder object needs a reference to it. -/
def withRef (S : System) (p : ℕ) (f : State → State) : Option System :=
  if p ∈ S.held then some { S with tasks := f S.tasks } else none

/-- The state after a step. -/
def step (S : System) : TasksAction → Option System
  | .getFolderTasks id =>
    match S.tasks.getFolderTasks id with
    | (c, s) => some ⟨s, refsOf c + S.held⟩
  | .getOrCreateFolderTasks id =>
    match S.tasks.getOrCreateFolderTasks id with
    | (p, s) => some ⟨s, p ::ₘ S.held⟩
  | .getRef p => if p ∈ S.held then some ⟨S.tasks.getRef p, p ::ₘ S.held⟩ else none
  | .releaseFolderTasks p =>
    if p ∈ S.held then some ⟨S.tasks.releaseFolderTasks p, S.held.erase p⟩ else none
  | .mkdir env id name flags => some { S with tasks := (mkdir env id name flags S.tasks).2 }
  | .rmdir env id flags name => some { S with tasks := (rmdir env id flags name S.tasks).2 }
  -- the function asserts that the id is not negative
  | .addCreat env p name fileid =>
    if 0 ≤ fileid then S.withRef p fun s => (addCreat env p name fileid s).2 else none
  | .injectCreat p cr => S.withRef p (injectCreat p cr)
  | .injectUnlink p un k => S.withRef p (injectUnlink p un k)
  | .addModifiedFile env p name fileid =>
    if 0 < fileid then S.withRef p fun s => (addModifiedFile env p name fileid s).2 else none
  | .addLocalCreatStatic env id name data =>
    some { S with tasks := (addLocalCreatStatic env id name data S.tasks).2 }
  | .unlink env id name => some { S with tasks := (unlink env id name S.tasks).2 }
  | .renameFile env current fileid id name toId newName =>
    if refsOf current ≤ S.held then
      match renameFile env current fileid id name toId newName S.tasks with
      | (_, current', s) => some ⟨s, refsOf current' + (S.held - refsOf current)⟩
    else none
  | .renameFolder env folderid id name toId newName flags =>
    some { S with tasks := (renameFolder env folderid id name toId newName flags S.tasks).2 }
  | .folderCreated env id taskid folderid name =>
    some { S with tasks := folderCreated env id taskid folderid name S.tasks }
  | .folderDeleted id taskid name => some { S with tasks := folderDeleted id taskid name S.tasks }
  | .fileCreated env id taskid name fileid =>
    some { S with tasks := fileCreated env id taskid name fileid S.tasks }
  | .fileModified env id taskid name fileid =>
    some { S with tasks := fileModified env id taskid name fileid S.tasks }
  | .fileDeleted id taskid name => some { S with tasks := fileDeleted id taskid name S.tasks }
  | .fileRenamed env id taskid name frtaskid =>
    some { S with tasks := fileRenamed env id taskid name frtaskid S.tasks }
  | .folderRenamed env id taskid name frtaskid =>
    some { S with tasks := folderRenamed env id taskid name frtaskid S.tasks }

/-- The tree of folders is empty at the start, and nobody holds a reference. -/
def initial : System :=
  ⟨{ folders := .nil, localTaskid := 2 ^ 64 - 1, next := 0, freed := [] }, 0⟩

/-- The machine of the operations. -/
def machine : Machine System TasksAction where
  init S := S = initial
  step := step

/-- The counter of every folder is the number of its records, no two folders have the same id, and
    the folders freed had no tasks. -/
structure Counted (S : System) : Prop where
  taskscnt : ∀ f ∈ S.tasks.folders.toList,
    f.taskscnt.toNat = f.mkdirs.size + f.rmdirs.size + f.creats.size + f.unlinks.size
  ids : S.tasks.ids.Nodup
  freed : ∀ f ∈ S.tasks.freed, f.NoTasks

/-- The condition on a step: the counters have room for the records it adds, a `rmdir` of a pending
    folder finds it empty, and the id given to a created folder is not that of another one. -/
def Ok (S : System) (a : TasksAction) : Prop :=
  (∀ f ∈ S.tasks.folders.toList, f.nodes + 3 < 2 ^ 32) ∧
  match a with
  | .rmdir env id _ name => rmdirOk env id name S.tasks = true
  | .folderCreated _ _ taskid folderid _ =>
    -(taskid : ℤ) ∈ S.tasks.ids → folderid ∈ S.tasks.ids → folderid = -taskid
  | _ => True

theorem inv_initial : Inv 0 noDrift initial.held initial.tasks := by
  constructor <;> simp [initial, ids]

theorem inv_withRef {S S' : System} {p : ℕ} {f : State → State} (h : S.withRef p f = some S')
    (hf : p ∈ S.held → Inv 0 noDrift S.held (f S.tasks)) : Inv 0 noDrift S'.held S'.tasks := by
  rw [withRef] at h
  split at h
  · next hp =>
    cases h
    exact hf hp
  · cases h

theorem inv_step {S S' : System} {a : TasksAction} (h : Inv 0 noDrift S.held S.tasks) (hok : Ok S a)
    (hs : S.step a = some S') : Inv 0 noDrift S'.held S'.tasks := by
  have h : Inv 3 noDrift S.held S.tasks := { h with room := hok.1 }
  have hok := hok.2
  cases a with
  | getFolderTasks id =>
    cases hs
    exact (h.getOption rfl).done
  | getOrCreateFolderTasks id =>
    cases hs
    exact (h.getOrCreate (by omega) rfl).done
  | getRef p =>
    rw [step] at hs
    split at hs
    · next hp =>
      cases hs
      exact (h.getRef (h.live hp)).done
    · cases hs
  | releaseFolderTasks p =>
    rw [step] at hs
    split at hs
    · next hp =>
      cases hs
      exact Inv.done (Inv.release (by rwa [Multiset.cons_erase hp]))
    · cases hs
  | mkdir env id name flags =>
    cases hs
    exact (h.mono (by omega)).mkdir
  | rmdir env id flags name =>
    cases hs
    exact (h.mono (by omega)).rmdir hok
  | addCreat env p name fileid =>
    rw [step] at hs
    split at hs
    · exact inv_withRef hs fun hp => (h.mono (by omega)).addCreat hp
    · cases hs
  | injectCreat p cr => exact inv_withRef hs fun hp => (h.mono (by omega)).injectCreat hp
  | injectUnlink p un k => exact inv_withRef hs fun hp => (h.mono (by omega)).injectUnlink hp
  | addModifiedFile env p name fileid =>
    rw [step] at hs
    split at hs
    · exact inv_withRef hs fun hp => (h.mono (by omega)).addModifiedFile hp
    · cases hs
  | addLocalCreatStatic env id name data =>
    cases hs
    exact (h.mono (by omega)).addLocalCreatStatic
  | unlink env id name =>
    cases hs
    exact (h.mono (by omega)).unlink
  | renameFile env current fileid id name toId newName =>
    rw [step] at hs
    split at hs
    · next hle =>
      cases hs
      exact Inv.renameFile (by rwa [add_tsub_cancel_of_le hle])
    · cases hs
  | renameFolder env folderid id name toId newName flags =>
    cases hs
    exact h.renameFolder
  | folderCreated env id taskid folderid name =>
    cases hs
    exact (h.folderCreated hok).done
  | folderDeleted id taskid name =>
    cases hs
    exact h.folderDeleted.done
  | fileCreated env id taskid name fileid =>
    cases hs
    exact h.fileCreated.done
  | fileModified env id taskid name fileid =>
    cases hs
    exact h.fileCreated.done
  | fileDeleted id taskid name =>
    cases hs
    exact h.fileDeleted.done
  | fileRenamed env id taskid name frtaskid =>
    cases hs
    exact h.fileRenamed.done
  | folderRenamed env id taskid name frtaskid =>
    cases hs
    exact h.folderRenamed.done

theorem Counted.of_inv {S : System} (h : Inv 0 noDrift S.held S.tasks) : Counted S where
  taskscnt f hf := by
    have hc := h.counted f hf
    rw [noDrift, UInt32.add_zero] at hc
    have hroom : f.nodes < 2 ^ 32 := h.room f hf
    rw [hc, UInt32.toNat_ofNat', Nat.mod_eq_of_lt hroom]
    rfl
  ids := h.sorted.imp fun hlt => hlt.ne
  freed := h.freed

/-- In every run whose steps meet the condition, the counters are right, the folder ids are
    unique, and only folders without tasks were freed. -/
theorem counters {S : System} (h : machine.Reachable Ok S) : Counted S :=
  .of_inv <| Machine.Reachable.invariant (M := machine) (P := fun S => Inv 0 noDrift S.held S.tasks)
    (fun _ hS => hS ▸ inv_initial) (fun _ _ _ hi hok hs => inv_step hi hok hs) h

/-! ## Runs on an empty database -/

/-- A database without files and folders, whose next task has the id `taskid`. -/
def emptyDatabase (taskid : ℕ) : Env where
  folder _ _ := none
  file _ _ := none
  fileNames _ := []
  folderNames _ := []
  folderTimes _ := none
  fstask _ := none
  insertid n := taskid + n
  commit := true
  time := 0
  keyError := none
  history _ := none

/-- `mkdir /a`, `mkdir /a/b`, and `/a` is confirmed under the id `7`: no task of the root is left,
    and the folder keeps its own under the new id. -/
theorem counters_mkdir_mkdir_created : ∃ S : System, Counted S ∧ S.tasks.ids = [7] := by
  have h : machine.Reachable Ok _ :=
    .step (a := .mkdir (emptyDatabase 1) 0 [97] 0) (.init rfl)
    ⟨List.forall_mem_nil _, trivial⟩ rfl
  replace h := h.next (.mkdir (emptyDatabase 2) (-1) [98] 0) ⟨by decide, trivial⟩ rfl
  replace h := h.next (.folderCreated (emptyDatabase 3) 0 1 7 [97]) ⟨by decide, by decide⟩ rfl
  exact ⟨_, counters h, rfl⟩

/-- `mkdir /a`, `mkdir /a/b`, `rmdir /a`. -/
def rmdirNotEmpty : List TasksAction :=
  [.mkdir (emptyDatabase 1) 0 [97] 0, .mkdir (emptyDatabase 2) (-1) [98] 0,
    .rmdir (emptyDatabase 3) 0 0 [97]]

/-- After `mkdir` of a folder and of a folder in it, `rmdir` of the first fails, and the root folder
    is freed with the pending `mkdir` in it. -/
theorem rmdir_frees_pending : ¬ ∀ S, machine.Reachable (fun _ _ => True) S → Counted S := by
  intro h
  obtain ⟨S, hS, f, hf, hne⟩ : ∃ S, machine.run initial rmdirNotEmpty = some S ∧
      ∃ f ∈ S.tasks.freed, f.nodes = 1 := ⟨_, rfl, _, List.mem_singleton_self _, rfl⟩
  have hnone := Folder.noTasks_iff.1 ((h S (.of_run (.init rfl) hS)).freed f hf)
  omega

end System

end Pclsync
