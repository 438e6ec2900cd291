import Pclsync.FsTasks.Operations
import Pclsync.Transition

/-!
# The operations keep the task counters

One lemma for each operation: from the invariant of the tree of folders, with room for the records
it adds, it leads to the invariant, through all of its returns. Every operation gives back the
references it takes, so that the references held are the same before and after; an open file whose
folder is changed by `renameFile` holds one to the new folder instead.

Two operations need a condition. `rmdir` counts a pending `mkdir` off before it checks that the
folder is empty, and does not count it again when the check fails (`rmdirOk`,
`Inv.rmdirFolder_some`). `folderCreated` adds the folder again under its new id, also when there is
a folder with that id (`Inv.folderCreated`).
-/

namespace Pclsync

open List Multiset

namespace State

variable {s t : State} {k p : ℕ} {H : Multiset ℕ} {env : Env} {folderid parentfolderid fileid : ℤ}
  {name : Name} {taskid frtaskid : ℕ} {g : Folder → Folder}

theorem Inv.done (h : Inv k noDrift H s) : Inv 0 noDrift H s := h.mono (Nat.zero_le k)

theorem Inv.live_cons (h : Inv k noDrift (p ::ₘ H) s) : s.Live p :=
  h.live (mem_cons_self p H)

/-- The references held with an address which may be missing. -/
def refsOf : Option ℕ → Multiset ℕ
  | some p => {p}
  | none => 0

theorem Inv.releaseOption {c : Option ℕ} (h : Inv k noDrift (refsOf c + H) s) :
    Inv k noDrift H (s.releaseOption c) := by
  cases c with
  | none => rwa [refsOf, Multiset.zero_add] at h
  | some p => exact Inv.release h

theorem Inv.getOrCreateFolderTasks (h : Inv k noDrift H s) (folderid : ℤ) (hk : k < 2 ^ 32) :
    Inv k noDrift ((s.getOrCreateFolderTasks folderid).1 ::ₘ H)
      (s.getOrCreateFolderTasks folderid).2 := h.getOrCreate hk rfl

/-- An edit of a folder at the end of an operation on it. -/
theorem Inv.editRelease {m n : ℕ} (h : Inv m noDrift (p ::ₘ H) s) (hk : k + n ≤ m)
    (he : ∀ f, f = s.folder p → Folder.Edit n 0 f (g f)) :
    Inv k noDrift H ((s.modify p g).releaseFolderTasks p) := (h.modify h.live_cons hk he).release

theorem Inv.editFolderTasks (h : Inv k noDrift H s) (hg : ∀ f, Folder.Edit 0 0 f (g f)) :
    Inv k noDrift H (s.editFolderTasks folderid g) := by
  unfold State.editFolderTasks
  rcases hq : s.getFolderTasks folderid with ⟨_ | p, t⟩
  · rwa [getFolderTasks_none hq]
  · have h := h.get hq
    exact h.editRelease (by omega) fun f _ => hg f

/-! ## Folders -/

theorem Inv.mkdir {folderflags : UInt32} (h : Inv 1 noDrift H s) :
    Inv 0 noDrift H (mkdir env folderid name folderflags s).2 := by
  unfold State.mkdir
  rcases hq : s.getOrCreateFolderTasks folderid with ⟨p, t⟩
  have h := h.getOrCreate (by omega) hq
  dsimp only
  split
  · exact h.release.done
  rcases (t.folder p).find .mkdirs name 0 with _ | ⟨_, task⟩
  · dsimp only
    rcases if folderflags &&& encryptedFlag ≠ 0 then env.keyError else none with _ | code
    · dsimp only
      split_ifs
      · exact h.editRelease (by omega) fun f _ => f.edit_insert_count _
      · exact h.release.done
    · exact h.release.done
  · exact h.release.done

theorem edit_assignMkdir (taskid : ℕ) (folderid : ℤ) (f : Folder) :
    Folder.Edit 0 0 f (assignMkdir taskid folderid f) := by
  unfold assignMkdir
  rcases walkTree f.mkdirs fun mk => mk.folderid = -taskid with _ | ⟨j, _⟩
  · exact .refl f
  · exact f.edit_assign j _

theorem edit_assignCreat (taskid : ℕ) (fileid : ℤ) (f : Folder) :
    Folder.Edit 0 0 f (assignCreat taskid fileid f) := by
  unfold assignCreat
  rcases walkTree f.creats fun cr => cr.fileid = -taskid with _ | ⟨j, _⟩
  · exact .refl f
  · exact f.edit_assign j _

theorem Inv.deleteFolderIfEx {m : ℕ} {fromFid : ℤ} (h : Inv k noDrift H s)
    (hq : s.deleteFolderIfEx env folderid name fromFid = (m, t)) : Inv k noDrift H t := by
  unfold State.deleteFolderIfEx at hq
  rcases hg : s.getFolderTasks folderid with ⟨_ | p, t'⟩
  · rw [hg] at hq
    cases hq
    rwa [getFolderTasks_none hg]
  · rw [hg] at hq
    have h := (h.get hg).release
    rcases hf : (t'.folder p).find .mkdirs name 0 with _ | ⟨_, task⟩
    · simp only [hf] at hq
      split at hq
      · cases hq
        exact h
      · cases hq
        exact h
    · simp only [hf] at hq
      cases hq
      exact h

theorem Inv.renameFolder {toFolderid : ℤ} {newName : Option Name} {flags : UInt32}
    (h : Inv 3 noDrift H s) : Inv 0 noDrift H
      (renameFolder env folderid parentfolderid name toFolderid newName flags s).2 := by
  unfold State.renameFolder
  dsimp only
  rcases hd : s.deleteFolderIfEx env toFolderid (newName.getD name) folderid with ⟨rmtask, s₁⟩
  have h := h.deleteFolderIfEx hd
  rcases hp : s₁.getOrCreateFolderTasks parentfolderid with ⟨p, s₂⟩
  have h := h.getOrCreate (by omega) hp
  dsimp only
  split
  · -- the source loses a folder, the target gains one
    dsimp only
    refine Inv.editRelease (n := 2) (Inv.getOrCreateFolderTasks (k := 2)
      (h.editRelease (n := 1) (by omega) fun f _ => ?_) _ (by omega)) (by omega) fun f _ => ?_
    · exact (f.edit_dropFound name 0).trans (Folder.edit_insert_count _ _)
    · exact (f.edit_dropFound name 0).trans (Folder.edit_insert_insert_count _ _ _)
  · exact h.release.done

/-! ## Files -/

theorem Inv.addCreat (h : Inv 2 noDrift H s) (hp : p ∈ H) :
    Inv 0 noDrift H (addCreat env p name fileid s).2 := by
  unfold State.addCreat
  split
  · exact h.modify (h.live hp) (by omega) fun f _ => Folder.edit_insert_insert_count f _ _
  · exact h.done

theorem Inv.injectCreat {cr : Creat} (h : Inv 1 noDrift H s) (hp : p ∈ H) :
    Inv 0 noDrift H (injectCreat p cr s) :=
  h.modify (h.live hp) (by omega) fun f _ => Folder.edit_insert_count f _

theorem Inv.injectUnlink {un : Unlink} {j : ℕ} (h : Inv 1 noDrift H s) (hp : p ∈ H) :
    Inv 0 noDrift H (injectUnlink p un j s) :=
  h.modify (h.live hp) (by omega) fun f _ =>
    ((f.edit_insertAt j un).trans (Folder.edit_count _ 1)).drift_eq (by decide)

theorem Inv.addModifiedFile (h : Inv 2 noDrift H s) (hp : p ∈ H) :
    Inv 0 noDrift H (addModifiedFile env p name fileid s).2 := by
  have h : Inv 2 noDrift H (s.modify p fun f => f.dropFound .creats name 0) :=
    h.modify (h.live hp) (by omega) fun f _ => f.edit_dropFound name 0
  unfold State.addModifiedFile
  dsimp only
  split
  · exact h.modify (h.live hp) (by omega) fun f _ => Folder.edit_insert_insert_count f _ _
  · exact h.done

/-- Nothing of the tree depends on the ids of static files. -/
theorem Inv.withLocalTaskid {i : ℕ} (h : Inv k noDrift H s) :
    Inv k noDrift H { s with localTaskid := i } :=
  ⟨h.sorted, h.addresses, h.fresh, h.counted, h.room, h.refs, h.held, h.freed⟩

theorem Inv.addLocalCreatStatic {data : List UInt8} (h : Inv 2 noDrift H s) :
    Inv 0 noDrift H (addLocalCreatStatic env folderid name data s).2 := by
  unfold State.addLocalCreatStatic
  rcases hq : s.getOrCreateFolderTasks folderid with ⟨p, t⟩
  have h := h.getOrCreate (by omega) hq
  dsimp only
  split
  · exact h.release.done
  split
  · exact h.release.done
  · exact (h.modify h.live_cons (by omega) fun f _ =>
      Folder.edit_insert_insert_count f _ _).withLocalTaskid.release

theorem Inv.getFileAtOldLocation (h : Inv k noDrift H s) (env : Env) (fileid : ℤ) :
    Inv k noDrift H (getFileAtOldLocation env fileid s).2 := by
  unfold State.getFileAtOldLocation
  split
  · exact h
  rcases env.history fileid with _ | ⟨id, name'⟩
  · exact h
  dsimp only
  rcases hg : s.getFolderTasks id with ⟨_ | p, t⟩
  · rwa [getFolderTasks_none hg]
  · have h := (h.get hg).release
    dsimp only
    rcases (t.folder p).find .creats name' 0 with _ | ⟨_, cr⟩
    · dsimp only
      split
      · exact h
      · exact h
    · exact h

theorem Inv.unlinkFile (h : Inv 1 noDrift (p ::ₘ H) s) :
    Inv 0 noDrift H (unlinkFile env p name fileid s).2 := by
  have h := h.getFileAtOldLocation env fileid
  unfold State.unlinkFile
  dsimp only
  split
  · exact h.editRelease (by omega) fun f _ => f.edit_insert_count _
  · exact h.release.done

theorem creats_dropFound_unlinks (f : Folder) :
    (f.dropFound .unlinks name taskid).creats = f.creats := by
  unfold Folder.dropFound
  rcases f.find .unlinks name taskid with _ | _
  · rfl
  · rfl

theorem Inv.unlink (h : Inv 1 noDrift H s) : Inv 0 noDrift H (unlink env folderid name s).2 := by
  unfold State.unlink
  rcases hq : s.getOrCreateFolderTasks folderid with ⟨p, t⟩
  have h := h.getOrCreate (by omega) hq
  dsimp only
  rcases hcr : (t.folder p).find .creats name 0 with _ | ⟨j, cr⟩
  · rcases env.file folderid name with _ | fileid
    · exact h.release.done
    dsimp only
    split
    · exact h.release.done
    · exact h.unlinkFile
  · dsimp only
    split
    · -- the position of the pending file is unaffected by the edit of the other tree
      refine h.editRelease (n := 0) (by omega) fun f hf => ?_
      have hlt : j < (TaskTree.creats.get (f.dropFound .unlinks cr.name cr.taskid)).size := by
        have := lt_size_of_searchTree hcr
        rw [← hf] at this
        exact (congrArg Tree.size (creats_dropFound_unlinks f)).symm ▸ this
      exact (f.edit_dropFound cr.name cr.taskid).trans
        ((Folder.edit_del hlt).trans (Folder.edit_uncount _))
    · refine Inv.unlinkFile (h.modify (n := 0) h.live_cons (by omega) fun f hf => ?_)
      rw [← hf] at hcr
      exact Folder.edit_del_uncount hcr

theorem Inv.renameOpenfile {current : Option ℕ} (h : Inv k noDrift (refsOf current + H) s)
    (folderid : ℤ) (hk : k < 2 ^ 32) :
    Inv k noDrift (refsOf (s.renameOpenfile current folderid).1 + H)
      (s.renameOpenfile current folderid).2 := by
  cases current with
  | none => exact h
  | some q =>
    unfold State.renameOpenfile
    by_cases hne : (s.folder q).folderid ≠ folderid
    · simp only [if_pos hne]
      exact (Inv.release h).getOrCreateFolderTasks folderid hk
    · simp only [if_neg hne]
      exact h

theorem Inv.renameOpenfile_cons {current : Option ℕ}
    (h : Inv k noDrift (p ::ₘ (refsOf current + H)) s) (folderid : ℤ) (hk : k < 2 ^ 32) :
    Inv k noDrift (p ::ₘ (refsOf (s.renameOpenfile current folderid).1 + H))
      (s.renameOpenfile current folderid).2 := by
  rw [← add_cons] at h ⊢
  exact h.renameOpenfile folderid hk

theorem Inv.renameFile {current : Option ℕ} {toFolderid : ℤ} {newName : Option Name}
    (h : Inv 3 noDrift (refsOf current + H) s) :
    Inv 0 noDrift
      (refsOf (renameFile env current fileid parentfolderid name toFolderid newName s).2.1 + H)
      (renameFile env current fileid parentfolderid name toFolderid newName s).2.2 := by
  unfold State.renameFile
  dsimp only
  rcases hp : s.getOrCreateFolderTasks parentfolderid with ⟨p, t⟩
  have h := h.getOrCreate (by omega) hp
  dsimp only
  split
  · have h : Inv 3 noDrift (p ::ₘ (refsOf current + H))
        (t.modify p fun f => f.dropFound .creats name 0) :=
      h.modify h.live_cons (by omega) fun f _ => f.edit_dropFound name 0
    have h := h.renameOpenfile_cons toFolderid (by omega)
    dsimp only
    refine Inv.editRelease (n := 2) (Inv.getOrCreateFolderTasks (k := 2)
      (h.editRelease (n := 1) (by omega) fun f _ => ?_) _ (by omega)) (by omega) fun f _ => ?_
    · exact Folder.edit_insert_count f _
    · exact (f.edit_dropFound _ 0).trans (Folder.edit_insert_insert_count _ _ _)
  · exact h.release.done

/-! ## Confirmed tasks -/

section

variable (h : Inv k noDrift H s)
include h

theorem Inv.folderDeleted : Inv k noDrift H (folderDeleted folderid taskid name s) :=
  h.editFolderTasks fun f => f.edit_dropFound name taskid

theorem Inv.fileDeleted : Inv k noDrift H (fileDeleted folderid taskid name s) :=
  h.editFolderTasks fun f => f.edit_dropFound name taskid

theorem Inv.lookForCreatInDb : Inv k noDrift H (lookForCreatInDb env taskid fileid s) := by
  unfold State.lookForCreatInDb
  rcases env.fstask taskid with _ | row
  · exact h
  · exact h.editFolderTasks (edit_assignCreat taskid fileid)

theorem Inv.fileCreated : Inv k noDrift H (fileCreated env folderid taskid name fileid s) := by
  have h : Inv k noDrift H (s.editFolderTasks folderid fun f =>
      (f.dropFound .creats name taskid).dropFound .unlinks name taskid) :=
    h.editFolderTasks fun f => (f.edit_dropFound name taskid).trans (Folder.edit_dropFound _ _ _)
  unfold State.fileCreated
  dsimp only
  split_ifs
  · exact h
  · exact h.lookForCreatInDb

theorem Inv.fileRenamed : Inv k noDrift H (fileRenamed env folderid taskid name frtaskid s) := by
  have h : Inv k noDrift H (s.editFolderTasks folderid fun f =>
      (f.dropFound .unlinks name taskid).dropFound .creats name taskid) :=
    h.editFolderTasks fun f => (f.edit_dropFound name taskid).trans (Folder.edit_dropFound _ _ _)
  unfold State.fileRenamed
  rcases env.fstask frtaskid with _ | row
  · exact h
  · exact h.editFolderTasks fun f => f.edit_dropFound _ _

theorem Inv.folderRenamed :
    Inv k noDrift H (folderRenamed env folderid taskid name frtaskid s) := by
  have h : Inv k noDrift H (s.editFolderTasks folderid fun f =>
      (f.dropFound .mkdirs name taskid).dropFound .rmdirs name taskid) :=
    h.editFolderTasks fun f => (f.edit_dropFound name taskid).trans (Folder.edit_dropFound _ _ _)
  unfold State.folderRenamed
  rcases env.fstask frtaskid with _ | row
  · exact h
  · exact h.editFolderTasks fun f => f.edit_dropFound _ _

end

/-! ## Folders created on the server -/

theorem ids_modify (hg : ∀ f, (g f).folderid = f.folderid) : (s.modify p g).ids = s.ids := by
  rw [ids, ids, toList_modify, List.map_map]
  refine map_congr_left fun f _ => ?_
  rw [Function.comp_apply]
  split_ifs
  · exact hg f
  · rfl

theorem ids_release : (s.releaseFolderTasks p).ids ⊆ s.ids := by
  have hm : (s.modify p fun f => { f with refcnt := f.refcnt - 1 }).ids = s.ids :=
    ids_modify fun _ => rfl
  unfold releaseFolderTasks
  dsimp only
  split_ifs
  · rw [← hm]
    exact ((Tree.toList_removeAt_sublist _ _).map _).subset
  · rw [hm]
    exact Subset.refl _

theorem ids_getFolderTasks (s : State) (folderid : ℤ) :
    (s.getFolderTasks folderid).2.ids = s.ids := by
  unfold getFolderTasks
  rcases s.getFolderTasksRdlocked folderid with _ | f
  · rfl
  · exact ids_modify fun _ => rfl

/-- Edits of a folder which is looked for never add a folder. -/
theorem ids_editFolderTasks (folderid : ℤ) (hg : ∀ f, Folder.Edit 0 0 f (g f)) :
    (s.editFolderTasks folderid g).ids ⊆ s.ids := by
  have hget := ids_getFolderTasks s folderid
  unfold State.editFolderTasks
  rcases hq : s.getFolderTasks folderid with ⟨_ | p, t⟩
  · rw [hq] at hget
    rw [hget]
    exact Subset.refl _
  · rw [hq] at hget
    have hrel := ids_release (s := t.modify p g) (p := p)
    rw [ids_modify fun f => (hg f).folderid, hget] at hrel
    exact hrel

theorem Inv.eq_of_folderid_eq {f f' : Folder} {D : ℕ → UInt32} (h : Inv k D H s)
    (hf : f ∈ s.folders.toList) (hf' : f' ∈ s.folders.toList) (he : f.folderid = f'.folderid) :
    f = f' :=
  inj_on_of_nodup_map (h.sorted.imp fun hlt => hlt.ne) hf hf' he

/-- The id given to a folder by the server is not the id of another folder. -/
theorem Inv.folderCreatedReinsert (h : Inv k noDrift H s)
    (hid : -(taskid : ℤ) ∈ s.ids → folderid ∈ s.ids → folderid = -taskid) :
    Inv k noDrift H (folderCreatedReinsert taskid folderid s) := by
  unfold State.folderCreatedReinsert
  have hids := ids_getFolderTasks s (-taskid)
  rcases hq : s.getFolderTasks (-taskid) with ⟨_ | p, t⟩
  · rwa [getFolderTasks_none hq]
  · rw [hq] at hids
    obtain ⟨f, -, hfid, hf⟩ := h.folder_get hq
    have h := h.get hq
    have hp := h.live_cons
    have hpid : (t.folder p).folderid = -taskid := by rw [hf, ← hfid]
    refine (h.setFolderid h.live_cons fun f' hf' hid' => ?_).release
    have hmem {i : ℤ} {f : Folder} (hf : f ∈ t.folders.toList) (hi : f.folderid = i) : i ∈ s.ids :=
      hids ▸ hi ▸ mem_map_of_mem hf
    have he := hid (hmem hp.1 hpid) (hmem hf' hid')
    rw [h.eq_of_folderid_eq hf' hp.1 (hid'.trans (he.trans hpid.symm)), hp.2]

theorem Inv.folderCreated (h : Inv k noDrift H s)
    (hid : -(taskid : ℤ) ∈ s.ids → folderid ∈ s.ids → folderid = -taskid) :
    Inv k noDrift H (folderCreated env parentfolderid taskid folderid name s) := by
  have h1 : Inv k noDrift H
      (s.editFolderTasks parentfolderid fun f => f.dropFound .mkdirs name taskid) :=
    h.editFolderTasks fun f => f.edit_dropFound name taskid
  have hids := ids_editFolderTasks (s := s) parentfolderid
    fun f => f.edit_dropFound (K := .mkdirs) name taskid
  unfold State.folderCreated
  dsimp only
  split_ifs
  · exact h1.folderCreatedReinsert fun ha hb => hid (hids ha) (hids hb)
  rcases env.fstask taskid with _ | row
  · exact h1.folderCreatedReinsert fun ha hb => hid (hids ha) (hids hb)
  · refine (h1.editFolderTasks (edit_assignMkdir taskid folderid)).folderCreatedReinsert
      fun ha hb => hid (hids ?_) (hids ?_)
    · exact ids_editFolderTasks _ (edit_assignMkdir taskid folderid) ha
    · exact ids_editFolderTasks _ (edit_assignMkdir taskid folderid) hb

/-! ## Removing folders -/

/-- The condition under which `rmdir` keeps the counter right: a pending `mkdir` it would take back
    is that of a folder which passes the checks. -/
def rmdirOk (env : Env) (folderid : ℤ) (name : Name) (s : State) : Bool :=
  match s.getFolderTasksRdlocked folderid with
  | none => true
  | some f =>
    match f.find .mkdirs name 0 with
    | none => true
    | some (_, task) => folderEmpty env (s.getFolderTasksRdlocked task.folderid) task.folderid

theorem getFolderTasksRdlocked_modify (hg : ∀ f, (g f).folderid = f.folderid) :
    (s.modify p g).getFolderTasksRdlocked folderid =
      (s.getFolderTasksRdlocked folderid).map fun f => if f.ptr = p then g f else f := by
  have hloc : (s.modify p g).folders.locate (cmp folderid) = _ :=
    Tree.locate_map (f := fun f => if f.ptr = p then g f else f) (fun f => ?_) s.folders
  · rw [getFolderTasksRdlocked, getFolderTasksRdlocked, hloc]
    cases s.folders.locate (cmp folderid) <;> rfl
  · split_ifs
    · rw [cmp, hg, cmp]
    · rfl

/-- The checks look at the trees of a folder, not at its counts. -/
theorem folderEmpty_modify {id i : ℤ}
    (hg : ∀ f, ∃ n r, g f = { f with taskscnt := n, refcnt := r }) :
    folderEmpty env ((s.modify p g).getFolderTasksRdlocked id) i =
      folderEmpty env (s.getFolderTasksRdlocked id) i := by
  rw [getFolderTasksRdlocked_modify fun f => by obtain ⟨n, r, h⟩ := hg f; rw [h]]
  cases s.getFolderTasksRdlocked id with
  | none => rfl
  | some f =>
    rw [Option.map_some]
    split_ifs
    · obtain ⟨n, r, h⟩ := hg f
      rw [h]
      rfl
    · rfl

theorem Inv.folderEmpty_get {D : ℕ → UInt32} {c : Option ℕ} {id i : ℤ} (h : Inv k D H s)
    (hq : s.getFolderTasks id = (c, t)) :
    folderEmpty env (c.map t.folder) i = folderEmpty env (s.getFolderTasksRdlocked id) i := by
  cases c with
  | none =>
    unfold getFolderTasks at hq
    rcases hf : s.getFolderTasksRdlocked id with _ | f
    · rfl
    · rw [hf] at hq
      cases hq
  | some p =>
    obtain ⟨f, hf, -, hp⟩ := h.folder_get hq
    rw [Option.map_some, hp, hf]
    rfl

theorem Inv.getOption {D : ℕ → UInt32} {c : Option ℕ} {id : ℤ} (h : Inv k D H s)
    (hq : s.getFolderTasks id = (c, t)) : Inv k D (refsOf c + H) t := by
  cases c with
  | none =>
    rw [getFolderTasks_none hq, refsOf, Multiset.zero_add]
    exact h
  | some p => exact h.get hq

theorem Inv.rmdirFolder_none (h : Inv 1 noDrift (p ::ₘ H) s) :
    Inv 0 noDrift H (rmdirFolder env p name folderid none s).2 := by
  unfold rmdirFolder
  rcases hq : s.getFolderTasks folderid with ⟨c, t⟩
  have h := (h.getOption hq).releaseOption
  dsimp only
  split_ifs
  · exact h.editRelease (by omega) fun f _ => f.edit_insert_count _
  · exact h.release.done
  · exact h.release.done

/-- The record which was counted off before the checks is deleted after them. -/
theorem Inv.rmdirFolder_some {j : ℕ} (h : Inv 1 (driftAt p 1) (p ::ₘ H) s)
    (hj : j < (s.folder p).mkdirs.size)
    (he : folderEmpty env (s.getFolderTasksRdlocked folderid) folderid = true) :
    Inv 0 noDrift H (rmdirFolder env p name folderid (some j) s).2 := by
  unfold rmdirFolder
  rcases hq : s.getFolderTasks folderid with ⟨c, t⟩
  have hp := h.live (mem_cons_self p H)
  rw [← h.folderEmpty_get hq] at he
  obtain ⟨r, hr⟩ := h.get_trees hp hq
  have h := h.getOption hq
  dsimp only
  rw [if_pos he]
  have hdel : Folder.Edit 0 (-1) (t.folder p) ((t.folder p).del .mkdirs j) :=
    Folder.edit_del (by rw [hr]; exact hj)
  have h := h.modify_drift (k := 1) (g := fun f => f.del .mkdirs j)
    (h.live (mem_add.2 (.inr (mem_cons_self p H)))) hdel
  have hD : (fun q => driftAt p 1 q + driftAt p (-1) q) = noDrift := by
    funext q
    rw [driftAt, driftAt, noDrift]
    split_ifs
    · rfl
    · rfl
  rw [hD] at h
  have h := h.releaseOption
  split_ifs
  · exact h.editRelease (by omega) fun f _ => f.edit_insert_count _
  · exact h.release.done

theorem Inv.rmdir {parentflags : UInt32} (h : Inv 1 noDrift H s)
    (hok : rmdirOk env folderid name s = true) :
    Inv 0 noDrift H (rmdir env folderid parentflags name s).2 := by
  unfold State.rmdir
  rcases hq : s.getOrCreateFolderTasks folderid with ⟨p, t⟩
  have hi := h.getOrCreate (by omega) hq
  dsimp only
  rcases hmk : (t.folder p).find .mkdirs name 0 with _ | ⟨j, task⟩
  · rcases env.folder folderid name with _ | ⟨cfolderid, flags⟩
    · exact hi.release.done
    dsimp only
    split_ifs
    · exact hi.release.done
    · exact hi.release.done
    · exact hi.rmdirFolder_none
  · have hp := hi.live_cons
    have hedit := Folder.edit_uncount (t.folder p)
    have hc := hi.modify_drift (k := 1) (g := Folder.uncount) hp hedit
    have hfold := hi.folder_modify (g := Folder.uncount) hp (hedit.ptr.trans hp.2)
    have hD : (fun q => noDrift q + driftAt p 1 q) = driftAt p 1 :=
      funext fun q => UInt32.zero_add _
    rw [hD] at hc
    refine hc.rmdirFolder_some (j := j) ?_ ?_
    · rw [hfold]
      exact lt_size_of_searchTree hmk
    · rw [folderEmpty_modify (g := Folder.uncount) fun f => ⟨f.taskscnt - 1, f.refcnt, rfl⟩]
      rcases h.folder_getOrCreate (by omega) hq with ⟨f, hf, rfl, hfp⟩ | hfp
      · rw [State.getRef, folderEmpty_modify fun f => ⟨f.taskscnt, f.refcnt + 1, rfl⟩]
        rw [hfp] at hmk
        rw [rmdirOk, hf] at hok
        dsimp only at hok
        rw [show f.find .mkdirs name 0 = some (j, task) from hmk] at hok
        exact hok
      · -- a new folder has no pending `mkdir`
        rw [hfp] at hmk
        cases hmk

end State

end Pclsync
