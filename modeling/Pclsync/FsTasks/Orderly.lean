import Pclsync.FsTasks.Loading
import Pclsync.FsTasks.Names

/-!
# The names in the task trees over whole runs

The folder objects of `pfstasks.c` stay `Folder.Orderly` in every run whose steps meet
`System.NamesOk`: a name is added to the pending folders and files only where it is not one of them
already, and deletions of names are added in their order. `psync_fstask_mkdir` and most of the
others see to it themselves; the condition is about those that do not.

`State.Keeps P` is what the lemmas carry through the operations: the folder objects have different
addresses, and `P` holds of each. `P` may say more than `Folder.Orderly`, as long as it holds of a
new folder and says nothing about references (`Folder.Plain`).

* `System.orderly_of_reachable`: in every state reached, every folder object is orderly.
-/

namespace Pclsync

open List

/-- The property holds of new folders and does not depend on the references to a folder. -/
structure Folder.Plain (P : Folder → Prop) : Prop where
  refcnt : ∀ f n, P f → P { f with refcnt := n }
  fresh : ∀ ptr folderid, P { ptr := ptr, folderid := folderid, refcnt := 1 }

theorem Folder.Plain.and {P Q : Folder → Prop} (hP : Folder.Plain P) (hQ : Folder.Plain Q) :
    Folder.Plain fun f => P f ∧ Q f :=
  ⟨fun f n hf => ⟨hP.refcnt f n hf.1, hQ.refcnt f n hf.2⟩,
    fun ptr id => ⟨hP.fresh ptr id, hQ.fresh ptr id⟩⟩

namespace State

/-- The folder objects have different addresses, below the next one, and the property. -/
structure Keeps (P : Folder → Prop) (s : State) : Prop where
  addresses : (s.folders.toList.map Folder.ptr).Nodup
  fresh : ∀ f ∈ s.folders.toList, f.ptr < s.next
  folders : ∀ f ∈ s.folders.toList, P f

variable {P Q : Folder → Prop} {s t : State} {p : ℕ} {f : Folder} {g : Folder → Folder} {id : ℤ}

section

variable (h : Keeps P s)
include h

theorem Keeps.mono (hPQ : ∀ f, P f → Q f) : Keeps Q s :=
  { h with folders := fun f hf => hPQ f (h.folders f hf) }

theorem Keeps.and (hQ : ∀ f ∈ s.folders.toList, Q f) : Keeps (fun f => P f ∧ Q f) s :=
  { h with folders := fun f hf => ⟨h.folders f hf, hQ f hf⟩ }

/-! ## Assignments -/

theorem Keeps.edit (hptr : ∀ f, (g f).ptr = f.ptr)
    (hg : ∀ f ∈ s.folders.toList, f.ptr = p → f = s.folder p → P f → Q (g f))
    (hQ : ∀ f ∈ s.folders.toList, f.ptr ≠ p → P f → Q f) : Keeps Q (s.modify p g) where
  addresses := by
    have hmap : (s.modify p g).folders.toList.map Folder.ptr = s.folders.toList.map Folder.ptr := by
      rw [toList_modify, map_map]
      refine map_congr_left fun f _ => ?_
      rw [Function.comp_apply]
      split_ifs
      · exact hptr f
      · rfl
    rw [hmap]
    exact h.addresses
  fresh f hf := by
    rw [toList_modify, mem_map] at hf
    obtain ⟨f, hf, rfl⟩ := hf
    split_ifs
    · rw [hptr]
      exact h.fresh f hf
    · exact h.fresh f hf
  folders f hf := by
    rw [toList_modify, mem_map] at hf
    obtain ⟨f, hf, rfl⟩ := hf
    split_ifs with hp
    · exact hg f hf hp (folder_eq_of_nodup h.addresses hf hp).symm (h.folders f hf)
    · exact hQ f hf hp (h.folders f hf)

theorem Keeps.modify (hptr : ∀ f, (g f).ptr = f.ptr)
    (hg : ∀ f, f = s.folder p → P f → P (g f)) : Keeps P (s.modify p g) :=
  h.edit hptr (fun f _ _ hf => hg f hf) fun _ _ _ hP => hP

theorem Keeps.getRef (hP : Folder.Plain P) : Keeps P (s.getRef p) :=
  h.modify (fun _ => rfl) fun f _ => hP.refcnt f _

theorem Keeps.removeAt (k : ℕ) {fs : List Folder} :
    Keeps P { s with folders := s.folders.removeAt k, freed := fs } where
  addresses := h.addresses.sublist ((Tree.toList_removeAt_sublist k _).map _)
  fresh f hf := h.fresh f ((Tree.toList_removeAt_sublist k _).subset hf)
  folders f hf := h.folders f ((Tree.toList_removeAt_sublist k _).subset hf)

theorem Keeps.release (hP : Folder.Plain P) (p : ℕ) : Keeps P (s.releaseFolderTasks p) := by
  have h : Keeps P (s.modify p fun f => { f with refcnt := f.refcnt - 1 }) :=
    h.modify (fun _ => rfl) fun f _ => hP.refcnt f _
  rw [releaseFolderTasks]
  split_ifs
  · exact h.removeAt _
  · exact h

/-- An edit of a folder at the end of an operation on it. -/
theorem Keeps.editRelease (hP : Folder.Plain P) (hptr : ∀ f, (g f).ptr = f.ptr)
    (hg : ∀ f, f = s.folder p → P f → P (g f)) :
    Keeps P ((s.modify p g).releaseFolderTasks p) := (h.modify hptr hg).release hP p

theorem Keeps.releaseOption (hP : Folder.Plain P) (c : Option ℕ) : Keeps P (s.releaseOption c) := by
  cases c with
  | none => exact h
  | some p => exact h.release hP p

/-! ## Looking for folders -/

theorem Keeps.getFolderTasks {c : Option ℕ} (hP : Folder.Plain P)
    (hq : s.getFolderTasks id = (c, t)) : Keeps P t := by
  rw [State.getFolderTasks] at hq
  cases hl : s.getFolderTasksRdlocked id with
  | none =>
    rw [hl] at hq
    cases hq
    exact h
  | some f =>
    rw [hl] at hq
    cases hq
    exact h.getRef hP

theorem Keeps.getOrCreate (hP : Folder.Plain P)
    (hq : s.getOrCreateFolderTasks id = (p, t)) : Keeps P t := by
  rw [getOrCreateFolderTasks] at hq
  rcases hl : s.folders.locate (cmp id) with ⟨k, f⟩ | k
  · rw [hl] at hq
    cases hq
    exact h.getRef hP
  · rw [hl] at hq
    cases hq
    have hmem : ∀ f ∈ (s.folders.insertAt k
        { ptr := s.next, folderid := id, refcnt := 1 }).toList,
        f = { ptr := s.next, folderid := id, refcnt := 1 } ∨ f ∈ s.folders.toList :=
      fun f hf => Tree.mem_insertAt.1 hf
    constructor
    · refine (((Tree.insertAt_perm k _ _).map Folder.ptr).nodup_iff).2
        (nodup_cons.2 ⟨fun hmem => ?_, h.addresses⟩)
      obtain ⟨f, hf, hptr⟩ := mem_map.1 hmem
      exact absurd hptr (h.fresh f hf).ne
    · intro f hf
      rcases hmem f hf with rfl | hf
      · exact Nat.lt_succ_self _
      · exact (h.fresh f hf).trans (Nat.lt_succ_self _)
    · intro f hf
      rcases hmem f hf with rfl | hf
      · exact hP.fresh _ _
      · exact h.folders f hf

theorem Keeps.folderid_getOrCreate
    (hq : s.getOrCreateFolderTasks id = (p, t)) (hf : f ∈ t.folders.toList) (hp : f.ptr = p) :
    f.folderid = id := by
  rw [getOrCreateFolderTasks] at hq
  rcases hl : s.folders.locate (cmp id) with ⟨k, f'⟩ | k
  · rw [hl] at hq
    cases hq
    obtain ⟨hmem, heq⟩ := Tree.mem_of_locate hl
    have hid : f'.folderid = id := (Std.LawfulEqOrd.eq_of_compare heq).symm
    change f ∈ (s.modify f'.ptr fun f => { f with refcnt := f.refcnt + 1 }).folders.toList at hf
    rw [toList_modify, mem_map] at hf
    obtain ⟨e, he, rfl⟩ := hf
    split_ifs at hp ⊢ with hptr
    · rw [inj_on_of_nodup_map h.addresses he hmem hptr]
      exact hid
    · exact absurd hp hptr
  · rw [hl] at hq
    cases hq
    rcases Tree.mem_insertAt.1 hf with rfl | hf
    · rfl
    · exact absurd hp (h.fresh f hf).ne

theorem Keeps.editFolderTasks (hP : Folder.Plain P) (id : ℤ)
    (hptr : ∀ f, (g f).ptr = f.ptr) (hg : ∀ f, P f → P (g f)) :
    Keeps P (s.editFolderTasks id g) := by
  rw [State.editFolderTasks]
  rcases hq : s.getFolderTasks id with ⟨_ | p, t⟩
  · exact h.getFolderTasks hP hq
  · exact ((h.getFolderTasks hP hq).modify hptr fun f _ => hg f).release hP p

theorem Keeps.editOrCreate (hP : Folder.Plain P) (hQ : Folder.Plain Q)
    (hPQ : ∀ f, P f → Q f) (hptr : ∀ f, (g f).ptr = f.ptr)
    (hg : ∀ f, f.folderid = id → P f → Q (g f)) : Keeps Q (s.editOrCreateFolderTasks id g) := by
  rw [editOrCreateFolderTasks]
  rcases hq : s.getOrCreateFolderTasks id with ⟨p, t⟩
  have hedit : Keeps Q (t.modify p g) := (h.getOrCreate hP hq).edit hptr
    (fun f hf hp _ hPf => hg f (h.folderid_getOrCreate hq hf hp) hPf) fun f _ _ hPf => hPQ f hPf
  exact hedit.release hQ p

theorem Keeps.live_get (hP : Folder.Plain P)
    (hq : s.getFolderTasks id = (some p, t)) : t.Live p := by
  have ht : Keeps P t := h.getFolderTasks hP hq
  rw [State.getFolderTasks] at hq
  cases hl : s.getFolderTasksRdlocked id with
  | none =>
    rw [hl] at hq
    cases hq
  | some f =>
    rw [hl] at hq
    cases hq
    have hmem : f ∈ s.folders.toList := by
      rw [getFolderTasksRdlocked] at hl
      split at hl
      · next hloc =>
        cases hl
        exact (Tree.mem_of_locate hloc).1
      · cases hl
    have hmem' : ({ f with refcnt := f.refcnt + 1 } : Folder) ∈
        (s.getRef f.ptr).folders.toList := by
      rw [State.getRef, toList_modify]
      exact mem_map.2 ⟨f, hmem, if_pos rfl⟩
    rw [Live, folder_eq_of_nodup ht.addresses hmem' rfl]
    exact ⟨hmem', rfl⟩

theorem Keeps.setFolderid (hp : s.Live p)
    (hg : ∀ f, P f → P { f with folderid := id }) : Keeps P (s.setFolderid p id) := by
  obtain ⟨as, bs, hs, hrem⟩ := removeAt_position_of_nodup h.addresses hp
  have hperm : ∀ k, ((s.folders.removeAt (s.position p)).insertAt k
      { s.folder p with folderid := id }).toList.Perm
        ({ s.folder p with folderid := id } :: (as ++ bs)) := by
    intro k
    rw [← hrem]
    exact Tree.insertAt_perm k _ _
  have hsub : ∀ f ∈ as ++ bs, f ∈ s.folders.toList := by
    intro f hf
    rw [hs]
    exact (perm_middle.mem_iff).2 (mem_cons_of_mem _ hf)
  constructor
  · refine (((hperm _).map Folder.ptr).nodup_iff).2 ?_
    have hn := h.addresses
    rw [hs] at hn
    have hmiddle : (s.folder p :: (as ++ bs)).Perm (as ++ s.folder p :: bs) := perm_middle.symm
    exact ((hmiddle.map Folder.ptr).nodup_iff).2 hn
  · intro f hf
    rcases mem_cons.1 ((hperm _).mem_iff.1 hf) with rfl | hf
    · exact h.fresh (s.folder p) hp.1
    · exact h.fresh f (hsub f hf)
  · intro f hf
    rcases mem_cons.1 ((hperm _).mem_iff.1 hf) with rfl | hf
    · exact hg _ (h.folders _ hp.1)
    · exact h.folders f (hsub f hf)

end

/-! ## Operations on folders -/

variable {env : Env} {folderid parentfolderid fileid : ℤ} {name fake : Name} {taskid frtaskid : ℕ}

theorem orderly_plain (fake : Name) : Folder.Plain (Folder.Orderly fake) where
  refcnt _ _ h := h.congr ⟨rfl, rfl, rfl, rfl⟩
  fresh ptr folderid := Folder.orderly_empty ptr 1 folderid

theorem noMkdir_of_find (h : f.Orderly fake) (hf : f.find .mkdirs name 0 = none) :
    f.NoMkdir name := by
  intro mk hmk hn
  have hsome := (searchTree_zero_isSome h.mkdirs.ordered).2 ⟨mk, hmk, hn⟩
  rw [show searchTree f.mkdirs name 0 = none from hf] at hsome
  cases hsome

theorem noCreat_of_find (h : f.Orderly fake) (hf : f.find .creats name 0 = none) :
    f.NoCreat name := by
  intro cr hcr hn
  have hsome := (searchTree_zero_isSome h.creats.ordered).2 ⟨cr, hcr, hn⟩
  rw [show searchTree f.creats name 0 = none from hf] at hsome
  cases hsome

theorem ptr_dropFound {τ : Type} [TaskRecord τ] (K : TaskTree τ) (f : Folder) (n : Name)
    (taskid : ℕ) : (f.dropFound K n taskid).ptr = f.ptr := (f.edit_dropFound n taskid).ptr

theorem folderid_dropFound {τ : Type} [TaskRecord τ] (K : TaskTree τ) (f : Folder) (n : Name)
    (taskid : ℕ) : (f.dropFound K n taskid).folderid = f.folderid :=
  (f.edit_dropFound n taskid).folderid

section

variable (h : Keeps (Folder.Orderly fake) s)
include h

theorem Keeps.mkdir {flags : UInt32} :
    Keeps (Folder.Orderly fake) (mkdir env folderid name flags s).2 := by
  have hP := orderly_plain fake
  rw [State.mkdir]
  rcases hq : s.getOrCreateFolderTasks folderid with ⟨p, t⟩
  have h := h.getOrCreate hP hq
  dsimp only
  split
  · exact h.release hP p
  · cases hm : (t.folder p).find .mkdirs name 0 with
    | some x => exact h.release hP p
    | none =>
      dsimp only
      split
      · exact h.release hP p
      · split
        · exact h.editRelease hP (fun _ => rfl) fun f hf ho =>
            (ho.insertMkdir (noMkdir_of_find ho (hf ▸ hm))).count 1
        · exact h.release hP p

theorem Keeps.rmdirTask {c : Option ℕ} {task : Rmdir} :
    Keeps (Folder.Orderly fake) (((s.releaseOption c).modify p fun f =>
      (f.insert .rmdirs task).count 1).releaseFolderTasks p) := by
  have hP := orderly_plain fake
  exact (h.releaseOption hP c).editRelease hP (fun _ => rfl)
    fun f _ ho => (ho.insertRmdir _).count 1

theorem Keeps.rmdirFolder {mk : Option ℕ} {cfolderid : ℤ} :
    Keeps (Folder.Orderly fake) (rmdirFolder env p name cfolderid mk s).2 := by
  have hP := orderly_plain fake
  rw [State.rmdirFolder]
  rcases hq : s.getFolderTasks cfolderid with ⟨c, t⟩
  have h := h.getFolderTasks hP hq
  dsimp only
  split
  · cases mk with
    | none =>
      split
      · exact h.rmdirTask
      · exact (h.releaseOption hP c).release hP p
    | some k =>
      have hdel : Keeps (Folder.Orderly fake) (t.modify p fun f => f.del .mkdirs k) :=
        h.modify (fun _ => rfl) fun f _ ho => ho.delMkdir k
      split
      · exact hdel.rmdirTask
      · exact (hdel.releaseOption hP c).release hP p
  · exact (h.releaseOption hP c).release hP p

theorem Keeps.rmdir {flags : UInt32} :
    Keeps (Folder.Orderly fake) (rmdir env folderid flags name s).2 := by
  have hP := orderly_plain fake
  rw [State.rmdir]
  rcases hq : s.getOrCreateFolderTasks folderid with ⟨p, t⟩
  have h := h.getOrCreate hP hq
  dsimp only
  cases (t.folder p).find .mkdirs name 0 with
  | some x =>
    have h : Keeps (Folder.Orderly fake) (t.modify p Folder.uncount) :=
      h.modify (fun _ => rfl) fun f _ ho => ho.uncount
    exact h.rmdirFolder
  | none =>
    dsimp only
    cases env.folder folderid name with
    | none => exact h.release hP p
    | some row =>
      dsimp only
      split
      · exact h.release hP p
      · split
        · exact h.release hP p
        · exact h.rmdirFolder

end

theorem Keeps.deleteFolderIfEx {fromFid : ℤ} {rmtask : ℕ} (h : Keeps P s) (hP : Folder.Plain P)
    (hr : s.deleteFolderIfEx env folderid name fromFid = (rmtask, t)) : Keeps P t := by
  suffices hs : Keeps P (s.deleteFolderIfEx env folderid name fromFid).2 by rwa [hr] at hs
  rw [State.deleteFolderIfEx]
  rcases hq : s.getFolderTasks folderid with ⟨_ | p, t⟩
  · exact h.getFolderTasks hP hq
  · have h := h.getFolderTasks hP hq
    dsimp only
    cases (t.folder p).find .mkdirs name 0 with
    | some x => exact h.release hP p
    | none =>
      dsimp only
      split
      · exact h.release hP p
      · exact h.release hP p

/-- The folder with an id has no pending folder of a name, unless it is another name. -/
def KeepsFree (id : ℤ) (name newName : Name) (f : Folder) : Prop :=
  f.folderid = id → newName ≠ name → f.NoMkdir newName

theorem noMkdir_dropFound {n m : Name} (h : f.NoMkdir n) :
    (f.dropFound .mkdirs m taskid).NoMkdir n := by
  intro mk hmk
  rw [Folder.mkdirs_dropFound] at hmk
  exact h mk (mem_of_mem_dropTree hmk)

theorem name_fillMkdirData {mk : Mkdir} : (fillMkdirData env id mk).name = mk.name := by
  rw [fillMkdirData]
  split
  · cases env.fstask (-id).toNat <;> rfl
  · cases env.folderTimes id <;> rfl

/-- The pending folder of a renamed one is added. -/
theorem Keeps.addRenamed {newName : Name} {rm : Rmdir} {mk : Mkdir}
    (h : Keeps (fun f => f.Orderly fake ∧ KeepsFree id name newName f) s)
    (hid : ∀ f ∈ s.folders.toList, f.ptr = p → f.folderid = id) (hmk : mk.name = newName) :
    Keeps (Folder.Orderly fake) ((s.modify p fun f => (((f.dropFound .mkdirs name 0).insert .rmdirs
      rm).insert .mkdirs mk).count 2).releaseFolderTasks p) := by
  have h : Keeps (Folder.Orderly fake) (s.modify p fun f => (((f.dropFound .mkdirs name 0).insert
      .rmdirs rm).insert .mkdirs mk).count 2) := by
    refine h.edit (fun f => ptr_dropFound .mkdirs f name 0) (fun f hf hp _ ho => ?_)
      fun f _ _ ho => ho.1
    have hno : (f.dropFound .mkdirs name 0).NoMkdir newName := by
      by_cases hne : newName = name
      · rw [hne]
        exact ho.1.noMkdir_drop
      · exact noMkdir_dropFound (ho.2 (hid f hf hp) hne)
    exact (((ho.1.dropMkdir name 0).insertRmdir rm).insertMkdir (hmk ▸ hno)).count 2
  exact h.release (orderly_plain fake) p

section

variable (h : Keeps (Folder.Orderly fake) s)
include h

/-- A folder is renamed to a name which is not that of a pending folder, but for its own one. -/
theorem Keeps.renameFolder {toFolderid : ℤ} {newName : Option Name} {flags : UInt32}
    (hfree : ∀ f ∈ s.folders.toList, KeepsFree toFolderid name (newName.getD name) f) :
    Keeps (Folder.Orderly fake)
      (renameFolder env folderid parentfolderid name toFolderid newName flags s).2 := by
  have hP := orderly_plain fake
  have hPQ := hP.and (Q := KeepsFree toFolderid name (newName.getD name))
    ⟨fun _ _ hf => hf, fun _ _ _ _ _ hmk => absurd hmk not_mem_nil⟩
  have h := h.and hfree
  rw [State.renameFolder]
  generalize newName.getD name = newName at *
  rcases hr : s.deleteFolderIfEx env toFolderid newName folderid with ⟨rmtask, s₁⟩
  have h := h.deleteFolderIfEx hPQ hr
  dsimp only
  rcases hq : s₁.getOrCreateFolderTasks parentfolderid with ⟨p, s₂⟩
  have h := h.getOrCreate hPQ hq
  dsimp only
  split
  · -- the folder renamed from keeps its id, and has no more pending folders
    have h := h.editRelease (p := p) (g := fun f => ((f.dropFound .mkdirs name 0).insert .rmdirs
        { folderid := folderid, taskid := env.insertid (if rmtask = 0 then 0 else 1),
          name := name }).count 1) hPQ (fun f => ptr_dropFound .mkdirs f name 0) fun f _ hf =>
      ⟨((hf.1.dropMkdir name 0).insertRmdir _).count 1, fun hid hne =>
        noMkdir_dropFound (hf.2 (folderid_dropFound .mkdirs f name 0 ▸ hid) hne)⟩
    rcases hq' : (releaseFolderTasks _ p).getOrCreateFolderTasks toFolderid with ⟨q, s₃⟩
    have hid : ∀ f ∈ s₃.folders.toList, f.ptr = q → f.folderid = toFolderid :=
      fun f => h.folderid_getOrCreate hq'
    have h := h.getOrCreate hPQ hq'
    exact h.addRenamed hid name_fillMkdirData
  · exact (h.release hPQ p).mono fun f hf => hf.1

/-! ## Operations on files -/

/-- A file is added under a name which is not that of a pending file. -/
theorem Keeps.addCreat
    (hno : ∀ f ∈ s.folders.toList, f.ptr = p → f.NoCreat name) :
    Keeps (Folder.Orderly fake) (addCreat env p name fileid s).2 := by
  rw [State.addCreat]
  split
  · exact h.edit (fun _ => rfl)
      (fun f hf hp _ ho => (ho.insertUnlinkCreat (hno f hf hp) rfl rfl).count 2)
      fun _ _ _ ho => ho
  · exact h

theorem Keeps.injectCreat {cr : Creat}
    (hno : ∀ f ∈ s.folders.toList, f.ptr = p → f.NoCreat cr.name ∧ f.Covers fake cr) :
    Keeps (Folder.Orderly fake) (injectCreat p cr s) :=
  h.edit (fun _ => rfl)
    (fun f hf hp _ ho => (ho.insertCreat (hno f hf hp).1 (hno f hf hp).2).count 1)
    fun _ _ _ ho => ho

theorem Keeps.injectUnlink {un : Unlink} {k : ℕ}
    (hk : ∀ f ∈ s.folders.toList, f.ptr = p → Ordered (f.unlinks.insertAt k un)) :
    Keeps (Folder.Orderly fake) (injectUnlink p un k s) :=
  h.edit (fun _ => rfl) (fun f hf hp _ ho => (ho.insertUnlinkAt (hk f hf hp)).count 1)
    fun _ _ _ ho => ho

theorem Keeps.addModifiedFile :
    Keeps (Folder.Orderly fake) (addModifiedFile env p name fileid s).2 := by
  have h : Keeps (fun f => f.Orderly fake ∧ (f.ptr = p → f.NoCreat name))
      (s.modify p fun f => f.dropFound .creats name 0) :=
    h.edit (fun f => ptr_dropFound .creats f name 0)
      (fun f _ _ _ ho => ⟨ho.dropCreat name 0, fun _ => ho.noCreat_drop⟩)
      fun f _ hp ho => ⟨ho, fun hp' => absurd hp' hp⟩
  rw [State.addModifiedFile]
  dsimp only
  split
  · exact h.edit (fun _ => rfl)
      (fun f _ hp _ ho => (ho.1.insertUnlinkCreat (ho.2 hp) rfl rfl).count 2)
      fun _ _ _ ho => ho.1
  · exact h.mono fun f hf => hf.1

theorem Keeps.addLocalCreatStatic {data : List UInt8} :
    Keeps (Folder.Orderly fake) (addLocalCreatStatic env folderid name data s).2 := by
  have hP := orderly_plain fake
  rw [State.addLocalCreatStatic]
  rcases hq : s.getOrCreateFolderTasks folderid with ⟨p, t⟩
  have h := h.getOrCreate hP hq
  dsimp only
  cases hc : (t.folder p).find .creats name 0 with
  | some x => exact h.release hP p
  | none =>
    rw [if_neg (by simp)]
    split
    · exact h.release hP p
    · refine Keeps.release ?_ hP p
      have h : Keeps (Folder.Orderly fake) (t.modify p fun f => ((f.insert .unlinks
          { fileid := 0, taskid := t.localTaskid, name := name }).insert .creats
          { fileid := 0, rfileid := 0, taskid := t.localTaskid, name := name
            localCreat := some { data := data, ctime := env.time } }).count 2) :=
        h.modify (fun _ => rfl) fun f hf ho =>
          (ho.insertUnlinkCreat (noCreat_of_find ho (hf ▸ hc)) rfl rfl).count 2
      exact ⟨h.addresses, h.fresh, h.folders⟩

end

theorem Keeps.getFileAtOldLocation {id' : ℤ} (h : Keeps P s) (hP : Folder.Plain P)
    (hq : s.getFileAtOldLocation env fileid = (id', t)) : Keeps P t := by
  suffices hs : Keeps P (s.getFileAtOldLocation env fileid).2 by rwa [hq] at hs
  rw [State.getFileAtOldLocation]
  split
  · exact h
  · rcases env.history fileid with _ | ⟨id, name'⟩
    · exact h
    · dsimp only
      rcases hg : s.getFolderTasks id with ⟨_ | p, t⟩
      · exact h.getFolderTasks hP hg
      · have h := (h.getFolderTasks hP hg).release hP p
        dsimp only
        cases (t.folder p).find .creats name' 0 with
        | some x => exact h
        | none =>
          dsimp only
          split
          · exact h
          · exact h

/-- A static file is deleted, and the deletion that goes with it. -/
theorem dropStatic {k : ℕ} {cr : Creat} (ho : f.Orderly fake)
    (hc : f.find .creats name 0 = some (k, cr)) :
    ((f.dropFound .unlinks cr.name cr.taskid).del .creats k).Orderly fake := by
  have hname : cr.name = name := (mem_of_searchTree hc).2.1
  have hcreats : (f.del .creats k).creats = dropTree f.creats name 0 := by
    rw [dropTree, show searchTree f.creats name 0 = some (k, cr) from hc]
    rfl
  have hno : (f.del .creats k).NoTask cr.name cr.taskid := by
    intro cr' hcr' hn
    rw [hcreats] at hcr'
    exact absurd rfl (ne_of_mem_dropTree ho.creats hcr' (hn.trans hname)).1
  refine ((ho.delCreat k).dropUnlink hno).congr ?_
  have hfind : (f.del .creats k).find .unlinks cr.name cr.taskid =
      f.find .unlinks cr.name cr.taskid := rfl
  rw [Folder.dropFound, Folder.dropFound, hfind]
  rcases f.find .unlinks cr.name cr.taskid with _ | x
  · exact ⟨rfl, rfl, rfl, rfl⟩
  · exact ⟨rfl, rfl, rfl, rfl⟩

theorem Keeps.unlinkFile (h : Keeps (Folder.Orderly fake) s) :
    Keeps (Folder.Orderly fake) (unlinkFile env p name fileid s).2 := by
  have hP := orderly_plain fake
  rw [State.unlinkFile]
  rcases hq : s.getFileAtOldLocation env fileid with ⟨id, t⟩
  have h := h.getFileAtOldLocation hP hq
  dsimp only
  split
  · exact h.editRelease hP (fun _ => rfl) fun f _ ho => (ho.insertUnlink _).count 1
  · exact h.release hP p

theorem Keeps.unlink (h : Keeps (Folder.Orderly fake) s) :
    Keeps (Folder.Orderly fake) (unlink env folderid name s).2 := by
  have hP := orderly_plain fake
  rw [State.unlink]
  rcases hq : s.getOrCreateFolderTasks folderid with ⟨p, t⟩
  have h := h.getOrCreate hP hq
  dsimp only
  rcases hc : (t.folder p).find .creats name 0 with _ | ⟨k, cr⟩
  · dsimp only
    cases env.file folderid name with
    | none => exact h.release hP p
    | some fileid =>
      dsimp only
      split
      · exact h.release hP p
      · exact h.unlinkFile
  · dsimp only
    split
    · -- the deletion that goes with the static file, and the file itself
      exact h.editRelease hP (fun f => ptr_dropFound .unlinks f _ _) fun f hf ho =>
        (dropStatic ho (hf ▸ hc)).uncount
    · have h : Keeps (Folder.Orderly fake) (t.modify p fun f => (f.del .creats k).uncount) :=
        h.modify (fun _ => rfl) fun f _ ho => (ho.delCreat k).uncount
      exact h.unlinkFile

theorem Keeps.renameOpenfile {current current' : Option ℕ} (h : Keeps P s) (hP : Folder.Plain P)
    (hq : s.renameOpenfile current id = (current', t)) : Keeps P t := by
  suffices hs : Keeps P (s.renameOpenfile current id).2 by rwa [hq] at hs
  cases current with
  | none => exact h
  | some q =>
    rw [State.renameOpenfile]
    split
    · rcases hg : (s.releaseFolderTasks q).getOrCreateFolderTasks id with ⟨r, t⟩
      exact (h.release hP q).getOrCreate hP hg
    · exact h

theorem Keeps.renameFile {current : Option ℕ} {toFolderid : ℤ} {newName : Option Name}
    (h : Keeps (Folder.Orderly fake) s) :
    Keeps (Folder.Orderly fake)
      (renameFile env current fileid parentfolderid name toFolderid newName s).2.2 := by
  have hP := orderly_plain fake
  rw [State.renameFile]
  rcases hq : s.getOrCreateFolderTasks parentfolderid with ⟨p, s₁⟩
  have h := h.getOrCreate hP hq
  dsimp only
  split
  · have h : Keeps (Folder.Orderly fake) (s₁.modify p fun f => f.dropFound .creats name 0) :=
      h.modify (fun f => ptr_dropFound .creats f name 0) fun f _ ho => ho.dropCreat name 0
    rcases hr : (s₁.modify p fun f => f.dropFound .creats name 0).renameOpenfile current toFolderid
      with ⟨current', s₂⟩
    have h := h.renameOpenfile hP hr
    dsimp only
    have h := h.editRelease (p := p) (g := fun f => (f.insert .unlinks
      { fileid := fileid, taskid := env.insertid 0, name := name }).count 1) hP (fun _ => rfl)
      fun f _ ho => (ho.insertUnlink _).count 1
    rcases hq' : (releaseFolderTasks _ p).getOrCreateFolderTasks toFolderid with ⟨q, s₃⟩
    have h := h.getOrCreate hP hq'
    exact h.editRelease hP (fun f => ptr_dropFound .creats f _ 0) fun f _ ho =>
      ((ho.dropCreat (newName.getD name) 0).insertUnlinkCreat ho.noCreat_drop rfl rfl).count 2
  · exact h.release hP p

/-! ## Confirmed tasks -/

theorem orderly_assignMkdir (ho : f.Orderly fake) (taskid : ℕ) (folderid : ℤ) :
    (assignMkdir taskid folderid f).Orderly fake := by
  rw [assignMkdir]
  split
  · exact ho.assignMkdir (fun _ => by rfl) _
  · exact ho

theorem orderly_assignCreat (ho : f.Orderly fake) (taskid : ℕ) (fileid : ℤ) :
    (assignCreat taskid fileid f).Orderly fake := by
  rw [assignCreat]
  split
  · exact ho.assignCreat (fun _ => by rfl) (fun _ => by rfl) _
  · exact ho

section

variable (h : Keeps (Folder.Orderly fake) s)
include h

theorem Keeps.folderCreatedReinsert :
    Keeps (Folder.Orderly fake) (folderCreatedReinsert taskid folderid s) := by
  have hP := orderly_plain fake
  rw [State.folderCreatedReinsert]
  rcases hq : s.getFolderTasks (-taskid) with ⟨_ | p, t⟩
  · exact h.getFolderTasks hP hq
  · have hlive := h.live_get hP hq
    exact ((h.getFolderTasks hP hq).setFolderid hlive fun f ho =>
      ho.congr ⟨rfl, rfl, rfl, rfl⟩).release hP p

theorem Keeps.folderCreated :
    Keeps (Folder.Orderly fake) (folderCreated env parentfolderid taskid folderid name s) := by
  have hP := orderly_plain fake
  have hdrop : Keeps (Folder.Orderly fake)
      (s.editFolderTasks parentfolderid fun f => f.dropFound .mkdirs name taskid) :=
    h.editFolderTasks hP _ (fun f => ptr_dropFound .mkdirs f name taskid)
      fun f ho => ho.dropMkdir name taskid
  rw [State.folderCreated]
  refine Keeps.folderCreatedReinsert ?_
  split
  · exact hdrop
  · rcases env.fstask taskid with _ | row
    · exact hdrop
    · exact hdrop.editFolderTasks hP _ (fun f => (edit_assignMkdir taskid folderid f).ptr)
        fun _ ho => orderly_assignMkdir ho taskid folderid

theorem Keeps.folderDeleted :
    Keeps (Folder.Orderly fake) (folderDeleted parentfolderid taskid name s) :=
  h.editFolderTasks (orderly_plain fake) _ (fun f => ptr_dropFound .rmdirs f name taskid)
    fun _ ho => ho.dropRmdir name taskid

theorem Keeps.lookForCreatInDb :
    Keeps (Folder.Orderly fake) (lookForCreatInDb env taskid fileid s) := by
  rw [State.lookForCreatInDb]
  rcases env.fstask taskid with _ | row
  · exact h
  · exact h.editFolderTasks (orderly_plain fake) _
      (fun f => (edit_assignCreat taskid fileid f).ptr)
      fun _ ho => orderly_assignCreat ho taskid fileid

theorem Keeps.fileCreated :
    Keeps (Folder.Orderly fake) (fileCreated env parentfolderid taskid name fileid s) := by
  have h : Keeps (Folder.Orderly fake) (s.editFolderTasks parentfolderid fun f =>
      (f.dropFound .creats name taskid).dropFound .unlinks name taskid) :=
    h.editFolderTasks (orderly_plain fake) _
      (fun f => (ptr_dropFound .unlinks _ name taskid).trans (ptr_dropFound .creats f name taskid))
      fun _ ho => (ho.dropCreat name taskid).dropUnlink ho.noTask_drop
  rw [State.fileCreated]
  split
  · exact h
  · exact h.lookForCreatInDb

end

theorem noTask_plain (n : Name) (taskid : ℕ) : Folder.Plain (Folder.NoTask n taskid) where
  refcnt _ _ h := h
  fresh _ _ _ hcr := absurd hcr not_mem_nil

/-- The deletions left do not go with other pending files than before. -/
theorem noTask_of_subset {h : Folder} {n : Name} (hf : f.NoTask n taskid)
    (hsub : ∀ cr ∈ h.creats.toList, cr ∈ f.creats.toList) : h.NoTask n taskid :=
  fun cr hcr => hf cr (hsub cr hcr)

/-- A pending deletion is confirmed which does not go with a pending file. -/
theorem Keeps.fileDeleted (h : Keeps (Folder.Orderly fake) s)
    (hno : ∀ f ∈ s.folders.toList, f.NoTask name taskid) :
    Keeps (Folder.Orderly fake) (fileDeleted parentfolderid taskid name s) := by
  have h := (h.and hno).editFolderTasks ((orderly_plain fake).and (noTask_plain name taskid))
    parentfolderid (fun f => ptr_dropFound .unlinks f name taskid) fun f ho =>
      ⟨ho.1.dropUnlink ho.2, noTask_of_subset ho.2 (by
        rw [creats_dropFound_unlinks]
        exact fun _ hcr => hcr)⟩
  exact h.mono fun f ho => ho.1

/-- The order in which a pending file and its deletion are dropped does not matter. -/
theorem sameTrees_drop (f : Folder) : Folder.SameTrees
    ((f.dropFound .creats name taskid).dropFound .unlinks name taskid)
    ((f.dropFound .unlinks name taskid).dropFound .creats name taskid) := by
  rcases hu : f.find .unlinks name taskid with _ | ⟨i, un⟩
  all_goals rcases hc : f.find .creats name taskid with _ | ⟨j, cr⟩
  · simp only [Folder.dropFound, hu, hc]
    exact ⟨rfl, rfl, rfl, rfl⟩
  · have hu' : (f.del .creats j).uncount.find .unlinks name taskid = none := hu
    simp only [Folder.dropFound, hu, hc, hu']
    exact ⟨rfl, rfl, rfl, rfl⟩
  · have hc' : (f.del .unlinks i).uncount.find .creats name taskid = none := hc
    simp only [Folder.dropFound, hu, hc, hc']
    exact ⟨rfl, rfl, rfl, rfl⟩
  · have hu' : (f.del .creats j).uncount.find .unlinks name taskid = some (i, un) := hu
    have hc' : (f.del .unlinks i).uncount.find .creats name taskid = some (j, cr) := hc
    simp only [Folder.dropFound, hu, hc, hu', hc']
    exact ⟨rfl, rfl, rfl, rfl⟩

theorem Keeps.fileRenamed (h : Keeps (Folder.Orderly fake) s)
    (hno : ∀ row, env.fstask frtaskid = some row →
      ∀ f ∈ s.folders.toList, f.NoTask row.text1 frtaskid) :
    Keeps (Folder.Orderly fake) (fileRenamed env folderid taskid name frtaskid s) := by
  have hP := orderly_plain fake
  have hdrop : ∀ f : Folder, f.Orderly fake →
      ((f.dropFound .unlinks name taskid).dropFound .creats name taskid).Orderly fake :=
    fun f ho => ((ho.dropCreat name taskid).dropUnlink ho.noTask_drop).congr (sameTrees_drop f)
  have hptr : ∀ f : Folder,
      ((f.dropFound .unlinks name taskid).dropFound .creats name taskid).ptr = f.ptr := fun f =>
    (ptr_dropFound .creats _ name taskid).trans (ptr_dropFound .unlinks f name taskid)
  rw [State.fileRenamed]
  cases hr : env.fstask frtaskid with
  | none => exact h.editFolderTasks hP _ hptr hdrop
  | some row =>
    have h := (h.and (hno row hr)).editFolderTasks (hP.and (noTask_plain row.text1 frtaskid))
      folderid hptr fun f ho => ⟨hdrop f ho.1, noTask_of_subset ho.2 fun cr hcr => by
        rw [Folder.creats_dropFound, creats_dropFound_unlinks] at hcr
        exact mem_of_mem_dropTree hcr⟩
    have h := h.editFolderTasks (hP.and (noTask_plain row.text1 frtaskid)) row.folderid
      (fun f => ptr_dropFound .unlinks f row.text1 frtaskid) fun f ho =>
        ⟨ho.1.dropUnlink ho.2, noTask_of_subset ho.2 (by
          rw [creats_dropFound_unlinks]
          exact fun _ hcr => hcr)⟩
    exact h.mono fun f ho => ho.1

theorem Keeps.folderRenamed (h : Keeps (Folder.Orderly fake) s) :
    Keeps (Folder.Orderly fake) (folderRenamed env parentfolderid taskid name frtaskid s) := by
  have hP := orderly_plain fake
  have h : Keeps (Folder.Orderly fake) (s.editFolderTasks parentfolderid fun f =>
      (f.dropFound .mkdirs name taskid).dropFound .rmdirs name taskid) :=
    h.editFolderTasks hP _
      (fun f => (ptr_dropFound .rmdirs _ name taskid).trans (ptr_dropFound .mkdirs f name taskid))
      fun f ho => (ho.dropMkdir name taskid).dropRmdir name taskid
  rw [State.folderRenamed]
  cases env.fstask frtaskid with
  | none => exact h
  | some row =>
    exact h.editFolderTasks hP _ (fun f => ptr_dropFound .rmdirs f row.text1 frtaskid)
      fun f ho => ho.dropRmdir row.text1 frtaskid

/-! ## Loading and cleaning -/

/-- What is asked of a row which is loaded into a folder. -/
def InitOk (row : InitRow) (k : ℕ) (f : Folder) : Prop :=
  match row.type with
  | .mkdir => f.NoMkdir row.text1
  | .creat => f.NoCreat row.text1
  | .renfileTo =>
    Ordered (f.unlinks.insertAt k { fileid := row.fileid, taskid := row.id, name := row.text1 })
  | .renfolderTo => f.NoMkdir row.text1
  | _ => True

theorem ptr_initTask (env : Env) (row : InitRow) (fileid : ℤ) (k : ℕ) (f : Folder) :
    (initTask env row fileid k f).ptr = f.ptr := by
  rw [initTask]
  cases row.type with
  | mkdir => rfl
  | rmdir => exact ptr_dropFound .mkdirs f _ 0
  | creat => rfl
  | unlink | renfileFrom | renfileTo => exact ptr_dropFound .creats f _ 0
  | renfolderFrom => exact ptr_dropFound .mkdirs f _ 0
  | renfolderTo => rfl
  | modify | unlinkSetRev => exact ptr_dropFound .creats f _ 0

theorem orderly_initDoTaskUnlink (ho : f.Orderly fake) (row : InitRow) (fileid : ℤ) :
    (initDoTaskUnlink row fileid f).Orderly fake :=
  ((ho.dropCreat row.text1 0).insertUnlink _).count 1

theorem orderly_initTaskRmdir (ho : f.Orderly fake) (row : InitRow) :
    (initTaskRmdir row f).Orderly fake :=
  ((ho.dropMkdir row.text1 0).insertRmdir _).count 1

theorem unlinks_dropFound_creats (f : Folder) (n : Name) (taskid : ℕ) :
    (f.dropFound .creats n taskid).unlinks = f.unlinks := by
  rw [Folder.dropFound]
  cases f.find .creats n taskid <;> rfl

theorem orderly_initTask {row : InitRow} {k : ℕ} (ho : f.Orderly fake) (hok : InitOk row k f) :
    (initTask env row fileid k f).Orderly fake := by
  rw [InitOk] at hok
  rw [initTask]
  cases hty : row.type with
  | mkdir =>
    rw [hty] at hok
    exact (ho.insertMkdir hok).count 1
  | rmdir => exact orderly_initTaskRmdir ho row
  | creat =>
    rw [hty] at hok
    exact (ho.insertUnlinkCreat hok rfl rfl).count 2
  | unlink | renfileFrom => exact orderly_initDoTaskUnlink ho row _
  | renfileTo =>
    rw [hty] at hok
    have hk : Ordered ((f.dropFound .creats row.text1 0).unlinks.insertAt k
        { fileid := row.fileid, taskid := row.id, name := row.text1 }) := by
      rw [unlinks_dropFound_creats]
      exact hok
    refine Folder.Orderly.count ?_ 2
    refine ((ho.dropCreat row.text1 0).insertUnlinkAt hk).insertCreat ho.noCreat_drop ?_
    exact .inr ⟨_, Tree.mem_insertAt.2 (.inl rfl), rfl, rfl⟩
  | renfolderFrom => exact orderly_initTaskRmdir ho row
  | renfolderTo =>
    rw [hty] at hok
    refine ((ho.insertRmdir _).insertMkdir ?_).count 2
    rw [name_fillMkdirData]
    exact hok
  | modify =>
    exact ((ho.dropCreat row.text1 0).insertUnlinkCreat ho.noCreat_drop rfl rfl).count 2
  | unlinkSetRev => exact orderly_initDoTaskUnlink ho row _

theorem Keeps.load {row : InitRow} {k : ℕ} (h : Keeps (Folder.Orderly fake) s)
    (hok : ∀ f ∈ s.folders.toList, f.folderid = row.folderid → InitOk row k f) :
    Keeps (Folder.Orderly fake) (load env row fileid k s) := by
  have hP := orderly_plain fake
  have hQ : Folder.Plain fun f => f.folderid = row.folderid → InitOk row k f := by
    refine ⟨fun f n hf => hf, fun ptr id _ => ?_⟩
    rw [InitOk]
    split
    · exact forall_mem_nil _
    · exact forall_mem_nil _
    · exact pairwise_singleton _ _
    · exact forall_mem_nil _
    · trivial
  exact (h.and hok).editOrCreate (hP.and hQ) hP (fun f ho => ho.1) (ptr_initTask env row fileid k)
    fun f hid ho => orderly_initTask ho.1 (ho.2 hid)

theorem Keeps.clean (h : Keeps (Folder.Orderly fake) s) :
    Keeps (Folder.Orderly fake) (clean s) := by
  rw [State.clean]
  generalize s.folders.toList = l
  induction l generalizing s with
  | nil => exact h
  | cons f l ih =>
    refine ih ?_
    rw [cleanFolder]
    split
    · exact h.removeAt _
    · exact h.modify (fun _ => rfl) fun _ _ _ =>
        (Folder.orderly_empty 0 0 0).congr ⟨rfl, rfl, rfl, rfl⟩

end State

namespace System

open State

variable {fake : Name}

/-- The condition on a step: no second pending folder or pending file of a name is added, and the
    pending deletions of names stay in their order. Files which go without a deletion have one of
    the names made up; a deletion confirmed does not go with a pending file. -/
def NamesOk (fake : Name) (S : System) : FsTasksAction → Prop
  | .operation (.addCreat _ p name _) => ∀ f ∈ S.tasks.folders.toList, f.ptr = p → f.NoCreat name
  | .operation (.injectCreat p cr) => ∀ f ∈ S.tasks.folders.toList, f.ptr = p →
      f.NoCreat cr.name ∧ f.Covers fake cr
  | .operation (.injectUnlink p un k) => ∀ f ∈ S.tasks.folders.toList, f.ptr = p →
      Ordered (f.unlinks.insertAt k un)
  | .operation (.renameFolder _ _ _ name toId newName _) => ∀ f ∈ S.tasks.folders.toList,
      KeepsFree toId name (newName.getD name) f
  | .operation (.fileDeleted _ taskid name) => ∀ f ∈ S.tasks.folders.toList, f.NoTask name taskid
  | .operation (.fileRenamed env _ _ _ frtaskid) => ∀ row, env.fstask frtaskid = some row →
      ∀ f ∈ S.tasks.folders.toList, f.NoTask row.text1 frtaskid
  | .load _ row _ k => ∀ f ∈ S.tasks.folders.toList, f.folderid = row.folderid → InitOk row k f
  | _ => True

theorem keeps_withRef {S S' : System} {p : ℕ} {f : State → State} (h : S.withRef p f = some S')
    (hf : Keeps (Folder.Orderly fake) (f S.tasks)) : Keeps (Folder.Orderly fake) S'.tasks := by
  rw [withRef] at h
  split at h
  · cases h
    exact hf
  · cases h

theorem keeps_operation {S S' : System} {a : TasksAction}
    (h : Keeps (Folder.Orderly fake) S.tasks) (hok : NamesOk fake S (.operation a))
    (hs : S.step a = some S') : Keeps (Folder.Orderly fake) S'.tasks := by
  have hP := orderly_plain fake
  cases a with
  | getFolderTasks id =>
    cases hs
    exact h.getFolderTasks hP rfl
  | getOrCreateFolderTasks id =>
    cases hs
    exact h.getOrCreate hP rfl
  | getRef p =>
    rw [step] at hs
    split at hs
    · cases hs
      exact h.getRef hP
    · cases hs
  | releaseFolderTasks p =>
    rw [step] at hs
    split at hs
    · cases hs
      exact h.release hP p
    · cases hs
  | mkdir env id name flags =>
    cases hs
    exact h.mkdir
  | rmdir env id flags name =>
    cases hs
    exact h.rmdir
  | addCreat env p name fileid =>
    rw [step] at hs
    split at hs
    · exact keeps_withRef hs (h.addCreat hok)
    · cases hs
  | injectCreat p cr => exact keeps_withRef hs (h.injectCreat hok)
  | injectUnlink p un k => exact keeps_withRef hs (h.injectUnlink hok)
  | addModifiedFile env p name fileid =>
    rw [step] at hs
    split at hs
    · exact keeps_withRef hs h.addModifiedFile
    · cases hs
  | addLocalCreatStatic env id name data =>
    cases hs
    exact h.addLocalCreatStatic
  | unlink env id name =>
    cases hs
    exact h.unlink
  | renameFile env current fileid id name toId newName =>
    rw [step] at hs
    split at hs
    · cases hs
      exact h.renameFile
    · cases hs
  | renameFolder env folderid id name toId newName flags =>
    cases hs
    exact h.renameFolder hok
  | folderCreated env id taskid folderid name =>
    cases hs
    exact h.folderCreated
  | folderDeleted id taskid name =>
    cases hs
    exact h.folderDeleted
  | fileCreated env id taskid name fileid =>
    cases hs
    exact h.fileCreated
  | fileModified env id taskid name fileid =>
    cases hs
    exact h.fileCreated
  | fileDeleted id taskid name =>
    cases hs
    exact h.fileDeleted hok
  | fileRenamed env id taskid name frtaskid =>
    cases hs
    exact h.fileRenamed hok
  | folderRenamed env id taskid name frtaskid =>
    cases hs
    exact h.folderRenamed

/-- In every state reached, every folder object is orderly. -/
theorem orderly_of_reachable {S : System} (h : fsTasksMachine.Reachable (NamesOk fake) S) :
    Keeps (Folder.Orderly fake) S.tasks := by
  refine Machine.Reachable.invariant (M := fsTasksMachine)
    (P := fun S => Keeps (Folder.Orderly fake) S.tasks) (fun S hS => ?_)
    (fun S a S' hi hok hs => ?_) h
  · obtain rfl : S = initial := hS
    exact ⟨nodup_nil, forall_mem_nil _,
      forall_mem_nil _⟩
  · cases a with
    | operation a => exact keeps_operation hi hok hs
    | load env row fileid k =>
      cases hs
      exact hi.load hok
    | clean =>
      cases hs
      exact hi.clean

end System

end Pclsync
