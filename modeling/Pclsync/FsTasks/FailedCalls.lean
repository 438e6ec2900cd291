import Pclsync.FsTasks.Pending

/-!
# Calls that return an error

`psync_fstask_rmdir`, `psync_fstask_unlink`, `psync_fstask_add_modified_file` and the two renames
edit the trees of a folder and the tables of the database, in one transaction whose commit may fail.
What they do to the trees before the last check or before the commit is not undone:

* `rmdir` counts the pending `mkdir` of its folder off before it checks that the folder is empty,
  and deletes it before the commit;
* `unlink` and `addModifiedFile` delete the pending file before the commit;
* `renameFile` and `renameFolder` edit nothing before the commit.

`TaskCall.unchanged_iff`: a call that returns an error leaves what is pending unchanged if and only
if it finds no pending record of its name.
-/

namespace Pclsync

open Function Multiset

/-- The calls. -/
inductive TaskCall
  | rmdir (env : Env) (folderid : ℤ) (parentflags : UInt32) (name : Name)
  | unlink (env : Env) (folderid : ℤ) (name : Name)
  | addModifiedFile (env : Env) (p : ℕ) (name : Name) (fileid : ℤ)
  | renameFile (env : Env) (current : Option ℕ) (fileid parentfolderid : ℤ) (name : Name)
      (toFolderid : ℤ) (newName : Option Name)
  | renameFolder (env : Env) (folderid parentfolderid : ℤ) (name : Name) (toFolderid : ℤ)
      (newName : Option Name) (targetflags : UInt32)

namespace TaskCall

open State

/-- Whether the call succeeds, and the state after it. -/
def run (s : State) : TaskCall → Bool × State
  | rmdir env folderid parentflags name =>
    ((s.rmdir env folderid parentflags name).1.isOk, (s.rmdir env folderid parentflags name).2)
  | unlink env folderid name =>
    ((s.unlink env folderid name).1.isOk, (s.unlink env folderid name).2)
  | addModifiedFile env p name fileid =>
    ((s.addModifiedFile env p name fileid).1.isSome, (s.addModifiedFile env p name fileid).2)
  | renameFile env current fileid parentfolderid name toFolderid newName =>
    ((s.renameFile env current fileid parentfolderid name toFolderid newName).1.isOk,
      (s.renameFile env current fileid parentfolderid name toFolderid newName).2.2)
  | renameFolder env folderid parentfolderid name toFolderid newName targetflags =>
    ((s.renameFolder env folderid parentfolderid name toFolderid newName targetflags).1.isOk,
      (s.renameFolder env folderid parentfolderid name toFolderid newName targetflags).2)

/-- A call on a folder object is on one that is there. -/
def OnLive (s : State) : TaskCall → Prop
  | addModifiedFile _ p _ _ => s.Live p
  | _ => True

/-- The call finds no pending record that it deletes before it is known to succeed. -/
def FindsNone (s : State) : TaskCall → Prop
  | rmdir _ folderid _ name => (s.pending folderid).find .mkdirs name 0 = none
  | unlink _ folderid name => (s.pending folderid).find .creats name 0 = none
  | addModifiedFile _ p name _ => (s.folder p).find .creats name 0 = none
  | renameFile .. => True
  | renameFolder .. => True

end TaskCall

namespace State

variable {s t u : State} {p : ℕ} {i fileid : ℤ} {name : Name} {env : Env} {H : Multiset (ℕ × ℤ)}

/-! ## Counted off -/

/-- A folder in which something was pending is counted off, and maybe lost. -/
theorem pending_ne_of_counted (hf : s.pending i ≠ Folder.nothing)
    (hc : (t.pending i).taskscnt = (s.pending i).taskscnt - 1) (hl : Loses t u) :
    u.pending ≠ s.pending := by
  intro he
  rcases hl i with hi | hi
  · rw [he] at hi
    rw [← hi] at hc
    grind
  · exact hf (by rw [← he, hi])

theorem ne_nothing_of_find_mkdirs {f : Folder} {x : ℕ × Mkdir}
    (hf : f.find .mkdirs name 0 = some x) : f ≠ Folder.nothing := by
  rintro rfl
  cases hf

theorem ne_nothing_of_find_creats {f : Folder} {x : ℕ × Creat}
    (hf : f.find .creats name 0 = some x) : f ≠ Folder.nothing := by
  rintro rfl
  cases hf

/-- The folder got for an id shows what is pending at the id. -/
theorem pending_folder_getOrCreate (h : Overlay H s) (hq : s.getOrCreateFolderTasks i = (p, t)) :
    s.pending i = (t.folder p).pending := by
  obtain ⟨hobj, hp⟩ := h.toObjects.getOrCreate hq
  rw [← hp]
  exact (hobj.of_held (mem_cons_self _ _)).1.pending

/-! ## `rmdir` -/

/-- A `rmdir` of a folder of the database edits nothing before the commit. -/
theorem pending_rmdirFolder_none {cfolderid : ℤ} (h : Overlay ((p, i) ::ₘ H) s)
    (hf : (rmdirFolder env p name cfolderid none s).1.isOk = false) :
    (rmdirFolder env p name cfolderid none s).2.pending = s.pending := by
  rw [rmdirFolder] at hf ⊢
  rcases hq : s.getFolderTasks cfolderid with ⟨c, t⟩
  rw [hq] at hf
  obtain ⟨hr, hp⟩ := (h.getOption hq).releaseOption
  have hrel := hr.release.2.trans (hp.trans (h.toObjects.getOption hq).2)
  dsimp only at hf ⊢
  split_ifs at hf ⊢ with hempty hcommit
  · cases hf
  · exact hrel
  · exact hrel

/-- A `rmdir` of a pending folder has counted it off, and deletes it before the commit. -/
theorem loses_rmdirFolder_some {cfolderid : ℤ} {k : ℕ} (h : Objects ((p, i) ::ₘ H) s)
    (hf : (rmdirFolder env p name cfolderid (some k) s).1.isOk = false) :
    ∃ t : State, (t.pending i).taskscnt = (s.pending i).taskscnt ∧
      Loses t (rmdirFolder env p name cfolderid (some k) s).2 := by
  rw [rmdirFolder] at hf ⊢
  rcases hq : s.getFolderTasks cfolderid with ⟨c, t⟩
  rw [hq] at hf
  obtain ⟨hobj, hp⟩ := h.getOption hq
  dsimp only at hf ⊢
  split_ifs at hf ⊢ with hempty hcommit
  · cases hf
  · have hmem : (p, i) ∈ refOf c cfolderid + (p, i) ::ₘ H :=
      mem_add.2 (.inr (mem_cons_self _ _))
    obtain ⟨hdel, hpend⟩ := hobj.edit (g := fun f => f.del .mkdirs k) hmem
      fun f => TaskTree.mkdirs.sameObject_set f _
    refine ⟨_, ?_, hdel.releaseOption.2.trans hdel.releaseOption.1.release.2⟩
    rw [hpend, update_self, ← hp, (hobj.of_held hmem).1.pending]
    rfl
  · exact ⟨t, by rw [hp], hobj.releaseOption.2.trans hobj.releaseOption.1.release.2⟩

theorem sameObject_uncount (f : Folder) : f.SameObject f.uncount := ⟨rfl, rfl, rfl⟩

theorem pending_rmdir_iff {parentflags : UInt32} (h : Overlay 0 s)
    (hf : (s.rmdir env i parentflags name).1.isOk = false) :
    (s.rmdir env i parentflags name).2.pending = s.pending ↔
      (s.pending i).find .mkdirs name 0 = none := by
  rw [rmdir] at hf ⊢
  rcases hq : s.getOrCreateFolderTasks i with ⟨p, t⟩
  rw [hq] at hf
  have ht := h.getOrCreate hq
  have hp := (h.toObjects.getOrCreate hq).2
  have hrel : (t.releaseFolderTasks p).pending = s.pending := ht.release.2.trans hp
  have hfind : (s.pending i).find .mkdirs name 0 = (t.folder p).find .mkdirs name 0 := by
    rw [pending_folder_getOrCreate h hq]
    rfl
  rw [hfind]
  dsimp only at hf ⊢
  rcases hm : (t.folder p).find .mkdirs name 0 with _ | ⟨k, task⟩
  · rw [hm] at hf
    refine iff_of_true ?_ rfl
    dsimp only at hf ⊢
    rcases he : env.folder i name with _ | ⟨cfolderid, flags⟩
    · exact hrel
    rw [he] at hf
    dsimp only at hf ⊢
    split_ifs at hf ⊢
    · exact hrel
    · exact hrel
    · exact (pending_rmdirFolder_none ht hf).trans hp
  · rw [hm] at hf
    refine iff_of_false ?_ (Option.some_ne_none _)
    obtain ⟨hobj, hpend⟩ := ht.toObjects.edit (g := Folder.uncount) (mem_cons_self _ _)
      sameObject_uncount
    obtain ⟨u, hu, hl⟩ := loses_rmdirFolder_some hobj hf
    refine pending_ne_of_counted (i := i) (t := u) ?_ ?_ hl
    · exact ne_nothing_of_find_mkdirs (hfind.trans hm)
    · rw [hu, hpend, update_self, pending_folder_getOrCreate h hq]
      rfl

/-! ## `unlink` -/

theorem Overlay.getFileAtOldLocation (h : Overlay H s) (env : Env) (fileid : ℤ) :
    Overlay H (s.getFileAtOldLocation env fileid).2 ∧
      (s.getFileAtOldLocation env fileid).2.pending = s.pending := by
  unfold State.getFileAtOldLocation
  split
  · exact ⟨h, rfl⟩
  rcases env.history fileid with _ | ⟨j, name'⟩
  · exact ⟨h, rfl⟩
  dsimp only
  rcases hg : s.getFolderTasks j with ⟨_ | q, t⟩
  · rw [getFolderTasks_none hg]
    exact ⟨h, rfl⟩
  · have hrel := (h.get hg).release
    have hp := hrel.2.trans (h.toObjects.get hg).2
    dsimp only
    rcases (t.folder q).find .creats name' 0 with _ | ⟨_, cr⟩
    · dsimp only
      split_ifs
      · exact ⟨hrel.1, hp⟩
      · exact ⟨hrel.1, hp⟩
    · exact ⟨hrel.1, hp⟩

theorem Objects.getFileAtOldLocation (h : Objects H s) (env : Env) (fileid : ℤ) :
    Objects H (s.getFileAtOldLocation env fileid).2 ∧
      Loses s (s.getFileAtOldLocation env fileid).2 := by
  unfold State.getFileAtOldLocation
  split
  · exact ⟨h, .of_eq rfl⟩
  rcases env.history fileid with _ | ⟨j, name'⟩
  · exact ⟨h, .of_eq rfl⟩
  dsimp only
  rcases hg : s.getFolderTasks j with ⟨_ | q, t⟩
  · rw [getFolderTasks_none hg]
    exact ⟨h, .of_eq rfl⟩
  · have hrel := (h.get hg).1.release
    have hl := (Loses.of_eq (h.get hg).2).trans hrel.2
    dsimp only
    rcases (t.folder q).find .creats name' 0 with _ | ⟨_, cr⟩
    · dsimp only
      split_ifs
      · exact ⟨hrel.1, hl⟩
      · exact ⟨hrel.1, hl⟩
    · exact ⟨hrel.1, hl⟩

theorem pending_unlinkFile (h : Overlay ((p, i) ::ₘ H) s)
    (hf : (unlinkFile env p name fileid s).1.isOk = false) :
    (unlinkFile env p name fileid s).2.pending = s.pending := by
  rw [unlinkFile] at hf ⊢
  obtain ⟨ho, hp⟩ := h.getFileAtOldLocation env fileid
  dsimp only at hf ⊢
  split_ifs at hf ⊢
  · cases hf
  · exact ho.release.2.trans hp

theorem loses_unlinkFile (h : Objects ((p, i) ::ₘ H) s)
    (hf : (unlinkFile env p name fileid s).1.isOk = false) :
    Loses s (unlinkFile env p name fileid s).2 := by
  rw [unlinkFile] at hf ⊢
  obtain ⟨ho, hl⟩ := h.getFileAtOldLocation env fileid
  dsimp only at hf ⊢
  split_ifs at hf ⊢
  · cases hf
  · exact hl.trans ho.release.2

theorem pending_unlink_iff (h : Overlay 0 s) (hf : (s.unlink env i name).1.isOk = false) :
    (s.unlink env i name).2.pending = s.pending ↔ (s.pending i).find .creats name 0 = none := by
  rw [unlink] at hf ⊢
  rcases hq : s.getOrCreateFolderTasks i with ⟨p, t⟩
  rw [hq] at hf
  have ht := h.getOrCreate hq
  have hp := (h.toObjects.getOrCreate hq).2
  have hrel : (t.releaseFolderTasks p).pending = s.pending := ht.release.2.trans hp
  have hfind : (s.pending i).find .creats name 0 = (t.folder p).find .creats name 0 := by
    rw [pending_folder_getOrCreate h hq]
    rfl
  rw [hfind]
  dsimp only at hf ⊢
  rcases hm : (t.folder p).find .creats name 0 with _ | ⟨k, cr⟩
  · rw [hm] at hf
    refine iff_of_true ?_ rfl
    dsimp only at hf ⊢
    rcases he : env.file i name with _ | fileid
    · exact hrel
    rw [he] at hf
    dsimp only at hf ⊢
    split_ifs at hf ⊢
    · exact hrel
    · exact (pending_unlinkFile ht hf).trans hp
  · rw [hm] at hf
    refine iff_of_false ?_ (Option.some_ne_none _)
    dsimp only at hf ⊢
    split_ifs at hf ⊢
    · cases hf
    · obtain ⟨hobj, hpend⟩ := ht.toObjects.edit (g := fun f => (f.del .creats k).uncount)
        (mem_cons_self _ _) fun _ => ⟨rfl, rfl, rfl⟩
      refine pending_ne_of_counted (i := i) ?_ ?_ (loses_unlinkFile hobj hf)
      · exact ne_nothing_of_find_creats (hfind.trans hm)
      · rw [hpend, update_self, pending_folder_getOrCreate h hq]
        rfl

/-! ## `addModifiedFile` -/

theorem pending_addModifiedFile_iff (h : Overlay 0 s) (hp : s.Live p)
    (hf : (s.addModifiedFile env p name fileid).1.isSome = false) :
    (s.addModifiedFile env p name fileid).2.pending = s.pending ↔
      (s.folder p).find .creats name 0 = none := by
  obtain ⟨hmem, hptr⟩ := hp
  rw [addModifiedFile] at hf ⊢
  dsimp only at hf ⊢
  split_ifs at hf ⊢
  · cases hf
  · obtain ⟨f, hfold⟩ : ∃ f, s.folder p = f := ⟨_, rfl⟩
    rw [hfold] at hmem hptr ⊢
    obtain rfl := hptr
    have hpend := h.toObjects.pending_modify (g := fun f => f.dropFound .creats name 0) hmem
      (ptr_dropFound _ _ _ _) (folderid_dropFound _ _ _ _)
    rcases hm : f.find .creats name 0 with _ | ⟨k, cr⟩
    · refine iff_of_true ?_ rfl
      rw [hpend, Folder.dropFound, hm, ← pending_of_mem h.sorted hmem, update_eq_self]
    · refine iff_of_false ?_ (Option.some_ne_none _)
      refine pending_ne_of_counted (i := f.folderid) ?_ ?_ (.of_eq rfl)
      · rw [pending_of_mem h.sorted hmem]
        have hm : f.pending.find .creats name 0 = some (k, cr) := hm
        exact ne_nothing_of_find_creats hm
      · rw [hpend, update_self, pending_of_mem h.sorted hmem, Folder.dropFound, hm]
        rfl

/-! ## Renames -/

theorem pending_renameFile {current : Option ℕ} {toFolderid : ℤ} {newName : Option Name}
    (h : Overlay 0 s)
    (hf : (s.renameFile env current fileid i name toFolderid newName).1.isOk = false) :
    (s.renameFile env current fileid i name toFolderid newName).2.2.pending = s.pending := by
  rw [renameFile] at hf ⊢
  rcases hq : s.getOrCreateFolderTasks i with ⟨p, t⟩
  rw [hq] at hf
  dsimp only at hf ⊢
  split_ifs at hf ⊢
  · cases hf
  · exact (h.getOrCreate hq).release.2.trans (h.toObjects.getOrCreate hq).2

theorem Overlay.deleteFolderIfEx {m : ℕ} {fromFid : ℤ} (h : Overlay H s)
    (hq : s.deleteFolderIfEx env i name fromFid = (m, t)) :
    Overlay H t ∧ t.pending = s.pending := by
  unfold State.deleteFolderIfEx at hq
  rcases hg : s.getFolderTasks i with ⟨_ | p, u⟩
  · rw [hg] at hq
    cases hq
    rw [getFolderTasks_none hg]
    exact ⟨h, rfl⟩
  · have hrel := (h.get hg).release
    have hp := hrel.2.trans (h.toObjects.get hg).2
    rw [hg] at hq
    rcases hf : (u.folder p).find .mkdirs name 0 with _ | ⟨_, task⟩
    · simp only [hf] at hq
      split at hq
      · cases hq
        exact ⟨hrel.1, hp⟩
      · cases hq
        exact ⟨hrel.1, hp⟩
    · simp only [hf] at hq
      cases hq
      exact ⟨hrel.1, hp⟩

theorem pending_renameFolder {folderid toFolderid : ℤ} {newName : Option Name}
    {targetflags : UInt32} (h : Overlay 0 s)
    (hf : (s.renameFolder env folderid i name toFolderid newName targetflags).1.isOk = false) :
    (s.renameFolder env folderid i name toFolderid newName targetflags).2.pending = s.pending := by
  rw [renameFolder] at hf ⊢
  dsimp only at hf ⊢
  rcases hd : s.deleteFolderIfEx env toFolderid (newName.getD name) folderid with ⟨m, t⟩
  rw [hd] at hf
  obtain ⟨ht, hp⟩ := h.deleteFolderIfEx hd
  dsimp only at hf ⊢
  rcases hq : t.getOrCreateFolderTasks i with ⟨p, u⟩
  rw [hq] at hf
  dsimp only at hf ⊢
  by_cases hcommit : env.commit = true
  · rw [if_pos hcommit] at hf
    cases hf
  · rw [if_neg hcommit]
    exact (ht.getOrCreate hq).release.2.trans ((ht.toObjects.getOrCreate hq).2.trans hp)

end State

namespace TaskCall

open State

variable {s : State} {c : TaskCall}

/-- A call that returns an error leaves what is pending unchanged if and only if it finds no pending
    record of its name. -/
theorem unchanged_iff (h : Overlay 0 s) (hp : c.OnLive s) (hf : (c.run s).1 = false) :
    (c.run s).2.pending = s.pending ↔ c.FindsNone s := by
  cases c with
  | rmdir => exact pending_rmdir_iff h hf
  | unlink => exact pending_unlink_iff h hf
  | addModifiedFile => exact pending_addModifiedFile_iff h hp hf
  | renameFile => exact iff_of_true (pending_renameFile h hf) trivial
  | renameFolder => exact iff_of_true (pending_renameFolder h hf) trivial

/-- After `mkdir /a` and `mkdir /a/b`. -/
def nested : State :=
  (mkdir (System.emptyDatabase 2) (-1) [98] 0
    (mkdir (System.emptyDatabase 1) 0 [97] 0 System.initial.tasks).2).2

theorem overlay_nested : Overlay 0 nested where
  sorted := by decide
  addresses := by decide
  fresh := by decide
  held r hr := absurd hr (notMem_zero r)
  idle f hf _ hc := by
    have hne : ∀ f ∈ nested.folders.toList, f.taskscnt ≠ 0 := by decide
    exact absurd hc (hne f hf)

/-- `rmdir /c` fails, and nothing is changed. -/
theorem unchanged_iff_missing : ∃ c : TaskCall, (c.run nested).1 = false ∧
    (c.run nested).2.pending = nested.pending :=
  ⟨.rmdir (System.emptyDatabase 3) 0 0 [99], by decide,
    (unchanged_iff (c := .rmdir (System.emptyDatabase 3) 0 0 [99]) overlay_nested trivial
      (by decide)).2 rfl⟩

/-- `rmdir /a` fails, since `/a/b` is there, and the pending `mkdir` of `/a` is lost. -/
theorem not_unchanged : ¬ ∀ (S : System) (c : TaskCall),
    System.machine.Reachable (fun _ _ => True) S → c.OnLive S.tasks → (c.run S.tasks).1 = false →
      (c.run S.tasks).2.pending = S.tasks.pending := by
  intro h
  have hrun : System.machine.run System.initial
      [.mkdir (System.emptyDatabase 1) 0 [97] 0, .mkdir (System.emptyDatabase 2) (-1) [98] 0] =
        some ⟨nested, 0⟩ := rfl
  have heq := h ⟨nested, 0⟩ (.rmdir (System.emptyDatabase 3) 0 0 [97]) (.of_run (.init rfl) hrun)
    trivial (by decide)
  have hcnt := congrArg Folder.taskscnt (congrFun heq 0)
  exact absurd hcnt (by decide)

end TaskCall

end Pclsync
