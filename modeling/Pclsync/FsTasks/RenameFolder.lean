import Pclsync.FsTasks.FailedCalls

/-!
# Renaming a folder

`psync_fstask_rename_folder` gives the old parent folder a pending `rmdir` of the old name, in place
of a pending `mkdir` when there is one, and the new parent folder a pending `rmdir` and a pending
`mkdir` of the new name. The `mkdir` to be renamed over is looked for in the new parent folder under
the old name.

* `named`: the records of a name in a task tree; what the edits of a tree do to them.
* `State.pending_renameFolder_ok`: what is pending after a rename.
* `State.onlyRenamed_iff`: when a rename changes only the records of the two names, and leaves one
  pending folder of the new name.
-/

namespace Pclsync

open Function List

/-! ## The records of a name -/

section
variable {τ : Type} [TaskRecord τ] {t : Tree τ} {n m : Name} {k : ℕ} {x : τ}

/-- The records of a name in a task tree. -/
def named (n : Name) (t : Tree τ) : List τ := t.toList.filter fun x => TaskRecord.name x = n

theorem named_split {as bs : List τ} (h : t.toList = as ++ x :: bs) : named n t =
    (as.filter fun y => TaskRecord.name y = n) ++
      if TaskRecord.name x = n then x :: bs.filter fun y => TaskRecord.name y = n
      else bs.filter fun y => TaskRecord.name y = n := by
  rw [named, h, filter_append, filter_cons]
  by_cases hx : TaskRecord.name x = n
  · rw [if_pos hx, if_pos (decide_eq_true hx)]
  · rw [if_neg hx, if_neg (by simpa using hx)]

theorem named_insertIntoTree_of_ne (h : TaskRecord.name x ≠ n) :
    named n (insertIntoTree t x) = named n t := by
  obtain ⟨as, bs, ht, hins⟩ := Tree.exists_toList_insertAt
    (t.placeBy fun y => compare (TaskRecord.name x) (TaskRecord.name y) == .lt) x t
  rw [insertIntoTree, named_split hins, if_neg h, named, ht, filter_append]

theorem length_named_insertIntoTree (h : TaskRecord.name x = n) :
    (named n (insertIntoTree t x)).length = (named n t).length + 1 := by
  obtain ⟨as, bs, ht, hins⟩ := Tree.exists_toList_insertAt
    (t.placeBy fun y => compare (TaskRecord.name x) (TaskRecord.name y) == .lt) x t
  rw [insertIntoTree, named_split hins, if_pos h, named, ht, filter_append,
    length_append, length_append, length_cons]
  rfl

/-- What a search finds is taken out from between the others. -/
theorem dropTree_split (h : (searchTree t n 0).isSome) : ∃ as x bs,
    t.toList = as ++ x :: bs ∧ (dropTree t n 0).toList = as ++ bs ∧ TaskRecord.name x = n := by
  obtain ⟨⟨k, x⟩, hx⟩ := Option.isSome_iff_exists.1 h
  obtain ⟨hk, hname, -⟩ := mem_of_searchTree hx
  obtain ⟨hlt, hget⟩ := List.getElem?_eq_some_iff.1 hk
  have hsplit : t.toList = t.toList.take k ++ x :: t.toList.drop (k + 1) := by
    rw [← hget]
    simp
  have hrem := Tree.toList_removeAt hsplit
  rw [length_take_of_le hlt.le] at hrem
  exact ⟨_, x, _, hsplit, by rw [dropTree, hx, hrem], hname⟩

theorem dropTree_of_none (h : ¬ (searchTree t n 0).isSome) : dropTree t n 0 = t := by
  rw [Option.not_isSome_iff_eq_none] at h
  rw [dropTree, h]

theorem Ordered.dropTree (h : Ordered t) : Ordered (dropTree t n 0) := by
  rw [Pclsync.dropTree]
  split
  · exact h.removeAt _
  · exact h

theorem named_dropTree_of_ne (h : m ≠ n) : named m (dropTree t n 0) = named m t := by
  by_cases hs : (searchTree t n 0).isSome
  · obtain ⟨as, x, bs, ht, hdrop, hx⟩ := dropTree_split hs
    rw [named_split ht, if_neg (by rw [hx]; exact h.symm), named, hdrop, filter_append]
  · rw [dropTree_of_none hs]

theorem length_named_dropTree (h : Ordered t) :
    (named n (dropTree t n 0)).length = (named n t).length - 1 := by
  by_cases hs : (searchTree t n 0).isSome
  · obtain ⟨as, x, bs, ht, hdrop, hx⟩ := dropTree_split hs
    rw [named_split ht, if_pos hx, named, hdrop, filter_append, length_append,
      length_append, length_cons]
    rfl
  · have hnone : named n t = [] := by
      refine filter_eq_nil_iff.2 fun x hx hn => hs ?_
      exact (searchTree_zero_isSome h).2 ⟨x, hx, of_decide_eq_true hn⟩
    rw [dropTree_of_none hs, hnone, length_nil]

end

/-- The records of a name are the same. -/
structure Folder.SameNamed (n : Name) (f g : Folder) : Prop where
  mkdirs : named n g.mkdirs = named n f.mkdirs
  rmdirs : named n g.rmdirs = named n f.rmdirs
  creats : named n g.creats = named n f.creats
  unlinks : named n g.unlinks = named n f.unlinks

namespace Folder

variable {f g : Folder} {n name newName : Name} {rm : Rmdir} {mk : Mkdir}

theorem SameNamed.refl (n : Name) (f : Folder) : SameNamed n f f := ⟨rfl, rfl, rfl, rfl⟩

theorem SameNamed.symm (h : SameNamed n f g) : SameNamed n g f :=
  ⟨h.mkdirs.symm, h.rmdirs.symm, h.creats.symm, h.unlinks.symm⟩

theorem SameNamed.trans {h : Folder} (hfg : SameNamed n f g) (hgh : SameNamed n g h) :
    SameNamed n f h :=
  ⟨hgh.mkdirs.trans hfg.mkdirs, hgh.rmdirs.trans hfg.rmdirs, hgh.creats.trans hfg.creats,
    hgh.unlinks.trans hfg.unlinks⟩

/-! ## The edits of the two folders -/

/-- The edit of the folder renamed from. -/
def renamedFrom (name : Name) (rm : Rmdir) (f : Folder) : Folder :=
  ((f.dropFound .mkdirs name 0).insert .rmdirs rm).count 1

/-- The edit of the folder renamed to. -/
def renamedTo (name : Name) (rm : Rmdir) (mk : Mkdir) (f : Folder) : Folder :=
  (((f.dropFound .mkdirs name 0).insert .rmdirs rm).insert .mkdirs mk).count 2

theorem dropFound_mkdirs_eq (name : Name) (f : Folder) : f.dropFound .mkdirs name 0 = { f with
      mkdirs := dropTree f.mkdirs name 0
      taskscnt := if (searchTree f.mkdirs name 0).isSome then f.taskscnt - 1 else f.taskscnt } := by
  have hfind : f.find .mkdirs name 0 = searchTree f.mkdirs name 0 := rfl
  rw [dropFound, dropTree, hfind]
  rcases searchTree f.mkdirs name 0 with _ | ⟨k, x⟩
  · rfl
  · rfl

theorem pending_renamedFrom (f : Folder) :
    (renamedFrom name rm f).pending = renamedFrom name rm f.pending := by
  rw [renamedFrom, renamedFrom, dropFound_mkdirs_eq, dropFound_mkdirs_eq]
  rfl

theorem pending_renamedTo (f : Folder) :
    (renamedTo name rm mk f).pending = renamedTo name rm mk f.pending := by
  rw [renamedTo, renamedTo, dropFound_mkdirs_eq, dropFound_mkdirs_eq]
  rfl

theorem sameObject_renamedFrom (f : Folder) : f.SameObject (renamedFrom name rm f) := by
  rw [renamedFrom, dropFound_mkdirs_eq]
  exact ⟨rfl, rfl, rfl⟩

theorem sameObject_renamedTo (f : Folder) : f.SameObject (renamedTo name rm mk f) := by
  rw [renamedTo, dropFound_mkdirs_eq]
  exact ⟨rfl, rfl, rfl⟩

theorem mkdirs_renamedFrom (f : Folder) :
    (renamedFrom name rm f).mkdirs = dropTree f.mkdirs name 0 := by
  rw [renamedFrom, dropFound_mkdirs_eq]
  rfl

theorem mkdirs_renamedTo (f : Folder) :
    (renamedTo name rm mk f).mkdirs = insertIntoTree (dropTree f.mkdirs name 0) mk := by
  rw [renamedTo, dropFound_mkdirs_eq]
  rfl

theorem taskscnt_renamedFrom (f : Folder) : (renamedFrom name rm f).taskscnt =
    (if (searchTree f.mkdirs name 0).isSome then f.taskscnt - 1 else f.taskscnt) + 1 := by
  rw [renamedFrom, dropFound_mkdirs_eq]
  rfl

theorem taskscnt_renamedTo (f : Folder) : (renamedTo name rm mk f).taskscnt =
    (if (searchTree f.mkdirs name 0).isSome then f.taskscnt - 1 else f.taskscnt) + 2 := by
  rw [renamedTo, dropFound_mkdirs_eq]
  rfl

theorem taskscnt_renamedFrom_le (f : Folder) :
    (renamedFrom name rm f).taskscnt.toNat ≤ f.taskscnt.toNat + 1 := by
  rw [taskscnt_renamedFrom]
  split_ifs
  · rw [UInt32.sub_add_cancel]
    exact Nat.le_succ _
  · rw [UInt32.toNat_add]
    exact Nat.mod_le _ _

/-- The counter gets to zero only where there are tasks at a counter of zero. -/
theorem taskscnt_renamedFrom_ne (hroom : f.taskscnt.toNat + 1 < 2 ^ 32)
    (hc : f.taskscnt = 0 → f.NoTasks) : (renamedFrom name rm f).taskscnt ≠ 0 := by
  rw [taskscnt_renamedFrom]
  split_ifs with hs
  · rw [UInt32.sub_add_cancel]
    intro hz
    rw [(hc hz).1] at hs
    cases hs
  · intro hz
    have hn := congrArg UInt32.toNat hz
    have h1 : (1 : UInt32).toNat = 1 := rfl
    have h0 : (0 : UInt32).toNat = 0 := rfl
    rw [UInt32.toNat_add, h1, h0, Nat.mod_eq_of_lt hroom] at hn
    omega

theorem taskscnt_renamedTo_ne (hroom : f.taskscnt.toNat + 2 < 2 ^ 32) :
    (renamedTo name rm mk f).taskscnt ≠ 0 := by
  have h1 : (1 : UInt32).toNat = 1 := rfl
  have h2 : (2 : UInt32).toNat = 2 := rfl
  have h0 : (0 : UInt32).toNat = 0 := rfl
  rw [taskscnt_renamedTo]
  intro hz
  split_ifs at hz
  · have hone : f.taskscnt - 1 + 2 = f.taskscnt + 1 := by grind
    have hn := congrArg UInt32.toNat (hone.symm.trans hz)
    rw [UInt32.toNat_add, h1, h0, Nat.mod_eq_of_lt (by omega)] at hn
    omega
  · have hn := congrArg UInt32.toNat hz
    rw [UInt32.toNat_add, h2, h0, Nat.mod_eq_of_lt hroom] at hn
    omega

theorem sameNamed_renamedFrom (hrm : rm.name = name) (hn : n ≠ name) (f : Folder) :
    SameNamed n f (renamedFrom name rm f) := by
  have hne : TaskRecord.name rm ≠ n := fun he => hn (he.symm.trans hrm)
  refine ⟨?_, ?_, ?_, ?_⟩
  · rw [mkdirs_renamedFrom]
    exact named_dropTree_of_ne hn
  all_goals rw [renamedFrom, dropFound_mkdirs_eq]
  · exact named_insertIntoTree_of_ne hne
  · rfl
  · rfl

/-- Of the names which are not the new one, only the old name may lose a pending folder. -/
theorem sameNamed_renamedTo_iff (hord : Ordered f.mkdirs) (hrm : rm.name = newName)
    (hmk : mk.name = newName) (hn : n ≠ newName) :
    SameNamed n f (renamedTo name rm mk f) ↔ n = name → named n f.mkdirs = [] := by
  have hmk' : TaskRecord.name mk ≠ n := fun he => hn (he.symm.trans hmk)
  have hrm' : TaskRecord.name rm ≠ n := fun he => hn (he.symm.trans hrm)
  have hmkdirs : named n (renamedTo name rm mk f).mkdirs = named n (dropTree f.mkdirs name 0) := by
    rw [mkdirs_renamedTo, named_insertIntoTree_of_ne hmk']
  constructor
  · rintro h rfl
    have hlen := congrArg length (hmkdirs.symm.trans h.mkdirs)
    rw [length_named_dropTree hord] at hlen
    exact length_eq_zero_iff.1 (by omega)
  · intro h
    refine ⟨hmkdirs.trans ?_, ?_, ?_, ?_⟩
    · by_cases hname : n = name
      · have hnil := h hname
        subst hname
        refine length_eq_zero_iff.1 ?_ |>.trans hnil.symm
        rw [length_named_dropTree hord, hnil, length_nil]
      · exact named_dropTree_of_ne hname
    all_goals rw [renamedTo, dropFound_mkdirs_eq]
    · exact named_insertIntoTree_of_ne hrm'
    · rfl
    · rfl

/-- The pending folders of the new name in the folder renamed to. -/
theorem length_named_renamedTo (hord : Ordered f.mkdirs) (hmk : mk.name = newName) :
    (named newName (renamedTo name rm mk f).mkdirs).length =
      (if newName = name then (named newName f.mkdirs).length - 1
        else (named newName f.mkdirs).length) + 1 := by
  rw [mkdirs_renamedTo, length_named_insertIntoTree (x := mk) hmk]
  split_ifs with hname
  · rw [hname, length_named_dropTree hord]
  · rw [named_dropTree_of_ne hname]

end Folder

/-! ## The rename -/

namespace State

variable {s t u : State} {p : ℕ} {i parentfolderid toFolderid folderid : ℤ} {name : Name}
  {env : Env}
  {newName : Option Name} {targetflags : UInt32} {H : Multiset (ℕ × ℤ)}

/-- A folder is got, edited, and given back. -/
theorem Overlay.editOrCreate {g : Folder → Folder} (h : Overlay H s)
    (hq : s.getOrCreateFolderTasks i = (p, t)) (hg : ∀ f, Folder.SameObject f (g f))
    (hpend : ∀ f, (g f).pending = g f.pending)
    (hc : ∀ f : Folder, f.pending = s.pending i → (f.taskscnt = 0 → f.NoTasks) →
      (g f).taskscnt = 0 → (g f).NoTasks) :
    Overlay H ((t.modify p g).releaseFolderTasks p) ∧
      ((t.modify p g).releaseFolderTasks p).pending = update s.pending i (g (s.pending i)) := by
  have hpi := pending_folder_getOrCreate h hq
  have hp := (h.toObjects.getOrCreate hq).2
  have ht := h.getOrCreate hq
  have hmem := Multiset.mem_cons_self (p, i) H
  obtain ⟨ho, hmod⟩ := ht.toObjects.edit hmem hg
  have hedit := ht.edit hmem hg fun f hf => hc f (by rw [hf, hpi])
  obtain ⟨hrel, heq⟩ := hedit.release
  exact ⟨hrel, by rw [heq, hmod, hp, hpend, ← hpi]⟩

/-- The counters of folders are not about to wrap around. -/
def Roomy (s : State) : Prop := ∀ i, (s.pending i).taskscnt.toNat + 3 < 2 ^ 32

theorem Roomy.of_pending {f : Folder} (h : s.Roomy) (ht : t.pending = s.pending)
    (hf : f.pending = t.pending i) : f.taskscnt.toNat + 3 < 2 ^ 32 := by
  have hroom := h i
  rwa [← ht, ← hf] at hroom

theorem pending_renameFolder_ok (h : Overlay 0 s) (hroom : s.Roomy)
    (hok : (s.renameFolder env folderid parentfolderid name toFolderid newName targetflags).1.isOk =
      true) : ∃ (rm₁ rm₂ : Rmdir) (mk : Mkdir), rm₁.name = name ∧ rm₂.name = newName.getD name ∧
    mk.name = newName.getD name ∧
    ∃ P : ℤ → Folder, P = update s.pending parentfolderid
        (Folder.renamedFrom name rm₁ (s.pending parentfolderid)) ∧
      (s.renameFolder env folderid parentfolderid name toFolderid newName targetflags).2.pending =
        update P toFolderid (Folder.renamedTo name rm₂ mk (P toFolderid)) := by
  rw [renameFolder] at hok ⊢
  dsimp only at hok ⊢
  generalize newName.getD name = newName at *
  rcases hd : s.deleteFolderIfEx env toFolderid newName folderid with ⟨m, t⟩
  rw [hd] at hok
  obtain ⟨ht, hpt⟩ := h.deleteFolderIfEx hd
  dsimp only at hok ⊢
  rcases hq : t.getOrCreateFolderTasks parentfolderid with ⟨p, u⟩
  rw [hq] at hok
  dsimp only at hok ⊢
  by_cases hcommit : env.commit = true
  · rw [if_pos hcommit]
    obtain ⟨rm₁, hrm1⟩ : ∃ rm₁ : Rmdir, rm₁ =
      { folderid := folderid, taskid := env.insertid (if m = 0 then 0 else 1), name := name } :=
        ⟨_, rfl⟩
    have hfrom := ht.editOrCreate (g := Folder.renamedFrom name rm₁) hq
      Folder.sameObject_renamedFrom Folder.pending_renamedFrom fun f hf hc hz =>
        absurd hz (Folder.taskscnt_renamedFrom_ne (by have := hroom.of_pending hpt hf; omega) hc)
    -- the folder renamed to may be the one renamed from
    have hto : ∀ f : Folder, f.pending = (releaseFolderTasks (u.modify p
        (Folder.renamedFrom name rm₁)) p).pending toFolderid → f.taskscnt.toNat + 2 < 2 ^ 32 := by
      intro f hf
      rw [hfrom.2, hpt] at hf
      by_cases hi : toFolderid = parentfolderid
      · rw [hi, update_self] at hf
        have hle : (Folder.renamedFrom name rm₁ (s.pending parentfolderid)).taskscnt.toNat ≤ _ :=
          Folder.taskscnt_renamedFrom_le _
        rw [← hf] at hle
        have hr := hroom parentfolderid
        change f.taskscnt.toNat ≤ _ at hle
        omega
      · rw [update_of_ne hi] at hf
        have hr := hroom.of_pending rfl hf
        omega
    obtain ⟨k, hk⟩ : ∃ k, env.insertid ((if m = 0 then 0 else 1) + 1) = k := ⟨_, rfl⟩
    rw [hk]
    obtain ⟨rm₂, hrm2⟩ : ∃ rm₂ : Rmdir,
        rm₂ = { folderid := folderid, taskid := k, name := newName } := ⟨_, rfl⟩
    obtain ⟨mk, hmk⟩ : ∃ mk : Mkdir, mk = fillMkdirData env folderid
        { folderid := folderid, taskid := k, ctime := 0, mtime := 0, subdircnt := 0
          flags := targetflags, name := newName } := ⟨_, rfl⟩
    have hres := hfrom.1.editOrCreate (g := Folder.renamedTo name rm₂ mk) (i := toFolderid)
      Prod.mk.eta.symm Folder.sameObject_renamedTo Folder.pending_renamedTo fun f hf _ hz =>
        absurd hz (Folder.taskscnt_renamedTo_ne (hto f hf))
    rw [hfrom.2, hpt] at hres
    refine ⟨rm₁, rm₂, mk, by rw [hrm1], by rw [hrm2], by rw [hmk]; exact name_fillMkdirData, _, rfl,
      ?_⟩
    rw [← hres.2, hmk, hrm2, hrm1]
    rfl
  · rw [if_neg hcommit] at hok
    cases hok

/-- A rename changes what is pending only under the old name in the old parent folder and the new
    name in the new parent folder, where one pending folder has the new name. -/
structure OnlyRenamed (P Q : ℤ → Folder) (parentfolderid : ℤ) (name : Name) (toFolderid : ℤ)
    (newName : Name) : Prop where
  frame : ∀ (i : ℤ) (n : Name), (i, n) ≠ (parentfolderid, name) → (i, n) ≠ (toFolderid, newName) →
    Folder.SameNamed n (P i) (Q i)
  one : (named newName (Q toFolderid).mkdirs).length = 1

/-- Under another new name, no pending folder of the new parent folder has it, and none has the old
    name, unless the parent folder stays the same; under the same name, the lookups in the old
    and the new parent folder leave no pending folder of the name. -/
def TargetFree (P : ℤ → Folder) (parentfolderid : ℤ) (name : Name) (toFolderid : ℤ)
    (newName : Name) : Prop :=
  if newName = name then
    (named name (P toFolderid).mkdirs).length ≤ if toFolderid = parentfolderid then 2 else 1
  else named newName (P toFolderid).mkdirs = [] ∧
    (toFolderid = parentfolderid ∨ named name (P toFolderid).mkdirs = [])

section
variable {P Q : ℤ → Folder} {new : Name} {rm₁ rm₂ : Rmdir} {mk : Mkdir}

/-- The folder renamed from changes under the old name only. -/
theorem sameNamed_from (hrm : rm₁.name = name) {j : ℤ} {n : Name}
    (hne : (j, n) ≠ (parentfolderid, name)) : Folder.SameNamed n (P j) (update P
      parentfolderid (Folder.renamedFrom name rm₁ (P parentfolderid)) j) := by
  by_cases hj : j = parentfolderid
  · subst hj
    rw [update_self]
    exact Folder.sameNamed_renamedFrom hrm (fun hn => hne (by rw [hn])) _
  · rw [update_of_ne hj]
    exact .refl n _

theorem ordered_from (hord : ∀ i, Ordered (P i).mkdirs) (i : ℤ) : Ordered (update P
    parentfolderid (Folder.renamedFrom name rm₁ (P parentfolderid)) i).mkdirs := by
  by_cases hi : i = parentfolderid
  · rw [hi, update_self, Folder.mkdirs_renamedFrom]
    exact (hord parentfolderid).dropTree
  · rw [update_of_ne hi]
    exact hord i

/-- The pending folders of the old name, after one is taken out of the folder renamed from. -/
theorem length_named_from (hord : ∀ i, Ordered (P i).mkdirs) (i : ℤ) :
    (named name (update P parentfolderid
      (Folder.renamedFrom name rm₁ (P parentfolderid)) i).mkdirs).length =
    (named name (P i).mkdirs).length - if i = parentfolderid then 1 else 0 := by
  by_cases hi : i = parentfolderid
  · rw [hi, update_self, Folder.mkdirs_renamedFrom, length_named_dropTree (hord _), if_pos rfl]
  · rw [update_of_ne hi, if_neg hi, Nat.sub_zero]

/-- Outside the two names nothing changes unless the lookup under the old name finds something in
    the folder renamed to. -/
theorem frame_iff (toFolderid : ℤ) (hord : ∀ i, Ordered (P i).mkdirs) (hrm1 : rm₁.name = name)
    (hrm2 : rm₂.name = new) (hmk : mk.name = new)
    (hQ : Q = update P parentfolderid (Folder.renamedFrom name rm₁ (P parentfolderid))) :
    (∀ (i : ℤ) (n : Name), (i, n) ≠ (parentfolderid, name) → (i, n) ≠ (toFolderid, new) →
      Folder.SameNamed n (P i)
        (update Q toFolderid (Folder.renamedTo name rm₂ mk (Q toFolderid)) i)) ↔
    (new ≠ name → toFolderid = parentfolderid ∨ named name (P toFolderid).mkdirs = []) := by
  have hordQ : Ordered (Q toFolderid).mkdirs := hQ ▸ ordered_from hord toFolderid
  have hfrom : ∀ {j : ℤ} {n : Name}, (j, n) ≠ (parentfolderid, name) →
      Folder.SameNamed n (P j) (Q j) := fun {_ _} hne => hQ ▸ sameNamed_from hrm1 hne
  constructor
  · intro h hne
    by_cases hto : toFolderid = parentfolderid
    · exact .inl hto
    · have hout : (toFolderid, name) ≠ (parentfolderid, name) := fun he =>
        hto (congrArg Prod.fst he)
      have hsame := h toFolderid name hout fun he => hne (congrArg Prod.snd he).symm
      rw [update_self] at hsame
      rw [← (hfrom hout).mkdirs]
      exact .inr ((Folder.sameNamed_renamedTo_iff hordQ hrm2 hmk hne.symm).1
        ((hfrom hout).symm.trans hsame) rfl)
  · intro h j n hfromne htone
    refine (hfrom hfromne).trans ?_
    by_cases hj : j = toFolderid
    · subst hj
      have hn : n ≠ new := fun he => htone (by rw [he])
      rw [update_self]
      refine (Folder.sameNamed_renamedTo_iff hordQ hrm2 hmk hn).2 fun hname => ?_
      subst hname
      rcases h hn.symm with hto | hnil
      · exact absurd (by rw [hto]) hfromne
      · rw [(hfrom hfromne).mkdirs, hnil]
    · rw [update_of_ne hj]
      exact .refl n _

/-- The pending folders of the new name in the folder renamed to. -/
theorem one_iff (toFolderid : ℤ) (rm₂ : Rmdir) (hord : ∀ i, Ordered (P i).mkdirs)
    (hrm1 : rm₁.name = name) (hmk : mk.name = new)
    (hQ : Q = update P parentfolderid (Folder.renamedFrom name rm₁ (P parentfolderid))) :
    (named new (Folder.renamedTo name rm₂ mk (Q toFolderid)).mkdirs).length = 1 ↔
    if new = name then
      (named name (P toFolderid).mkdirs).length ≤ if toFolderid = parentfolderid then 2 else 1
    else named new (P toFolderid).mkdirs = [] := by
  have hordQ : Ordered (Q toFolderid).mkdirs := hQ ▸ ordered_from hord toFolderid
  rw [Folder.length_named_renamedTo hordQ hmk]
  by_cases hname : new = name
  · subst hname
    have hlen : (named new (Q toFolderid).mkdirs).length =
        (named new (P toFolderid).mkdirs).length -
        if toFolderid = parentfolderid then 1 else 0 := hQ ▸ length_named_from hord toFolderid
    rw [if_pos rfl, if_pos rfl, hlen]
    split_ifs <;> omega
  · have hsame : Folder.SameNamed new (P toFolderid) (Q toFolderid) :=
      hQ ▸ sameNamed_from hrm1 fun he => hname (congrArg Prod.snd he)
    rw [if_neg hname, if_neg hname, hsame.mkdirs, ← length_eq_zero_iff]
    omega

end

/-- A rename that succeeds changes only the records of the two names, and leaves one pending folder
    of the new name, if and only if no other pending folders are in its way. -/
theorem onlyRenamed_iff (h : Overlay 0 s) (hroom : s.Roomy)
    (hord : ∀ i, Ordered (s.pending i).mkdirs)
    (hok : (s.renameFolder env folderid parentfolderid name toFolderid newName targetflags).1.isOk =
      true) :
    OnlyRenamed s.pending
      (s.renameFolder env folderid parentfolderid name toFolderid newName targetflags).2.pending
      parentfolderid name toFolderid (newName.getD name) ↔
    TargetFree s.pending parentfolderid name toFolderid (newName.getD name) := by
  obtain ⟨rm₁, rm₂, mk, hrm1, hrm2, hmk, P, hP, hQ⟩ := pending_renameFolder_ok h hroom hok
  rw [hQ]
  generalize newName.getD name = new at *
  have hframe := frame_iff toFolderid hord hrm1 hrm2 hmk hP
  have hone := one_iff toFolderid rm₂ hord hrm1 hmk hP
  have hboth : OnlyRenamed s.pending
      (update P toFolderid (Folder.renamedTo name rm₂ mk (P toFolderid))) parentfolderid
      name toFolderid new ↔ _ ∧ _ :=
    ⟨fun ⟨hf, ho⟩ => ⟨hframe.1 hf, hone.1 (by rwa [update_self] at ho)⟩,
      fun ⟨hf, ho⟩ => ⟨hframe.2 hf, by rw [update_self]; exact hone.2 ho⟩⟩
  rw [hboth, TargetFree]
  by_cases hname : new = name
  · rw [if_pos hname, if_pos hname]
    exact and_iff_right fun hne => absurd hname hne
  · rw [if_neg hname, if_neg hname, and_comm]
    exact and_congr_right fun _ => forall_prop_of_true hname

/-- `/a`, created after `/a` and `/a/b`, is renamed to `/c`. -/
theorem onlyRenamed_iff_nested : OnlyRenamed TaskCall.nested.pending
    (TaskCall.nested.renameFolder (System.emptyDatabase 3) (-1) 0 [97] 0 (some [99]) 0).2.pending
    0 [97] 0 [99] := by
  have hord : ∀ i, Ordered (TaskCall.nested.pending i).mkdirs := by
    refine forall_pending (P := fun f => Ordered f.mkdirs) Pairwise.nil ?_
    have hlist : ∀ f ∈ TaskCall.nested.folders.toList,
      (f.mkdirs.toList.map TaskRecord.name).Pairwise fun n m => (compare n m).isLE := by decide
    exact hlist
  have hroom : TaskCall.nested.Roomy := by
    refine forall_pending (P := fun f => f.taskscnt.toNat + 3 < 2 ^ 32) (by decide) ?_
    have hlist : ∀ f ∈ TaskCall.nested.folders.toList, f.taskscnt.toNat + 3 < 2 ^ 32 := by decide
    exact hlist
  refine (onlyRenamed_iff TaskCall.overlay_nested hroom hord (by decide)).2 ?_
  rw [TargetFree, if_neg (by decide)]
  exact ⟨by decide, .inl rfl⟩

/-- After `mkdir /a`, `mkdir /b` and `mkdir /b/a`, `/a` is renamed to `/b/c`, and the pending
    `mkdir` of `/b/a` is lost. -/
theorem not_onlyRenamed : ¬ ∀ (S : System) (env : Env) (folderid parentfolderid : ℤ) (name : Name)
    (toFolderid : ℤ) (newName : Option Name) (targetflags : UInt32),
    System.machine.Reachable (fun _ _ => True) S →
    (S.tasks.renameFolder env folderid parentfolderid name toFolderid newName targetflags).1.isOk =
      true →
    OnlyRenamed S.tasks.pending
      (S.tasks.renameFolder env folderid parentfolderid name toFolderid newName
        targetflags).2.pending parentfolderid name toFolderid (newName.getD name) := by
  intro h
  have hrun : ∃ S : System, System.machine.run System.initial
      [.mkdir (System.emptyDatabase 1) 0 [97] 0, .mkdir (System.emptyDatabase 2) 0 [98] 0,
        .mkdir (System.emptyDatabase 3) (-2) [97] 0] = some S ∧
      (named [97] (S.tasks.pending (-2)).mkdirs).length = 1 ∧
      (S.tasks.renameFolder (System.emptyDatabase 4) (-1) 0 [97] (-2) (some [99]) 0).1.isOk = true ∧
      (named [97] ((S.tasks.renameFolder (System.emptyDatabase 4) (-1) 0 [97] (-2) (some [99])
        0).2.pending (-2)).mkdirs).length = 0 := ⟨_, rfl, by decide, by decide, by decide⟩
  obtain ⟨S, hS, hone, hok, hnone⟩ := hrun
  have hsame := (h S _ _ _ _ _ _ _ (.of_run (.init rfl) hS) hok).frame (-2) [97] (by decide)
    (by decide)
  have hlen := congrArg length hsame.mkdirs
  rw [hone, hnone] at hlen
  cases hlen

end State

end Pclsync
