import Mathlib.Data.Int.Notation
import Pclsync.FolderTree

/-!
# Merging two folders

When a folder is renamed to a path at which there is a folder with entries, `task_renamedir`
(`pdownload.c`) moves its entries there one by one, and then removes it with what is left of it if
that is trash. The paths of the entries are made by joining those of the folders and the name,
without a slash between them.

* `doMove`, `moveFolderContents`: the loop, and the removal; `task_renamedir`, which calls them and
  tries again, is not part of the model.
* `MergedRight`: what is asked of a merge.
* `mergedRight_iff`: a merge is right exactly when nothing is moved by it, and no entry is removed
  by it except for trash.
-/

namespace Pclsync.Downloads

open Node List Option

/-! ## The disk -/

/-- The bytes of a name, which is not empty and has no slash. -/
abbrev Name := List UInt8

/-- The names in a path, which does not end with a slash. -/
abbrev Path := List Name

/-- What is below the root. -/
abbrev Disk (κ : Type) := Node Name κ

inductive Errno
  | nospc | dquot | busy | rofs | noent | exist | notempty | notdir | isdir | inval
  | other
  deriving DecidableEq

/-- What is not known of the disks: for which paths a rename or a removal is refused for a reason
    of its own, such as different devices or permissions, which folders can be read, and the names
    that are ignored. -/
structure DiskEnv where
  renameErr : Path → Path → Option Errno
  removeErr : Path → Option Errno
  readable : Path → Bool
  isNameToIgnore : Name → Bool

variable {κ : Type}

section
variable (env : DiskEnv)

/-- The disk after a node is moved to another path. -/
def moveNode (p q : Path) (e : Node Name κ) (d : Disk κ) : Disk κ :=
  put q (some e) (put p none d)

/-- `rename` -/
def rename (p q : Path) (d : Disk κ) : Except Errno (Disk κ) :=
  match env.renameErr p q, get p d, get q.dropLast d with
  | some err, _, _ => .error err
  | none, none, _ => .error .noent
  | none, some _, none => .error .noent
  | none, some e, some (.folder _) =>
    if p = q then .ok d
    else if p <+: q then .error .inval
    else match get q d, e with
      | none, _ => .ok (moveNode p q e d)
      | some (.folder []), .folder _ => .ok (moveNode p q e d)
      | some (.folder _), .folder _ => .error .notempty
      | some (.folder _), _ => .error .isdir
      | some _, .folder _ => .error .notdir
      | some _, _ => .ok (moveNode p q e d)
  | none, some _, some _ => .error .notdir

/-- `psync_rmdir` -/
def psyncRmdir (p : Path) (d : Disk κ) : Except Errno (Disk κ) :=
  match env.removeErr p, get p d with
  | some err, _ => .error err
  | none, none => .error .noent
  | none, some (.folder []) => .ok (put p none d)
  | none, some (.folder _) => .error .notempty
  | none, some _ => .error .notdir

mutual

/-- What is left of an entry after `rm_ign`, where `ign` says that its name is ignored; and after
    `rm_all`, which does the same for all names. The path is that of the entry. Only files and
    folders are listed. -/
def rmEntry (ign : Bool) (path : Path) : Node Name κ → Option (Node Name κ)
  | .file c => if ign && (env.removeErr path).isNone then none else some (.file c)
  | .other => some .other
  | .folder entries =>
    let rest := if env.readable path then rmEntries ign path entries else entries
    if rest.isEmpty && (env.removeErr path).isNone then none else some (.folder rest)

/-- What is left of the entries of a folder. -/
def rmEntries (ign : Bool) (path : Path) : List (Name × Node Name κ) → List (Name × Node Name κ)
  | [] => []
  | (n, e) :: entries =>
    match rmEntry (ign || env.isNameToIgnore n) (path ++ [n]) e with
    | none => rmEntries ign path entries
    | some e => (n, e) :: rmEntries ign path entries

end

/-- `return psync_rmdir(path)` -/
def returnRmdir (path : Path) (d : Disk κ) : ℤ × Disk κ :=
  match psyncRmdir env path d with
  | .ok d => (0, d)
  | .error _ => (-1, d)

/-- `psync_rmdir_with_trashes` -/
def psyncRmdirWithTrashes (path : Path) (d : Disk κ) : ℤ × Disk κ :=
  match psyncRmdir env path d with
  | .ok d => (0, d)
  | .error err =>
    if err ≠ .notempty ∧ err ≠ .exist then (-1, d)
    else match env.readable path, get path d with
      | true, some (.folder entries) =>
        returnRmdir env path (put path (some (.folder (rmEntries env false path entries))) d)
      | _, _ => (-1, d)

/-! ## The merge -/

/-- `psync_strcat` of the path of a folder and a name. -/
def strcat (path : Path) (name : Name) : Path := path.dropLast ++ [path.getLastD [] ++ name]

/-- `do_move`, for an entry that is a file or a folder at that time. -/
def doMove (old new : Path) (d : Disk κ) (name : Name) : Disk κ :=
  match get (old ++ [name]) d with
  | some (.file _) | some (.folder _) =>
    match rename env (strcat old name) (strcat new name) d with
    | .ok d => d
    | .error _ => d
  | _ => d

/-- The names which `psync_list_dir` goes through. -/
def listDir (path : Path) (d : Disk κ) : List Name :=
  match env.readable path, get path d with
  | true, some (.folder entries) => entries.map Prod.fst
  | _, _ => []

/-- The disk after the calls of `do_move` for the first `k` names. -/
def afterMoves (old new : Path) (d : Disk κ) (k : ℕ) : Disk κ :=
  ((listDir env old d).take k).foldl (doMove env old new) d

/-- `move_folder_contents` -/
def moveFolderContents (old new : Path) (d : Disk κ) : ℤ × Disk κ :=
  psyncRmdirWithTrashes env old (afterMoves env old new d (listDir env old d).length)

end

/-! ## What is asked of a merge -/

/-- Two folders of which neither is in the other, and the entries of the first one. -/
structure TwoFolders (d : Disk κ) (old new : Path) (entries : List (Name × Node Name κ)) :
    Prop where
  get_old : get old d = some (.folder entries)
  get_new : ∃ newEntries, get new d = some (.folder newEntries)
  old_not_prefix : ¬old <+: new
  new_not_prefix : ¬new <+: old
  nodup : (entries.map Prod.fst).Nodup
  name_ne : ∀ x ∈ entries, x.1 ≠ []

/-- A path of what is not in the two folders, or of the second folder. -/
def Outside (old new p : Path) : Prop := ¬old <+: p ∧ (new <+: p → p = new)

/-- Nothing has changed outside the folders. -/
def Unharmed (old new : Path) (d d' : Disk κ) : Prop :=
  ∀ p, Outside old new p → (get p d').map kind = (get p d).map kind

/-- An entry is in the second folder. -/
def InNew (old new : Path) (d' : Disk κ) (x : Name × Node Name κ) : Prop :=
  get (new ++ [x.1]) d' = some x.2 ∧ get (old ++ [x.1]) d' = none

/-- With regard to an entry both folders are as they were. -/
def AsBefore (old new : Path) (d d' : Disk κ) (x : Name × Node Name κ) : Prop :=
  get (old ++ [x.1]) d' = some x.2 ∧ get (new ++ [x.1]) d' = get (new ++ [x.1]) d

section
variable (env : DiskEnv)

/-- A merge is right: nothing changes outside the folders, at any time; each entry is moved, or
    stays, or is trash; and the old folder is not removed when anything else is left in it. -/
structure MergedRight (old new : Path) (entries : List (Name × Node Name κ)) (d : Disk κ) :
    Prop where
  moves : ∀ k, Unharmed old new d (afterMoves env old new d k)
  outside : Unharmed old new d (moveFolderContents env old new d).2
  each : ∀ x ∈ entries, InNew old new (moveFolderContents env old new d).2 x ∨
    AsBefore old new d (moveFolderContents env old new d).2 x ∨
    env.isNameToIgnore x.1 = true ∧
      get (new ++ [x.1]) (moveFolderContents env old new d).2 = get (new ++ [x.1]) d
  removed : get old (moveFolderContents env old new d).2 = none → ∀ x ∈ entries,
    InNew old new (moveFolderContents env old new d).2 x ∨ env.isNameToIgnore x.1 = true

/-! ## When it is right -/

mutual

/-- Nothing of an entry is removed as trash: there is no file with an ignored name, or in a folder
    with such a name, and no empty folder, that can be removed. -/
def Kept (ign : Bool) (path : Path) : Node Name κ → Prop
  | .file _ => ign = true → env.removeErr path ≠ none
  | .other => True
  | .folder entries => (env.readable path = true → KeptAll ign path entries) ∧
    (entries = [] → env.removeErr path ≠ none)

/-- Nothing of the entries of a folder is removed. -/
def KeptAll (ign : Bool) (path : Path) : List (Name × Node Name κ) → Prop
  | [] => True
  | (n, e) :: entries =>
    Kept (ign || env.isNameToIgnore n) (path ++ [n]) e ∧ KeptAll ign path entries

end

mutual

/-- All of an entry is removed as trash. -/
def Gone (ign : Bool) (path : Path) : Node Name κ → Prop
  | .file _ => ign = true ∧ env.removeErr path = none
  | .other => False
  | .folder entries => (env.readable path = true ∧ GoneAll ign path entries ∨ entries = []) ∧
    env.removeErr path = none

/-- All entries of a folder are removed. -/
def GoneAll (ign : Bool) (path : Path) : List (Name × Node Name κ) → Prop
  | [] => True
  | (n, e) :: entries =>
    Gone (ign || env.isNameToIgnore n) (path ++ [n]) e ∧ GoneAll ign path entries

end

/-- A file or a folder. -/
def Listed : Node Name κ → Prop
  | .file _ | .folder _ => True
  | .other => False

/-- For no entry there is something at the joined path which can be renamed. -/
def NoMoves (old new : Path) (entries : List (Name × Node Name κ)) (d : Disk κ) : Prop :=
  env.readable old = true → ∀ x ∈ entries, Listed x.2 → ∀ d',
    rename env (strcat old x.1) (strcat new x.1) d ≠ .ok d'

/-- No trash is removed: the old folder cannot be removed for another reason than its entries, or
    it cannot be read. -/
def NoRemoval (old : Path) : Prop :=
  (∃ err, env.removeErr old = some err ∧ err ≠ .notempty ∧ err ≠ .exist) ∨
    env.readable old = false

/-- Nothing is moved, and each entry is ignored, or is not touched by the removal of trash, or is
    removed and already there in the new folder. -/
structure Idle (old new : Path) (entries : List (Name × Node Name κ)) (d : Disk κ) : Prop where
  noMoves : NoMoves env old new entries d
  noLoss : NoRemoval env old ∨ ∀ x ∈ entries, env.isNameToIgnore x.1 = true ∨
    Kept env (env.isNameToIgnore x.1) (old ++ [x.1]) x.2 ∨
    Gone env (env.isNameToIgnore x.1) (old ++ [x.1]) x.2 ∧ get (new ++ [x.1]) d = some x.2

end

/-! ## Removing trash -/

variable {env : DiskEnv} {d d' : Disk κ} {old new p q path : Path} {n : Name} {ign : Bool}
  {e : Node Name κ} {entries : List (Name × Node Name κ)}

theorem length_rmEntries_le (env : DiskEnv) (ign : Bool) (path : Path)
    (entries : List (Name × Node Name κ)) :
    (rmEntries env ign path entries).length ≤ entries.length := by
  induction entries with
  | nil => exact Nat.le_refl _
  | cons x entries ih =>
    obtain ⟨n, e⟩ := x
    rw [rmEntries]
    split
    · exact Nat.le_succ_of_le ih
    · exact Nat.succ_le_succ ih

/-- A folder is removed when nothing is left in it and its removal is not refused. -/
theorem rmdirRest_eq_some_iff (rest : List (Name × Node Name κ)) (err : Option Errno) :
    (if rest.isEmpty && err.isNone then none else some (folder rest)) = some (folder entries) ↔
      rest = entries ∧ (entries = [] → err ≠ none) := by
  split
  · next h =>
    rw [Bool.and_eq_true, List.isEmpty_iff, isNone_iff_eq_none] at h
    obtain ⟨rfl, rfl⟩ := h
    refine ⟨fun heq => (by cases heq), fun hk => ?_⟩
    exact absurd rfl (hk.2 hk.1.symm)
  · next h =>
    rw [Bool.and_eq_true, List.isEmpty_iff, isNone_iff_eq_none] at h
    rw [some_inj, Node.folder.injEq]
    refine ⟨?_, And.left⟩
    rintro rfl
    exact ⟨rfl, fun hnil herr => h ⟨hnil, herr⟩⟩

theorem rmdirRest_eq_none_iff (rest : List (Name × Node Name κ)) (err : Option Errno) :
    (if rest.isEmpty && err.isNone then none else some (folder rest)) = none ↔
      rest = [] ∧ err = none := by
  rw [ite_eq_left_iff, Bool.and_eq_true, List.isEmpty_iff, isNone_iff_eq_none]
  exact ⟨fun h => by_contra fun hc => (by cases h hc), fun h hc => absurd h hc⟩

mutual

theorem rmEntry_eq_self_iff (ign : Bool) (path : Path) :
    ∀ e : Node Name κ, rmEntry env ign path e = some e ↔ Kept env ign path e
  | .file c => by
    rw [rmEntry, Kept]
    cases ign <;> cases env.removeErr path <;> simp
  | .other => by
    rw [rmEntry, Kept]
    exact ⟨fun _ => trivial, fun _ => rfl⟩
  | .folder entries => by
    have ih := rmEntries_eq_self_iff ign path entries
    rw [rmEntry, Kept, ← ih]
    rw [rmdirRest_eq_some_iff]
    refine and_congr_left fun _ => ?_
    split
    · next hread => exact ⟨fun heq _ => heq, fun h => h hread⟩
    · next hread => exact ⟨fun _ hr => absurd hr hread, fun _ => rfl⟩

theorem rmEntries_eq_self_iff (ign : Bool) (path : Path) : ∀ entries : List (Name × Node Name κ),
      rmEntries env ign path entries = entries ↔ KeptAll env ign path entries
  | [] => by
    rw [rmEntries, KeptAll]
    exact ⟨fun _ => trivial, fun _ => rfl⟩
  | (n, e) :: entries => by
    have ihe := rmEntry_eq_self_iff (ign || env.isNameToIgnore n) (path ++ [n]) e
    have ih := rmEntries_eq_self_iff ign path entries
    rw [rmEntries, KeptAll, ← ihe, ← ih]
    have hlen := length_rmEntries_le env ign path entries
    split
    · next hnone =>
      refine ⟨fun heq => ?_, fun hk => ?_⟩
      · rw [heq, length_cons] at hlen
        omega
      · rw [hnone] at hk
        cases hk.1
    · next e' hsome =>
      rw [hsome, some_inj, cons.injEq, Prod.mk.injEq]
      exact ⟨fun heq => ⟨heq.1.2, heq.2⟩, fun hk => ⟨⟨rfl, hk.1⟩, hk.2⟩⟩

end

mutual

theorem rmEntry_eq_none_iff (ign : Bool) (path : Path) :
    ∀ e : Node Name κ, rmEntry env ign path e = none ↔ Gone env ign path e
  | .file c => by
    rw [rmEntry, Gone]
    cases ign <;> cases env.removeErr path <;> simp
  | .other => by
    rw [rmEntry, Gone]
    exact ⟨fun h => (by cases h), False.elim⟩
  | .folder entries => by
    have ih := rmEntries_eq_nil_iff ign path entries
    rw [rmEntry, Gone, ← ih, rmdirRest_eq_none_iff]
    refine and_congr_left fun _ => ?_
    split
    · next hread =>
      refine ⟨fun heq => .inl ⟨hread, heq⟩, ?_⟩
      rintro (⟨-, heq⟩ | rfl)
      · exact heq
      · rw [rmEntries]
    · next hread => exact ⟨.inr, fun h => h.resolve_left fun hr => hread hr.1⟩

theorem rmEntries_eq_nil_iff (ign : Bool) (path : Path) : ∀ entries : List (Name × Node Name κ),
      rmEntries env ign path entries = [] ↔ GoneAll env ign path entries
  | [] => by
    rw [rmEntries, GoneAll]
    exact ⟨fun _ => trivial, fun _ => rfl⟩
  | (n, e) :: entries => by
    have ihe := rmEntry_eq_none_iff (ign || env.isNameToIgnore n) (path ++ [n]) e
    have ih := rmEntries_eq_nil_iff ign path entries
    rw [rmEntries, GoneAll, ← ihe, ← ih]
    split
    · next hnone => exact ⟨fun heq => ⟨hnone, heq⟩, And.right⟩
    · next e' hsome =>
      refine ⟨fun heq => (by cases heq), fun h => ?_⟩
      rw [hsome] at h
      cases h.1

end

theorem names_rmEntries_sublist (ign : Bool) (path : Path) (entries : List (Name × Node Name κ)) :
    ((rmEntries env ign path entries).map Prod.fst).Sublist (entries.map Prod.fst) := by
  induction entries with
  | nil => rw [rmEntries]
  | cons x entries ih =>
    obtain ⟨n, e⟩ := x
    rw [rmEntries]
    split
    · exact ih.cons n
    · exact ih.cons_cons n

theorem child_rmEntries (ign : Bool) (path : Path) (hnodup : (entries.map Prod.fst).Nodup)
    (he : (n, e) ∈ entries) : child n (rmEntries env ign path entries) =
      rmEntry env (ign || env.isNameToIgnore n) (path ++ [n]) e := by
  induction entries with
  | nil => cases he
  | cons x entries ih =>
    obtain ⟨m, x⟩ := x
    obtain ⟨hm, hnodup⟩ := nodup_cons.1 hnodup
    rw [rmEntries]
    rcases mem_cons.1 he with heq | he
    · cases heq
      split
      · next hnone =>
        rw [hnone]
        exact child_eq_none fun hmem => hm ((names_rmEntries_sublist ign path entries).subset hmem)
      · next e' hsome => rw [hsome, child_cons, if_pos rfl]
    · have hne : m ≠ n := by
        rintro rfl
        exact hm (mem_map.2 ⟨_, he, rfl⟩)
      split
      · exact ih hnodup he
      · rw [child_cons, if_neg hne]
        exact ih hnodup he

/-! ## Renames -/

/-- The joined path is not in the first folder, and in the second one only when it is the second
    folder. -/
theorem TwoFolders.outside_strcat (h : TwoFolders d old new entries) {name : Name}
    (hname : name ≠ []) : Outside old new (strcat old name) := by
  have hne : old ≠ [] := fun hc => h.old_not_prefix (hc ▸ nil_prefix)
  obtain ⟨parent, b, rfl⟩ := (eq_nil_or_concat' old).resolve_left hne
  rw [strcat, dropLast_concat, getLastD_concat]
  refine ⟨fun hpre => ?_, fun hpre => ?_⟩
  · have heq := IsPrefix.eq_of_length hpre (by
      rw [length_append, length_append]
      rfl)
    have hb : b = b ++ name := (cons.inj (append_cancel_left heq)).1
    exact hname (self_eq_append_right.1 hb)
  · rcases prefix_concat_iff.1 hpre with heq | hpre
    · exact heq.symm
    · exact absurd (hpre.trans (prefix_append _ _)) h.new_not_prefix

theorem TwoFolders.strcat_ne (h : TwoFolders d old new entries) (name : Name) :
    strcat old name ≠ strcat new name := by
  intro heq
  have hold : old ≠ [] := fun hc => h.old_not_prefix (hc ▸ nil_prefix)
  have hnew : new ≠ [] := fun hc => h.new_not_prefix (hc ▸ nil_prefix)
  obtain ⟨parent, b, rfl⟩ := (eq_nil_or_concat' old).resolve_left hold
  obtain ⟨parent', c, rfl⟩ := (eq_nil_or_concat' new).resolve_left hnew
  rw [strcat, strcat, dropLast_concat, dropLast_concat, getLastD_concat, getLastD_concat] at heq
  obtain ⟨hparent, hlast⟩ := append_inj' heq rfl
  obtain ⟨hname, -⟩ := cons.inj hlast
  have hbc : b = c := append_cancel_right hname
  exact h.old_not_prefix (hparent ▸ hbc ▸ prefix_rfl)

/-- A node that is there is not below a file, nor below an empty folder. -/
theorem exists_entries (hget : get p d = some e) (hpre : q <+: p) (hne : p ≠ q) :
    ∃ x entries, get q d = some (folder (x :: entries)) := by
  obtain ⟨r, rfl⟩ := hpre
  cases r with
  | nil => exact absurd (append_nil q) hne
  | cons n r =>
    rw [get_append] at hget
    obtain ⟨x, hx, hget⟩ := bind_eq_some_iff.1 hget
    cases x with
    | folder entries =>
      cases entries with
      | nil => cases hget
      | cons x entries => exact ⟨x, entries, hx⟩
    | _ => cases hget

/-- A node that is moved is not at its old path any more. -/
theorem get_moveNode (hget : get p d = some e) (hp : p ≠ []) (hpre : ¬q <+: p) :
    get p (moveNode p q e d) = none := by
  obtain ⟨parent, n, rfl⟩ := (eq_nil_or_concat' p).resolve_left hp
  have hparent : ∃ entries, get parent d = some (folder entries) := by
    obtain ⟨x, entries, hx⟩ := exists_entries hget (prefix_append parent [n])
      fun heq => cons_ne_nil n [] (append_right_eq_self.1 heq)
    exact ⟨x :: entries, hx⟩
  obtain ⟨es, hes⟩ := hparent
  have hkind := kind_put (v := some e) (e := put (parent ++ [n]) none d) hpre
  rw [get_put hes] at hkind
  exact map_eq_none_iff.1 hkind

/-- When a rename has an effect, its node was there, and is not there any more. -/
theorem get_of_rename (h : rename env p q d = .ok d') (hne : p ≠ q) :
    (∃ e, get p d = some e) ∧ get p d' = none := by
  rw [rename] at h
  split at h
  · cases h
  · cases h
  · cases h
  · next e _ _ hget _ =>
    rw [if_neg hne] at h
    refine ⟨⟨e, hget⟩, ?_⟩
    split at h
    · cases h
    · next hpq =>
      have hp : p ≠ [] := fun hc => hpq (hc ▸ nil_prefix)
      have key : (∀ x entries, get q d ≠ some (folder (x :: entries))) →
          get p (moveNode p q e d) = none := fun hq => get_moveNode hget hp fun hpre => by
        obtain ⟨x, entries, hx⟩ := exists_entries hget hpre hne
        exact hq x entries hx
      split at h
      · next hq =>
        obtain rfl := Except.ok.inj h
        exact key fun x entries hx => by cases hq.symm.trans hx
      · next hq =>
        obtain rfl := Except.ok.inj h
        exact key fun x entries hx => by cases hq.symm.trans hx
      · cases h
      · cases h
      · cases h
      · next _ hfile hq _ _ _ =>
        obtain rfl := Except.ok.inj h
        exact key fun x entries hx => hfile _ (some.inj (hq.symm.trans hx))
  · cases h

/-! ## The loop -/

section

variable (h : TwoFolders d old new entries)
include h

/-- A rename that is possible changes what is outside. -/
theorem TwoFolders.not_unharmed {name : Name}
    (hname : name ≠ []) (hren : rename env (strcat old name) (strcat new name) d = .ok d') :
    ¬Unharmed old new d d' := by
  intro hunharmed
  obtain ⟨⟨e, he⟩, hnone⟩ := get_of_rename hren (h.strcat_ne name)
  have hkind := hunharmed (strcat old name) (h.outside_strcat hname)
  rw [he, hnone] at hkind
  cases hkind

theorem TwoFolders.get_entry {x : Name × Node Name κ}
    (hx : x ∈ entries) : get (old ++ [x.1]) d = some x.2 := by
  rw [get_append, h.get_old, bind_some, get_cons, child_of_mem h.nodup hx]
  rfl

/-- An entry cannot be renamed when `do_move` changes nothing outside. -/
theorem TwoFolders.noMove {x : Name × Node Name κ}
    (hx : x ∈ entries) (hunharmed : Unharmed old new d (doMove env old new d x.1)) :
    Listed x.2 → ∀ d', rename env (strcat old x.1) (strcat new x.1) d ≠ .ok d' := by
  intro hl d' hren
  have hmove : doMove env old new d x.1 = d' := by
    rw [doMove, h.get_entry hx, hren]
    cases he : x.2 with
    | other =>
      rw [he] at hl
      exact hl.elim
    | _ => rfl
  exact h.not_unharmed (h.name_ne x hx) hren (hmove ▸ hunharmed)

/-- When an entry cannot be renamed, `do_move` changes nothing. -/
theorem TwoFolders.doMove_eq {x : Name × Node Name κ} (hx : x ∈ entries)
    (hno : Listed x.2 → ∀ d', rename env (strcat old x.1) (strcat new x.1) d ≠ .ok d') :
    doMove env old new d x.1 = d := by
  rw [doMove, h.get_entry hx]
  cases hren : rename env (strcat old x.1) (strcat new x.1) d with
  | ok d' =>
    cases he : x.2 with
    | other => rfl
    | _ => exact absurd hren (hno (by rw [he]; trivial) d')
  | error err => cases x.2 <;> rfl

theorem TwoFolders.listDir_eq (hread : env.readable old = true) :
    listDir env old d = entries.map Prod.fst := by
  rw [listDir, hread, h.get_old]

end

theorem listDir_of_not_readable (hread : env.readable old = false) : listDir env old d = [] := by
  rw [listDir, hread]

theorem foldl_doMove_eq {names : List Name} (h : ∀ n ∈ names, doMove env old new d n = d) :
    names.foldl (doMove env old new) d = d := by
  induction names with
  | nil => rfl
  | cons n names ih =>
    rw [foldl_cons, h n mem_cons_self]
    exact ih fun m hm => h m (mem_cons_of_mem n hm)

theorem TwoFolders.afterMoves_eq (h : TwoFolders d old new entries)
    (hno : NoMoves env old new entries d) (k : ℕ) : afterMoves env old new d k = d := by
  refine foldl_doMove_eq fun n hn => ?_
  cases hread : env.readable old with
  | false =>
    rw [listDir_of_not_readable hread, take_nil] at hn
    cases hn
  | true =>
    rw [h.listDir_eq hread] at hn
    obtain ⟨x, hx, rfl⟩ := mem_map.1 (mem_of_mem_take hn)
    exact h.doMove_eq hx (hno hread x hx)

theorem afterMoves_succ {k : ℕ} (hn : (listDir env old d)[k]? = some n) :
    afterMoves env old new d (k + 1) = doMove env old new (afterMoves env old new d k) n := by
  rw [afterMoves, afterMoves, take_add_one, hn, foldl_append]
  rfl

section

variable (h : TwoFolders d old new entries)
include h

/-- When at no time anything has changed outside, nothing was moved. -/
theorem TwoFolders.noMoves
    (hunharmed : ∀ k, Unharmed old new d (afterMoves env old new d k)) :
    NoMoves env old new entries d := by
  intro hread
  have hat : ∀ k x, entries[k]? = some x → afterMoves env old new d k = d →
      afterMoves env old new d (k + 1) = doMove env old new d x.1 := fun k x hx heq => by
    have hname : (listDir env old d)[k]? = some x.1 := by
      rw [h.listDir_eq hread, getElem?_map, hx]
      rfl
    rw [afterMoves_succ hname, heq]
  -- By induction on the number of calls: each of them is made on the disk of the beginning.
  have key : ∀ k, afterMoves env old new d k = d := by
    intro k
    induction k with
    | zero => rfl
    | succ k ih =>
      cases hx : entries[k]? with
      | none =>
        have hend : (listDir env old d)[k]? = none := by
          rw [h.listDir_eq hread, getElem?_map, hx]
          rfl
        rw [afterMoves, take_add_one, hend, toList_none, append_nil]
        exact ih
      | some x =>
        have hmem := mem_of_getElem? hx
        have hun := hunharmed (k + 1)
        rw [hat k x hx ih] at hun ⊢
        exact h.doMove_eq hmem (h.noMove hmem hun)
  intro x hx
  obtain ⟨k, hk⟩ := mem_iff_getElem?.1 hx
  exact h.noMove hx (hat k x hk (key k) ▸ hunharmed (k + 1))

/-! ## The removal -/

theorem TwoFolders.exists_parent :
    ∃ parent b es, old = parent ++ [b] ∧ get parent d = some (folder es) := by
  have hne : old ≠ [] := fun hc => h.old_not_prefix (hc ▸ nil_prefix)
  obtain ⟨parent, b, rfl⟩ := (eq_nil_or_concat' old).resolve_left hne
  obtain ⟨x, es, hx⟩ := exists_entries h.get_old (prefix_append parent [b])
    fun heq => cons_ne_nil b [] (append_right_eq_self.1 heq)
  exact ⟨parent, b, x :: es, rfl, hx⟩

theorem TwoFolders.get_old_put (v : Option (Node Name κ)) : get old (put old v d) = v := by
  obtain ⟨parent, b, es, rfl, hparent⟩ := h.exists_parent
  exact get_put hparent b

theorem TwoFolders.put_old (v : Option (Node Name κ)) : Unharmed old new d (put old v d) ∧
      ∀ n, get (new ++ [n]) (put old v d) = get (new ++ [n]) d := by
  refine ⟨fun p hp => kind_put hp.1, fun n => get_put_of_not_prefix (fun hpre => ?_) fun hpre => ?_⟩
  · rcases prefix_concat_iff.1 hpre with heq | hpre
    · exact h.new_not_prefix (heq ▸ prefix_append new [n])
    · exact h.old_not_prefix hpre
  · exact h.new_not_prefix ((prefix_append new [n]).trans hpre)

end

theorem psyncRmdir_refused {err : Errno} (h : env.removeErr p = some err) (d : Disk κ) :
    psyncRmdir env p d = .error err := by
  rw [psyncRmdir, h]

theorem psyncRmdir_empty (h : env.removeErr p = none) (hget : get p d = some (folder [])) :
    psyncRmdir env p d = .ok (put p none d) := by
  rw [psyncRmdir, h, hget]

theorem psyncRmdir_notempty (h : env.removeErr p = none) {x : Name × Node Name κ}
    (hget : get p d = some (folder (x :: entries))) : psyncRmdir env p d = .error .notempty := by
  rw [psyncRmdir, h, hget]

/-- The first folder is removed, or has these entries. -/
def Left (old : Path) (rest : List (Name × Node Name κ)) (d d' : Disk κ) : Prop :=
  ∃ v, d' = put old v d ∧ (v = some (folder rest) ∨ v = none ∧ rest = [])

/-- The second `psync_rmdir`. -/
theorem TwoFolders.left_second (env : DiskEnv) (h : TwoFolders d old new entries)
    (rest : List (Name × Node Name κ)) :
    Left old rest d (returnRmdir env old (put old (some (folder rest)) d)).2 := by
  rw [returnRmdir]
  have hget := h.get_old_put (some (folder rest))
  cases hrefused : env.removeErr old with
  | some err =>
    rw [psyncRmdir_refused hrefused]
    exact ⟨_, rfl, .inl rfl⟩
  | none =>
    cases rest with
    | nil =>
      rw [psyncRmdir_empty hrefused hget]
      exact ⟨none, put_put .., .inr ⟨rfl, rfl⟩⟩
    | cons x rest =>
      rw [psyncRmdir_notempty hrefused hget]
      exact ⟨_, rfl, .inl rfl⟩

/-- Either nothing is done, or the first folder has what is left of its entries, or is removed when
    nothing is left. -/
theorem TwoFolders.rmdirWithTrashes_cases (env : DiskEnv) (h : TwoFolders d old new entries) :
    NoRemoval env old ∧ (psyncRmdirWithTrashes env old d).2 = d ∨
    (NoRemoval env old → entries = []) ∧
      Left old (rmEntries env false old entries) d (psyncRmdirWithTrashes env old d).2 := by
  rw [psyncRmdirWithTrashes]
  have hsecond := h.left_second env (rmEntries env false old entries)
  cases hrefused : env.removeErr old with
  | some err =>
    rw [psyncRmdir_refused hrefused]
    dsimp only
    split
    · next herr => exact .inl ⟨.inl ⟨err, hrefused, herr⟩, rfl⟩
    · next herr =>
      rw [h.get_old]
      cases hread : env.readable old with
      | false => exact .inl ⟨.inr hread, rfl⟩
      | true =>
        refine .inr ⟨?_, hsecond⟩
        rintro (⟨err', herr', hne⟩ | hnot)
        · obtain rfl := some.inj (hrefused.symm.trans herr')
          exact absurd hne herr
        · exact Bool.noConfusion (hread.symm.trans hnot)
  | none =>
    cases entries with
    | nil =>
      rw [psyncRmdir_empty hrefused h.get_old]
      exact .inr ⟨fun _ => rfl, none, rfl, .inr ⟨rfl, by rw [rmEntries]⟩⟩
    | cons x entries =>
      rw [psyncRmdir_notempty hrefused h.get_old, h.get_old]
      dsimp only
      rw [if_neg fun hc => hc.1 rfl]
      cases hread : env.readable old with
      | false => exact .inl ⟨.inr hread, rfl⟩
      | true =>
        refine .inr ⟨?_, hsecond⟩
        rintro (⟨err', herr', -⟩ | hnot)
        · cases hrefused.symm.trans herr'
        · exact Bool.noConfusion (hread.symm.trans hnot)

theorem TwoFolders.get_of_left (h : TwoFolders d old new entries)
    {rest : List (Name × Node Name κ)} (hleft : Left old rest d d') (n : Name) :
    get (old ++ [n]) d' = child n rest := by
  obtain ⟨v, rfl, rfl | ⟨rfl, rfl⟩⟩ := hleft
  · rw [get_append, h.get_old_put, bind_some, get_cons]
    cases child n rest <;> rfl
  · rw [get_append, h.get_old_put]
    rfl

theorem unharmed_refl (old new : Path) (d : Disk κ) : Unharmed old new d d := fun _ _ => rfl

theorem TwoFolders.of_left (h : TwoFolders d old new entries)
    {rest : List (Name × Node Name κ)} (hleft : Left old rest d d') :
    Unharmed old new d d' ∧ ∀ n, get (new ++ [n]) d' = get (new ++ [n]) d := by
  obtain ⟨v, rfl, -⟩ := hleft
  exact h.put_old v

/-- The entry after the removal of trash, in a merge that moves nothing. -/
theorem TwoFolders.entry_left (h : TwoFolders d old new entries) {x : Name × Node Name κ}
    (hx : x ∈ entries) (hleft : Left old (rmEntries env false old entries) d d') :
    get (old ++ [x.1]) d' = rmEntry env (env.isNameToIgnore x.1) (old ++ [x.1]) x.2 := by
  rw [h.get_of_left hleft, child_rmEntries false old h.nodup hx, Bool.false_or]

theorem TwoFolders.each_iff (h : TwoFolders d old new entries) {r : Disk κ}
    (hr : NoRemoval env old ∧ r = d ∨
      (NoRemoval env old → entries = []) ∧ Left old (rmEntries env false old entries) d r) :
    (∀ x ∈ entries, InNew old new r x ∨ AsBefore old new d r x ∨
      env.isNameToIgnore x.1 = true ∧ get (new ++ [x.1]) r = get (new ++ [x.1]) d) ↔
    (NoRemoval env old ∨ ∀ x ∈ entries, env.isNameToIgnore x.1 = true ∨
      Kept env (env.isNameToIgnore x.1) (old ++ [x.1]) x.2 ∨
      Gone env (env.isNameToIgnore x.1) (old ++ [x.1]) x.2 ∧
        get (new ++ [x.1]) d = some x.2) := by
  rcases hr with ⟨hno, rfl⟩ | ⟨hno, hleft⟩
  · exact ⟨fun _ => .inl hno, fun _ x hx => .inr (.inl ⟨h.get_entry hx, rfl⟩)⟩
  · have hnew := (h.of_left hleft).2
    have hiff : ∀ x ∈ entries, (InNew old new r x ∨ AsBefore old new d r x ∨
        env.isNameToIgnore x.1 = true ∧ get (new ++ [x.1]) r = get (new ++ [x.1]) d) ↔
        (env.isNameToIgnore x.1 = true ∨
          Kept env (env.isNameToIgnore x.1) (old ++ [x.1]) x.2 ∨
          Gone env (env.isNameToIgnore x.1) (old ++ [x.1]) x.2 ∧
            get (new ++ [x.1]) d = some x.2) := by
      intro x hx
      rw [InNew, AsBefore, hnew, h.entry_left hx hleft, rmEntry_eq_self_iff, rmEntry_eq_none_iff]
      tauto
    refine ⟨fun heach => .inr fun x hx => (hiff x hx).1 (heach x hx), ?_⟩
    rintro (hno' | hall) x hx
    · rw [hno hno'] at hx
      cases hx
    · exact (hiff x hx).2 (hall x hx)

/-- A merge is right exactly when it moves nothing and loses nothing. -/
theorem mergedRight_iff (env : DiskEnv) (h : TwoFolders d old new entries) :
    MergedRight env old new entries d ↔ Idle env old new entries d := by
  have hcases := h.rmdirWithTrashes_cases env
  refine ⟨fun hright => ?_, fun hidle => ?_⟩
  · have hno := h.noMoves hright.moves
    have hmoves := h.afterMoves_eq hno
    have heach := hright.each
    rw [moveFolderContents, hmoves] at heach
    exact ⟨hno, (h.each_iff hcases).1 heach⟩
  · have hmoves := h.afterMoves_eq hidle.noMoves
    have heach := (h.each_iff hcases).2 hidle.noLoss
    have hresult : moveFolderContents env old new d = psyncRmdirWithTrashes env old d := by
      rw [moveFolderContents, hmoves]
    refine ⟨fun k => ?_, ?_, ?_, ?_⟩
    · rw [hmoves]
      exact unharmed_refl old new d
    · rw [hresult]
      rcases hcases with ⟨-, heq⟩ | ⟨-, hleft⟩
      · rw [heq]
        exact unharmed_refl old new d
      · exact (h.of_left hleft).1
    · rw [hresult]
      exact heach
    · rw [hresult]
      intro hgone x hx
      rcases heach x hx with hnew | ⟨hold, -⟩ | ⟨hign, -⟩
      · exact .inl hnew
      · -- nothing can be in a folder that is removed
        rw [get_append, hgone] at hold
        cases hold
      · exact .inr hign

/-! ## Merges -/

/-- Disks on which nothing is refused, with one ignored name, `"t"`. -/
def plainEnv : DiskEnv := ⟨fun _ _ => none, fun _ => none, fun _ => true, fun n => n = [116]⟩

/-- `"/b"` with the given entries, `"/c"` with the file `"y"`, and other entries. -/
def diskWith (entries others : List (Name × Node Name ℕ)) : Disk ℕ :=
  .folder ([([98], .folder entries), ([99], .folder [([121], .file 2)])] ++ others)

theorem twoFolders_diskWith (entries others : List (Name × Node Name ℕ))
    (hnodup : (entries.map Prod.fst).Nodup)
    (hne : ∀ x ∈ entries, x.1 ≠ []) :
    TwoFolders (diskWith entries others) [[98]] [[99]] entries where
  get_old := rfl
  get_new := ⟨_, rfl⟩
  old_not_prefix := by decide
  new_not_prefix := by decide
  nodup := hnodup
  name_ne := hne

/-- `"/b"` has the file `"x"`, which stays there. -/
theorem mergedRight_nothing_moved : MergedRight plainEnv [[98]] [[99]] [([120], .file 1)]
      (diskWith [([120], .file 1)] []) := by
  have h := twoFolders_diskWith [([120], .file 1)] [] (by decide) (by decide)
  refine (mergedRight_iff plainEnv h).2 ⟨fun _ x hx _ d' hren => ?_, .inr fun x hx => ?_⟩
  · obtain rfl := mem_singleton.1 hx
    cases hren
  · obtain rfl := mem_singleton.1 hx
    refine .inr (.inl ?_)
    rw [Kept]
    exact fun hign => by cases hign

/-- With a file `"/bx"`, this one is moved, to `"/cx"`. And an empty folder in `"/b"` is not moved,
    but removed. -/
theorem not_mergedRight : ¬MergedRight plainEnv [[98]] [[99]] [([120], .file 1)]
      (diskWith [([120], .file 1)] [([98, 120], .file 3)]) ∧
    ¬MergedRight plainEnv [[98]] [[99]] [([120], .folder [])]
      (diskWith [([120], .folder [])] []) := by
  refine ⟨fun h => ?_, fun h => ?_⟩
  · have hkind := h.moves 1 [[98, 120]] ⟨by decide, by decide⟩
    cases hkind
  · have hgone := h.each ([120], .folder []) mem_cons_self
    rcases hgone with ⟨hnew, -⟩ | ⟨hold, -⟩ | ⟨hign, -⟩
    · cases hnew
    · cases hold
    · cases hign

end Pclsync.Downloads
