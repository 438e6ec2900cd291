import Pclsync.Components
import Mathlib.Algebra.Order.Group.Nat

/-!
# Paths of folders

`pfolder.c` has three walks over the table `folder`: down by the components of a path
(`psync_get_folderid_by_path`), up from a folder, whose names are joined
(`psync_get_path_by_folderid`), and down to what is before the last slash
(`psync_folder_stat_path`). For the root the last one makes an entry that it does not return.

* `psyncGetFolderidByPath`, `psyncGetPathByFolderid`, `psyncFolderStatPath`: the functions. An
  error, `PSYNC_INVALID_FOLDERID` or `NULL`, is `none`.
* `Db.IsTree`: the table is a tree. `Db.HasPath`: the names on the way to a folder.
* `paths_agree_iff`: the walks agree, except on the path of a folder with a slash at its end.
-/

namespace Pclsync.FolderPaths

open List Option

/-- The columns of `folder` that are read. -/
structure FolderRow where
  id : ℕ
  parentfolderid : ℕ
  name : List UInt8
  permissions : UInt64
  userid : UInt64
  flags : UInt64

/-- The columns of `file` that are read. -/
structure FileRow where
  id : ℕ
  parentfolderid : ℕ
  name : List UInt8
  size : UInt64

/-- The tables, without the row of the root, and `psync_my_userid`. -/
structure Db where
  folder : List FolderRow
  file : List FileRow
  myUserid : UInt64

/-- A `pentry_t` with its name. -/
inductive Entry
  | folder (folderid : ℕ) (cansyncup cansyncdown canshare isencrypted : Bool) (namelen : ℕ)
    (name : List UInt8)
  | file (fileid : ℕ) (size : UInt64) (namelen : ℕ) (name : List UInt8)

/-- The id of a folder entry. -/
def Entry.folderid? : Entry → Option ℕ
  | folder folderid _ _ _ _ _ _ => some folderid
  | file .. => none

def isSlash (b : UInt8) : Bool := b == 47

namespace Db

variable (db : Db)

/-- `SELECT … FROM folder WHERE parentfolderid=? AND name=?`. -/
def child (folderid : ℕ) (name : List UInt8) : Option FolderRow :=
  db.folder.find? fun r => r.parentfolderid = folderid ∧ r.name = name

/-- `SELECT … FROM folder WHERE id=?`. -/
def row (folderid : ℕ) : Option FolderRow := db.folder.find? fun r => r.id = folderid

/-- `SELECT id, size FROM file WHERE parentfolderid=? AND name=?`. -/
def childFile (folderid : ℕ) (name : List UInt8) : Option FileRow :=
  db.file.find? fun r => r.parentfolderid = folderid ∧ r.name = name

/-- The loop of `psync_get_folderid_by_path`, for at most `n` rounds. -/
def walkDown : ℕ → ℕ → List UInt8 → Option ℕ
  | 0, _, _ => none
  | n + 1, cfolderid, path =>
    let path := path.dropWhile isSlash
    if path = [] then some cfolderid
    else match db.child cfolderid (firstWord isSlash path) with
      | none => none
      | some row => walkDown n row.id (afterWord isSlash path)

/-- `psync_get_folderid_by_path`. -/
def psyncGetFolderidByPath (path : List UInt8) : Option ℕ :=
  if path.head? = some 47 then db.walkDown (path.length + 1) 0 path else none

/-- `psync_add_path_to_list`, for at most `n` rounds. -/
def psyncAddPathToList : ℕ → List (List UInt8) → ℕ → Option (List (List UInt8))
  | 0, _, _ => none
  | n + 1, lst, folderid =>
    if folderid = 0 then some ([] :: lst)
    else match db.row folderid with
      | none => none
      | some row => psyncAddPathToList n (row.name :: lst) row.parentfolderid

end Db

/-- `psync_join_string_list`: every string is followed by the separator, and the last separator is
    cut off. -/
def psyncJoinStringList (sep : List UInt8) (lst : List (List UInt8)) : List UInt8 :=
  let ret := lst.flatMap fun e => e ++ sep
  ret.take (ret.length - sep.length)

namespace Db

variable (db : Db)

/-- `psync_get_path_by_folderid`. -/
def psyncGetPathByFolderid (n folderid : ℕ) : Option (List UInt8) :=
  (db.psyncAddPathToList n [] folderid).map fun lst =>
    let ret := psyncJoinStringList [47] lst
    if ret = [] then [47] else ret

/-- What `psync_folder_stat_path` returns of a name in a folder. -/
def statName (folderid : ℕ) (name : List UInt8) : Option Entry :=
  match db.child folderid name with
  | some row => some (.folder row.id (row.permissions &&& 14 = 14) (row.permissions &&& 1 = 1)
      (db.myUserid = row.userid) (row.flags &&& 1 ≠ 0) (name.length % 2 ^ 16) name)
  | none => (db.childFile folderid name).map fun row =>
      .file row.id row.size (name.length % 2 ^ 16) name

/-- `psync_folder_stat_path`. The entry made for the path `/` is not returned. -/
def psyncFolderStatPath (remotepath : List UInt8) : Option Entry :=
  if remotepath.head? = some 47 then
    -- What is behind the last slash, and the place of that slash.
    let name := (firstWord isSlash remotepath.reverse).reverse
    let len := remotepath.length - name.length - 1
    if len = 0 then db.statName 0 name
    else match db.psyncGetFolderidByPath (remotepath.take len) with
      | none => none
      | some folderid => db.statName folderid name
  else none

/-! ## Trees -/

/-- The table is a tree: `depth` is the distance of a folder to the root, which has the id `0`. -/
structure IsTree : Prop where
  ids : ∀ r ∈ db.folder, ∀ s ∈ db.folder, r.id = s.id → r = s
  siblings : ∀ r ∈ db.folder, ∀ s ∈ db.folder,
    r.parentfolderid = s.parentfolderid → r.name = s.name → r = s
  root : ∀ r ∈ db.folder, r.id ≠ 0
  names : ∀ r ∈ db.folder, r.name ≠ [] ∧ ∀ b ∈ r.name, isSlash b = false
  rooted : ∃ depth : ℕ → ℕ, ∀ r ∈ db.folder, r.parentfolderid = 0 ∨
    ∃ p ∈ db.folder, p.id = r.parentfolderid ∧ depth p.id < depth r.id

def IsFolder (f : ℕ) : Prop := f = 0 ∨ ∃ r ∈ db.folder, r.id = f

/-- The names on the way from the root to a folder. -/
inductive HasPath : ℕ → List (List UInt8) → Prop
  | root : HasPath 0 []
  | child {r : FolderRow} {names : List (List UInt8)} (hr : r ∈ db.folder)
    (h : HasPath r.parentfolderid names) : HasPath r.id (names ++ [r.name])

/-- The folder that is reached by names. -/
def descend (f : ℕ) (names : List (List UInt8)) : Option ℕ :=
  names.foldlM (fun f name => (db.child f name).map FolderRow.id) f

variable {db} {f : ℕ} {names : List (List UInt8)} {path : List UInt8}

theorem IsTree.child_eq_some (h : db.IsTree) {name : List UInt8} {r : FolderRow} :
    db.child f name = some r ↔ r ∈ db.folder ∧ r.parentfolderid = f ∧ r.name = name := by
  constructor
  · intro hr
    unfold child at hr
    have hcond := find?_some hr
    exact ⟨mem_of_find?_eq_some hr, of_decide_eq_true hcond⟩
  · rintro ⟨hr, rfl, rfl⟩
    rcases hc : db.child r.parentfolderid r.name with _ | s <;> unfold child at hc
    · exact absurd (decide_eq_true ⟨rfl, rfl⟩) (find?_eq_none.1 hc r hr)
    · have hcond := find?_some hc
      rw [decide_eq_true_eq] at hcond
      rw [h.siblings s (mem_of_find?_eq_some hc) r hr hcond.1 hcond.2]

theorem IsTree.row_eq_some (h : db.IsTree) {r : FolderRow} (hr : r ∈ db.folder) :
    db.row r.id = some r := by
  rcases hc : db.row r.id with _ | s <;> unfold row at hc
  · exact absurd (decide_eq_true rfl) (find?_eq_none.1 hc r hr)
  · have hid := find?_some hc
    rw [decide_eq_true_eq] at hid
    rw [h.ids s (mem_of_find?_eq_some hc) r hr hid]

theorem descend_concat (name : List UInt8) : db.descend f (names ++ [name]) =
    (db.descend f names).bind fun f => (db.child f name).map FolderRow.id := by
  rw [descend, foldlM_append]
  simp [descend]

theorem IsTree.hasPath_iff (h : db.IsTree) : db.HasPath f names ↔ db.descend 0 names = some f := by
  constructor
  · intro hp
    induction hp with
    | root => rfl
    | @child r names hr _ ih =>
      rw [descend_concat, ih, bind_some, h.child_eq_some.2 ⟨hr, rfl, rfl⟩]
      rfl
  · induction names using reverseRecOn generalizing f with
    | nil =>
      intro hf
      cases hf
      exact .root
    | append_singleton names name ih =>
      intro hf
      rw [descend_concat] at hf
      obtain ⟨g, hg, hr⟩ := bind_eq_some_iff.1 hf
      obtain ⟨r, hchild, rfl⟩ := map_eq_some_iff.1 hr
      obtain ⟨hmem, rfl, rfl⟩ := h.child_eq_some.1 hchild
      exact .child hmem (ih hg)

theorem IsTree.exists_hasPath (h : db.IsTree) (hf : db.IsFolder f) :
    ∃ names, db.HasPath f names := by
  obtain ⟨depth, hdepth⟩ := h.rooted
  rcases hf with rfl | ⟨r, hr, rfl⟩
  · exact ⟨[], .root⟩
  · induction hn : depth r.id using Nat.strongRecOn generalizing r with
    | ind n ih =>
      rcases hdepth r hr with h0 | ⟨p, hp, hpr, hlt⟩
      · exact ⟨[] ++ [r.name], .child hr (h0 ▸ .root)⟩
      · obtain ⟨names, hnames⟩ := ih _ (hn ▸ hlt) p hp rfl
        exact ⟨names ++ [r.name], .child hr (hpr ▸ hnames)⟩

theorem IsTree.names_of_hasPath (h : db.IsTree) (hp : db.HasPath f names) :
    ∀ name ∈ names, name ≠ [] ∧ ∀ b ∈ name, isSlash b = false := by
  induction hp with
  | root => exact forall_mem_nil _
  | child hr _ ih =>
    intro name hname
    rcases mem_append.1 hname with hname | hname
    · exact ih name hname
    · exact mem_singleton.1 hname ▸ h.names _ hr

/-! ## Down -/

theorem walkDown_eq {n : ℕ} (hn : path.length < n) (cfolderid : ℕ) :
    db.walkDown n cfolderid path = db.descend cfolderid (components isSlash path) := by
  induction n generalizing cfolderid path with
  | zero => omega
  | succ n ih =>
    rw [walkDown, ← components_dropWhile]
    have hlen := (dropWhile_sublist isSlash (l := path)).length_le
    rcases hpath : path.dropWhile isSlash with _ | ⟨b, rest⟩
    · rfl
    · have hb : isSlash b = false := by
        have := head_dropWhile_not isSlash (l := path) (by rw [hpath]; exact cons_ne_nil _ _)
        simpa [hpath] using this
      rw [hpath, length_cons] at hlen
      have hafter : afterWord isSlash (b :: rest) = afterWord isSlash rest := by
        simp [afterWord, hb]
      have hrest := (dropWhile_sublist (fun a => !isSlash a) (l := rest)).length_le
      rw [components_cons_of_not_sep hb, descend, foldlM_cons]
      rw [if_neg (cons_ne_nil _ _), show firstWord isSlash (b :: rest) =
        b :: firstWord isSlash rest by simp [firstWord, hb], hafter]
      rcases db.child cfolderid (b :: firstWord isSlash rest) with _ | row
      · rfl
      · exact ih (by unfold afterWord; omega) row.id

theorem psyncGetFolderidByPath_eq (h : path.head? = some 47) :
    db.psyncGetFolderidByPath path = db.descend 0 (components isSlash path) := by
  rw [psyncGetFolderidByPath, if_pos h, walkDown_eq (Nat.lt_succ_self _)]

/-! ## Up -/

theorem IsTree.psyncAddPathToList_eq (h : db.IsTree) (hp : db.HasPath f names) :
    ∃ N, ∀ n ≥ N, ∀ lst, db.psyncAddPathToList n lst f = some ([] :: names ++ lst) := by
  induction hp with
  | root =>
    refine ⟨1, fun n hn lst => ?_⟩
    obtain ⟨n, rfl⟩ := Nat.exists_eq_add_of_le' hn
    rw [psyncAddPathToList, if_pos rfl]
    rfl
  | @child r names hr _ ih =>
    obtain ⟨N, hN⟩ := ih
    refine ⟨N + 1, fun n hn lst => ?_⟩
    obtain ⟨n, rfl⟩ := Nat.exists_eq_add_of_le' ((Nat.succ_le_succ (Nat.zero_le N)).trans hn)
    rw [psyncAddPathToList, if_neg (h.root r hr), h.row_eq_some hr]
    dsimp only
    rw [hN n (by omega)]
    simp

theorem components_flatMap (h : ∀ name ∈ names, name ≠ [] ∧ ∀ b ∈ name, isSlash b = false) :
    components isSlash (names.flatMap fun e => e ++ [47]) = names := by
  induction names with
  | nil => exact components_nil
  | cons name names ih =>
    rw [forall_mem_cons] at h
    rw [flatMap_cons, append_assoc, singleton_append, components_append_cons (by rfl), ih h.2]
    have hword := components_word_append h.1.2 h.1.1 []
    rw [append_nil] at hword
    rw [hword, firstWord, afterWord, takeWhile_nil, dropWhile_nil, components_nil,
      append_nil, singleton_append]

theorem psyncJoinStringList_concat (sep last : List UInt8) (lst : List (List UInt8)) :
    psyncJoinStringList sep (lst ++ [last]) = (lst.flatMap fun e => e ++ sep) ++ last := by
  rw [psyncJoinStringList, flatMap_append, flatMap_singleton, ← append_assoc]
  rw [length_append, Nat.add_sub_cancel, take_left]

theorem psyncJoinStringList_spec (h : ∀ name ∈ names, name ≠ [] ∧ ∀ b ∈ name, isSlash b = false) :
    let ret := psyncJoinStringList [47] ([] :: names)
    components isSlash ret = names ∧ (ret = [] ∨ ret.head? = some 47) := by
  have hcut : psyncJoinStringList [47] ([] :: names) ++ [47] =
      47 :: names.flatMap fun e => e ++ [47] := by
    rcases names.eq_nil_or_concat' with rfl | ⟨init, last, rfl⟩
    · rfl
    · rw [← cons_append, psyncJoinStringList_concat]
      simp
  have hcomp : components isSlash (psyncJoinStringList [47] ([] :: names) ++ [47]) = _ :=
    components_append_seps (fun a ha => by rw [mem_singleton.1 ha]; rfl) _
  rw [hcut, components_cons_of_sep (by rfl), components_flatMap h] at hcomp
  refine ⟨hcomp.symm, ?_⟩
  rcases hret : psyncJoinStringList [47] ([] :: names) with _ | ⟨b, ret⟩
  · exact .inl rfl
  · rw [hret] at hcut
    exact .inr (congrArg some (cons.inj hcut).1)

theorem IsTree.roundTrip (h : db.IsTree) (hf : db.IsFolder f) : ∃ path, (∃ N, ∀ n ≥ N,
    db.psyncGetPathByFolderid n f = some path) ∧ db.psyncGetFolderidByPath path = some f := by
  obtain ⟨names, hp⟩ := h.exists_hasPath hf
  obtain ⟨N, hN⟩ := h.psyncAddPathToList_eq hp
  obtain ⟨hcomp, hhead⟩ := psyncJoinStringList_spec (h.names_of_hasPath hp)
  refine ⟨_, ⟨N, fun n hn => by rw [psyncGetPathByFolderid, hN n hn, append_nil]; rfl⟩, ?_⟩
  dsimp only
  rcases hhead with hnil | hhead
  · rw [hnil, components_nil] at hcomp
    rw [hnil, if_pos rfl, psyncGetFolderidByPath_eq rfl, components_cons_of_sep (by rfl),
      components_nil, hcomp]
    exact h.hasPath_iff.1 hp
  · have hne : psyncJoinStringList [47] ([] :: names) ≠ [] := by
      intro hnil
      rw [hnil] at hhead
      cases hhead
    rw [if_neg hne, psyncGetFolderidByPath_eq hhead, hcomp]
    exact h.hasPath_iff.1 hp

/-! ## Entries -/

/-- A path is what is before its last slash, the slash, and a name. -/
theorem exists_lastName (h : path.head? = some 47) : ∃ dir name, path = dir ++ 47 :: name ∧
    (∀ b ∈ name, isSlash b = false) ∧ (dir = [] ∨ dir.head? = some 47) ∧
    (firstWord isSlash path.reverse).reverse = name ∧ path.length - name.length - 1 =
      dir.length := by
  obtain ⟨p, w, rfl, hp, hw⟩ := exists_lastWord isSlash path
  rcases p.eq_nil_or_concat' with rfl | ⟨dir, a, rfl⟩
  · rw [nil_append] at h
    have := hw 47 (mem_of_head? h)
    cases this
  · obtain rfl : a = 47 := eq_of_beq (hp a getLast?_concat)
    refine ⟨dir, w, by simp, hw, ?_, ?_, by simp; omega⟩
    · cases dir with
      | nil => exact .inl rfl
      | cons b dir => exact .inr h
    · have htake : ∀ b ∈ w.reverse, (!isSlash b) = true := fun b hb => by
        rw [hw b (mem_reverse.1 hb)]
        rfl
      have hrev : (dir ++ [47] ++ w).reverse = w.reverse ++ 47 :: dir.reverse := by simp
      rw [hrev, firstWord, takeWhile_append_of_pos htake, takeWhile_cons_of_neg (by decide)]
      simp

theorem psyncFolderStatPath_eq {dir name : List UInt8} (h : (dir ++ 47 :: name).head? = some 47)
    (hd : dir = [] ∨ dir.head? = some 47)
    (hname : (firstWord isSlash (dir ++ 47 :: name).reverse).reverse = name) :
    db.psyncFolderStatPath (dir ++ 47 :: name) =
      (db.descend 0 (components isSlash dir)).bind fun folderid => db.statName folderid name := by
  have hlen : (dir ++ 47 :: name).length - name.length - 1 = dir.length := by simp; omega
  rw [psyncFolderStatPath, if_pos h]
  dsimp only
  rw [hname, hlen, take_left]
  rcases hd with rfl | hd
  · rw [length_nil, if_pos rfl, components_nil]
    rfl
  · have hne : dir.length ≠ 0 := by
      intro h0
      rw [length_eq_zero_iff.1 h0] at hd
      cases hd
    rw [if_neg hne, psyncGetFolderidByPath_eq hd]
    cases db.descend 0 (components isSlash dir) <;> rfl

theorem folderid?_statName (folderid : ℕ) (name : List UInt8) :
    (db.statName folderid name).bind Entry.folderid? =
      (db.child folderid name).map FolderRow.id := by
  rw [statName]
  cases db.child folderid name with
  | some row => rfl
  | none => cases db.childFile folderid name <;> rfl

end Db

/-- What the three walks have to do with each other, for a path. -/
structure Agree (db : Db) (path : List UInt8) : Prop where
  roundTrip : ∀ f, db.IsFolder f → ∃ p, (∃ N, ∀ n ≥ N, db.psyncGetPathByFolderid n f = some p) ∧
    db.psyncGetFolderidByPath p = some f
  components : ∀ p, p.head? = some 47 → components isSlash p = components isSlash path →
    db.psyncGetFolderidByPath p = db.psyncGetFolderidByPath path
  stat : ∀ f, (∃ e, db.psyncFolderStatPath path = some e ∧ e.folderid? = some f) ↔
    db.psyncGetFolderidByPath path = some f
  file : ∀ e, db.psyncFolderStatPath path = some e → e.folderid? = none →
    db.psyncGetFolderidByPath path = none

open Db

/-- The walks agree on an absolute path unless it ends with a slash and leads to a folder. -/
theorem paths_agree_iff {db : Db} (h : db.IsTree) {path : List UInt8}
    (habs : path.head? = some 47) :
    Agree db path ↔
      ¬ (path.getLast? = some 47 ∧ ∃ f, db.HasPath f (Pclsync.components isSlash path)) := by
  obtain ⟨dir, name, rfl, hname, hdir, hlast, -⟩ := exists_lastName habs
  have hstat : db.psyncFolderStatPath _ = _ := psyncFolderStatPath_eq habs hdir hlast
  have hbind : (db.psyncFolderStatPath (dir ++ 47 :: name)).bind Entry.folderid? =
      (db.descend 0 (Pclsync.components isSlash dir)).bind fun f =>
        (db.child f name).map FolderRow.id := by
    rw [hstat, bind_assoc]
    simp only [folderid?_statName]
  have hget : db.psyncGetFolderidByPath _ = _ := psyncGetFolderidByPath_eq habs
  rw [components_append_cons (by rfl)] at hget ⊢
  have hagree : ∀ {g}, (∀ f, (∃ e, db.psyncFolderStatPath (dir ++ 47 :: name) = some e ∧
      e.folderid? = some f) ↔ g = some f) ↔
      (db.psyncFolderStatPath (dir ++ 47 :: name)).bind Entry.folderid? = g := fun {g} => by
    simp only [← bind_eq_some_iff]
    exact ⟨fun hf => ext hf, fun hg f => by rw [hg]⟩
  cases name with
  | nil =>
    have hno : ∀ f, db.child f [] = none := fun f => by
      rcases hc : db.child f [] with _ | r
      · rfl
      · obtain ⟨hr, -, hnil⟩ := h.child_eq_some.1 hc
        exact absurd hnil (h.names r hr).1
    have hnone : (db.psyncFolderStatPath (dir ++ [47])).bind Entry.folderid? = none := by
      rw [hbind]
      simp [hno]
    rw [components_nil, append_nil] at hget ⊢
    constructor
    · rintro hA ⟨-, f, hf⟩
      have hsome := hget.trans (h.hasPath_iff.1 hf)
      rw [← hagree.1 hA.stat, hnone] at hsome
      cases hsome
    · intro hcond
      have hnot : db.psyncGetFolderidByPath (dir ++ [47]) = none := by
        rw [hget]
        rcases hd : db.descend 0 (Pclsync.components isSlash dir) with _ | f
        · rfl
        · exact absurd ⟨getLast?_concat, f, h.hasPath_iff.2 hd⟩ hcond
      exact ⟨fun f hf => h.roundTrip hf, fun p hp hc => by
        rw [psyncGetFolderidByPath_eq hp, psyncGetFolderidByPath_eq habs, hc],
        hagree.2 (hnone.trans hnot.symm), fun _ _ _ => hnot⟩
  | cons b name =>
    have hword : Pclsync.components isSlash (b :: name) = [b :: name] := by
      have hword := components_word_append hname (cons_ne_nil b name) []
      rw [append_nil] at hword
      rw [hword, firstWord, afterWord, takeWhile_nil, dropWhile_nil, components_nil, append_nil]
    have heq : (db.psyncFolderStatPath (dir ++ 47 :: b :: name)).bind Entry.folderid? =
        db.psyncGetFolderidByPath (dir ++ 47 :: b :: name) := by
      rw [hbind, hget, hword, descend_concat]
    refine iff_of_true ⟨fun f hf => h.roundTrip hf, fun p hp hc => by
      rw [psyncGetFolderidByPath_eq hp, psyncGetFolderidByPath_eq habs, hc],
      hagree.2 heq, fun e he hfile => ?_⟩ ?_
    · rw [← heq, he]
      exact hfile
    · rintro ⟨hlast, -⟩
      rw [getLast?_append_cons, getLast?_cons_cons] at hlast
      have := hname 47 (mem_of_getLast? hlast)
      cases this

/-- A folder `a` of the root. -/
def oneFolder : Db := ⟨[⟨5, 0, [97], 15, 1, 0⟩], [], 1⟩

theorem oneFolder_isTree : oneFolder.IsTree where
  ids := by simp [oneFolder]
  siblings := by simp [oneFolder]
  root := by simp [oneFolder]
  names := by simp [oneFolder, isSlash]
  rooted := ⟨id, by simp [oneFolder]⟩

/-- The walks agree on the path `/a`. -/
theorem paths_agree_iff_folder : Agree oneFolder [47, 97] :=
  (paths_agree_iff oneFolder_isTree rfl).2 fun h => absurd h.1 (by decide)

/-- The root has an id, but no entry is returned for its path. -/
theorem root_not_agree : oneFolder.IsTree ∧ oneFolder.psyncGetFolderidByPath [47] = some 0 ∧
    oneFolder.psyncFolderStatPath [47] = none ∧ ¬ Agree oneFolder [47] := by
  refine ⟨oneFolder_isTree, rfl, rfl, fun h => ?_⟩
  obtain ⟨e, he, -⟩ := (h.stat 0).2 rfl
  cases he

end Pclsync.FolderPaths
