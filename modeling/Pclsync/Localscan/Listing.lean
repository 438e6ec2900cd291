import Mathlib.Order.Lattice
import Pclsync.Localscan.Tables
import Pclsync.SortedLists

/-!
# Comparing a folder with the database

`psync_list_dir` of `pcompat.c` and the functions of `plocalscan.c` that list a folder on the disk
and in the database and walk the two sorted lists in step (`scanner_scan_folder`). What they find
goes to the lists of the scan.

What the system calls give is a parameter: a directory is read entry by entry (`Dirent`), and
`lstat` is called for each.

* `compare_not_deleted`: an entry of the database is not found to be deleted when the first entries
  of its name, on the disk and in the database, are of one type and it is that entry.
-/

namespace Pclsync.Localscan

open List

variable {Name : Type}

/-! ## The disk -/

/-- The type of a file, as far as it is asked for. -/
inductive FileType
  | regular
  | directory
  | other
  deriving DecidableEq

/-- What `stat` and `lstat` give. -/
structure Stat where
  type : FileType
  dev : UInt64
  ino : UInt64
  mtime : UInt64
  size : UInt64

/-- A call of `readdir_r`: an entry, with what `lstat` says of it, or an error. Behind an error
stands what is not read because of it. The entries `.` and `..` are left out. -/
inductive Dirent (Name : Type)
  | entry (name : Name) (stat : Option Stat)
  | error

/-- A directory; none where `opendir` fails. -/
abbrev Directory (Name : Type) := Option (List (Dirent Name))

/-- `sync_folderlist`: an entry of a folder. -/
structure Elem (Name : Type) where
  localid : ℕ := 0
  remoteid : ℕ := 0
  localparentfolderid : ℕ := 0
  parentfolderid : ℕ := 0
  inode : UInt64
  deviceid : UInt64
  mtimenat : UInt64
  size : UInt64
  syncid : ℕ := 0
  synctype : ℕ := 0
  isfolder : Bool
  name : Name

/-- The loop of `psync_list_dir`. An entry without `lstat`, or of another type, is passed over; an
error ends the loop like the end of the directory does. -/
def listDirents : List (Dirent Name) → List (Name × Stat)
  | [] => []
  | .error :: _ => []
  | .entry name (some st) :: ds =>
    if st.type = .regular ∨ st.type = .directory then (name, st) :: listDirents ds
    else listDirents ds
  | .entry _ none :: ds => listDirents ds

/-- `psync_list_dir` -/
def listDir (dir : Directory Name) : Option (List (Name × Stat)) := dir.map listDirents

/-- `is_path_to_ignore` -/
def isPathToIgnore (ignoredPaths : List (UInt64 × UInt64)) (deviceid inode : UInt64) : Bool :=
  (deviceid, inode) ∈ ignoredPaths

/-- `scanner_local_entry_to_list` -/
def scannerLocalEntry (ignoredPaths : List (UInt64 × UInt64)) (e : Name × Stat) :
    Option (Elem Name) :=
  if isPathToIgnore ignoredPaths e.2.dev e.2.ino then none
  else some
    { inode := e.2.ino
      deviceid := e.2.dev
      mtimenat := e.2.mtime
      size := e.2.size
      isfolder := e.2.type = .directory
      name := e.1 }

/-- `scanner_local_folder_to_list` -/
def scannerLocalFolderToList (ignoredPaths : List (UInt64 × UInt64)) (dir : Directory Name) :
    Option (List (Elem Name)) :=
  (listDir dir).map fun l => l.filterMap (scannerLocalEntry ignoredPaths)

/-! ## The database -/

/-- What the scanner asks about names, and how deep its calls may go. -/
structure Env (Name : Type) where
  /-- `psync_is_name_to_ignore` -/
  nameToIgnore : Name → Bool
  /-- `psync_is_valid_utf8` -/
  validUtf8 : Name → Bool
  /-- Paths of `pCloudDrive`. -/
  onDrive : List Name → Bool
  stack : ℕ

/-- The entry of a row of `localfolder`. -/
def FolderRow.elem (r : FolderRow Name) (mtimenat : UInt64) : Elem Name where
  localid := r.id
  remoteid := r.folderid
  inode := r.inode
  deviceid := r.deviceid
  mtimenat := mtimenat
  size := 0
  isfolder := true
  name := r.name

/-- The entry of a row of `localfile`. -/
def FileRow.elem (r : FileRow Name) : Elem Name where
  localid := r.id
  remoteid := r.fileid
  inode := r.inode
  deviceid := 0
  mtimenat := r.mtimenative
  size := r.size
  isfolder := false
  name := r.name

variable (env : Env Name)

/-- The entries of a folder in the database, folders first. Folders that are not on the disk yet
and names to ignore are left out. -/
def Db.entries (db : Db Name) (syncid localfolderid : ℕ) : List (Elem Name) :=
  (db.folders.rows.filter fun r => r.localparentfolderid = localfolderid ∧ r.syncid = syncid ∧
      !env.nameToIgnore r.name).filterMap (fun r => r.mtimenative.map r.elem) ++
    (db.files.rows.filter fun r => r.localparentfolderid = localfolderid ∧ r.syncid = syncid ∧
      !env.nameToIgnore r.name).map FileRow.elem

/-- `try_delete_localfolder` of the folders with names to ignore and `try_delete_localfile` of the
files, where `psync_sql_tryupgradelock` succeeds (`upgraded`). -/
def Db.deleteIgnored (db : Db Name) (syncid localfolderid : ℕ) (upgraded : ℕ → Bool) :
    Option (Db Name) := do
  let folders := db.folders.rows.filter fun r => r.localparentfolderid = localfolderid ∧
    r.syncid = syncid ∧ r.mtimenative.isSome ∧ env.nameToIgnore r.name ∧ upgraded r.id
  let db ← (folders.map FolderRow.id).foldlM (Db.deleteLocalFolderRec env.stack) db
  some { db with files := db.files.delete fun r => r.localparentfolderid = localfolderid ∧
      r.syncid = syncid ∧ env.nameToIgnore r.name ∧ upgraded r.id }

/-! ## The comparison -/

/-- A folder that is scanned: the arguments of `scanner_scan_folder`. -/
structure Job (Name : Type) where
  localpath : List Name
  folderid : ℕ
  localfolderid : ℕ
  syncid : ℕ
  synctype : ℕ
  deviceid : UInt64

/-- What the comparison finds. -/
inductive Found (Name : Type)
  | new (e : Elem Name)
  | deleted (e : Elem Name)
  | modified (e : Elem Name)

/-- The entries on the disk, with their ids, and what was found. -/
structure Comparison (Name : Type) where
  disk : List (Elem Name)
  found : List (Found Name)

/-- An entry on the disk with the entry of the same name and type in the database. -/
def Elem.matched (deviceid : UInt64) (fdisk fdb : Elem Name) : Elem Name :=
  { fdisk with
    localid :=
      if fdisk.isfolder ∧ fdisk.deviceid ≠ fdb.deviceid ∧ fdisk.inode ≠ fdb.inode ∧
        fdisk.deviceid = deviceid then 0 else fdb.localid
    remoteid := fdb.remoteid }

/-- Whether a file differs from its row. -/
def Elem.differs (fdisk fdb : Elem Name) : Bool :=
  !fdisk.isfolder && (fdisk.mtimenat ≠ fdb.mtimenat || fdisk.size ≠ fdb.size ||
    fdisk.inode ≠ fdb.inode)

section Compare

variable [LinearOrder Name]

/-- The loop of `scanner_scan_folder` at the entry `fdisk` on the disk; `rest` is the loop behind
it. -/
def compareFrom (deviceid : UInt64) (fdisk : Elem Name)
    (rest : List (Elem Name) → Comparison Name) : List (Elem Name) → Comparison Name
  | [] => ⟨fdisk :: (rest []).disk, .new fdisk :: (rest []).found⟩
  | fdb :: db =>
    match compare fdisk.name fdb.name with
    | .eq =>
      if fdisk.isfolder = fdb.isfolder then
        ⟨fdisk.matched deviceid fdb :: (rest db).disk, if fdisk.differs fdb then
            .modified (fdisk.matched deviceid fdb) :: (rest db).found
          else (rest db).found⟩
      else ⟨fdisk :: (rest db).disk, .deleted fdb :: .new fdisk :: (rest db).found⟩
    | .lt => ⟨fdisk :: (rest (fdb :: db)).disk, .new fdisk :: (rest (fdb :: db)).found⟩
    | .gt =>
      ⟨(compareFrom deviceid fdisk rest db).disk,
        .deleted fdb :: (compareFrom deviceid fdisk rest db).found⟩

/-- The loops of `scanner_scan_folder`, along the sorted lists. -/
def compareLists (deviceid : UInt64) : List (Elem Name) → List (Elem Name) → Comparison Name
  | [], db => ⟨[], db.map .deleted⟩
  | fdisk :: disk, db => compareFrom deviceid fdisk (compareLists deviceid disk) db

/-- `psync_list_sort` with `folderlist_cmp`. -/
def sortByName (l : List (Elem Name)) : List (Elem Name) :=
  SortedLists.sort (fun a b => (compare a.name b.name).isLE) l

/-- The comparison of the two lists of a folder. -/
def compareFolder (deviceid : UInt64) (disk db : List (Elem Name)) : Comparison Name :=
  compareLists deviceid (sortByName disk) (sortByName db)

/-- The calls of `scanner_scan_folder` for the folders in a folder. -/
def Job.subfolders (job : Job Name) (disk : List (Elem Name)) : List (Job Name) :=
  (disk.filter fun l => l.isfolder ∧ l.localid ≠ 0 ∧ l.deviceid = job.deviceid).map fun l =>
    { job with
      localpath := job.localpath ++ [l.name]
      folderid := l.remoteid
      localfolderid := l.localid }

/-! ### What is not found to be deleted -/

variable {deviceid : UInt64} {disk db : List (Elem Name)} {b d : Elem Name}

/-- New entries are those of the disk, and deleted ones those of the database. -/
def Found.Of (disk db : List (Elem Name)) : Found Name → Prop
  | .new e => e ∈ disk
  | .deleted e => e ∈ db
  | .modified _ => True

omit [LinearOrder Name] in
theorem Found.Of.mono {disk' db' : List (Elem Name)} (hdisk : disk ⊆ disk') (hdb : db ⊆ db') :
    ∀ {f : Found Name}, f.Of disk db → f.Of disk' db'
  | .new _, h => hdisk h
  | .deleted _, h => hdb h
  | .modified _, _ => trivial

theorem of_found {f : Found Name} (h : f ∈ (compareLists deviceid disk db).found) :
    f.Of disk db := by
  induction disk generalizing db with
  | nil =>
    obtain ⟨e, he, rfl⟩ := mem_map.1 h
    exact he
  | cons x xs ih =>
    unfold compareLists at h
    induction db with
    | nil =>
      rcases mem_cons.1 h with rfl | h
      · exact mem_cons_self
      · exact (ih h).mono (subset_cons_self _ _) (Subset.refl _)
    | cons y ys ihy =>
      have htail (h : f ∈ (compareLists deviceid xs ys).found) : f.Of (x :: xs) (y :: ys) :=
        (ih h).mono (subset_cons_self _ _) (subset_cons_self _ _)
      unfold compareFrom at h
      split at h
      · split at h
        · dsimp only at h
          split at h
          · rcases mem_cons.1 h with rfl | h
            · trivial
            · exact htail h
          · exact htail h
        · rcases mem_cons.1 h with rfl | h
          · exact mem_cons_self
          · rcases mem_cons.1 h with rfl | h
            · exact mem_cons_self
            · exact htail h
      · rcases mem_cons.1 h with rfl | h
        · exact mem_cons_self
        · exact (ih h).mono (subset_cons_self _ _) (Subset.refl _)
      · rcases mem_cons.1 h with rfl | h
        · exact mem_cons_self
        · exact (ihy h).mono (Subset.refl _) (subset_cons_self _ _)

/-- An entry on the disk has the id of an entry of its name and type in the database, if it has
got one. -/
theorem matched_of_disk {l : Elem Name} (h : l ∈ (compareLists deviceid disk db).disk) :
    l ∈ disk ∨ l.localid = 0 ∨
      ∃ fdb ∈ db, l.name = fdb.name ∧ l.isfolder = fdb.isfolder ∧ l.localid = fdb.localid := by
  induction disk generalizing db with
  | nil => cases h
  | cons x xs ih =>
    unfold compareLists at h
    induction db with
    | nil =>
      rcases mem_cons.1 h with rfl | h
      · exact .inl mem_cons_self
      · exact (ih h).imp_left (mem_cons_of_mem _)
    | cons y ys ihy =>
      have htail (h : l ∈ (compareLists deviceid xs ys).disk) :=
        (ih h).imp (mem_cons_of_mem x) fun h => h.imp_right fun ⟨fdb, hmem, hfdb⟩ =>
          (⟨fdb, mem_cons_of_mem y hmem, hfdb⟩ : ∃ fdb ∈ y :: ys, l.name = fdb.name ∧
            l.isfolder = fdb.isfolder ∧ l.localid = fdb.localid)
      unfold compareFrom at h
      split at h
      · rename_i heq
        split at h
        · rename_i hty
          rcases mem_cons.1 h with rfl | h
          · right
            by_cases h0 : (x.matched deviceid y).localid = 0
            · exact .inl h0
            · refine .inr ⟨y, mem_cons_self, compare_eq_iff_eq.1 heq, hty, ?_⟩
              unfold Elem.matched at h0 ⊢
              dsimp only at h0 ⊢
              split
              · rename_i hc
                rw [if_pos hc] at h0
                exact absurd rfl h0
              · rfl
          · exact htail h
        · rcases mem_cons.1 h with rfl | h
          · exact .inl mem_cons_self
          · exact htail h
      · rcases mem_cons.1 h with rfl | h
        · exact .inl mem_cons_self
        · exact (ih h).imp_left (mem_cons_of_mem _)
      · exact (ihy h).imp_right fun h => h.imp_right fun ⟨fdb, hmem, hfdb⟩ =>
          ⟨fdb, mem_cons_of_mem y hmem, hfdb⟩

/-- In a sorted list, nothing before the first element of a name is above it. -/
theorem head_le {l L : List (Elem Name)} {x e : Elem Name} {n : Name}
    (hl : (x :: l).Pairwise fun a b => a.name ≤ b.name)
    (h : (x :: l).filter (fun e => e.name = n) = e :: L) : x.name ≤ n := by
  have he : e ∈ (x :: l).filter fun e => e.name = n := h ▸ mem_cons_self
  obtain ⟨hmem, hn⟩ := mem_filter.1 he
  rw [← of_decide_eq_true hn]
  rcases mem_cons.1 hmem with rfl | hmem
  · exact le_rfl
  · exact (pairwise_cons.1 hl).1 e hmem

theorem compareLists_not_deleted {D B : List (Elem Name)} {n : Name}
    (hdisk : disk.Pairwise fun a b => a.name ≤ b.name)
    (hdb : db.Pairwise fun a b => a.name ≤ b.name)
    (hd : disk.filter (fun e => e.name = n) = d :: D)
    (hb : db.filter (fun e => e.name = n) = b :: B) (hB : b ∉ B) (hty : d.isfolder = b.isfolder) :
    .deleted b ∉ (compareLists deviceid disk db).found := by
  induction disk generalizing db with
  | nil => cases hd
  | cons x xs ih =>
    obtain ⟨-, hxs⟩ := pairwise_cons.1 hdisk
    have hxn := head_le hdisk hd
    unfold compareLists
    induction db with
    | nil => cases hb
    | cons y ys ihy =>
      obtain ⟨-, hys⟩ := pairwise_cons.1 hdb
      have hyn := head_le hdb hb
      have hname : b.name = n := by
        have hmem : b ∈ (y :: ys).filter fun e => e.name = n := hb ▸ mem_cons_self
        exact of_decide_eq_true (mem_filter.1 hmem).2
      unfold compareFrom
      split
      · rename_i heq
        have heq := compare_eq_iff_eq.1 heq
        by_cases hx : x.name = n
        · -- the first entries of the name meet
          rw [filter_cons_of_pos (by simpa using hx)] at hd
          rw [filter_cons_of_pos (by simpa using heq ▸ hx)] at hb
          obtain ⟨rfl, -⟩ := cons_eq_cons.1 hd
          obtain ⟨rfl, rfl⟩ := cons_eq_cons.1 hb
          have hrest : .deleted y ∉ (compareLists deviceid xs ys).found := fun h =>
            hB (mem_filter.2 ⟨of_found h, by simpa using hname⟩)
          rw [if_pos hty]
          split
          · simpa using hrest
          · exact hrest
        · rw [filter_cons_of_neg (by simpa using hx)] at hd
          rw [filter_cons_of_neg (by simpa using heq ▸ hx)] at hb
          have hrest := ih hxs hys hd hb
          have hby : b ≠ y := fun h => hx (heq.trans (h ▸ hname))
          split
          · split
            · simpa using hrest
            · exact hrest
          · simpa [hby] using hrest
      · rename_i hlt
        have hlt := compare_lt_iff_lt.1 hlt
        rw [filter_cons_of_neg (by simpa using (hlt.trans_le hyn).ne)] at hd
        simpa using ih hxs hdb hd hb
      · rename_i hgt
        have hgt := compare_gt_iff_gt.1 hgt
        have hne : y.name ≠ n := (lt_of_lt_of_le hgt hxn).ne
        rw [filter_cons_of_neg (by simpa using hne)] at hb
        have hby : b ≠ y := fun h => hne (h ▸ hname)
        simpa [hby] using ihy hys hb

theorem isLE_compare {a b : Name} : (compare a b).isLE ↔ a ≤ b := by
  rw [Ordering.isLE_iff_ne_gt]
  exact compare_le_iff_le

theorem isLE_trans (a b c : Elem Name) (hab : (compare a.name b.name).isLE)
    (hbc : (compare b.name c.name).isLE) : (compare a.name c.name).isLE :=
  isLE_compare.2 ((isLE_compare.1 hab).trans (isLE_compare.1 hbc))

theorem isLE_total (a b : Elem Name) :
    (compare a.name b.name).isLE || (compare b.name a.name).isLE := by
  rw [Bool.or_eq_true, isLE_compare, isLE_compare]
  exact le_total _ _

/-- Sorting by names keeps the order of the entries of one name. -/
theorem filter_sortByName (l : List (Elem Name)) (n : Name) :
    (sortByName l).filter (fun e => e.name = n) = l.filter fun e => e.name = n := by
  refine SortedLists.filter_sort isLE_trans isLE_total (fun a b ha hb => isLE_compare.2 ?_) l
  exact ((of_decide_eq_true ha).trans (of_decide_eq_true hb).symm).le

theorem pairwise_sortByName (l : List (Elem Name)) :
    (sortByName l).Pairwise fun a b => a.name ≤ b.name :=
  (SortedLists.pairwise_sort isLE_trans isLE_total l).imp isLE_compare.1

/-- An entry of the database which is the first of its name is not found to be deleted when the
first entry of the name on the disk has its type. -/
theorem compare_not_deleted {D B : List (Elem Name)} {n : Name}
    (hd : disk.filter (fun e => e.name = n) = d :: D)
    (hb : db.filter (fun e => e.name = n) = b :: B) (hB : b ∉ B) (hty : d.isfolder = b.isfolder) :
    .deleted b ∉ (compareFolder deviceid disk db).found :=
  compareLists_not_deleted (pairwise_sortByName _) (pairwise_sortByName _)
    ((filter_sortByName _ _).trans hd) ((filter_sortByName _ _).trans hb) hB hty

end Compare

/-! ## The lists of the scan -/

/-- `scan_lists`. The lists of what is renamed, which are walked in step, are lists of pairs. -/
structure Lists (Name : Type) where
  newfiles : List (Elem Name) := []
  delfiles : List (Elem Name) := []
  newfolders : List (Elem Name) := []
  delfolders : List (Elem Name) := []
  modfiles : List (Elem Name) := []
  renfiles : List (Elem Name × Elem Name) := []
  renfolders : List (Elem Name × Elem Name) := []

/-- `copy_folderlist_element` -/
def Job.copy (job : Job Name) (e : Elem Name) : Elem Name :=
  { e with
    localparentfolderid := job.localfolderid
    parentfolderid := job.folderid
    syncid := job.syncid
    synctype := job.synctype }

/-- Whether `add_new_element` adds the entry. -/
def Job.takes (job : Job Name) (e : Elem Name) : Bool :=
  !(e.isfolder && e.deviceid ≠ job.deviceid) && !env.nameToIgnore e.name && env.validUtf8 e.name

/-- `add_new_element`, `add_deleted_element` and `add_modified_file`. -/
def Lists.add (job : Job Name) (l : Lists Name) : Found Name → Lists Name
  | .new e =>
    if job.takes env e then
      if e.isfolder then { l with newfolders := l.newfolders ++ [job.copy e] }
      else { l with newfiles := l.newfiles ++ [job.copy e] }
    else l
  | .deleted e =>
    if e.isfolder then { l with delfolders := l.delfolders ++ [job.copy e] }
    else { l with delfiles := l.delfiles ++ [job.copy e] }
  | .modified e => { l with modfiles := l.modfiles ++ [job.copy e] }

/-- Whether something is added to a list. -/
def Job.changes (job : Job Name) : Found Name → Bool
  | .new e => job.takes env e
  | _ => true

end Pclsync.Localscan
