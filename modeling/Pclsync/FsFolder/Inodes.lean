import Mathlib.Data.Nat.ModEq
import Pclsync.FsFolder.Listing

/-!
# Inode numbers

How the file system of the drive fills a `struct stat` (`pfs.c`). The inode number comes from the
id of the object, of which there are three sorts: a folder of the server has the number `3 * id`, a
file of the server `3 * id + 1`, and what is only pending `3 * taskid + 2`, all of them modulo
`2 ^ 64`.

Some of the functions do otherwise:

* `psync_row_to_file_stat` stores the number *before* it clears the structure;
* `psync_creat_stat_fake_file` stores none;
* `psync_creat_static_to_file_stat` stores the task id as it is.

`Object` is what a record stands for, and `Collide` the pairs of objects which therefore have one
number. `inodes_spec` is about all that `psync_fs_getattr` and `psync_fs_readdir` return.
-/

namespace Pclsync.FsFolder

/-! ## Filling the structure -/

/-- `folderid_to_inode`. -/
def folderidToInode (folderid : UInt64) : UInt64 := folderid * 3

/-- `fileid_to_inode`. -/
def fileidToInode (fileid : UInt64) : UInt64 := fileid * 3 + 1

/-- `taskid_to_inode`. -/
def taskidToInode (taskid : UInt64) : UInt64 := taskid * 3 + 2

/-- `FS_BLOCK_SIZE`. -/
def fsBlockSize : ℕ := 4096

/-- `S_IFDIR | 0755`. -/
def dirMode : ℕ := 0o040755

/-- `S_IFREG | 0644`. -/
def regMode : ℕ := 0o100644

/-- `struct stat`. -/
structure FuseStat where
  ino : UInt64 := 0
  mode : ℕ := 0
  nlink : ℕ := 0
  uid : ℕ := 0
  gid : ℕ := 0
  size : ℕ := 0
  blksize : ℕ := 0
  blocks : ℕ := 0
  atime : ℕ := 0
  mtime : ℕ := 0
  ctime : ℕ := 0

/-- `memset(stbuf, 0, sizeof(struct FUSE_STAT))`. -/
def FuseStat.clear (_ : FuseStat) : FuseStat := {}

/-- The columns of a row of `folder` which go into the structure. -/
structure FolderColumns where
  mtime : ℕ
  subdircnt : ℕ

/-- The columns of a row of `file` which go into the structure. -/
structure FileColumns where
  size : ℕ
  mtime : ℕ

/-- The `stat` of a file of the local system. -/
structure LocalStat where
  size : ℕ
  mtime : ℕ

/-- An open file: its `currentsize`, and the time of its log, if that can be had. -/
structure OpenedFile where
  currentsize : ℕ
  logMtime : Option ℕ

/-- What the functions read besides the record. -/
structure StatEnv where
  myuid : ℕ
  mygid : ℕ
  /-- `psync_timer_time`. -/
  time : ℕ
  /-- `folder->mtime` of the pending changes of a folder; `0` without them. -/
  folderMtime : ℤ → ℕ
  folderColumns : ℤ → FolderColumns
  fileColumns : ℤ → FileColumns
  /-- The data of a file created here: of the open file, or else of the one in the cache. -/
  dataStat : ℤ → LocalStat
  /-- The element of `openfiles`. -/
  openFile : ℤ → Option OpenedFile
  /-- `psync_fs_crypto_plain_size`. -/
  cryptoPlainSize : ℕ → ℕ

namespace StatEnv

variable (w : StatEnv) (stbuf : FuseStat)

/-- What is stored for every folder. -/
def folderStat (mtime nlink : ℕ) : FuseStat :=
  { stbuf with
    ctime := mtime, mtime := mtime, atime := mtime, mode := dirMode, nlink := nlink,
    size := fsBlockSize, blocks := 1, blksize := fsBlockSize, uid := w.myuid, gid := w.mygid }

/-- What is stored for every file. -/
def fileStat (mtime size : ℕ) : FuseStat :=
  { stbuf with
    ctime := mtime, mtime := mtime, atime := mtime, mode := regMode, nlink := 1,
    size := size, blocks := (size + 511) / 512, blksize := fsBlockSize,
    uid := w.myuid, gid := w.mygid }

/-- `psync_row_to_folder_stat`. -/
def rowToFolderStat (folderid : ℤ) : FuseStat :=
  let row := w.folderColumns folderid
  let mtime := if w.folderMtime folderid ≠ 0 then w.folderMtime folderid else row.mtime
  let stbuf := { stbuf.clear with ino := folderidToInode (UInt64.ofInt folderid) }
  w.folderStat stbuf mtime (row.subdircnt + 2)

/-- `psync_row_to_file_stat`. -/
def rowToFileStat (fileid : ℤ) (flags : UInt32) : FuseStat :=
  let row := w.fileColumns fileid
  let stbuf := { stbuf with ino := fileidToInode (UInt64.ofInt fileid) }
  let size := if flags &&& encryptedFlag ≠ 0 then w.cryptoPlainSize row.size else row.size
  w.fileStat stbuf.clear row.mtime size

/-- `psync_mkdir_to_folder_stat`. -/
def mkdirToFolderStat (mk : Mkdir) : FuseStat :=
  let mtime := if w.folderMtime mk.folderid ≠ 0 then w.folderMtime mk.folderid else mk.mtime
  let ino := if mk.folderid ≥ 0 then folderidToInode (UInt64.ofInt mk.folderid)
    else taskidToInode (UInt64.ofInt (-mk.folderid))
  w.folderStat { stbuf.clear with ino := ino } mtime (mk.subdircnt + 2)

/-- `psync_creat_stat_fake_file`. -/
def creatStatFakeFile : FuseStat :=
  w.fileStat stbuf.clear w.time 0

/-- `psync_creat_local_to_file_stat`, of a file whose data can be found. -/
def creatLocalToFileStat (fakeFileid : ℤ) (cr : Creat) (folderflags : UInt32) : FuseStat :=
  if cr.fileid < fakeFileid then w.creatStatFakeFile stbuf
  else
    let st := w.dataStat cr.fileid
    let stbuf := { stbuf.clear with ino := taskidToInode (UInt64.ofInt (-cr.fileid)) }
    if folderflags &&& encryptedFlag ≠ 0 then
      match w.openFile cr.fileid with
      | some fl =>
        -- `fill_stat_from_open_file` replaces the time of the data only
        { w.fileStat stbuf st.mtime fl.currentsize with mtime := fl.logMtime.getD st.mtime }
      | none => w.fileStat stbuf st.mtime (w.cryptoPlainSize st.size)
    else w.fileStat stbuf st.mtime st.size

/-- `psync_creat_static_to_file_stat`. -/
def creatStaticToFileStat (cr : Creat) : FuseStat :=
  let lc := cr.localCreat.getD { data := [], ctime := 0 }
  let stbuf := { stbuf.clear with ino := UInt64.ofNat cr.taskid }
  w.fileStat stbuf lc.ctime lc.data.length

/-- `psync_creat_to_file_stat`, where it returns 0. -/
def creatToFileStat (fakeFileid : ℤ) (cr : Creat) (folderflags : UInt32) : FuseStat :=
  if cr.fileid > 0 then w.rowToFileStat stbuf cr.fileid folderflags
  else if cr.fileid < 0 then w.creatLocalToFileStat stbuf fakeFileid cr folderflags
  else w.creatStaticToFileStat stbuf cr

/-- The structure filled from a record, in a folder with `flags`. -/
def toStat (fakeFileid : ℤ) (flags : UInt32) : Stat → FuseStat
  | .root => w.rowToFolderStat stbuf 0
  | .folderRow r => w.rowToFolderStat stbuf r.id
  | .mkdir task => w.mkdirToFolderStat stbuf task
  | .fileRow r => w.rowToFileStat stbuf r.id flags
  | .creat cr => w.creatToFileStat stbuf fakeFileid cr flags

end StatEnv

namespace Drive

variable (d : Drive) (s : State) (w : StatEnv) (stbuf : FuseStat) (path : List UInt8)

/-- `psync_fs_getattr`, with the structure it fills. -/
def getattrStat : Except Errno FuseStat :=
  (d.getattr s path).map fun st =>
    let flags := match d.resolvePath s path with
      | .ok fpath => fpath.flags.toUInt32
      | .error _ => 0
    w.toStat stbuf d.fakeFileid flags st

/-- What is given to `filler`: one structure is filled again and again. -/
def fillEntries (flags : UInt32) :
    FuseStat → List (Name × Option Stat) → List (Name × Option FuseStat)
  | _, [] => []
  | stbuf, (name, none) :: entries => (name, none) :: fillEntries flags stbuf entries
  | stbuf, (name, some st) :: entries =>
    let stbuf := w.toStat stbuf d.fakeFileid flags st
    (name, some stbuf) :: fillEntries flags stbuf entries

/-- `psync_fs_readdir`, with the structures it fills. -/
def readdirStats : Except Errno (List (Name × Option FuseStat)) :=
  (d.readdir s path).map fun entries =>
    let flags := match d.folderidByPath s path with
      | .ok place => place.flags
      | .error _ => 0
    d.fillEntries w flags stbuf entries

end Drive

/-! ## Objects -/

/-- What a record stands for. -/
inductive Object
  | folder (id : UInt64)
  | file (id : UInt64)
  | pendingFolder (taskid : UInt64)
  | pendingFile (taskid : UInt64)
  /-- A file which is only there to have the folder read again. -/
  | fakeFile (fileid : UInt64)
  | staticFile (taskid : UInt64)
  deriving DecidableEq

/-- The object of a record. -/
def Stat.object (fakeFileid : ℤ) : Stat → Object
  | .root => .folder 0
  | .folderRow r => .folder (UInt64.ofInt r.id)
  | .mkdir mk =>
    if mk.folderid ≥ 0 then .folder (UInt64.ofInt mk.folderid)
    else .pendingFolder (UInt64.ofInt (-mk.folderid))
  | .fileRow r => .file (UInt64.ofInt r.id)
  | .creat cr =>
    if cr.fileid > 0 then .file (UInt64.ofInt cr.fileid)
    else if cr.fileid < 0 then
      if cr.fileid < fakeFileid then .fakeFile (UInt64.ofInt cr.fileid)
      else .pendingFile (UInt64.ofInt (-cr.fileid))
    else .staticFile (UInt64.ofNat cr.taskid)

namespace Object

/-- The structure of the object is cleared behind its number, or has none. -/
def Cleared : Object → Bool
  | .file _ | .fakeFile _ => true
  | _ => false

/-- The task which makes the object. -/
def pending : Object → Option UInt64
  | .pendingFolder taskid | .pendingFile taskid => some taskid
  | _ => none

/-- The number that is left in the structure. -/
def ino : Object → UInt64
  | .folder id => folderidToInode id
  | .file _ | .fakeFile _ => 0
  | .pendingFolder taskid | .pendingFile taskid => taskidToInode taskid
  | .staticFile taskid => taskid

/-- Pairs of objects with one number. Apart from `cleared` and `root`, they have ids which cannot
    be told from each other (`pending`), or so large that the products wrap or come up to the task
    ids of static files, which count down from `2 ^ 64 - 1`. -/
inductive Collide : Object → Object → Prop
  | symm {o o' : Object} : Collide o o' → Collide o' o
  | cleared {o o' : Object} : o.Cleared → o'.Cleared → Collide o o'
  | root {o : Object} : o.Cleared → Collide o (.folder 0)
  | pending {o o' : Object} {t : UInt64} : o.pending = some t → o'.pending = some t → Collide o o'
  | clearedPending {o o' : Object} : o.Cleared → o'.pending = some 0xAAAAAAAAAAAAAAAA → Collide o o'
  | clearedStatic {o : Object} : o.Cleared → Collide o (.staticFile 0)
  | folderPending {o : Object} {t : UInt64} :
      o.pending = some t → Collide (.folder (t + 0x5555555555555556)) o
  | folderStatic (id : UInt64) : Collide (.folder id) (.staticFile (id * 3))
  | pendingStatic {o : Object} {t : UInt64} :
      o.pending = some t → Collide o (.staticFile (t * 3 + 2))

variable {o o' : Object} {f t t' : UInt64}

theorem folderidToInode_inj : folderidToInode f = folderidToInode t ↔ f = t := by
  refine ⟨fun h => UInt64.toNat_inj.1 ?_, congrArg folderidToInode⟩
  have hnat := congrArg UInt64.toNat h
  have hthree : (3 : UInt64).toNat = 3 := by decide
  rw [folderidToInode, folderidToInode, UInt64.toNat_mul, UInt64.toNat_mul, hthree] at hnat
  have hmod : f.toNat ≡ t.toNat [MOD 2 ^ 64] :=
    Nat.ModEq.cancel_right_of_coprime (by decide) hnat
  exact hmod.eq_of_lt_of_lt f.toNat_lt t.toNat_lt

theorem taskidToInode_inj : taskidToInode t = taskidToInode t' ↔ t = t' := by
  rw [taskidToInode, taskidToInode, UInt64.add_left_inj]
  exact folderidToInode_inj

theorem folderidToInode_eq_zero : folderidToInode f = 0 ↔ f = 0 := by
  have hzero : folderidToInode 0 = 0 := by decide
  rw [← hzero, folderidToInode_inj, hzero]

theorem taskidToInode_eq_zero : taskidToInode t = 0 ↔ t = 0xAAAAAAAAAAAAAAAA := by
  have hzero : taskidToInode 0xAAAAAAAAAAAAAAAA = 0 := by decide
  rw [← hzero, taskidToInode_inj]

/-- The number of a task is that of a folder which is a third of `2 ^ 64` away. -/
theorem taskidToInode_eq : taskidToInode t = folderidToInode (t + 0x5555555555555556) := by
  have htwo : (0x5555555555555556 : UInt64) * 3 = 2 := by decide
  rw [folderidToInode, UInt64.add_mul, htwo, taskidToInode]

theorem ino_cleared (h : o.Cleared) : o.ino = 0 := by
  cases o <;> first | rfl | cases h

theorem ino_pending (h : o.pending = some t) : o.ino = taskidToInode t := by
  cases o <;> cases h <;> rfl

theorem Collide.ino_eq (h : Collide o o') : o.ino = o'.ino := by
  induction h with
  | symm _ ih => exact ih.symm
  | cleared h h' => rw [ino_cleared h, ino_cleared h']
  | root h => exact ino_cleared h
  | pending h h' => rw [ino_pending h, ino_pending h']
  | clearedPending h h' => rw [ino_cleared h, ino_pending h', taskidToInode_eq_zero.2 rfl]
  | clearedStatic h => exact ino_cleared h
  | folderPending h => rw [ino_pending h]; exact taskidToInode_eq.symm
  | folderStatic id => rfl
  | pendingStatic h => exact ino_pending h

theorem sorts (o : Object) : (∃ id, o = .folder id) ∨ o.Cleared ∨ (∃ t, o.pending = some t) ∨
    ∃ t, o = .staticFile t := by
  cases o with
  | folder id => exact .inl ⟨id, rfl⟩
  | file id => exact .inr (.inl rfl)
  | pendingFolder t | pendingFile t => exact .inr (.inr (.inl ⟨t, rfl⟩))
  | fakeFile id => exact .inr (.inl rfl)
  | staticFile t => exact .inr (.inr (.inr ⟨t, rfl⟩))

/-! ### Numbers of two sorts -/

theorem collide_folder_cleared (h : o.Cleared) (hino : (folder f).ino = o.ino) :
    Collide (folder f) o := by
  rw [ino_cleared h] at hino
  rw [folderidToInode_eq_zero.1 hino]
  exact .symm (.root h)

theorem collide_folder_pending (h : o.pending = some t) (hino : (folder f).ino = o.ino) :
    Collide (folder f) o := by
  rw [ino_pending h, taskidToInode_eq] at hino
  rw [folderidToInode_inj.1 hino]
  exact .folderPending h

theorem collide_folder_static (hino : (folder f).ino = (staticFile t).ino) :
    Collide (folder f) (staticFile t) := by
  have ht : t = f * 3 := hino.symm
  rw [ht]
  exact .folderStatic f

theorem collide_cleared_pending (h : o.Cleared) (h' : o'.pending = some t)
    (hino : o.ino = o'.ino) : Collide o o' := by
  rw [ino_cleared h, ino_pending h'] at hino
  exact .clearedPending h (taskidToInode_eq_zero.1 hino.symm ▸ h')

theorem collide_cleared_static (h : o.Cleared) (hino : o.ino = (staticFile t).ino) :
    Collide o (staticFile t) := by
  rw [ino_cleared h] at hino
  have ht : t = 0 := hino.symm
  rw [ht]
  exact .clearedStatic h

theorem collide_pending_static (h : o.pending = some t) (hino : o.ino = (staticFile t').ino) :
    Collide o (staticFile t') := by
  rw [ino_pending h] at hino
  have ht : t' = t * 3 + 2 := hino.symm
  rw [ht]
  exact .pendingStatic h

/-- Distinct objects have one number only when they collide. -/
theorem ino_eq_iff (hne : o ≠ o') : o.ino = o'.ino ↔ Collide o o' := by
  refine ⟨fun hino => ?_, Collide.ino_eq⟩
  rcases o.sorts with ⟨f, rfl⟩ | h | ⟨t, h⟩ | ⟨t, rfl⟩
  · rcases o'.sorts with ⟨g, rfl⟩ | h' | ⟨t', h'⟩ | ⟨t', rfl⟩
    · exact absurd (congrArg folder (folderidToInode_inj.1 hino)) hne
    · exact collide_folder_cleared h' hino
    · exact collide_folder_pending h' hino
    · exact collide_folder_static hino
  · rcases o'.sorts with ⟨g, rfl⟩ | h' | ⟨t', h'⟩ | ⟨t', rfl⟩
    · exact .symm (collide_folder_cleared h hino.symm)
    · exact .cleared h h'
    · exact collide_cleared_pending h h' hino
    · exact collide_cleared_static h hino
  · rcases o'.sorts with ⟨g, rfl⟩ | h' | ⟨t', h'⟩ | ⟨t', rfl⟩
    · exact .symm (collide_folder_pending h hino.symm)
    · exact .symm (collide_cleared_pending h' h hino.symm)
    · rw [ino_pending h, ino_pending h', taskidToInode_inj] at hino
      exact .pending h (hino ▸ h')
    · exact collide_pending_static h hino
  · rcases o'.sorts with ⟨g, rfl⟩ | h' | ⟨t', h'⟩ | ⟨t', rfl⟩
    · exact .symm (collide_folder_static hino.symm)
    · exact .symm (collide_cleared_static h' hino.symm)
    · exact .symm (collide_pending_static h' hino.symm)
    · exact absurd (congrArg staticFile hino) hne

end Object

/-! ## What is reported -/

namespace StatEnv

variable {w : StatEnv} {stbuf : FuseStat} {fakeFileid : ℤ} {flags : UInt32}

/-- The number in the structure depends on the object only: not on what was in the structure, nor
    on the flags of the folder. -/
theorem toStat_ino (st : Stat) :
    (w.toStat stbuf fakeFileid flags st).ino = (st.object fakeFileid).ino := by
  cases st with
  | root | folderRow r | fileRow r => rfl
  | mkdir mk =>
    simp only [toStat, mkdirToFolderStat, folderStat, Stat.object]
    split_ifs <;> rfl
  | creat cr =>
    simp only [toStat, creatToFileStat, Stat.object]
    split_ifs with hpos hneg hfake
    · rfl
    · rw [creatLocalToFileStat, if_pos hfake]
      rfl
    · rw [creatLocalToFileStat, if_neg hfake]
      cases w.openFile cr.fileid <;> split_ifs <;> rfl
    · rfl

end StatEnv

namespace Drive

/-- The structure that a call fills for an object. -/
inductive Reported (d : Drive) (s : State) (o : Object) (b : FuseStat) : Prop
  | getattr {w : StatEnv} {stbuf : FuseStat} {path : List UInt8} {st : Stat} :
      d.getattr s path = .ok st → st.object d.fakeFileid = o →
      d.getattrStat s w stbuf path = .ok b → Reported d s o b
  | readdir {w : StatEnv} {stbuf : FuseStat} {path : List UInt8} {st : Stat} {i : ℕ}
      {name name' : Name} {entries : List (Name × Option Stat)}
      {stats : List (Name × Option FuseStat)} :
      d.readdir s path = .ok entries → entries[i]? = some (name, some st) →
      st.object d.fakeFileid = o → d.readdirStats s w stbuf path = .ok stats →
      stats[i]? = some (name', some b) → Reported d s o b

variable {d : Drive} {s : State} {w : StatEnv} {o o' : Object} {b b' : FuseStat}

theorem fillEntries_ino {flags : UInt32} {stbuf : FuseStat} {st : Stat} {name name' : Name}
    {entries : List (Name × Option Stat)} {i : ℕ} (hst : entries[i]? = some (name, some st))
    (hb : (d.fillEntries w flags stbuf entries)[i]? = some (name', some b)) :
    b.ino = (st.object d.fakeFileid).ino := by
  induction entries generalizing stbuf i with
  | nil => cases hst
  | cons e entries ih =>
    obtain ⟨n, _ | st'⟩ := e
    · cases i with
      | zero => cases hst
      | succ i => exact ih hst hb
    · cases i with
      | zero =>
        cases hst
        cases hb
        exact StatEnv.toStat_ino st
      | succ i => exact ih hst hb

theorem Reported.ino_eq (h : Reported d s o b) : b.ino = o.ino := by
  cases h with
  | getattr hst ho hb =>
    subst ho
    rw [getattrStat, hst] at hb
    cases hb
    exact StatEnv.toStat_ino _
  | readdir hl hst ho hstats hb =>
    subst ho
    rw [readdirStats, hl] at hstats
    cases hstats
    exact fillEntries_ino hst hb

/-- An object has the same number in all the calls, and distinct objects have different numbers
    except where they collide. -/
theorem inodes_spec (h : Reported d s o b) (h' : Reported d s o' b') :
    (o = o' → b.ino = b'.ino) ∧ (o ≠ o' → (b.ino ≠ b'.ino ↔ ¬ Object.Collide o o')) := by
  rw [h.ino_eq, h'.ino_eq]
  exact ⟨congrArg Object.ino, fun hne => not_congr (Object.ino_eq_iff hne)⟩

/-- A drive with two files in its root. -/
def twoFiles : Drive where
  folder := []
  sharedfolder := []
  myUserid := 1
  fakePrefix := [46, 114]
  encodeFilename _ name := .ok name
  file := [{ id := 1, parentfolderid := 0, name := [97] },
    { id := 2, parentfolderid := 0, name := [98] }]
  waitingforlogin := false
  fakeFileid := -100
  localStat _ := false
  decoderError _ := none
  decodeFilename _ _ := none

/-- No changes are pending. -/
def noTasks : State := { folders := .nil, localTaskid := 2 ^ 64 - 1, next := 0, freed := [] }

/-- Every file has 100 bytes. -/
def sampleStatEnv : StatEnv where
  myuid := 1000
  mygid := 1000
  time := 1500000000
  folderMtime _ := 0
  folderColumns _ := ⟨1400000000, 0⟩
  fileColumns _ := ⟨100, 1450000000⟩
  dataStat _ := ⟨0, 0⟩
  openFile _ := none
  cryptoPlainSize := id

theorem reported_file_one : Reported twoFiles noTasks (.file 1)
    (sampleStatEnv.fileStat {} 1450000000 100) :=
  @Reported.getattr twoFiles noTasks _ _ sampleStatEnv {} [47, 97]
    (.fileRow { id := 1, parentfolderid := 0, name := [97] }) rfl rfl rfl

theorem reported_file_two : Reported twoFiles noTasks (.file 2)
    (sampleStatEnv.fileStat {} 1450000000 100) :=
  @Reported.readdir twoFiles noTasks _ _ sampleStatEnv {} [47]
    (.fileRow { id := 2, parentfolderid := 0, name := [98] }) 2 [98] [98] _ _ rfl rfl rfl rfl rfl

/-- The files of the server have all the number of the root. -/
theorem inodes_of_two_files : ((Object.file 1 = .file 2 → (0 : UInt64) = 0) ∧
      (Object.file 1 ≠ .file 2 → ((0 : UInt64) ≠ 0 ↔ ¬ Object.Collide (.file 1) (.file 2)))) :=
  inodes_spec reported_file_one reported_file_two

/-- Two files in the root of the drive. -/
theorem distinct_inodes_fail : ¬ ∀ (d : Drive) (s : State) (o o' : Object) (b b' : FuseStat),
    Reported d s o b → Reported d s o' b' → o ≠ o' → b.ino ≠ b'.ino := fun h =>
  h twoFiles noTasks _ _ _ _ reported_file_one reported_file_two (by decide) rfl

end Drive

end Pclsync.FsFolder
