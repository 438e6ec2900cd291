import Mathlib.Data.List.Basic
import Pclsync.Transition

/-!
# Reopening a file for writing

`psync_fs_reopen_file_for_writing` (`pfs.c`) adds the task for a file that is written the first time
and opens its files in the cache. An empty file, and a small one which is in the page cache, becomes
a new file; for the second kind the pages are locked meanwhile.

* `psyncFsReopenFileForWriting`: the function, with the locks that it takes and gives back; the
  mutex of the file is given back in the middle, and others may change the file then.
* `PagesMatched`: the pages are locked before they are unlocked, and as often; `pagesMatched_iff`
  says when this is so.
* `Restored`: a call that fails leaves the file as it was; `restored_iff` says when.
* `machine`: any number of calls, step by step, and the number of stoppers.
-/

namespace Pclsync.Reopening

open List

/-! ## Files -/

/-- What the function uses of a `psync_openfile_t`; descriptors are `none` when they are
    `INVALID_HANDLE_VALUE`. -/
structure OpenFile where
  fileid : ℤ
  initialsize : ℕ
  currentsize : ℕ
  indexoff : ℕ
  datafile : Option ℕ
  indexfile : Option ℕ
  logfile : Option ℕ
  modified : Bool
  newfile : Bool
  encrypted : Bool
  /-- `encoder` is `PSYNC_CRYPTO_UNLOADED_SECTOR_ENCODER`. -/
  unloaded : Bool

/-- Files which are not yet written have the id of a file of the server. -/
def OpenFile.Valid (of : OpenFile) : Prop :=
  of.newfile = false → of.modified = false → 0 < of.fileid

instance (of : OpenFile) : Decidable of.Valid := inferInstanceAs (Decidable (_ → _ → _))

/-- `psync_fs_crypto_crypto_size` and `psync_fs_crypto_plain_size` -/
structure Sizes where
  cryptoSize : ℕ → ℕ
  plainSize : ℕ → ℕ

/-- `EIO` -/
def eio : ℤ := 5

/-- `PSYNC_FS_ERR_CRYPTO_EXPIRED`, which is `EROFS` -/
def cryptoExpired : ℤ := 30

/-- The errors of `pcloudcrypto.c`. -/
inductive CryptoError
  | notStarted
  | rsaError
  | folderNotFound
  | fileNotFound
  | invalidKey
  | cantConnect
  | folderNotEncrypted
  | internalError
  | other

/-- `psync_fs_crypto_err_to_errno` -/
def psyncFsCryptoErrToErrno : CryptoError → ℤ
  | .notStarted => 13
  | .rsaError => 5
  | .folderNotFound => 2
  | .fileNotFound => 2
  | .invalidKey => 5
  | .cantConnect => 107
  | .folderNotEncrypted => 22
  | .internalError => 22
  | .other => 22

/-! ## Opening the files -/

/-- What the system gives when the files are opened: descriptors, the size of the data file, and the
    number of intervals in the index file. -/
structure Opens where
  data : Option ℕ
  datasize : Option ℕ
  index : Option ℕ
  loaded : Option ℕ
  log : Option ℕ
  initLog : Bool

/-- The log of an encrypted file. -/
def openLogFile (o : Opens) (of : OpenFile) : OpenFile × ℤ :=
  if of.encrypted && of.logfile.isNone then
    match o.log with
    | none => (of, -eio)
    | some fd => ({ of with logfile := some fd }, if o.initLog then 0 else -eio)
  else (of, 0)

/-- The index file of a file which is not new. -/
def openIndexFile (o : Opens) (of : OpenFile) : OpenFile × ℤ :=
  if !of.newfile && of.indexfile.isNone then
    match o.index with
    | none => (of, -eio)
    | some fd =>
      match o.loaded with
      | none => ({ of with indexfile := some fd }, -eio)
      | some ifs => openLogFile o { of with indexfile := some fd, indexoff := ifs }
  else openLogFile o of

/-- `open_write_files`, without truncation. -/
def openWriteFiles (sizes : Sizes) (o : Opens) (of : OpenFile) : OpenFile × ℤ :=
  if of.datafile.isSome then (of, 0)
  else
    match o.data with
    | none => (of, -eio)
    | some fd =>
      match o.datasize with
      | none => ({ of with datafile := some fd }, -eio)
      | some fs =>
        openIndexFile o { of with
          datafile := some fd, currentsize := if of.encrypted then sizes.plainSize fs else fs }

/-! ## The function -/

/-- What is done with locks. -/
inductive LockOp
  | lockFile
  | unlockFile
  | lockSql
  | unlockSql
  | lockPages
  | unlockPages
  deriving DecidableEq

/-- A call that is going on. -/
structure Call where
  of : OpenFile
  /-- The file as it was when its mutex was taken last. -/
  base : OpenFile
  trace : List LockOp

/-- How a call ends: it returns, or an assertion fails. -/
inductive Outcome
  | returns (ret : ℤ) (c : Call)
  | aborts

/-- One operation on a lock. -/
def Call.op (c : Call) (o : LockOp) : Call := { c with trace := c.trace ++ [o] }

/-- The mutex is taken again, and the file is as others have left it. -/
def Call.relock (c : Call) (of : OpenFile) : Call := ⟨of, of, c.trace ++ [.lockFile]⟩

/-- What the steps of a call give, in their order. -/
structure Answers where
  /-- `psync_cloud_crypto_get_file_encoder` -/
  encoder : Option CryptoError
  afterEncoder : OpenFile
  /-- `psync_sql_trylock` succeeds. -/
  trylock : Bool
  afterSql : OpenFile
  /-- `psync_crypto_isexpired` -/
  expired : Bool
  /-- `psync_cloud_crypto_get_file_encoded_key` -/
  encodedKey : Option CryptoError
  haveAllPages : Bool
  /-- `psync_pagecache_lock_pages_in_cache` succeeds. -/
  lockPages : Bool
  /-- The ids of the tasks, when these can be added. -/
  addCreat : Option ℕ
  addModifiedFile : Option ℕ
  opens : Opens
  /-- `psync_pagecache_copy_all_pages_from_cache_to_file_locked` succeeds. -/
  copied : Bool
  /-- Seeking and truncating the data file succeed. -/
  truncated : Bool

/-- `PSYNC_FS_MAX_SIZE_CONVERT_NEWFILE` -/
def maxSizeConvertNewfile : ℕ := 32 * 4096

variable (sizes : Sizes) (a : Answers)

/-- The encoder is loaded, without the mutex of the file. -/
def loadEncoder (c : Call) (k : Call → Outcome) : Outcome :=
  if c.of.encrypted && c.of.unloaded then
    match a.encoder with
    | some err => .returns (-psyncFsCryptoErrToErrno err) (c.op .unlockFile)
    | none =>
      let c := (c.op .unlockFile).relock a.afterEncoder
      let c := { c with of := { c.of with unloaded := false } }
      if c.of.newfile || c.of.modified then .returns 1 c else k c
  else k c

/-- The SQL lock has to be taken before the mutex, when it is not free. -/
def takeSqlLock (c : Call) (k : Call → Outcome) : Outcome :=
  if a.trylock then k (c.op .lockSql)
  else
    let c := ((c.op .unlockFile).op .lockSql).relock a.afterSql
    if c.of.newfile || c.of.modified then .returns 1 (c.op .unlockSql) else k c

/-- The key of an encrypted file, and the size of the file on the server. -/
def takeKey (c : Call) (k : Call → ℕ → Outcome) : Outcome :=
  if c.of.encrypted then
    if a.expired then .returns (-cryptoExpired) (c.op .unlockSql)
    else
      match a.encodedKey with
      | some err => .returns (-psyncFsCryptoErrToErrno err) (c.op .unlockSql)
      | none => k c (sizes.cryptoSize c.of.initialsize)
  else k c c.of.initialsize

/-- The file becomes a new one. -/
def convertToNewfile (size : ℕ) (c : Call) : Outcome :=
  if c.of.fileid < 0 then .aborts
  else
    match a.addCreat with
    | none => .returns (-eio) ((c.op .unlockSql).op .unlockPages)
    | some taskid =>
      let c := { c.op .unlockSql with
        of := { c.of with fileid := -taskid, newfile := true, modified := true } }
      let (of, ret) := openWriteFiles sizes a.opens c.of
      let c := { c with of := of }
      if ret ≠ 0 then .returns ret (c.op .unlockPages)
      else
        let c := if size ≠ 0 then c.op .unlockPages else c
        if size ≠ 0 && !a.copied then .returns (-eio) c
        else .returns 1 { c with of := { c.of with currentsize := c.of.initialsize } }

/-- The file becomes a modified one. -/
def becomeModified (c : Call) : Outcome :=
  if c.of.fileid ≤ 0 then .aborts
  else
    match a.addModifiedFile with
    | none => .returns (-eio) (c.op .unlockSql)
    | some taskid =>
      let c := { c.op .unlockSql with of := { c.of with fileid := -taskid } }
      let (of, ret) := openWriteFiles sizes a.opens c.of
      let c := { c with of := of }
      if ret ≠ 0 then .returns ret c
      else if !a.truncated then .returns (-eio) c
      else
        .returns 0 { c with
          of := { c.of with modified := true, indexoff := 0, currentsize := c.of.initialsize } }

/-- The choice between the two. -/
def chooseMode (c : Call) (size : ℕ) : Outcome :=
  if size = 0 then convertToNewfile sizes a size c
  else if size ≤ maxSizeConvertNewfile && a.haveAllPages && a.lockPages then
    convertToNewfile sizes a size (c.op .lockPages)
  else becomeModified sizes a c

/-- `psync_fs_reopen_file_for_writing` -/
def psyncFsReopenFileForWriting (of : OpenFile) : Outcome :=
  loadEncoder a ⟨of, of, []⟩ fun c => takeSqlLock a c fun c =>
    takeKey sizes a c fun c size => chooseMode sizes a c size

/-! ## What is asked -/

/-- The operations on the lock of the pages. -/
def pageOps (trace : List LockOp) : List LockOp :=
  trace.filter fun o => o = .lockPages ∨ o = .unlockPages

/-- Locked and unlocked once, or not at all. -/
def PagesMatched : Outcome → Prop
  | .returns _ c => pageOps c.trace = [] ∨ pageOps c.trace = [.lockPages, .unlockPages]
  | .aborts => False

/-- The state of a file is the same. -/
structure Unchanged (f g : OpenFile) : Prop where
  newfile : g.newfile = f.newfile
  modified : g.modified = f.modified
  fileid : g.fileid = f.fileid
  datafile : g.datafile = f.datafile
  indexfile : g.indexfile = f.indexfile
  logfile : g.logfile = f.logfile

/-- A call that fails has not changed the file. -/
def Restored : Outcome → Prop
  | .returns ret c => ret < 0 → Unchanged c.base c.of
  | .aborts => False

/-! ## When it is so -/

/-- The file for which a task is added. -/
def current (of : OpenFile) : OpenFile :=
  if a.trylock then
    if of.encrypted && of.unloaded then { a.afterEncoder with unloaded := false } else of
  else a.afterSql

/-- The size of the file on the server. -/
def remoteSize (f : OpenFile) : ℕ :=
  if f.encrypted then sizes.cryptoSize f.initialsize else f.initialsize

/-- The call gets as far as adding a task. -/
structure AddsTask (of : OpenFile) : Prop where
  encoder : (of.encrypted && of.unloaded) = true →
    a.encoder = none ∧ a.afterEncoder.newfile = false ∧ a.afterEncoder.modified = false
  lock : a.trylock = false → a.afterSql.newfile = false ∧ a.afterSql.modified = false
  key : (current a of).encrypted = true → a.expired = false ∧ a.encodedKey = none

/-- The file is to become a new one. -/
def Converts (f : OpenFile) : Prop :=
  remoteSize sizes f = 0 ∨
    remoteSize sizes f ≤ maxSizeConvertNewfile ∧ a.haveAllPages = true ∧ a.lockPages = true

/-- The log is not needed, or open, or can be opened. -/
def logFine (o : Opens) (f : OpenFile) : Bool :=
  !(f.encrypted && f.logfile.isNone) || (o.log.isSome && o.initLog)

/-- The index file is not needed, or open, or can be opened and loaded. -/
def indexFine (o : Opens) (f : OpenFile) : Bool :=
  !(!f.newfile && f.indexfile.isNone) || (o.index.isSome && o.loaded.isSome)

/-- The files in the cache are open, or can be opened. -/
def opensFine (o : Opens) (f : OpenFile) : Bool :=
  f.datafile.isSome || (o.data.isSome && o.datasize.isSome && indexFine o f && logFine o f)

/-- The function is called for files which are neither new nor modified, and others keep the files
    valid. -/
structure Called (of : OpenFile) : Prop where
  newfile : of.newfile = false
  modified : of.modified = false
  valid : of.Valid
  valid_encoder : a.afterEncoder.Valid
  valid_sql : a.afterSql.Valid

/-- For an empty file, the task is added and the files are opened. -/
def PagesFine (of : OpenFile) : Prop :=
  AddsTask a of → remoteSize sizes (current a of) = 0 →
    a.addCreat.isSome = true ∧ opensFine a.opens { current a of with newfile := true } = true

/-- Nothing fails behind the addition of the task. -/
structure TaskFine (of : OpenFile) : Prop where
  creat : Converts sizes a (current a of) → a.addCreat.isSome = true →
    opensFine a.opens { current a of with newfile := true } = true ∧
      (remoteSize sizes (current a of) ≠ 0 → a.copied = true)
  modify : ¬Converts sizes a (current a of) → a.addModifiedFile.isSome = true →
    opensFine a.opens (current a of) = true ∧ a.truncated = true

variable {sizes a} {c : Call} {of f g : OpenFile} {o : Opens} {size taskid : ℕ} {ret : ℤ}

theorem Unchanged.refl (f : OpenFile) : Unchanged f f := ⟨rfl, rfl, rfl, rfl, rfl, rfl⟩

/-! ## Opening -/

/-- What the opening of files leaves alone. -/
structure SameTask (f g : OpenFile) : Prop where
  fileid : g.fileid = f.fileid
  newfile : g.newfile = f.newfile
  modified : g.modified = f.modified

theorem openLogFile_spec (o : Opens) (f : OpenFile) :
    ∃ g, openLogFile o f = (g, if logFine o f then 0 else -eio) ∧ SameTask f g := by
  rw [openLogFile, logFine]
  split
  · next hopen =>
    rw [hopen]
    cases o.log with
    | none | some fd => exact ⟨_, rfl, ⟨rfl, rfl, rfl⟩⟩
  · next hopen =>
    rw [Bool.eq_false_iff.2 hopen]
    exact ⟨_, rfl, ⟨rfl, rfl, rfl⟩⟩

theorem openIndexFile_spec (o : Opens) (f : OpenFile) :
    ∃ g, openIndexFile o f = (g, if indexFine o f && logFine o f then 0 else -eio) ∧
      SameTask f g := by
  rw [openIndexFile, indexFine]
  split
  · next hopen =>
    rw [hopen]
    cases o.index with
    | none => exact ⟨_, rfl, ⟨rfl, rfl, rfl⟩⟩
    | some fd =>
      cases o.loaded with
      | none => exact ⟨_, rfl, ⟨rfl, rfl, rfl⟩⟩
      | some ifs =>
        obtain ⟨g, heq, hg⟩ := openLogFile_spec o { f with indexfile := some fd, indexoff := ifs }
        exact ⟨g, heq, ⟨hg.fileid, hg.newfile, hg.modified⟩⟩
  · next hopen =>
    rw [Bool.eq_false_iff.2 hopen]
    obtain ⟨g, heq, hg⟩ := openLogFile_spec o f
    exact ⟨g, heq, hg⟩

theorem openWriteFiles_spec (sizes : Sizes) (o : Opens) (f : OpenFile) :
    ∃ g, openWriteFiles sizes o f = (g, if opensFine o f then 0 else -eio) ∧ SameTask f g := by
  rw [openWriteFiles, opensFine]
  split
  · next hopen =>
    rw [hopen]
    exact ⟨_, rfl, ⟨rfl, rfl, rfl⟩⟩
  · next hopen =>
    rw [Bool.eq_false_iff.2 hopen]
    cases o.data with
    | none => exact ⟨_, rfl, ⟨rfl, rfl, rfl⟩⟩
    | some fd =>
      cases o.datasize with
      | none => exact ⟨_, rfl, ⟨rfl, rfl, rfl⟩⟩
      | some fs =>
        obtain ⟨g, heq, hg⟩ := openIndexFile_spec o { f with
          datafile := some fd, currentsize := if f.encrypted then sizes.plainSize fs else fs }
        exact ⟨g, heq, ⟨hg.fileid, hg.newfile, hg.modified⟩⟩

/-! ## The two modes -/

theorem pageOps_append (t u : List LockOp) : pageOps (t ++ u) = pageOps t ++ pageOps u :=
  filter_append ..

theorem pageOps_op_unlockPages (c : Call) :
    pageOps ((c.op .unlockSql).op .unlockPages).trace = pageOps c.trace ++ [.unlockPages] := by
  rw [Call.op, Call.op, pageOps_append, pageOps_append, append_assoc]
  rfl

theorem pageOps_op_unlockSql (c : Call) : pageOps (c.op .unlockSql).trace = pageOps c.trace := by
  rw [Call.op, pageOps_append]
  exact append_nil _

/-- A call that makes a new file: the lock of the pages is given back also when it was not taken. -/
theorem pagesMatched_convert_iff (hid : ¬c.of.fileid < 0)
    (hpages : pageOps c.trace = if size = 0 then [] else [.lockPages]) :
    PagesMatched (convertToNewfile sizes a size c) ↔ (size = 0 →
      a.addCreat.isSome = true ∧ opensFine a.opens { c.of with newfile := true } = true) := by
  have hunlock := pageOps_op_unlockPages c
  have hkeep := pageOps_op_unlockSql c
  rw [hpages] at hunlock hkeep
  rw [convertToNewfile, if_neg hid]
  cases hcreat : a.addCreat with
  | none =>
    dsimp only
    rw [PagesMatched, hunlock]
    by_cases hsize : size = 0 <;> simp [hsize]
  | some taskid =>
    obtain ⟨g, hg, -⟩ := openWriteFiles_spec sizes a.opens
      { c.of with fileid := -taskid, newfile := true, modified := true }
    have hfine : opensFine a.opens
        { c.of with fileid := -taskid, newfile := true, modified := true } =
        opensFine a.opens { c.of with newfile := true } := rfl
    dsimp only
    rw [hg, hfine]
    by_cases hopens : opensFine a.opens { c.of with newfile := true } = true
    · rw [hopens, if_pos rfl, if_neg (not_not.2 rfl)]
      by_cases hsize : size = 0
      · rw [if_neg (not_not.2 hsize), hsize]
        exact iff_of_true (.inl (hkeep.trans (if_pos hsize))) fun _ => ⟨rfl, rfl⟩
      · rw [if_neg hsize] at hunlock
        have hmatched : ∀ ret h, PagesMatched
            (.returns ret { Call.op { c.op .unlockSql with of := g } .unlockPages with of := h }) :=
          fun _ _ => .inr hunlock
        rw [if_pos hsize]
        refine iff_of_true ?_ fun h => absurd h hsize
        split
        · exact hmatched _ _
        · exact hmatched _ _
    · have heio : (g, -eio).2 ≠ 0 := (by decide : -eio ≠ 0)
      rw [if_neg hopens, if_pos heio]
      by_cases hsize : size = 0
      · rw [if_pos hsize] at hunlock
        refine iff_of_false (fun h => ?_) fun h => hopens (h hsize).2
        rcases h with h | h
        · cases hunlock.symm.trans h
        · cases hunlock.symm.trans h
      · rw [if_neg hsize] at hunlock
        exact iff_of_true (.inr hunlock) fun h => absurd h hsize

/-- A call that makes a new file: the file is changed before the files are opened and the pages are
    copied. -/
theorem restored_convert_iff (hid : ¬c.of.fileid < 0) (hnew : c.base.newfile = false)
    (hof : Unchanged c.base c.of) :
    Restored (convertToNewfile sizes a size c) ↔ (a.addCreat.isSome = true →
      opensFine a.opens { c.of with newfile := true } = true ∧ (size ≠ 0 → a.copied = true)) := by
  rw [convertToNewfile, if_neg hid]
  cases hcreat : a.addCreat with
  | none => exact iff_of_true (fun _ => hof) fun h => (by cases h)
  | some taskid =>
    obtain ⟨g, hg, hsame⟩ := openWriteFiles_spec sizes a.opens
      { c.of with fileid := -taskid, newfile := true, modified := true }
    have hfine : opensFine a.opens
        { c.of with fileid := -taskid, newfile := true, modified := true } =
        opensFine a.opens { c.of with newfile := true } := rfl
    have hchanged : ∀ h : OpenFile, h.newfile = g.newfile → ¬Unchanged c.base h := by
      intro h heq hun
      have hkept := hun.newfile
      rw [heq, hsame.newfile, hnew] at hkept
      cases hkept
    dsimp only
    rw [hg, hfine]
    by_cases hopens : opensFine a.opens { c.of with newfile := true } = true
    · rw [hopens, if_pos rfl, if_neg (not_not.2 rfl)]
      by_cases hcopied : size ≠ 0 ∧ a.copied = false
      · rw [if_pos hcopied.1, hcopied.2, if_pos (by simp [hcopied.1])]
        refine iff_of_false (fun h => hchanged g rfl (h (by decide))) fun h => ?_
        cases (h rfl).2 hcopied.1
      · rw [if_neg (by simpa using hcopied)]
        refine iff_of_true (fun h => absurd h (by decide)) fun _ => ⟨rfl, fun hsize => ?_⟩
        by_contra hnot
        exact hcopied ⟨hsize, Bool.eq_false_iff.2 hnot⟩
    · have heio : (g, -eio).2 ≠ 0 := (by decide : -eio ≠ 0)
      rw [if_neg hopens, if_pos heio]
      have hneg : (g, -eio).2 < 0 := (by decide : -eio < 0)
      exact iff_of_false (fun h => hchanged g rfl (h hneg)) fun h => hopens (h rfl).1

/-- A call that makes a modified file does not use the lock of the pages. -/
theorem pagesMatched_modify (hid : 0 < c.of.fileid) (hpages : pageOps c.trace = []) :
    PagesMatched (becomeModified sizes a c) := by
  have hkeep := pageOps_op_unlockSql c
  rw [hpages] at hkeep
  rw [becomeModified, if_neg (not_le.2 hid)]
  cases a.addModifiedFile with
  | none => exact .inl hkeep
  | some taskid =>
    dsimp only
    split
    · exact .inl hkeep
    · split
      · exact .inl hkeep
      · exact .inl hkeep

theorem restored_modify_iff (hid : 0 < c.of.fileid) (hof : Unchanged c.base c.of) :
    Restored (becomeModified sizes a c) ↔ (a.addModifiedFile.isSome = true →
      opensFine a.opens c.of = true ∧ a.truncated = true) := by
  rw [becomeModified, if_neg (not_le.2 hid)]
  cases hmodified : a.addModifiedFile with
  | none => exact iff_of_true (fun _ => hof) fun h => (by cases h)
  | some taskid =>
    obtain ⟨g, hg, hsame⟩ := openWriteFiles_spec sizes a.opens { c.of with fileid := -taskid }
    have hfine : opensFine a.opens { c.of with fileid := -taskid } = opensFine a.opens c.of := rfl
    have hchanged : ¬Unchanged c.base g := by
      intro hun
      have hkept := hun.fileid.symm.trans hsame.fileid
      have hbase := hof.fileid
      dsimp only at hkept
      omega
    dsimp only
    rw [hg, hfine]
    by_cases hopens : opensFine a.opens c.of = true
    · rw [hopens, if_pos rfl, if_neg (not_not.2 rfl)]
      cases htruncated : a.truncated with
      | false =>
        refine iff_of_false (fun h => hchanged (h (by decide))) fun h => ?_
        cases (h rfl).2
      | true => exact iff_of_true (fun h => absurd h (by decide)) fun _ => ⟨rfl, rfl⟩
    · have heio : (g, -eio).2 ≠ 0 := (by decide : -eio ≠ 0)
      rw [if_neg hopens, if_pos heio]
      have hneg : (g, -eio).2 < 0 := (by decide : -eio < 0)
      exact iff_of_false (fun h => hchanged (h hneg)) fun h => hopens (h rfl).1

/-! ## The whole function -/

/-- The pages are not locked, and the file is not changed by the call. -/
structure Calm (c : Call) : Prop where
  pages : pageOps c.trace = []
  unchanged : Unchanged c.base c.of

/-- The call returns before it adds a task. -/
def Early (out : Outcome) : Prop := ∃ ret c, out = .returns ret c ∧ Calm c

theorem Early.pagesMatched {out : Outcome} (h : Early out) : PagesMatched out := by
  obtain ⟨ret, c, rfl, hc⟩ := h
  exact .inl hc.pages

theorem Early.restored {out : Outcome} (h : Early out) : Restored out := by
  obtain ⟨ret, c, rfl, hc⟩ := h
  exact fun _ => hc.unchanged

theorem Calm.op {op : LockOp} (h : Calm c) (hop : pageOps [op] = []) : Calm (c.op op) := by
  refine ⟨?_, h.unchanged⟩
  rw [Call.op, pageOps_append, h.pages, hop]
  rfl

theorem Calm.relock (h : Calm c) (f : OpenFile) : Calm (c.relock f) := by
  refine ⟨?_, .refl f⟩
  rw [Call.relock, pageOps_append, h.pages]
  rfl

/-- The file behind the loading of the encoder. -/
def afterLoad (a : Answers) (of : OpenFile) : OpenFile :=
  if of.encrypted && of.unloaded then { a.afterEncoder with unloaded := false } else of

theorem loadEncoder_cases (k : Call → Outcome) (h : Calm c) :
    (Early (loadEncoder a c k) ∧ ¬((c.of.encrypted && c.of.unloaded) = true →
      a.encoder = none ∧ a.afterEncoder.newfile = false ∧ a.afterEncoder.modified = false)) ∨
    (((c.of.encrypted && c.of.unloaded) = true →
      a.encoder = none ∧ a.afterEncoder.newfile = false ∧ a.afterEncoder.modified = false) ∧
      ∃ c', loadEncoder a c k = k c' ∧ c'.of = afterLoad a c.of ∧ Calm c') := by
  rw [loadEncoder, afterLoad]
  split
  · next hload =>
    cases hencoder : a.encoder with
    | some err =>
      refine .inl ⟨⟨_, _, rfl, h.op rfl⟩, fun hfine => ?_⟩
      cases (hfine hload).1
    | none =>
      have hrelock : Calm ((c.op .unlockFile).relock a.afterEncoder) := (h.op rfl).relock _
      dsimp only
      split
      · next hwritten =>
        refine .inl ⟨⟨_, _, rfl, hrelock.pages, ⟨rfl, rfl, rfl, rfl, rfl, rfl⟩⟩, fun hfine => ?_⟩
        obtain ⟨-, hnew, hmod⟩ := hfine hload
        change (a.afterEncoder.newfile || a.afterEncoder.modified) = true at hwritten
        rw [hnew, hmod] at hwritten
        cases hwritten
      · next hnot =>
        have hnot : (a.afterEncoder.newfile || a.afterEncoder.modified) = false :=
          Bool.eq_false_iff.2 hnot
        rw [Bool.or_eq_false_iff] at hnot
        exact .inr ⟨fun _ => ⟨rfl, hnot⟩, _, rfl, rfl, hrelock.pages,
          ⟨rfl, rfl, rfl, rfl, rfl, rfl⟩⟩
  · next hload => exact .inr ⟨fun h => absurd h hload, c, rfl, rfl, h⟩

theorem takeSqlLock_cases (k : Call → Outcome) (h : Calm c) : (Early (takeSqlLock a c k) ∧
      ¬(a.trylock = false → a.afterSql.newfile = false ∧ a.afterSql.modified = false)) ∨
    ((a.trylock = false → a.afterSql.newfile = false ∧ a.afterSql.modified = false) ∧
      ∃ c', takeSqlLock a c k = k c' ∧ c'.of = (if a.trylock then c.of else a.afterSql) ∧
        Calm c') := by
  rw [takeSqlLock]
  split
  · next htry => exact .inr ⟨fun hnot => absurd htry (by simp [hnot]), _, rfl, rfl, h.op rfl⟩
  · next htry =>
    have hrelock : Calm (((c.op .unlockFile).op .lockSql).relock a.afterSql) :=
      ((h.op rfl).op rfl).relock _
    dsimp only
    split
    · next hwritten =>
      refine .inl ⟨⟨_, _, rfl, hrelock.op rfl⟩, fun hfine => ?_⟩
      obtain ⟨hnew, hmod⟩ := hfine (Bool.eq_false_iff.2 htry)
      change (a.afterSql.newfile || a.afterSql.modified) = true at hwritten
      rw [hnew, hmod] at hwritten
      cases hwritten
    · next hnot =>
      have hnot : (a.afterSql.newfile || a.afterSql.modified) = false := Bool.eq_false_iff.2 hnot
      exact .inr ⟨fun _ => Bool.or_eq_false_iff.1 hnot, _, rfl, rfl, hrelock⟩

theorem takeKey_cases (sizes : Sizes) (k : Call → ℕ → Outcome) (h : Calm c) :
    (Early (takeKey sizes a c k) ∧
      ¬(c.of.encrypted = true → a.expired = false ∧ a.encodedKey = none)) ∨
    ((c.of.encrypted = true → a.expired = false ∧ a.encodedKey = none) ∧
      takeKey sizes a c k = k c (remoteSize sizes c.of)) := by
  rw [takeKey, remoteSize]
  split
  · next henc =>
    split
    · next hexpired =>
      refine .inl ⟨⟨_, _, rfl, h.op rfl⟩, fun hfine => ?_⟩
      rw [(hfine henc).1] at hexpired
      cases hexpired
    · next hexpired =>
      cases hkey : a.encodedKey with
      | some err =>
        refine .inl ⟨⟨_, _, rfl, h.op rfl⟩, fun hfine => ?_⟩
        cases (hfine henc).2
      | none => exact .inr ⟨fun _ => ⟨Bool.eq_false_iff.2 hexpired, rfl⟩, rfl⟩
  · next henc => exact .inr ⟨fun h => absurd h henc, rfl⟩

theorem current_eq (of : OpenFile) :
    current a of = if a.trylock then afterLoad a of else a.afterSql := rfl

/-- The call returns early, or gets as far as the choice of the mode. -/
theorem reopen_cases (sizes : Sizes) (a : Answers) (of : OpenFile) :
    (Early (psyncFsReopenFileForWriting sizes a of) ∧ ¬AddsTask a of) ∨
    (AddsTask a of ∧ ∃ c, psyncFsReopenFileForWriting sizes a of =
      chooseMode sizes a c (remoteSize sizes (current a of)) ∧ c.of = current a of ∧ Calm c) := by
  rw [psyncFsReopenFileForWriting]
  rcases loadEncoder_cases (a := a) (c := ⟨of, of, []⟩) (fun c => takeSqlLock a c fun c =>
    takeKey sizes a c fun c size => chooseMode sizes a c size) ⟨rfl, .refl of⟩ with
    ⟨hearly, hnot⟩ | ⟨hencoder, c1, hc1, hof1, hcalm1⟩
  · exact .inl ⟨hearly, fun h => hnot h.encoder⟩
  rw [hc1]
  rcases takeSqlLock_cases (a := a) (fun c =>
    takeKey sizes a c fun c size => chooseMode sizes a c size) hcalm1 with
    ⟨hearly, hnot⟩ | ⟨hlock, c2, hc2, hof2, hcalm2⟩
  · exact .inl ⟨hearly, fun h => hnot h.lock⟩
  rw [hc2]
  rw [hof1, ← current_eq] at hof2
  rcases takeKey_cases (a := a) sizes (fun c size => chooseMode sizes a c size) hcalm2
    with ⟨hearly, hnot⟩ | ⟨hkey, hc3⟩
  · exact .inl ⟨hearly, fun h => hnot (hof2.symm ▸ h.key)⟩
  · rw [hof2] at hkey hc3
    exact .inr ⟨⟨hencoder, hlock, hkey⟩, c2, hc3, hof2, hcalm2⟩

theorem pagesMatched_choose_iff (hid : 0 < c.of.fileid) (hc : Calm c) :
    PagesMatched (chooseMode sizes a c size) ↔ (size = 0 →
      a.addCreat.isSome = true ∧ opensFine a.opens { c.of with newfile := true } = true) := by
  rw [chooseMode]
  split
  · next hsize =>
    exact pagesMatched_convert_iff (not_lt.2 (le_of_lt hid)) (hc.pages.trans (if_pos hsize).symm)
  · next hsize =>
    refine iff_of_true ?_ fun h => absurd h hsize
    split
    · refine (pagesMatched_convert_iff (c := c.op .lockPages) (not_lt.2 (le_of_lt hid)) ?_).2
        fun h => absurd h hsize
      rw [if_neg hsize, Call.op, pageOps_append, hc.pages]
      rfl
    · exact pagesMatched_modify hid hc.pages

theorem restored_choose_iff (hid : 0 < c.of.fileid) (hnew : c.of.newfile = false) (hc : Calm c) :
    Restored (chooseMode sizes a c size) ↔
      ((size = 0 ∨ size ≤ maxSizeConvertNewfile ∧ a.haveAllPages = true ∧ a.lockPages = true) →
        a.addCreat.isSome = true → opensFine a.opens { c.of with newfile := true } = true ∧
          (size ≠ 0 → a.copied = true)) ∧
      (¬(size = 0 ∨ size ≤ maxSizeConvertNewfile ∧ a.haveAllPages = true ∧ a.lockPages = true) →
        a.addModifiedFile.isSome = true → opensFine a.opens c.of = true ∧ a.truncated = true) := by
  have hbase : c.base.newfile = false := hc.unchanged.newfile.symm.trans hnew
  have hneg : ¬c.of.fileid < 0 := not_lt.2 (le_of_lt hid)
  rw [chooseMode]
  split
  · next hsize =>
    rw [restored_convert_iff hneg hbase hc.unchanged]
    exact ⟨fun h => ⟨fun _ => h, fun hnot => absurd (.inl hsize) hnot⟩,
      fun h => h.1 (.inl hsize)⟩
  · next hsize =>
    rw [or_iff_right hsize]
    split
    · next hsmall =>
      simp only [Bool.and_eq_true, decide_eq_true_eq, and_assoc] at hsmall
      rw [restored_convert_iff (c := c.op .lockPages) hneg hbase hc.unchanged]
      exact ⟨fun h => ⟨fun _ => h, fun hnot => absurd hsmall hnot⟩, fun h => h.1 hsmall⟩
    · next hsmall =>
      simp only [Bool.and_eq_true, decide_eq_true_eq, and_assoc] at hsmall
      rw [restored_modify_iff hid hc.unchanged]
      exact ⟨fun h => ⟨fun hin => absurd hin hsmall, fun _ => h⟩, fun h => h.2 hsmall⟩

/-- The file for which a task is added is neither new nor modified. -/
theorem current_of_addsTask (h : Called a of) (htask : AddsTask a of) :
    (current a of).newfile = false ∧ 0 < (current a of).fileid := by
  rw [current_eq, afterLoad]
  split
  · split
    · next hload =>
      obtain ⟨-, hnew, hmod⟩ := htask.encoder hload
      exact ⟨hnew, h.valid_encoder hnew hmod⟩
    · exact ⟨h.newfile, h.valid h.newfile h.modified⟩
  · next htry =>
    obtain ⟨hnew, hmod⟩ := htask.lock (Bool.eq_false_iff.2 htry)
    exact ⟨hnew, h.valid_sql hnew hmod⟩

theorem pagesMatched_iff (h : Called a of) :
    PagesMatched (psyncFsReopenFileForWriting sizes a of) ↔ PagesFine sizes a of := by
  rcases reopen_cases sizes a of with ⟨hearly, hnot⟩ | ⟨htask, c, hc, hof, hcalm⟩
  · exact iff_of_true hearly.pagesMatched fun htask => absurd htask hnot
  · obtain ⟨-, hid⟩ := current_of_addsTask h htask
    rw [hc, pagesMatched_choose_iff (hof ▸ hid) hcalm, hof]
    exact ⟨fun hfine _ => hfine, fun hfine => hfine htask⟩

theorem restored_iff (h : Called a of) : Restored (psyncFsReopenFileForWriting sizes a of) ↔
    (AddsTask a of → TaskFine sizes a of) := by
  rcases reopen_cases sizes a of with ⟨hearly, hnot⟩ | ⟨htask, c, hc, hof, hcalm⟩
  · exact iff_of_true hearly.restored fun htask => absurd htask hnot
  · obtain ⟨hnew, hid⟩ := current_of_addsTask h htask
    rw [hc, restored_choose_iff (hof ▸ hid) (hof ▸ hnew) hcalm, hof]
    exact ⟨fun hfine _ => ⟨hfine.1, hfine.2⟩,
      fun hfine => ⟨(hfine htask).creat, (hfine htask).modify⟩⟩

/-! ## Many calls -/

/-- `clean_cache_stoppers`, as the number of locks without that of unlocks, and what the calls which
    are going on have still to do with the lock of the pages. -/
structure Stoppers where
  count : ℤ
  running : List (List LockOp)

/-- What a call does with the lock of the pages. -/
def pageOpsOf : Outcome → List LockOp
  | .returns _ c => pageOps c.trace
  | .aborts => []

/-- A call begins, or does its next operation. -/
inductive Action
  | begin (sizes : Sizes) (a : Answers) (of : OpenFile)
  | next (i : ℕ)

/-- `psync_pagecache_lock_pages_in_cache`, when it succeeds, and
    `psync_pagecache_unlock_pages_from_cache`. -/
def countAfter (count : ℤ) : LockOp → ℤ
  | .lockPages => count + 1
  | .unlockPages => count - 1
  | _ => count

/-- The calls interleave in any way. -/
def machine : Machine Stoppers Action where
  init s := s = ⟨0, []⟩
  step s
    | .begin sizes a of =>
      some { s with running := pageOpsOf (psyncFsReopenFileForWriting sizes a of) :: s.running }
    | .next i =>
      match s.running[i]? with
      | some (op :: ops) => some ⟨countAfter s.count op, s.running.set i ops⟩
      | _ => none

/-- A call on a file which is neither new nor modified, and which is not empty or adds its task and
    opens its files. -/
def Fine (_ : Stoppers) : Action → Prop
  | .begin sizes a of => Called a of ∧ PagesFine sizes a of
  | .next _ => True

/-- The calls which hold the lock of the pages are counted. -/
structure Counted (s : Stoppers) : Prop where
  running : ∀ ops ∈ s.running, ops = [] ∨ ops = [.lockPages, .unlockPages] ∨ ops = [.unlockPages]
  count : s.count = s.running.count [.unlockPages]

variable {s s' : Stoppers} {act : Action}

theorem pageOpsOf_of_matched {out : Outcome} (h : PagesMatched out) :
    pageOpsOf out = [] ∨ pageOpsOf out = [.lockPages, .unlockPages] := by
  cases out with
  | returns ret c => exact h
  | aborts => exact .inl rfl

theorem Counted.step (h : Counted s) (hfine : Fine s act) (hs : machine.step s act = some s') :
    Counted s' := by
  cases act with
  | begin sizes a of =>
    obtain ⟨⟩ := hs
    have hops := pageOpsOf_of_matched ((pagesMatched_iff hfine.1).2 hfine.2)
    constructor
    · refine forall_mem_cons.2 ⟨?_, h.running⟩
      exact hops.imp_right .inl
    · rw [count_cons_of_ne (by rcases hops with hops | hops <;> rw [hops] <;> decide)]
      exact h.count
  | next i =>
    change (match s.running[i]? with
      | some (op :: ops) => some ⟨countAfter s.count op, s.running.set i ops⟩
      | _ => none) = some s' at hs
    split at hs
    · next op ops hget =>
      obtain ⟨⟩ := hs
      obtain ⟨hi, hget⟩ := List.getElem?_eq_some_iff.1 hget
      have hshape := h.running _ (getElem_mem hi)
      have hcount := h.count
      have hpos : 0 < s.running.count [.unlockPages] ∨ op :: ops ≠ [.unlockPages] := by
        by_cases hops : op :: ops = [.unlockPages]
        · exact .inl (count_pos_iff.2 (hops ▸ hget ▸ getElem_mem hi))
        · exact .inr hops
      rw [hget] at hshape
      constructor
      · intro t ht
        rcases mem_or_eq_of_mem_set ht with ht | rfl
        · exact h.running t ht
        · rcases hshape with hnil | htwo | hone
          · cases hnil
          · exact .inr (.inr (cons.inj htwo).2)
          · exact .inl (cons.inj hone).2
      · have hset := count_set (a := ops) (b := [LockOp.unlockPages]) hi
        rw [hget] at hset
        dsimp only
        rw [hset, hcount]
        rcases hshape with hnil | htwo | hone
        · cases hnil
        · obtain ⟨rfl, rfl⟩ := cons.inj htwo
          rfl
        · obtain ⟨rfl, rfl⟩ := cons.inj hone
          have hpos := hpos.resolve_right (not_not.2 rfl)
          rw [if_pos (by decide), if_neg (by decide), countAfter]
          omega
    · cases hs

/-- The number of stoppers does not get below zero. -/
theorem count_nonneg (h : machine.Reachable Fine s) : 0 ≤ s.count := by
  have hcounted : Counted s := by
    refine h.invariant ?_ fun s a s' hs hfine hstep => hs.step hfine hstep
    rintro s rfl
    exact ⟨forall_mem_nil _, rfl⟩
  rw [hcounted.count]
  exact Int.natCast_nonneg _

/-- When the locks of the pages are matched, when a call that fails leaves the file as it was, and
    that the stoppers stay right as long as no empty file fails to become a new one. -/
theorem reopening_right (sizes : Sizes) : (∀ a of, Called a of →
      (PagesMatched (psyncFsReopenFileForWriting sizes a of) ↔ PagesFine sizes a of) ∧
      (Restored (psyncFsReopenFileForWriting sizes a of) ↔
        (AddsTask a of → TaskFine sizes a of))) ∧
    ∀ s, machine.Reachable Fine s → 0 ≤ s.count :=
  ⟨fun _ _ h => ⟨pagesMatched_iff h, restored_iff h⟩, fun _ => count_nonneg⟩

/-! ## Files for which it goes wrong -/

/-- A file of the server, of some size. -/
def remoteFile (size : ℕ) : OpenFile :=
  ⟨7, size, size, 0, none, none, none, false, false, false, false⟩

/-- Sizes of files which are not encrypted do not matter. -/
def plainSizes : Sizes := ⟨id, id⟩

/-- All steps succeed, except for the opening of the data file. -/
def noData : Answers :=
  ⟨none, remoteFile 0, true, remoteFile 0, false, none, true, true, some 5, some 5,
    ⟨none, some 0, some 4, some 0, some 6, true⟩, true, true⟩

/-- All steps succeed. -/
def allFine : Answers := { noData with opens := { noData.opens with data := some 3 } }

theorem called_remoteFile (size : ℕ) (o : Opens) :
    Called { noData with opens := o } (remoteFile size) :=
  ⟨rfl, rfl, fun _ _ => (by decide : (0 : ℤ) < 7), fun _ _ => (by decide : (0 : ℤ) < 7),
    fun _ _ => (by decide : (0 : ℤ) < 7)⟩

/-- A small file that is in the page cache becomes a new file. -/
theorem reopening_right_small :
    (PagesMatched (psyncFsReopenFileForWriting plainSizes allFine (remoteFile 10)) ↔
      PagesFine plainSizes allFine (remoteFile 10)) ∧
    (Restored (psyncFsReopenFileForWriting plainSizes allFine (remoteFile 10)) ↔
      (AddsTask allFine (remoteFile 10) → TaskFine plainSizes allFine (remoteFile 10))) ∧
    0 ≤ (Stoppers.mk 1 [[.unlockPages]]).count := by
  have hcalled : Called allFine (remoteFile 10) := called_remoteFile 10 _
  have hfine : PagesFine plainSizes allFine (remoteFile 10) := fun _ h => (by cases h)
  have h : machine.Reachable Fine ⟨0, []⟩ := .init rfl
  have hbegin : Fine ⟨0, []⟩ (.begin plainSizes allFine (remoteFile 10)) := ⟨hcalled, hfine⟩
  have hnext : ∀ s, Fine s (.next 0) := fun _ => trivial
  replace h := (h.step hbegin rfl).step (hnext _) rfl
  have hright := (reopening_right plainSizes).1 _ _ hcalled
  exact ⟨hright.1, hright.2, (reopening_right plainSizes).2 _ h⟩

/-- When the data file of an empty file cannot be opened, the pages are unlocked without having been
    locked, so that the number of stoppers gets below zero, and the file stays a new one; a large
    file keeps the id of its task. -/
theorem reopening_wrong :
    ¬PagesMatched (psyncFsReopenFileForWriting plainSizes noData (remoteFile 0)) ∧
    ¬Restored (psyncFsReopenFileForWriting plainSizes noData (remoteFile 0)) ∧
    ¬Restored (psyncFsReopenFileForWriting plainSizes noData (remoteFile 1000000)) ∧
    machine.run ⟨0, []⟩ [.begin plainSizes noData (remoteFile 0), .next 0] = some ⟨-1, [[]]⟩ := by
  refine ⟨fun h => ?_, fun h => ?_, fun h => ?_, rfl⟩
  · rcases h with h | h
    · cases h
    · cases h
  · have hkept := (h (by decide)).newfile
    cases hkept
  · have hkept := (h (by decide)).fileid
    cases hkept

end Pclsync.Reopening
