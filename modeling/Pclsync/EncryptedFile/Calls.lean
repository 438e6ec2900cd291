import Pclsync.EncryptedFile.Modified
import Pclsync.WriteSpace.Coverage
import Pclsync.WriteSpace.Throttle

/-!
# Calls on open encrypted files

`psync_fs_read`, `psync_fs_write` and `psync_fs_ftruncate` of `pfs.c`, for encrypted files: they
take the mutex of the file, and release it or leave that to what they call.

* `checkWriteSpace`, `incWriteidLocked`: what is done before a write.
* `reopenFileForWriting`: an unmodified file becomes a new or a modified one.
-/

namespace Pclsync

open Guarded Crypto

namespace EncryptedFile

/-! ## Before a write -/

/-- `psync_fs_do_check_write_space`: it returns without the mutex when the write is refused. -/
def doCheckWriteSpace (size : ℕ) : Op ℤ := do
  let (minlocal, freespc, uploadspeed, pages) ← Prog.ask fun
    | .space minlocal freespc uploadspeed pages => some (minlocal, freespc, uploadspeed, pages)
    | _ => none
  let n := UInt64.ofNat size
  if freespc = 18446744073709551615 then pure 1
  else if minlocal + n ≤ freespc then do
    Prog.modify fun of => { of with throttle := false }
    pure 1
  else do
    Prog.modify fun of => { of with throttle := true }
    Prog.unlock
    match WriteSpace.doCheckWriteSpace minlocal n uploadspeed pages freespc with
    | .refuse => pure (-4)
    | _ => do
      Prog.lock
      pure 1

/-- `psync_fs_check_write_space` -/
def checkWriteSpace (size offset : ℕ) : Op ℤ := do
  let of ← Prog.get
  if of.throttle = false ∧ of.writeid % 64 ≠ 0 then pure 1
  else if offset + size ≤ of.currentsize ∧ of.modified ∧
      WriteSpace.checkModifiedFileWriteSpace true of.writeintervals size offset then pure 1
  else doCheckWriteSpace size

/-- `psync_fs_inc_writeid_locked`: an upload of the file is stopped under the lock of the database,
    for which the mutex may have to be released. -/
def incWriteidLocked : Op Unit := do
  let of ← Prog.get
  Prog.onlyIf of.releasedforupload do
    let locked ← askFlag
    Prog.onlyIf (locked = false) do
      Prog.unlock
      Prog.lock
  Prog.modify fun of => { of with releasedforupload := false, writeid := of.writeid + 1 }

/-! ## Reopening -/

def askCryptoError : Op (Option CryptoError) := Prog.ask fun
  | .cryptoError r => some r
  | _ => none

/-- `open_write_files` -/
def openWriteFiles : Op ℤ := do
  if ← askFlag then do
    let x ← Prog.ask fun
      | .opened currentsize logoffset ws datafile => some (currentsize, logoffset, ws, datafile)
      | _ => none
    Prog.modify fun of => { of with
      currentsize := x.1
      logoffset := x.2.1
      writeintervals := x.2.2.1
      datafile := x.2.2.2 }
    pure 0
  else pure (-5)

def maxSizeConvertNewfile : ℕ := 32 * 4096

/-- The end of `reopenFileForWriting` for a file that becomes a new one: its pages are copied from
    the cache. -/
def convertToNewfile (size : ℕ) : Op ℤ := do
  if ← askFlag then do
    Prog.modify fun of => { of with newfile := true, modified := true }
    orReturn openWriteFiles do
      let copied ← (if size = 0 then pure true else askIo)
      if copied then do
        Prog.modify fun of => { of with currentsize := of.initialsize }
        pure 1
      else pure (-5)
  else pure (-5)

/-- The end of `reopenFileForWriting` for a file that becomes a modified one. -/
def convertToModified : Op ℤ := do
  if ← askFlag then
    orReturn openWriteFiles do
      if ← askFlag then do
        Prog.modify fun of => { of with modified := true, currentsize := of.initialsize }
        pure 0
      else pure (-5)
  else pure (-5)

/-- `reopenFileForWriting` with the lock of the database: the key is looked up, and the file is new
    or modified from here on. -/
def reopenWithDatabase : Op ℤ := do
  let of ← Prog.get
  let expired ← askFlag
  if expired then pure (-30) -- `EROFS`
  else
    let size ← Prog.ofOption (cryptoSize of.initialsize)
    match ← askCryptoError with
    | some e => pure (-e.toErrno)
    | none => do
      let cached ← (if size ≤ maxSizeConvertNewfile then askFlag else pure false)
      if size = 0 ∨ cached then convertToNewfile size else convertToModified

/-- The lock of the database is taken in `reopenFileForWriting`, when it cannot be got at once then
    before the mutex. -/
def reopenTakingDatabase : Op ℤ := do
  if ← askFlag then reopenWithDatabase
  else do
    Prog.unlock
    Prog.lock
    let of ← Prog.get
    if of.newfile ∨ of.modified then pure 1 else reopenWithDatabase

/-- `psync_fs_reopen_file_for_writing`: 1 when the caller has to look again. When the key cannot be
    fetched it returns without the mutex. -/
def reopenFileForWriting : Op ℤ := do
  let of ← Prog.get
  if of.encoder = .unloaded then do
    Prog.unlock
    match ← askCryptoError with
    | some e => do
      Prog.note (.branch .reopenKey)
      pure (-e.toErrno)
    | none => do
      Prog.lock
      Prog.modify fun of => { of with
        encoder := if of.encoder = .unloaded then .loaded else of.encoder }
      let of ← Prog.get
      if of.newfile ∨ of.modified then pure 1 else reopenTakingDatabase
  else reopenTakingDatabase

/-! ## The calls -/

/-- `psync_fs_read` -/
def read (size offset : ℕ) : Op ℤ := do
  Prog.lock
  let of ← Prog.get
  if of.newfile then readNewfileLocked size offset
  else if of.modified then readModifiedLocked size offset
  else readUnmodifiedEncryptedLocked size offset

/-- `psync_fs_write`, from `retry` on. -/
def writeRound (size offset : ℕ) : Op (Option ℤ) := do
  let of ← Prog.get
  if of.newfile then some <$> writeNewfileLocked size offset
  else do
    let ret ← (if of.modified then pure 0 else reopenFileForWriting)
    if ret = 1 then pure none
    else if ret < 0 then some <$> unlockRet ret
    else some <$> writeModifiedLocked size offset

/-- `psync_fs_write` -/
def write (size offset : ℕ) : Op ℤ := do
  Prog.lock
  let ret ← checkWriteSpace size offset
  if ret ≤ 0 then pure ret
  else do
    incWriteidLocked
    Prog.loop (writeRound size offset)

/-- `psync_fs_ftruncate_of_locked`, from `retry` on. -/
def ftruncateRound (size : ℕ) : Op (Option ℤ) := do
  let of ← Prog.get
  let ret ← (if of.newfile ∨ of.modified then pure 0 else reopenFileForWriting)
  if ret = 1 then pure none
  else if ret < 0 then pure (some ret)
  else some <$> ftruncateCrypto size

/-- `psync_fs_ftruncate_of_locked` -/
def ftruncateOfLocked (size : ℕ) : Op ℤ := do
  let of ← Prog.get
  if of.currentsize = size then pure 0
  else do
    incWriteidLocked
    Prog.loop (ftruncateRound size)

/-- `psync_fs_ftruncate` -/
def ftruncate (size : ℕ) : Op ℤ := do
  Prog.lock
  let ret ← ftruncateOfLocked size
  unlockRet ret

end EncryptedFile

/-- The calls of the drive on an open file. -/
inductive FileCall
  | read (size offset : ℕ)
  | write (size offset : ℕ)
  | ftruncate (size : ℕ)

/-- What a call does. -/
def FileCall.op : FileCall → EncryptedFile.Op ℤ
  | read size offset => EncryptedFile.read size offset
  | write size offset => EncryptedFile.write size offset
  | ftruncate size => EncryptedFile.ftruncate size

end Pclsync
