import Pclsync.Crypto.SectorNumbers
import Pclsync.Guarded.Programs
import Pclsync.IntervalOps

/-!
# Open encrypted files

An open encrypted file of the drive, `psync_openfile_t` of `pfs.h`, and what `pfscrypto.c` does with
its sectors. Other threads use the file too, so that the functions are programs on an object with a
mutex (`Guarded.Prog`). What the disk, the network and the rest of the client do is asked for, with
the answers in `Reply`.

* `readNewfileLocked`, `writeNewfileLockedNu`: files which are all local. Sectors written go to a
  log, which is processed when it gets long (`finalizeLog`).
* `waitNoExtenderLocked`, `waitExtenderAfterLocked`: waiting for the thread that extends the file.

A failed read or write of a sector is noted (`Note.failed`), and so are the places at which a
function goes on or returns without the mutex although its callers do not know of it (`Branch`).
-/

namespace Pclsync

open Guarded Crypto

/-! ## The file -/

/-- `psync_enc_file_extender_t`, the thread that extends a file. Its error is what a write
    returned. -/
structure Extender where
  extendto : ℕ
  extendedto : ℕ
  error : ℤ
  ready : Bool
  finalizelog : Bool
  kill : Bool
  error_nonpos : error ≤ 0

/-- The encoder of the sectors, or what is there in its place. -/
inductive Encoder
  | unloaded
  | loading
  | failed
  | loaded
  deriving DecidableEq

/-- `psync_openfile_t`, of an encrypted file. -/
structure EncryptedFile where
  newfile : Bool
  modified : Bool
  encoder : Encoder
  releasedforupload : Bool
  throttle : Bool
  writeid : ℕ
  initialsize : ℕ
  currentsize : ℕ
  logoffset : ℕ
  /-- the bytes of the data file that are local, when the file is modified -/
  writeintervals : IntervalTree
  datafile : ℕ → UInt8
  extender : Option Extender

/-- What is left by processing the log. -/
structure Finalized where
  logoffset : ℕ
  writeintervals : IntervalTree
  datafile : ℕ → UInt8

/-- Errors of the server or the network, for pages of the file. -/
inductive Fault
  | io
  | notConnected

def Fault.code : Fault → ℤ
  | io => -5
  | notConnected => -107

/-- Errors of `pcloudcrypto.c`. -/
inductive CryptoError
  | notStarted
  | rsaError
  | folderNotFound
  | fileNotFound
  | invalidKey
  | cantConnect
  | folderNotEncrypted
  | internalError

/-- `psync_fs_crypto_err_to_errno` -/
def CryptoError.toErrno : CryptoError → ℤ
  | notStarted => 13
  | rsaError => 5
  | folderNotFound => 2
  | fileNotFound => 2
  | invalidKey => 5
  | cantConnect => 107
  | folderNotEncrypted => 22
  | internalError => 22

theorem CryptoError.toErrno_pos (e : CryptoError) : 0 < e.toErrno := by
  cases e <;> decide

/-- Answers to the calls that are made on the way. -/
inductive Reply
  /-- a call with two outcomes -/
  | flag (b : Bool)
  /-- a sector is read from the log or the data file and decoded -/
  | sector (sectorid : ℕ) (r : Option ℕ)
  /-- a sector is appended to the log -/
  | logged (sectorid size : ℕ) (ok : Bool)
  /-- the log is emptied, as it cannot be cut: the size of the data file, and whether the new log
      is written -/
  | reset (r : Option (ℕ × Bool))
  | finalized (ok : Bool) (x : Finalized)
  /-- a page from the cache or the network -/
  | page (r : Option Fault)
  /-- the content of the remote file -/
  | content (bytes : ℕ → UInt8)
  /-- a range is written to the data file -/
  | stored (n : ℕ)
  | cryptoError (r : Option CryptoError)
  /-- what the check for space works with -/
  | space (minlocal freespc : UInt64) (uploadspeed : UInt32) (pages : ℕ)
  | opened (currentsize logoffset : ℕ) (writeintervals : IntervalTree) (datafile : ℕ → UInt8)

/-- The places at which the mutex is not as the callers expect. -/
inductive Branch
  /-- the key cannot be fetched when a file is reopened for writing -/
  | reopenKey
  /-- a sector is read only in part when local and remote sectors are merged -/
  | mergeRead
  /-- the last sector cannot be read when a file is truncated -/
  | truncateRead
  /-- the last sector cannot be written when a file is truncated -/
  | truncateWrite

inductive Note
  /-- a read or a write of a sector failed -/
  | failed
  | branch (b : Branch)

namespace EncryptedFile

/-- Programs on an open encrypted file. -/
abbrev Op (α : Type) := Prog EncryptedFile Reply Note α

/-- The file with its mutex, and what is still to be answered. -/
abbrev World := State EncryptedFile Reply Note

/-! ## Calls -/

def askFlag : Op Bool := Prog.ask fun
  | .flag b => some b
  | _ => none

/-- A call whose failure is one of a sector. -/
def askIo : Op Bool := do
  if ← askFlag then pure true
  else do
    Prog.note .failed
    pure false

/-- `ret=x; if (ret) return ret;` before `y`. -/
def orReturn (x y : Op ℤ) : Op ℤ := do
  let ret ← x
  if ret ≠ 0 then pure ret else y

/-- `psync_fs_unlock_ret` -/
def unlockRet (ret : ℤ) : Op ℤ := do
  Prog.unlock
  pure ret

/-! ## Sectors -/

/-- `psync_interval_tree_add` -/
def addRange (t : IntervalTree) (start stop : ℕ) : IntervalTree :=
  if h : start < stop then t.add start stop h else t

/-- `psync_fs_crypto_read_newfile_full_sector` -/
def readNewfileFullSector (sectorid : ℕ) : Op ℤ := do
  match ← Prog.ask fun
    | .sector i r => if i = sectorid then some r else none
    | _ => none with
  | some rd => pure rd
  | none => do
    Prog.note .failed
    pure (-5)

/-- `psync_fs_crypto_read_newfile_partial_sector` -/
def readNewfilePartialSector (sectorid size offset : ℕ) : Op ℤ := do
  let rd ← readNewfileFullSector sectorid
  if rd ≤ 0 then pure rd
  else if rd ≤ offset then pure 0
  else pure (min (rd - offset) size)

/-- `psync_fs_crypto_reset_log_to_off` -/
def resetLogToOff : Op Unit := do
  match ← Prog.ask fun
    | .reset r => some r
    | _ => none with
  | none => pure ()
  | some (sz, inited) => do
    let currentsize ← Prog.ofOption (plainSize sz)
    Prog.modify fun of => { of with
      currentsize
      logoffset := if inited then sectorSize else of.logoffset }

/-- The size of a header in the log. -/
def logHeaderSize : ℕ := 16

/-- The file after a sector was appended to the log. -/
def logSector (of : EncryptedFile) (sectorid size : ℕ) : EncryptedFile :=
  let offset := dataSectoridBySectorid sectorid * sectorSize
  { of with
    logoffset := of.logoffset + (logHeaderSize + size)
    writeintervals := if of.newfile then of.writeintervals
      else addRange of.writeintervals offset (offset + size) }

/-- `psync_fs_crypto_write_newfile_full_sector` -/
def writeNewfileFullSector (sectorid size : ℕ) : Op ℤ := do
  if ← Prog.ask fun
    | .logged i n ok => if i = sectorid ∧ n = size then some ok else none
    | _ => none then do
    Prog.modify fun of => logSector of sectorid size
    pure 0
  else do
    Prog.note .failed
    resetLogToOff
    pure (-5)

/-- `psync_fs_crypto_write_newfile_partial_sector` -/
def writeNewfilePartialSector (sectorid size offset : ℕ) : Op ℤ := do
  let rd ← readNewfileFullSector sectorid
  if rd < 0 then pure rd
  else writeNewfileFullSector sectorid (max rd.toNat (size + offset))

/-- `if (of->currentsize<offset) of->currentsize=offset;` -/
def growTo (offset : ℕ) : Op Unit :=
  Prog.modify fun of => { of with currentsize := max of.currentsize offset }

/-- `psync_fs_crypto_finalize_log` -/
def finalizeLog : Op ℤ := do
  let (ok, x) ← Prog.ask fun
    | .finalized ok x => some (ok, x)
    | _ => none
  Prog.modify fun of => { of with
    logoffset := x.logoffset
    writeintervals := x.writeintervals
    datafile := x.datafile }
  if ok then pure 0
  else do
    Prog.note .failed
    pure (-5)

/-! ## The extender -/

/-- The error of the extender is that of its writes. -/
def extenderError (e : Extender) : Op ℤ := do
  if e.error = 0 then pure 0
  else do
    Prog.note .failed
    pure e.error

/-- Waiting for an extender until one of its states: the loops of `waitNoExtenderLocked` and
    `waitExtenderAfterLocked`. -/
def waitRound (p : Extender → Prop) [DecidablePred p] : Op (Option (Option Extender)) := do
  match (← Prog.get).extender with
  | some e =>
    if p e then pure (some (some e))
    else do
      Prog.wait
      pure none
  | none => pure (some none)

/-- The second loop of `waitNoExtenderLocked`. -/
def goneRound : Op (Option Unit) := do
  Prog.unlock
  Prog.lock
  if (← Prog.get).extender.isSome then pure none else pure (some ())

/-- `psync_fs_crypto_wait_no_extender_locked` -/
def waitNoExtenderLocked : Op ℤ := do
  match ← Prog.loop (waitRound fun e => e.ready) with
  | some e => do
    let ret ← extenderError e
    Prog.loop goneRound
    pure ret
  | none => pure 0

/-- `psync_fs_crypto_wait_extender_after_locked` -/
def waitExtenderAfterLocked (offset : ℕ) : Op ℤ := do
  match ← Prog.loop (waitRound fun e => e.ready ∨ offset ≤ e.extendedto) with
  | some e => extenderError e
  | none => pure 0

/-- `psync_fs_crypto_kill_extender_locked` -/
def killExtenderLocked : Op Unit :=
  Prog.modify fun of => { of with extender := of.extender.map fun e => { e with kill := true } }

/-! ## Files that are all local -/

/-- The bound on `size+offset`. -/
def TooLarge (size offset : ℕ) : Prop :=
  maxSectorid < (size + offset + sectorSize - 1) / sectorSize

instance (size offset : ℕ) : Decidable (TooLarge size offset) := inferInstanceAs (Decidable (_ < _))

/-- What `readNewfileLocked` returns when it got less than it asked for. -/
def shortRead (ret : ℤ) (rd : ℕ) : ℤ := if ret < 0 then ret else ret + rd

/-- `readNewfileLocked` from the beginning of a sector, with so many full sectors; `rd` bytes are
    read. -/
def readSectors : (full size sectorid rd : ℕ) → Op ℤ
  | 0, size, sectorid, rd =>
    if size = 0 then unlockRet rd
    else do
      let ret ← readNewfilePartialSector sectorid size 0
      if ret ≠ size then unlockRet (shortRead ret rd)
      else unlockRet (rd + size)
  | full + 1, size, sectorid, rd => do
    let ret ← readNewfileFullSector sectorid
    if ret ≠ sectorSize then unlockRet (shortRead ret rd)
    else readSectors full (size - sectorSize) (sectorid + 1) (rd + sectorSize)

/-- `psync_fs_crypto_read_newfile_locked`, which releases the mutex. -/
def readNewfileLocked (size offset : ℕ) : Op ℤ :=
  if TooLarge size offset then unlockRet (-22)
  else do
    let ret ← waitExtenderAfterLocked (offset + size)
    if ret ≠ 0 then unlockRet ret
    else do
      let of ← Prog.get
      if size = 0 ∨ of.currentsize ≤ offset then unlockRet 0
      else
        let size := min size (of.currentsize - offset)
        let sectorid := offset / sectorSize
        let off2 := offset % sectorSize
        if off2 = 0 then readSectors (size / sectorSize) size sectorid 0
        else do
          let offdiff := min (sectorSize - off2) size
          let ret ← readNewfilePartialSector sectorid offdiff off2
          if ret ≠ offdiff then unlockRet ret
          else readSectors ((size - offdiff) / sectorSize) (size - offdiff) (sectorid + 1) offdiff

/-- The loop of `newfileFillzero`, with so many sectors left. -/
def fillSectors : (sectors size offset sectorid : ℕ) → Op ℤ
  | 0, _, _, _ => pure 0
  | sectors + 1, size, offset, sectorid => do
    let wr := min size sectorSize
    let ret ← writeNewfileFullSector sectorid wr
    if ret < 0 then pure ret
    else do
      growTo (offset + wr)
      fillSectors sectors (size - wr) (offset + wr) (sectorid + 1)

/-- `psync_fs_newfile_fillzero` -/
def newfileFillzero (size offset : ℕ) : Op ℤ :=
  let sectorid := offset / sectorSize
  if offset % sectorSize = 0 then fillSectors (sectorCount size) size offset sectorid
  else do
    let wr := min (sectorSize - offset % sectorSize) size
    let ret ← writeNewfilePartialSector sectorid wr (offset % sectorSize)
    if ret < 0 then pure ret
    else do
      growTo (offset + wr)
      fillSectors (sectorCount (size - wr)) (size - wr) (offset + wr) (sectorid + 1)

/-- The full sectors of a write. -/
def writeSectors : (full offset sectorid : ℕ) → Op ℤ
  | 0, _, _ => pure 0
  | full + 1, offset, sectorid =>
    orReturn (writeNewfileFullSector sectorid sectorSize) do
      growTo (offset + sectorSize)
      writeSectors full (offset + sectorSize) (sectorid + 1)

/-- The last sector of a write, if only its beginning is written. -/
def writeLastSector (size offset sectorid : ℕ) : Op ℤ :=
  if size = 0 then pure 0
  else do
    let of ← Prog.get
    orReturn (if offset = of.currentsize then writeNewfileFullSector sectorid size
      else writeNewfilePartialSector sectorid size 0) do
      growTo (offset + size)
      pure 0

def maxLogSize : ℕ := 64 * 1024 * 1024

/-- The log is processed when it is long, but not in the middle of a step of the extender. -/
def finalizeIfLong : Op ℤ := do
  let of ← Prog.get
  if of.extender.all (·.finalizelog) ∧ maxLogSize ≤ of.logoffset then finalizeLog else pure 0

/-- The sectors of a write from `offset`, the first one of which may be written from its middle. -/
def writeFrom (size offset : ℕ) : Op ℤ :=
  let sectorid := offset / sectorSize
  let off2 := offset % sectorSize
  if off2 = 0 then
    orReturn (writeSectors (size / sectorSize) offset sectorid)
      (writeLastSector (size % sectorSize) (offset + size / sectorSize * sectorSize)
        (sectorid + size / sectorSize))
  else
    let offdiff := min (sectorSize - off2) size
    orReturn (writeNewfilePartialSector sectorid offdiff off2) do
      growTo (offset + offdiff)
      let offset := offset + offdiff
      let size := size - offdiff
      orReturn (writeSectors (size / sectorSize) offset (sectorid + 1))
        (writeLastSector (size % sectorSize) (offset + size / sectorSize * sectorSize)
          (sectorid + 1 + size / sectorSize))

/-- `psync_fs_crypto_write_newfile_locked_nu`; `wrt` at its end is `size`. -/
def writeNewfileLockedNu (size offset : ℕ) (checkextender : Bool) : Op ℤ :=
  if TooLarge size offset then pure (-22)
  else if size = 0 then pure 0
  else
    orReturn (if checkextender then waitExtenderAfterLocked (offset + size) else pure 0) do
      let of ← Prog.get
      orReturn (if of.currentsize < offset then
          newfileFillzero (offset - of.currentsize) of.currentsize
        else pure 0)
        (orReturn (writeFrom size offset) (orReturn finalizeIfLong (pure size)))

/-- `psync_fs_crypto_write_newfile_locked`, which releases the mutex. -/
def writeNewfileLocked (size offset : ℕ) : Op ℤ := do
  let ret ← writeNewfileLockedNu size offset true
  unlockRet ret

end EncryptedFile

end Pclsync
