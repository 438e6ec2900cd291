import Pclsync.EncryptedFile.Basic

/-!
# Modified encrypted files

Files of which only some bytes are local, those of `writeintervals`: reads and writes of
`pfscrypto.c` on them, and truncation.

* `readModifiedLocked`: local sectors are read as those of a new file, the others come from the
  network, and the two are merged when there are both.
* `writeModifiedLockedNu`: what a write needs is fetched first: sectors that are overwritten in part
  and the authentication sectors (`needToDownload`). The mutex is released meanwhile, so that all
  starts again (`retry`) when the ranges are found to be local after it.
* `ftruncateCrypto`: growing, with or without an extender, and shrinking.
-/

namespace Pclsync

open Guarded Crypto

namespace EncryptedFile

/-! ## Pages of the remote file -/

/-- The loop of `waitKey`. -/
def keyRound : Op (Option Encoder) := do
  let of ← Prog.get
  if of.encoder = .loading then do
    Prog.wait
    pure none
  else pure (some of.encoder)

/-- Waiting for the key, in the functions that fetch pages. -/
def waitKey : Op Bool := do
  Prog.lock
  let encoder ← Prog.loop keyRound
  Prog.unlock
  pure (encoder ≠ .failed)

/-- `psync_fs_inc_of_refcnt_and_readers` -/
def incOfRefcntAndReaders : Op Unit := do
  Prog.lock
  Prog.unlock

def askPage : Op (Option Fault) := Prog.ask fun
  | .page r => some r
  | _ => none

/-- `if (!ret && error) ret=error;` -/
def firstError (ret : ℤ) : Option Fault → ℤ
  | some e => if ret = 0 then e.code else ret
  | none => ret

/-- The loop over the pages in `readUnmodifiedEncryptedLocked`. For each of them there are its auth
    sector, the chain above it if it has still to be checked, and the page. -/
def readPages : (pages : ℕ) → (ret : ℤ) → Op ℤ
  | 0, ret => pure ret
  | pages + 1, ret => do
    let ret := firstError ret (← askPage)
    let chain ← askFlag
    let ret ← (if chain ∧ ret = 0 then do
        let ret := firstError ret (← askPage)
        Prog.onlyIf (ret = 0) do
          Prog.lock
          Prog.unlock
        pure ret
      else pure ret)
    readPages pages (firstError ret (← askPage))

/-- `psync_pagecache_read_unmodified_encrypted_locked`, which releases the mutex. -/
def readUnmodifiedEncryptedLocked (size offset : ℕ) : Op ℤ := do
  let of ← Prog.get
  let needkey := of.encoder = .unloaded ∧ of.initialsize ≠ 0 ∧ offset < of.initialsize
  Prog.modify fun of => { of with encoder := if needkey then .loading else of.encoder }
  Prog.unlock
  if of.initialsize ≤ offset then pure 0
  else do
    let size := min size (of.initialsize - offset)
    if !(← askIo) then pure (-5)
    else do
      let request ← askFlag
      Prog.onlyIf (needkey ∨ request) incOfRefcntAndReaders
      let ret ← (if needkey then do
          if ← waitKey then pure 0 else pure (-5)
        else pure 0)
      let ret ← readPages (sectorCount (offset % sectorSize + size)) ret
      if ret = 0 then pure size
      else do
        Prog.note .failed
        pure ret

/-- `psync_pagecache_readv_locked`, which releases the mutex: the content of the ranges. -/
def readvLocked : Op (Option (ℕ → UInt8)) := do
  let of ← Prog.get
  let needkey := of.encoder = .unloaded ∧ of.initialsize ≠ 0
  Prog.modify fun of => { of with encoder := if needkey then .loading else of.encoder }
  Prog.unlock
  let request ← askFlag
  Prog.onlyIf (needkey ∨ request) incOfRefcntAndReaders
  let key ← (if needkey then waitKey else pure true)
  let content ← Prog.ask fun
    | .content bytes => some (some bytes)
    | .page (some _) => some none
    | _ => none
  if key then
    match content with
    | some bytes => pure (some bytes)
    | none => do
      Prog.note .failed
      pure none
  else do
    Prog.note .failed
    pure none

/-! ## Reading -/

/-- Whether a sector is local, by its first byte, and the interval that was found last. -/
def localAt (ws : IntervalTree) (itr : Option Interval) (eoffset : ℕ) : Bool × Option Interval :=
  if itr.any fun e => e.start ≤ eoffset ∧ eoffset < e.stop then (true, itr)
  else
    let itr := ws.firstContainingOrAfter eoffset
    (itr.any fun e => e.start ≤ eoffset, itr)

/-- The offset of a data sector, as the product that the functions compute. -/
def eoffset (sectorid : ℕ) : ℕ := dataSectoridBySectorid sectorid * sectorSize

/-- The sectors from the first to the last. -/
def sectorids (firstsectorid lastsectorid : ℕ) : List ℕ :=
  List.range' firstsectorid (lastsectorid + 1 - firstsectorid)

/-- The first loop of `readModifiedLocked`: whether there are local sectors, whether there are
    others, and the interval that was found last. -/
def classify (ws : IntervalTree) : (sectorids : List ℕ) → (loc remote : Bool) → Option Interval →
    Bool × Bool × Option Interval
  | [], loc, remote, itr => (loc, remote, itr)
  | sectorid :: l, loc, remote, itr =>
    let r := localAt ws itr (eoffset sectorid)
    classify ws l (loc || r.1) (remote || !r.1) r.2

/-- A part of a local sector is wanted, and read by `x`. The result of `psync_fs_unlock_ret` is not
    returned. -/
def expectRead (rd : ℕ) (x : Op ℤ) : Op Unit := do
  let rfr ← x
  Prog.onlyIf (rfr ≠ rd) do
    Prog.note (.branch .mergeRead)
    Prog.unlock

/-- A local sector is read into its place. -/
def mergeSector (size offset firstsectorid lastsectorid sectorid : ℕ) : Op Unit :=
  let offmod := offset % sectorSize
  let endmod := (offset + size) % sectorSize
  if sectorid = firstsectorid ∧ offmod ≠ 0 then
    expectRead (min (sectorSize - offmod) size)
      (readNewfilePartialSector sectorid (min (sectorSize - offmod) size) offmod)
  else if sectorid = lastsectorid ∧ endmod ≠ 0 then
    expectRead endmod (readNewfilePartialSector sectorid endmod 0)
  else expectRead sectorSize (readNewfileFullSector sectorid)

/-- The second loop of `readModifiedLocked`. -/
def mergeSectors (size offset firstsectorid lastsectorid : ℕ) : List ℕ → Option Interval → Op Unit
  | [], _ => pure ()
  | sectorid :: l, itr => do
    let of ← Prog.get
    let r := localAt of.writeintervals itr (eoffset sectorid)
    Prog.onlyIf r.1 (mergeSector size offset firstsectorid lastsectorid sectorid)
    mergeSectors size offset firstsectorid lastsectorid l r.2

/-- `psync_fs_crypto_read_modified_locked`, which releases the mutex. -/
def readModifiedLocked (size offset : ℕ) : Op ℤ :=
  if TooLarge size offset then unlockRet (-22)
  else do
    let of ← Prog.get
    if size = 0 ∨ of.currentsize ≤ offset then unlockRet 0
    else
      let size := min size (of.currentsize - offset)
      let firstsectorid := offset / sectorSize
      let lastsectorid := (offset + size - 1) / sectorSize
      match classify of.writeintervals (sectorids firstsectorid lastsectorid) false false none with
      | (true, false, _) => readNewfileLocked size offset
      | (false, _, _) => readUnmodifiedEncryptedLocked size offset
      | (true, true, itr) => do
        let rfr ← readUnmodifiedEncryptedLocked size offset
        if rfr < 0 then pure rfr
        else do
          Prog.lock
          let of ← Prog.get
          if of.currentsize ≤ offset then unlockRet 0
          else do
            let size := min size (of.currentsize - offset)
            let lastsectorid := (offset + size - 1) / sectorSize
            mergeSectors size offset firstsectorid lastsectorid
              (sectorids firstsectorid lastsectorid) itr
            unlockRet size

/-! ## Writing -/

/-- The part of a range before what is local behind its beginning. -/
def rangeEnd (itr : Option Interval) (stop : ℕ) : ℕ :=
  match itr with
  | some e => min e.start stop
  | none => stop

/-- The auth sectors on the path of a sector which are not local by their first byte. -/
def needAuth (ws : IntervalTree) (o : Offsets) (sectorid : ℕ) : (levels : List ℕ) →
    Option Interval → (needtodwl : IntervalTree) → Option (Option Interval × IntervalTree)
  | [], itr, needtodwl => some (itr, needtodwl)
  | level :: l, _, needtodwl =>
    (getAuthSectorOff sectorid level o).bind fun (eoffset, asize, _) =>
      let itr := ws.firstContainingOrAfter eoffset
      if itr.any fun e => e.start ≤ eoffset then needAuth ws o sectorid l itr needtodwl
      else needAuth ws o sectorid l itr
        (addRange needtodwl eoffset (rangeEnd itr (eoffset + asize)))

/-- The size for which the auth sectors are laid out. -/
def authLayoutSize (of : EncryptedFile) : ℕ :=
  match of.extender with
  | some e => e.extendedto
  | none => of.currentsize

/-- The loop of `needToDownload` over the sectors. -/
def needSectors (of : EncryptedFile) (size offset firstsectorid lastsectorid : ℕ) :
    (sectorids : List ℕ) → Option Interval → (needtodwl : IntervalTree) → Option IntervalTree
  | [], _, needtodwl => some needtodwl
  | sectorid :: l, itr, needtodwl =>
    if of.initialsize ≤ sectorid * sectorSize ∨ of.currentsize ≤ sectorid * sectorSize then
      some needtodwl
    else
      let r := localAt of.writeintervals itr (eoffset sectorid)
      if r.1 then needSectors of size offset firstsectorid lastsectorid l r.2 needtodwl
      else
        let needtodwl :=
          if sectorid = firstsectorid ∧ offset % sectorSize ≠ 0 ∨
              sectorid = lastsectorid ∧ (offset + size) % sectorSize ≠ 0 then
            addRange needtodwl (eoffset sectorid) (rangeEnd r.2 (eoffset sectorid + sectorSize))
          else needtodwl
        if sectorid ≠ firstsectorid ∧ sectorid % hashTreeSectors ≠ 0 then
          needSectors of size offset firstsectorid lastsectorid l r.2 needtodwl
        else
          (offsetsByPlainsize (authLayoutSize of)).bind fun o =>
            (needAuth of.writeintervals o sectorid (List.range (o.treelevels + 1)) r.2
              needtodwl).bind fun p =>
                needSectors of size offset firstsectorid lastsectorid l p.1 p.2

/-- What has to be fetched before a write: the ranges of `needtodwl`. A write that starts at the end
    of the remote file needs the sector before. -/
def needToDownload (of : EncryptedFile) (size offset : ℕ) : Option IntervalTree :=
  let firstsectorid := offset / sectorSize
  let lastsectorid := (offset + size - 1) / sectorSize
  if offset = of.initialsize ∧ firstsectorid ≠ 0 ∧ offset % sectorSize = 0 then
    needSectors of size offset (firstsectorid - 1) (firstsectorid - 1)
      (sectorids (firstsectorid - 1) (firstsectorid - 1)) none ∅
  else
    needSectors of size offset firstsectorid lastsectorid
      (sectorids firstsectorid lastsectorid) none ∅

/-- The ranges up to the end of the remote file, or of what is left of it. -/
def clipRanges (limit : ℕ) : List Interval → List Interval
  | [] => []
  | e :: l =>
    if limit ≤ e.start then [] else { e with stop := min e.stop limit } :: clipRanges limit l

/-- The ranges that are fetched. -/
def rangesFor (of : EncryptedFile) (size offset : ℕ) : Option (List Interval) :=
  (needToDownload of size offset).bind fun needtodwl =>
    if needtodwl.toList = [] then some []
    else (cryptoSize (min of.currentsize of.initialsize)).map fun limit =>
      clipRanges limit needtodwl.toList

/-- A range meets an interval that is local. -/
def meets (ws : IntervalTree) (range : Interval) : Bool :=
  (ws.firstContainingOrAfter range.start).any fun e => e.start < range.stop ∧ range.start < e.stop

inductive Stored
  | all
  | restart
  | failed

/-- The file after the first `n` bytes of a range were written. -/
def writeRange (of : EncryptedFile) (range : Interval) (bytes : ℕ → UInt8) (n : ℕ) :
    EncryptedFile :=
  { of with datafile := fun i =>
      if range.start ≤ i ∧ i < range.stop ∧ i < range.start + n then bytes i else of.datafile i }

/-- The loop that stores what was fetched. -/
def storeRanges (bytes : ℕ → UInt8) : List Interval → Op Stored
  | [] => pure .all
  | range :: l => do
    let of ← Prog.get
    if meets of.writeintervals range then pure .restart
    else do
      let bw ← Prog.ask fun
        | .stored n => some n
        | _ => none
      Prog.modify fun of => writeRange of range bytes bw
      if range.start + bw < range.stop then do
        Prog.note .failed
        pure .failed
      else do
        Prog.modify fun of =>
          { of with writeintervals := addRange of.writeintervals range.start range.stop }
        storeRanges bytes l

/-- The bytes written in a round of `modfileFillzero`. -/
def zeroSize (size offset : ℕ) : ℕ :=
  if offset % sectorSize = 0 then min size sectorSize
  else min (sectorSize - offset % sectorSize) size

/-- `psync_fs_modfile_fillzero`, with at most so many rounds. -/
def modfileFillzero (write : (size offset : ℕ) → Op ℤ) : (rounds size offset : ℕ) → Op ℤ
  | 0, _, _ => pure 0
  | rounds + 1, size, offset =>
    if size = 0 then pure 0
    else do
      let ret ← write (zeroSize size offset) offset
      if ret ≤ 0 then pure ret
      else modfileFillzero write rounds (size - ret.toNat) (offset + ret.toNat)

/-- The end of `prepare`: what the write needs is fetched and stored. -/
def fetch (size offset : ℕ) : Op (Option ℤ) := do
  let of ← Prog.get
  let ranges ← Prog.ofOption (rangesFor of size offset)
  if ranges = [] then pure (some 0)
  else do
    let content ← readvLocked
    Prog.lock
    match content with
    | none => pure (some (-1))
    | some bytes =>
      match ← storeRanges bytes ranges with
      | .all => pure (some 0)
      | .restart => pure none
      | .failed => pure (some (-5))

/-- Zeros up to the offset of a write. -/
def fillzeroTo (write : (size offset : ℕ) → Op ℤ) (offset : ℕ) : Op ℤ := do
  let of ← Prog.get
  if of.currentsize < offset then
    modfileFillzero write (offset - of.currentsize) (offset - of.currentsize) of.currentsize
  else pure 0

/-- From `retry` on, in `writeModifiedLockedNu`: a result, or `retry`. -/
def prepare (write : (size offset : ℕ) → Op ℤ) (size offset : ℕ) : Op (Option ℤ) := do
  let ret ← fillzeroTo write offset
  if ret ≠ 0 then pure (some ret) else fetch size offset

/-- `writeModifiedLockedNu`, with a bound for the calls of itself by way of `modfileFillzero`. -/
def writeModifiedLockedAt : (fuel size offset : ℕ) → (checkextender : Bool) → Op ℤ
  | 0, _, _, _ => Prog.stop
  | fuel + 1, size, offset, checkextender =>
    if TooLarge size offset then pure (-22)
    else
      orReturn (if checkextender then waitExtenderAfterLocked (offset + size) else pure 0) <|
        if size = 0 then pure 0
        else orReturn
          (Prog.loop (prepare (fun size offset => writeModifiedLockedAt fuel size offset false)
            size offset))
          (writeNewfileLockedNu size offset checkextender)

/-- `psync_fs_crypto_write_modified_locked_nu` -/
def writeModifiedLockedNu (size offset : ℕ) (checkextender : Bool) : Op ℤ :=
  Prog.withFuel fun fuel => writeModifiedLockedAt fuel size offset checkextender

/-- `psync_fs_crypto_write_modified_locked`, which releases the mutex. -/
def writeModifiedLocked (size offset : ℕ) : Op ℤ := do
  let ret ← writeModifiedLockedNu size offset true
  unlockRet ret

/-! ## Truncation -/

/-- `psync_fs_crypto_init_log` -/
def initLog : Op ℤ := do
  if ← askIo then do
    Prog.modify fun of => { of with logoffset := sectorSize }
    pure 0
  else pure (-5)

/-- `psync_fs_crypto_ftruncate_to_zero` -/
def ftruncateToZero : Op ℤ := do
  if !(← askIo) then pure (-5)
  else orReturn initLog do
    let of ← Prog.get
    let limit ← Prog.ofOption (cryptoSize of.initialsize)
    Prog.modify fun of => { of with
      writeintervals := if of.newfile then of.writeintervals else addRange ∅ 0 limit
      currentsize := 0 }
    killExtenderLocked
    pure 0

/-- The size that the sector of an offset has in a file. -/
def lastSectorOldSize (currentsize lastsectoff : ℕ) : ℕ :=
  min sectorSize (currentsize - lastsectoff)

/-- From `retry` to the end of the loop in `ftruncateDown`: the last sector that is left gets
    local. -/
def localizeLast (lastsectorid oldsize : ℕ) : Op (Option ℤ) := do
  let of ← Prog.get
  if of.newfile ∨ (localAt of.writeintervals none (eoffset lastsectorid)).1 then do
    let ret ← readNewfileFullSector lastsectorid
    pure (some (min ret 0))
  else do
    let ret ← readModifiedLocked oldsize (lastsectorid * sectorSize)
    if ret < 0 then do
      Prog.note (.branch .truncateRead)
      pure (some ret)
    else do
      Prog.lock
      if (← Prog.get).writeid ≠ of.writeid then pure none
      else do
        let ret ← writeModifiedLocked oldsize (lastsectorid * sectorSize)
        if ret < 0 then do
          Prog.note (.branch .truncateWrite)
          pure (some ret)
        else do
          Prog.lock
          if (← Prog.get).writeid ≠ of.writeid then pure none else pure (some 0)

/-- `psync_interval_tree_cut_end` -/
def cutEnd (t : IntervalTree) (stop : ℕ) : IntervalTree :=
  ⟨cutEndTree stop t.tree, (cutsEnd_cutEndTree t.canonical).1⟩

/-- `psync_fs_crypto_ftruncate_down`, once an extender is not in the way. -/
def cutLastSector (size : ℕ) : Op ℤ := do
  let of ← Prog.get
  let lastsectorid := (size - 1) / sectorSize
  let lastsectoff := lastsectorid * sectorSize
  orReturn
    (Prog.loop (localizeLast lastsectorid (lastSectorOldSize of.currentsize lastsectoff))) do
    Prog.modify fun of => { of with currentsize := lastsectoff }
    let ret ← writeNewfileFullSector lastsectorid (size - lastsectoff)
    if ret < 0 then pure ret
    else do
      let limit ← Prog.ofOption (cryptoSize size)
      Prog.modify fun of => { of with
        currentsize := size
        writeintervals := if of.newfile then of.writeintervals else cutEnd of.writeintervals limit }
      pure 0

/-- `psync_fs_crypto_ftruncate_down` -/
def ftruncateDown (size : ℕ) : Op ℤ := do
  let of ← Prog.get
  match of.extender with
  | none => cutLastSector size
  | some e =>
    orReturn (extenderError e) <|
      if e.ready then cutLastSector size
      else if size < e.extendedto then do
        killExtenderLocked
        cutLastSector size
      else do
        Prog.modify fun of => { of with
          extender := some { e with extendto := size }
          currentsize := size }
        pure 0

/-- `psync_fs_crypto_run_extender` -/
def runExtender (size : ℕ) : Op ℤ := do
  Prog.modify fun of => { of with
    extender := some ⟨size, of.currentsize, 0, false, true, false, le_rfl⟩
    currentsize := size }
  pure 0

def runExtendInThreadOver : ℕ := 1024 * 1024

/-- Zeros at the end of a modified file. -/
def fillzeroAtEnd (size offset : ℕ) : Op ℤ :=
  modfileFillzero (fun size offset => writeModifiedLockedNu size offset false) size size offset

/-- `ftruncateCrypto` when the file grows and there is no extender. -/
def extendTo (of : EncryptedFile) (size : ℕ) : Op ℤ :=
  if runExtendInThreadOver ≤ size - of.currentsize then
    orReturn
      (if of.newfile then pure 0
        else fillzeroAtEnd (of.currentsize % sectorSize + sectorSize) of.currentsize)
      (runExtender size)
  else if of.newfile then newfileFillzero (size - of.currentsize) of.currentsize
  else fillzeroAtEnd (size - of.currentsize) of.currentsize

/-- `psync_fs_crypto_ftruncate`, from `retry` on. -/
def ftruncateCryptoRound (size : ℕ) : Op (Option ℤ) := do
  let of ← Prog.get
  if of.currentsize < size then
    match of.extender with
    | some e =>
      if e.ready then do
        let ret ← waitNoExtenderLocked
        if ret ≠ 0 then pure (some ret) else pure none
      else do
        Prog.modify fun of => { of with
          extender := some { e with extendto := size }
          currentsize := size }
        pure (some 0)
    | none => some <$> extendTo of size
  else if size < of.currentsize then
    if size = 0 then some <$> ftruncateToZero else some <$> ftruncateDown size
  else pure (some 0)

/-- `psync_fs_crypto_ftruncate` -/
def ftruncateCrypto (size : ℕ) : Op ℤ := Prog.loop (ftruncateCryptoRound size)

end EncryptedFile

end Pclsync
