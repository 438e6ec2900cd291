import Pclsync.File
import Pclsync.IntervalTree

/-!
# Open unencrypted files

An open file of the drive, `psync_openfile_t` of `pfs.c`, when it is not encrypted. It is in one of
three modes: unmodified (read from the network), new (all in the data file), or modified: a sparse
data file which holds the ranges of `writeintervals`, over the remote file. Every range is also
recorded in the index file, from which the intervals are loaded when the file is opened again.

* `OpenFile.write`, `OpenFile.ftruncate`: `psync_fs_write`, `psync_fs_ftruncate_of_locked`.
* `OpenFile.read`: the choice of `psync_fs_read` between the three paths, of which
  `OpenFile.readModified` is `psync_pagecache_read_modified_locked`.
* `OpenFile.updateOpenfile`: `psync_fs_update_openfile` for an open file.

The outcome of a system call is an argument of the operation (`ExtendCalls`, `WriteCalls`), a failed
assertion is `none`. The pages of a revision, from the cache or the network, hold its content.
-/

namespace Pclsync

/-- An input/output error. -/
def eio : ℤ := 5

/-- A record of the index file, `psync_fs_index_record`. -/
structure IndexRecord where
  offset : ℕ
  length : ℕ
  deriving DecidableEq

/-- What a `pwrite` of an index record does: a failing one may leave another record in place. -/
inductive IndexWrite
  | done
  | failed (left : Option IndexRecord)
  deriving DecidableEq

/-- The system calls extending a file: the truncation of the data file, and the record of it. -/
structure ExtendCalls where
  truncate : Bool
  index : IndexWrite

/-- The system calls of a write: the extension up to its offset, the number of bytes written
    (`none` when `pwrite` returns `-1`), and the record of them. -/
structure WriteCalls where
  extend : ExtendCalls
  data : Option ℕ
  index : IndexWrite

/-- The system calls of a truncation. -/
structure TruncateCalls where
  extend : ExtendCalls
  truncate : Bool

/-- Put a record at the position `ioff` of an index file; the records before it which were never
    written read as zeros. -/
def pwriteRecord (index : List IndexRecord) (ioff : ℕ) (r : IndexRecord) : List IndexRecord :=
  if ioff < index.length then index.set ioff r
  else index ++ List.replicate (ioff - index.length) ⟨0, 0⟩ ++ [r]

/-- The index file after a `pwrite` of the record `r`. -/
def IndexWrite.apply (index : List IndexRecord) (ioff : ℕ) (r : IndexRecord) :
    IndexWrite → List IndexRecord
  | .done => pwriteRecord index ioff r
  | .failed none => index
  | .failed (some left) => pwriteRecord index ioff left

/-- An open unencrypted file. -/
structure OpenFile where
  newfile : Bool
  modified : Bool
  releasedforupload : Bool
  writeid : ℕ
  currentsize : ℕ
  initialsize : ℕ
  /-- The content of the revision `hash` of `remotefileid`. -/
  remote : File
  datafile : File
  indexfile : List IndexRecord
  indexoff : ℕ
  writeintervals : IntervalTree

namespace OpenFile

/-- A file opened for reading, of which the server has the given content. -/
def ofRemote (remote : File) : OpenFile where
  newfile := false
  modified := false
  releasedforupload := false
  writeid := 0
  currentsize := remote.size
  initialsize := remote.size
  remote := remote
  datafile := .empty
  indexfile := []
  indexoff := 0
  writeintervals := ∅

/-- A file just created. -/
def created : OpenFile where
  newfile := true
  modified := true
  releasedforupload := false
  writeid := 0
  currentsize := 0
  initialsize := 0
  remote := .empty
  datafile := .empty
  indexfile := []
  indexoff := 0
  writeintervals := ∅

/-! ## Writing -/

/-- `psync_fs_modfile_check_size_ok`. -/
def modfileCheckSizeOk (of : OpenFile) (size : ℕ) (calls : ExtendCalls) : OpenFile × ℤ :=
  if h : of.currentsize < size then
    if calls.truncate = false then (of, -1)
    else
      let datafile := of.datafile.truncate size
      if of.newfile then ({ of with datafile }, 0)
      else
        let r : IndexRecord := ⟨of.currentsize, size - of.currentsize⟩
        let indexfile := calls.index.apply of.indexfile of.indexoff r
        let indexoff := of.indexoff + 1
        if calls.index ≠ .done then ({ of with datafile, indexfile, indexoff }, -1)
        else
          let writeintervals := of.writeintervals.add of.currentsize size h
          ({ of with datafile, indexfile, indexoff, writeintervals, currentsize := size }, 0)
  else (of, 0)

/-- `psync_fs_write_modified`; the number of bytes written is at most the number given. -/
def writeModified (of : OpenFile) (buf : List UInt8) (offset : ℕ) (calls : WriteCalls) :
    Option (OpenFile × ℤ) :=
  let (of, ret) := of.modfileCheckSizeOk offset calls.extend
  if ret ≠ 0 then some (of, -eio)
  else
    let indexoff := of.indexoff + 1
    match calls.data with
    | none => some ({ of with indexoff }, -eio)
    | some bw =>
      let written := buf.take bw
      let datafile := of.datafile.pwrite written offset
      let indexfile := calls.index.apply of.indexfile of.indexoff ⟨offset, written.length⟩
      if calls.index ≠ .done then some ({ of with indexoff, datafile, indexfile }, -eio)
      else if h : offset < offset + written.length then
        let writeintervals := of.writeintervals.add offset (offset + written.length) h
        let currentsize := max of.currentsize (offset + buf.length)
        some ({ of with indexoff, datafile, indexfile, writeintervals, currentsize },
          written.length)
      else none

/-- `psync_fs_write_newfile`. -/
def writeNewfile (of : OpenFile) (buf : List UInt8) (offset : ℕ) (calls : WriteCalls) :
    OpenFile × ℤ :=
  match calls.data with
  | none => (of, -1)
  | some bw =>
    let written := buf.take bw
    let datafile := of.datafile.pwrite written offset
    let currentsize := max of.currentsize (offset + buf.length)
    ({ of with datafile, currentsize }, written.length)

/-- `psync_fs_inc_writeid_locked`. -/
def incWriteid (of : OpenFile) : OpenFile :=
  { of with releasedforupload := false, writeid := of.writeid + 1 }

/-- `PSYNC_FS_MAX_SIZE_CONVERT_NEWFILE`. -/
def maxSizeConvertNewfile : ℕ := 32 * 4096

/-- The choice of `psync_fs_reopen_file_for_writing` between a new and a sparse data file. -/
def ConvertsToNewfile (of : OpenFile) (pagesInCache : Bool) : Prop :=
  of.initialsize = 0 ∨ (of.initialsize ≤ maxSizeConvertNewfile ∧ pagesInCache)

instance (of : OpenFile) (pagesInCache : Bool) : Decidable (of.ConvertsToNewfile pagesInCache) :=
  inferInstanceAs (Decidable (_ ∨ _))

/-- `psync_fs_reopen_file_for_writing` of an unmodified file, its system calls succeeding: a small
    file whose pages are all in the cache is copied to a new data file, otherwise a sparse data
    file and an empty index are made. The flag says whether all pages are in the cache and the
    cache could be locked. -/
def reopenFileForWriting (of : OpenFile) (pagesInCache : Bool) : OpenFile :=
  if of.ConvertsToNewfile pagesInCache then
    { of with
      newfile := true
      modified := true
      datafile := of.remote.truncate of.initialsize
      currentsize := of.initialsize }
  else
    -- the intervals are not reset here, and loading the empty index adds none
    { of with
      datafile := File.empty.truncate of.initialsize
      indexfile := []
      modified := true
      indexoff := 0
      currentsize := of.initialsize }

/-- The reopening in `psync_fs_write` and `psync_fs_ftruncate_of_locked`. -/
def ensureModified (of : OpenFile) (pagesInCache : Bool) : OpenFile :=
  if !of.newfile && !of.modified then of.reopenFileForWriting pagesInCache else of

/-- `psync_fs_write`, when there is local space for it. -/
def write (of : OpenFile) (buf : List UInt8) (offset : ℕ) (pagesInCache : Bool)
    (calls : WriteCalls) :
    Option (OpenFile × ℤ) :=
  let of := of.incWriteid.ensureModified pagesInCache
  if of.newfile then
    let (of, ret) := of.writeNewfile buf offset calls
    some (of, if ret = -1 then -eio else ret)
  else of.writeModified buf offset calls

/-- The part of `psync_fs_ftruncate_of_locked` from where the file is open for writing. -/
def truncateOpened (of : OpenFile) (size : ℕ) (calls : TruncateCalls) : OpenFile × ℤ :=
  let (of, ret) := of.modfileCheckSizeOk size calls.extend
  if ret ≠ 0 then (of, -eio)
  else if of.currentsize = size then (of, 0)
  else if calls.truncate = false then (of, -eio)
  else ({ of with datafile := of.datafile.truncate size, currentsize := size }, 0)

/-- `psync_fs_ftruncate_of_locked`. -/
def ftruncate (of : OpenFile) (size : ℕ) (pagesInCache : Bool) (calls : TruncateCalls) :
    OpenFile × ℤ :=
  if of.currentsize = size then (of, 0)
  else (of.incWriteid.ensureModified pagesInCache).truncateOpened size calls

/-- `psync_fs_update_openfile` for an open file, after an upload of its content at `writeid` which
    made the new remote content `content`: whether the upload is accepted. -/
def updateOpenfile (of : OpenFile) (writeid : ℕ) (content : File) : OpenFile × Bool :=
  if of.writeid = writeid then
    -- the data and index files are closed, the intervals stay
    ({ of with
      remote := content
      modified := false
      newfile := false
      currentsize := content.size
      initialsize := content.size
      releasedforupload := false
      datafile := .empty
      indexfile := [] }, true)
  else (of, false)

/-! ## Reading -/

/-- `psync_pagecache_read_unmodified_locked`. -/
def readUnmodified (of : OpenFile) (size offset : ℕ) : List UInt8 :=
  if of.initialsize ≤ offset then []
  else
    let size := if of.initialsize < offset + size then of.initialsize - offset else size
    of.remote.pread size offset

/-- A buffer after bytes are copied to it. -/
def fill (buf : ℕ → UInt8) (start : ℕ) (bs : List UInt8) (j : ℕ) : UInt8 :=
  if start ≤ j ∧ j < start + bs.length then bs.getD (j - start) 0 else buf j

/-- The loop of `psync_pagecache_read_modified_locked`, which reads the intervals from the data
    file over what was read from the network into the buffer, `rd` being the count to return. -/
def readLocal (of : OpenFile) (size offset : ℕ) : List Interval → (ℕ → UInt8) → ℕ → (ℕ → UInt8) × ℕ
  | [], buf, rd => (buf, rd)
  | fi :: rest, buf, rd =>
    if fi.start < offset + size then
      let ioffset := max fi.start offset
      let isize := min fi.stop (offset + size) - ioffset
      let bs := of.datafile.pread isize ioffset
      let rd := if rd ≠ size ∧ rd < bs.length + ioffset - offset then
        bs.length + ioffset - offset else rd
      of.readLocal size offset rest (fill buf (ioffset - offset) bs) rd
    else (buf, rd)

/-- The interval found at the offset contains all the bytes to be read. -/
def ContainedAt (of : OpenFile) (size offset : ℕ) : Prop :=
  ∃ fi ∈ (of.writeintervals.containingOrAfter offset).head?,
    fi.start ≤ offset ∧ offset + size ≤ fi.stop

instance (of : OpenFile) (size offset : ℕ) : Decidable (of.ContainedAt size offset) :=
  inferInstanceAs (Decidable (∃ fi ∈ (of.writeintervals.containingOrAfter offset).head?, _))

/-- `psync_pagecache_read_modified_locked`; `junk` is the buffer given, of which it returns the
    first bytes. -/
def readModified (of : OpenFile) (size offset : ℕ) (junk : ℕ → UInt8) : List UInt8 :=
  if of.ContainedAt size offset then of.datafile.pread size offset
  else
    let bs := of.readUnmodified size offset
    let ivs := of.writeintervals.containingOrAfter offset
    let (buf, rd) := of.readLocal size offset ivs (fill junk 0 bs) bs.length
    (List.range rd).map buf

/-- `psync_fs_read`. -/
def read (of : OpenFile) (size offset : ℕ) (junk : ℕ → UInt8) : List UInt8 :=
  if of.newfile then of.datafile.pread size offset
  else if of.modified then of.readModified size offset junk
  else of.readUnmodified size offset

end OpenFile

end Pclsync
