import Pclsync.OpenFile.UploadModify

/-!
# Open files as plain files

What an unencrypted open file is for: it behaves as a plain file, while its content moves between
the remote file, a sparse local file over it, and a new local file.

* `fileMachine`: an open file with writes, truncations, reads, flushes, uploads that start from
  the content at some write id, and their completions, which `psync_fs_update_openfile` accepts
  when the write id is still the same. System calls and network reads succeed.
* `plainMachine`: the plain file.
* `reads_eq_plain`: in every run in which no write is empty, a file whose intervals are left from
  before an upload is not made sparse again (`ReopensClean`), and no modified file is read past its
  end where the remote file is longer (`ReadsInside`), all reads are those of the plain file.
* `staleIntervals_read`: what happens otherwise.
-/

namespace Pclsync

open Option

/-- The operations on an open file. Reopening for writing may find all pages in the cache. -/
inductive FileOp
  | write (buf : List UInt8) (offset : ℕ) (pagesInCache : Bool)
  | ftruncate (size : ℕ) (pagesInCache : Bool)
  | read (size offset : ℕ) (junk : ℕ → UInt8)
  | flush
  | uploadStart
  | uploadDone

/-- The system calls of a write of `n` bytes, when all succeed. -/
def WriteCalls.complete (n : ℕ) : WriteCalls := ⟨⟨true, .done⟩, some n, .done⟩

/-- The system calls of a truncation, when all succeed. -/
def TruncateCalls.complete : TruncateCalls := ⟨⟨true, .done⟩, true⟩

/-- An open file, the upload in progress (its write id and what it uploads), and what the reads so
    far returned. -/
structure FileState where
  file : OpenFile
  upload : Option (ℕ × File)
  reads : List (List UInt8)

/-- What the uploader makes of the content of a file: the data file of a new one, else what the
    server assembles from the requests of `upload_modify`. -/
def OpenFile.uploaded (of : OpenFile) : Option File :=
  if of.newfile then some of.datafile
  else (uploadModify of.indexfile of.datafile).map (assemble of.remote)

/-- An open file, from the time it is opened over the given remote content or created. -/
def fileMachine (remote : File) : Machine FileState FileOp where
  init s := (s.file = .ofRemote remote ∨ (remote = .empty ∧ s.file = .created)) ∧
    s.upload = none ∧ s.reads = []
  step s
    | .write buf offset pagesInCache =>
      (s.file.write buf offset pagesInCache (.complete buf.length)).map fun r =>
        { s with file := r.1 }
    | .ftruncate size pagesInCache =>
      some { s with file := (s.file.ftruncate size pagesInCache .complete).1 }
    | .read size offset junk => some { s with reads := s.reads ++ [s.file.read size offset junk] }
    | .flush => some { s with file := { s.file with releasedforupload := s.file.modified } }
    | .uploadStart =>
      if s.file.modified then
        s.file.uploaded.map fun content => { s with upload := some (s.file.writeid, content) }
      else none
    | .uploadDone => s.upload.map fun (writeid, content) =>
        { s with file := (s.file.updateOpenfile writeid content).1, upload := none }

/-- A plain file, and what the reads so far returned. -/
structure PlainState where
  content : File
  reads : List (List UInt8)

/-- The plain file, with the given content at first. -/
def plainMachine (content : File) : Machine PlainState FileOp where
  init t := t = ⟨content, []⟩
  step t
    | .write buf offset _ => some { t with content := t.content.pwrite buf offset }
    | .ftruncate size _ => some { t with content := t.content.truncate size }
    | .read size offset _ => some { t with reads := t.reads ++ [t.content.pread size offset] }
    | .flush | .uploadStart | .uploadDone => some t

namespace OpenFile

/-- An unmodified file which is going to be made sparse has no intervals. -/
def ReopensClean (of : OpenFile) (pagesInCache : Bool) : Prop :=
  of.newfile = true ∨ of.modified = true ∨ of.ConvertsToNewfile pagesInCache ∨
    of.writeintervals.toList = []

/-- A read of a modified file is found in one interval, or ends within the file, or the remote file
    does not go past the end of the file and the offset. -/
def ReadsInside (of : OpenFile) (size offset : ℕ) : Prop :=
  of.newfile = true ∨ of.modified = false ∨ of.ContainedAt size offset ∨
    offset + size ≤ of.currentsize ∨ of.initialsize ≤ max offset of.currentsize

end OpenFile

/-- The condition on a step. -/
def FileOpOk (s : FileState × PlainState) : FileOp → Prop
  | .write buf _ pagesInCache => buf ≠ [] ∧ s.1.file.ReopensClean pagesInCache
  | .ftruncate size pagesInCache =>
    s.1.file.currentsize ≠ size → s.1.file.ReopensClean pagesInCache
  | .read size offset _ => s.1.file.ReadsInside size offset
  | .flush | .uploadStart | .uploadDone => True

/-! ## The content of an open file -/

/-- The content of an open file is `content`, wherever it is kept. -/
inductive Holds (of : OpenFile) (content : File) : Prop
  | unmodified : of.newfile = false → of.modified = false → of.remote = content →
      of.initialsize = content.size → of.currentsize = content.size → Holds of content
  | newfile : of.newfile = true → of.modified = true → of.datafile = content →
      of.currentsize = content.size → Holds of content
  | sparse : of.Sparse → of.modified = true → of.view = content → Holds of content

open OpenFile

namespace Holds

variable {of of' : OpenFile} {content : File} {size offset : ℕ} {pagesInCache : Bool}

theorem currentsize_eq (h : Holds of content) : of.currentsize = content.size := by
  cases h with
  | unmodified _ _ _ _ hcs | newfile _ _ _ hcs => exact hcs
  | sparse _ _ hv => exact hv ▸ rfl

theorem incWriteid (h : Holds of content) : Holds of.incWriteid content := by
  cases h with
  | unmodified hn hm hr hi hcs => exact .unmodified hn hm hr hi hcs
  | newfile hn hm hd hcs => exact .newfile hn hm hd hcs
  | sparse h hm hv => exact .sparse h.incWriteid hm hv

/-- Reopening for writing keeps the content, if no interval is left from before. -/
theorem ensureModified (h : Holds of content) (hok : of.ReopensClean pagesInCache) :
    Holds (of.ensureModified pagesInCache) content ∧
      (of.ensureModified pagesInCache).modified = true := by
  cases h with
  | newfile hn hm hd hcs =>
    rw [ensureModified_eq of hm]
    exact ⟨.newfile hn hm hd hcs, hm⟩
  | sparse h hm hv =>
    rw [ensureModified_eq of hm]
    exact ⟨.sparse h hm hv, hm⟩
  | unmodified hn hm hr hi hcs =>
    obtain rfl := hr
    rw [OpenFile.ensureModified, hn, hm, if_pos (by decide), reopenFileForWriting]
    split_ifs with hc
    · exact ⟨.newfile rfl rfl (by rw [hi, File.truncate_size]) hi, rfl⟩
    · have hnil : of.writeintervals.toList = [] := by
        simpa [ReopensClean, hn, hm, hc] using hok
      have hout : ∀ i, i ∉ of.writeintervals := fun i =>
        IntervalTree.notMem_of_toList_eq_nil hnil
      refine ⟨.sparse ?_ rfl (File.ext_of_lt hi fun i hlt => ?_), rfl⟩
      · exact {
          size := rfl
          remote := hi.le
          outside := fun i hi _ => hi
          closed := fun i hi => absurd hi (hout i)
          newfile := hn
          length := rfl
          pos := List.forall_mem_nil _
          mem_index := fun i => iff_of_false (by simp) (hout i) }
      · rw [byte_view hlt, if_neg (hout i)]

theorem writeid_ensureModified : (of.ensureModified pagesInCache).writeid = of.writeid := by
  rw [OpenFile.ensureModified, reopenFileForWriting]
  split_ifs <;> rfl

theorem write (h : Holds of content) {buf : List UInt8} (hbuf : buf ≠ [])
    (hok : of.ReopensClean pagesInCache) {ret : ℤ}
    (heq : of.write buf offset pagesInCache (.complete buf.length) = some (of', ret)) :
    Holds of' (content.pwrite buf offset) ∧ of'.modified = true ∧
      of'.writeid = of.writeid + 1 := by
  obtain ⟨hg, hm⟩ := h.incWriteid.ensureModified hok
  have hid : (of.incWriteid.ensureModified pagesInCache).writeid = of.writeid + 1 :=
    writeid_ensureModified
  rw [OpenFile.write] at heq
  generalize of.incWriteid.ensureModified pagesInCache = g at heq hg hm hid
  cases hg with
  | unmodified _ hm' => simp [hm] at hm'
  | newfile hn _ hd hcs =>
    dsimp only at heq
    rw [if_pos hn] at heq
    obtain ⟨rfl, -⟩ := Prod.mk.inj (some.inj heq)
    refine ⟨.newfile hn hm ?_ ?_, hm, hid⟩
    · simp [writeNewfile, WriteCalls.complete, hd]
    · rw [File.size_pwrite hbuf, ← hcs]
      rfl
  | sparse hsp _ hv =>
    dsimp only at heq
    rw [hsp.newfile, if_neg (by decide)] at heq
    rcases hsp.writeModified rfl rfl rfl (.inl le_rfl) heq with
      ⟨ht, -⟩ | ⟨hsp', hsame, -, hview⟩
    · exact Bool.noConfusion ht
    · rw [List.take_length, hv] at hview
      exact ⟨.sparse hsp' (hsame.modified.trans hm) hview, hsame.modified.trans hm,
        hsame.writeid.trans hid⟩

/-- A new file that grows is truncated twice. -/
theorem truncateOpened_newfile (hn : of.newfile = true) (hne : of.currentsize ≠ size) :
    of.truncateOpened size .complete =
      ({ of with datafile := of.datafile.truncate size, currentsize := size }, 0) := by
  by_cases hlt : of.currentsize < size <;>
    simp [truncateOpened, modfileCheckSizeOk, hn, hlt, hne, TruncateCalls.complete]

theorem ftruncate (h : Holds of content) (hne : of.currentsize ≠ size)
    (hok : of.ReopensClean pagesInCache) :
    Holds (of.ftruncate size pagesInCache .complete).1 (content.truncate size) ∧
      (of.ftruncate size pagesInCache .complete).1.writeid = of.writeid + 1 := by
  obtain ⟨hg, hm⟩ := h.incWriteid.ensureModified hok
  have hid : (of.incWriteid.ensureModified pagesInCache).writeid = of.writeid + 1 :=
    writeid_ensureModified
  rw [OpenFile.ftruncate, if_neg hne]
  have hgne : (of.incWriteid.ensureModified pagesInCache).currentsize ≠ size := by
    rwa [hg.currentsize_eq, ← h.currentsize_eq]
  generalize of.incWriteid.ensureModified pagesInCache = g at hg hm hid hgne ⊢
  cases hg with
  | unmodified _ hm' => simp [hm] at hm'
  | newfile hn _ hd hcs =>
    rw [truncateOpened_newfile hn hgne]
    exact ⟨.newfile hn hm (by rw [hd]) rfl, hid⟩
  | sparse hsp _ hv =>
    have hx : TruncateCalls.complete.extend.index = .done := rfl
    obtain ⟨hsp', hsame, hres⟩ := hsp.truncateOpened hx (Prod.mk.eta (p := _)).symm
    obtain ⟨-, hview⟩ := hres.resolve_right (by rintro ⟨-, -, h | h⟩ <;> exact Bool.noConfusion h)
    exact ⟨.sparse hsp' (hsame.modified.trans hm) (hv ▸ hview), hsame.writeid.trans hid⟩

/-- Under the condition, reads return the bytes of the content. -/
theorem read (h : Holds of content) (hok : of.ReadsInside size offset) (junk : ℕ → UInt8) :
    of.read size offset junk = content.pread size offset := by
  cases h with
  | unmodified hn hm hr hi hcs =>
    obtain rfl := hr
    rw [OpenFile.read, hn, hm, if_neg (by decide), if_neg (by decide), readUnmodified_eq, hi]
    rw [File.pread, File.pread, min_assoc, min_self]
  | newfile hn hm hd hcs => rw [OpenFile.read, if_pos hn, hd]
  | sparse h hm hv =>
    rw [OpenFile.read, h.newfile, if_neg (by decide), if_pos hm, ← hv]
    exact h.readModified_eq (by simpa [ReadsInside, h.newfile, hm] using hok)

theorem uploaded (h : Holds of content) (hm : of.modified = true) : of.uploaded = some content := by
  cases h with
  | unmodified _ hm' => simp [hm] at hm'
  | newfile hn _ hd => rw [OpenFile.uploaded, if_pos hn, hd]
  | sparse h _ hv =>
    obtain ⟨reqs, hreqs, hmakes⟩ := h.uploadModify_makes
    have hcontent : assemble of.remote reqs = of.view := by
      simpa [assemble] using hmakes.content
    rw [OpenFile.uploaded, h.newfile, if_neg (by decide), hreqs, map_some, hcontent, hv]

/-- A write that is not empty does not fail an assertion. -/
theorem write_isSome {buf : List UInt8} (hbuf : buf ≠ []) :
    (of.write buf offset pagesInCache (.complete buf.length)).isSome := by
  rw [OpenFile.write]
  generalize of.incWriteid.ensureModified pagesInCache = g
  have hpos : 0 < buf.length := List.length_pos_iff.2 hbuf
  by_cases hn : g.newfile
  · simp [hn]
  · by_cases hret : (g.modfileCheckSizeOk offset ⟨true, .done⟩).2 = 0 <;>
      simp [hn, writeModified, WriteCalls.complete, hret, hpos]

end Holds

/-! ## The refinement -/

/-- An open file behaves as the plain file so far, and what is being uploaded is the content if it
    did not change since. -/
structure Refines (s : FileState) (t : PlainState) : Prop where
  reads : s.reads = t.reads
  holds : Holds s.file t.content
  upload : ∀ writeid content, s.upload = some (writeid, content) → writeid ≤ s.file.writeid ∧
    (writeid = s.file.writeid → s.file.modified = true ∧ content = t.content)

variable {remote : File} {s s' : FileState} {t t' : PlainState}

theorem Refines.init (hs : (fileMachine remote).init s) (ht : (plainMachine remote).init t) :
    Refines s t := by
  obtain ⟨hfile, hup, hreads⟩ := hs
  obtain rfl := ht
  refine ⟨hreads, ?_, by simp [hup]⟩
  rcases hfile with hf | ⟨rfl, hf⟩
  · exact hf ▸ .unmodified rfl rfl rfl rfl rfl
  · exact hf ▸ .newfile rfl rfl rfl rfl

theorem Refines.step (h : Refines s t) {op : FileOp} (hok : FileOpOk (s, t) op)
    (hs : (fileMachine remote).step s op = some s')
    (ht : (plainMachine remote).step t op = some t') : Refines s' t' := by
  cases op with
  | write buf offset pagesInCache =>
    obtain ⟨⟨g, ret⟩, hw, rfl⟩ := map_eq_some_iff.1 hs
    obtain ⟨⟩ := ht
    obtain ⟨hg, -, hid⟩ := h.holds.write hok.1 hok.2 hw
    refine ⟨h.reads, hg, fun w f hup => ?_⟩
    have := (h.upload w f hup).1
    exact ⟨by dsimp only; omega, fun heq => by dsimp only at heq; omega⟩
  | ftruncate size pagesInCache =>
    obtain ⟨⟩ := hs
    obtain ⟨⟩ := ht
    by_cases hne : s.file.currentsize = size
    · have hnone : s.file.ftruncate size pagesInCache .complete = (s.file, 0) := if_pos hne
      have hself : t.content.truncate size = t.content := by
        rw [← hne, h.holds.currentsize_eq, File.truncate_size]
      rw [hnone, hself]
      exact h
    · obtain ⟨hg, hid⟩ := h.holds.ftruncate hne (hok hne)
      refine ⟨h.reads, hg, fun w f hup => ?_⟩
      have := (h.upload w f hup).1
      exact ⟨by dsimp only; omega, fun heq => by dsimp only at heq; omega⟩
  | read size offset junk =>
    obtain ⟨⟩ := hs
    obtain ⟨⟩ := ht
    exact ⟨by rw [h.reads, h.holds.read hok], h.holds, h.upload⟩
  | flush =>
    obtain ⟨⟩ := hs
    obtain ⟨⟩ := ht
    refine ⟨h.reads, ?_, h.upload⟩
    cases h.holds with
    | unmodified hn hm hr hi hcs => exact .unmodified hn hm hr hi hcs
    | newfile hn hm hd hcs => exact .newfile hn hm hd hcs
    | sparse hsp hm hv => exact .sparse { hsp with } hm hv
  | uploadStart =>
    obtain ⟨⟩ := ht
    simp only [fileMachine] at hs
    split_ifs at hs with hm
    rw [h.holds.uploaded hm] at hs
    obtain ⟨⟩ := hs
    refine ⟨h.reads, h.holds, fun w f hup => ?_⟩
    obtain ⟨rfl, rfl⟩ := Prod.mk.inj (some.inj hup)
    exact ⟨le_rfl, fun _ => ⟨hm, rfl⟩⟩
  | uploadDone =>
    obtain ⟨⟩ := ht
    obtain ⟨⟨w, f⟩, hup, rfl⟩ := map_eq_some_iff.1 hs
    refine ⟨h.reads, ?_, by simp⟩
    dsimp only
    rw [updateOpenfile]
    split_ifs with hid
    · obtain ⟨-, rfl⟩ := (h.upload w f hup).2 hid.symm
      exact .unmodified rfl rfl rfl rfl rfl
    · exact h.holds

/-- In every run whose steps meet the condition, the reads return what the reads of the plain file
    return, the sizes are the same, and no write that is not empty fails an assertion. -/
theorem reads_eq_plain
    (h : ((fileMachine remote).lockstep (plainMachine remote)).Reachable FileOpOk (s, t)) :
    s.reads = t.reads ∧ s.file.currentsize = t.content.size ∧
      ∀ buf offset pagesInCache, buf ≠ [] →
        (s.file.write buf offset pagesInCache (.complete buf.length)).isSome := by
  have hR : Refines s t := h.simulation (fun s t => Refines.init)
    fun s t op s' t' hR hok hs ht => hR.step hok hs ht
  exact ⟨hR.reads, hR.holds.currentsize_eq, fun buf offset pagesInCache => Holds.write_isSome⟩

/-- A file of three bytes is written, uploaded, cut and read. -/
theorem reads_eq_plain_after_upload :
    ∃ s t, ((fileMachine (.ofList [1, 2, 3])).lockstep (plainMachine (.ofList [1, 2, 3]))).Reachable
      FileOpOk (s, t) ∧ s.reads = [[9, 2]] ∧ s.reads = t.reads := by
  let M := (fileMachine (.ofList [1, 2, 3])).lockstep (plainMachine (.ofList [1, 2, 3]))
  have h0 : M.init (⟨.ofRemote (.ofList [1, 2, 3]), none, []⟩, ⟨.ofList [1, 2, 3], []⟩) :=
    ⟨⟨.inl rfl, rfl, rfl⟩, rfl⟩
  have h : M.Reachable FileOpOk _ :=
    .step (a := .write [9] 0 true) (.init h0) ⟨by decide, .inr (.inr (.inr rfl))⟩ rfl
  replace h := h.next .uploadStart trivial rfl
  replace h := h.next .uploadDone trivial rfl
  replace h := h.next (.ftruncate 2 false) (fun _ => .inr (.inr (.inr rfl))) rfl
  replace h := h.next (.read 2 0 fun _ => 0) (.inr (.inr (.inr (.inl le_rfl)))) rfl
  exact ⟨_, _, h, rfl, (reads_eq_plain h).1⟩

/-- The plain file and the open file after a run with every step allowed. -/
theorem reachable_of_runs {l : List FileOp} (hs : (fileMachine remote).init s)
    (h : ((fileMachine remote).lockstep (plainMachine remote)).run (s, ⟨remote, []⟩) l =
      some (s', t')) :
    ((fileMachine remote).lockstep (plainMachine remote)).Reachable (fun _ _ => True)
      (s', t') := by
  have h0 : ((fileMachine remote).lockstep (plainMachine remote)).init (s, ⟨remote, []⟩) :=
    ⟨hs, rfl⟩
  exact .of_run (.init h0) h

/-- A file of three bytes is written, uploaded, written again and read: the first byte, in an
    interval left from before the upload, is read from the new sparse data file. -/
theorem staleIntervals_read :
    ∃ remote s t, ((fileMachine remote).lockstep (plainMachine remote)).Reachable
      (fun _ _ => True) (s, t) ∧ s.reads = [[0, 2, 8]] ∧ t.reads = [[9, 2, 8]] :=
  ⟨.ofList [1, 2, 3], _, _, reachable_of_runs
    (s := ⟨.ofRemote (.ofList [1, 2, 3]), none, []⟩) (l := [.write [9] 0 false, .uploadStart,
      .uploadDone, .write [8] 2 false, .read 3 0 fun _ => 0]) ⟨.inl rfl, rfl, rfl⟩ rfl, rfl, rfl⟩

end Pclsync
