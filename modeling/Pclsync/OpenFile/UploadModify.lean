import Pclsync.OpenFile.Overlay
import Pclsync.Tiling
import Pclsync.Transition

/-!
# Uploading a modified file

The uploader of `pfsupload.c` sends a modified file as a sequence of requests, which copy the bytes
outside the intervals of the index file from the remote file, at the same offset, and carry those
inside.

* `loadIntervalTree`: `psync_fs_load_interval_tree`.
* `uploadModify`: the requests sent by the loop of `upload_modify`, and `assemble` the file which
  the server makes of them.
* `uploadRequests_makes`: the requests tile the file, copy from within the remote file, and assemble
  to any content that agrees with the data file in the intervals and with the remote file elsewhere.
* `modifyMachine`: a modified file written, truncated, and closed and opened again;
  `upload_modify_correct`: what an upload sends in every state, as long as the system calls are
  complete (`CallsComplete`).
* `reopening_transparent`: opening the file again makes no difference to what is read and uploaded.
-/

namespace Pclsync

open List

/-- `psync_fs_load_interval_tree`, which adds to a tree the records of the index; a record without
    length fails the assertion of `psync_interval_tree_add`. -/
def loadIntervalTree : List IndexRecord → IntervalTree → Option IntervalTree
  | [], t => some t
  | r :: rs, t =>
    if h : r.offset < r.offset + r.length then
      loadIntervalTree rs (t.add r.offset (r.offset + r.length) h)
    else none

theorem loadIntervalTree_eq_some {index : List IndexRecord} (h : ∀ r ∈ index, 0 < r.length)
    (t : IntervalTree) : ∃ t', loadIntervalTree index t = some t' ∧
      ∀ i, i ∈ t' ↔ i ∈ t ∨ ∃ r ∈ index, r.offset ≤ i ∧ i < r.offset + r.length := by
  induction index generalizing t with
  | nil => exact ⟨t, rfl, by simp⟩
  | cons r rs ih =>
    have hr : r.offset < r.offset + r.length := Nat.lt_add_of_pos_right (h r (mem_cons_self ..))
    obtain ⟨t', ht', hmem⟩ := ih (fun r m => h r (mem_cons_of_mem _ m))
      (t.add r.offset (r.offset + r.length) hr)
    refine ⟨t', by rw [loadIntervalTree, dif_pos hr, ht'], fun i => ?_⟩
    rw [hmem, IntervalTree.mem_add, or_assoc]
    simp

/-! ## The requests -/

/-- A request of `upload_modify` that makes a part of the uploaded file. -/
inductive Request
  /-- `upload_modify_send_copy_from`: copy from the remote file, at the same offset -/
  | writefromfile (offset count : ℕ)
  /-- `upload_modify_send_local`: data to write at the offset -/
  | write (offset : ℕ) (data : List UInt8)

namespace Request

/-- The offset at which the request writes. -/
def offset : Request → ℕ
  | writefromfile offset _ => offset
  | write offset _ => offset

/-- The number of bytes it writes. -/
def count : Request → ℕ
  | writefromfile _ count => count
  | write _ data => data.length

/-- What the server does with the request. -/
def apply (remote f : File) : Request → File
  | writefromfile offset count => f.pwrite (remote.pread count offset) offset
  | write offset data => f.pwrite data offset

end Request

/-- The file that the server assembles from the requests. -/
def assemble (remote : File) (reqs : List Request) : File :=
    reqs.foldl (Request.apply remote) .empty

/-- `PSYNC_MAX_COPY_FROM_REQ`. -/
def maxCopyFromReq : ℕ := 32 * 1024 * 1024

/-- The loop of `upload_modify` from the offset `coff`, walking the intervals; each round sends at
    least one byte, so that `fsize` rounds are enough. -/
def uploadRequests (datafile : File) : ℕ → List Interval → ℕ → List Request
  | 0, _, _ => []
  | fuel + 1, ivs, coff =>
    if coff < datafile.size then
      match ivs with
      | cinterval :: rest =>
        if coff < cinterval.start then
          let len := min (min cinterval.start datafile.size - coff) maxCopyFromReq
          .writefromfile coff len :: uploadRequests datafile fuel (cinterval :: rest) (coff + len)
        else if cinterval.start ≤ coff ∧ coff < cinterval.stop then
          .write coff (datafile.pread (min cinterval.stop datafile.size - coff) coff) ::
            uploadRequests datafile fuel rest cinterval.stop
        else []
      | [] =>
        let len := min (datafile.size - coff) maxCopyFromReq
        .writefromfile coff len :: uploadRequests datafile fuel [] (coff + len)
    else []

/-- The requests that `upload_modify` sends for an index and a data file. -/
def uploadModify (index : List IndexRecord) (datafile : File) : Option (List Request) :=
  (loadIntervalTree index ∅).map fun tree => uploadRequests datafile datafile.size tree.toList 0

/-- The content `F` agrees with the data file in the intervals and with the remote file elsewhere,
    from the offset `coff` to its end. -/
def Overlays (remote datafile F : File) (ivs : List Interval) (coff : ℕ) : Prop :=
  ∀ i, coff ≤ i → i < F.size → (Covered ivs i → F.byte i = datafile.byte i) ∧
    (¬Covered ivs i → i < remote.size ∧ F.byte i = remote.byte i)

theorem Overlays.congr {remote datafile F : File} {ivs ivs' : List Interval} {coff coff' : ℕ}
    (h : Overlays remote datafile F ivs coff) (hle : coff ≤ coff')
    (hcov : ∀ i, coff' ≤ i → (Covered ivs' i ↔ Covered ivs i)) :
    Overlays remote datafile F ivs' coff' := by
  intro i hi hlt
  rw [hcov i hi]
  exact h i (hle.trans hi) hlt

/-- What it means for requests to make the rest of the content `F` from the offset `coff`. -/
structure Makes (remote F : File) (coff : ℕ) (reqs : List Request) : Prop where
  tiles : Tiles Request.offset Request.count reqs (min coff F.size) F.size
  inside : ∀ off n, .writefromfile off n ∈ reqs → off + n ≤ remote.size
  content : reqs.foldl (Request.apply remote) (F.truncate (min coff F.size)) = F

variable {remote datafile F : File} {ivs : List Interval} {coff fuel n : ℕ} {reqs : List Request}

theorem makes_nil (h : F.size ≤ coff) : Makes remote F coff [] where
  tiles := by simp [h]
  inside := by simp
  content := by simp [h]

theorem Makes.writefromfile (h : Makes remote F (coff + n) reqs) (hn : 0 < n)
    (hend : coff + n ≤ F.size)
    (hsrc : ∀ i, coff ≤ i → i < coff + n → i < remote.size ∧ F.byte i = remote.byte i) :
    Makes remote F coff (.writefromfile coff n :: reqs) where
  tiles := by
    have := h.tiles
    rw [min_eq_left hend] at this
    rw [min_eq_left (by omega)]
    exact ⟨rfl, hn, this⟩
  inside off k m := by
    rcases mem_cons.1 m with m | m
    · obtain ⟨rfl, rfl⟩ := Request.writefromfile.inj m
      have := (hsrc (off + k - 1) (by omega) (by omega)).1
      omega
    · exact h.inside off k m
  content := by
    have hlast := (hsrc (coff + n - 1) (by omega) (by omega)).1
    have hread : remote.pread n coff = F.pread n coff :=
      File.pread_congr (by omega) fun i hi hlt => (hsrc i hi (by omega)).2.symm
    have := h.content
    rw [min_eq_left hend] at this
    rw [min_eq_left (by omega), foldl_cons, Request.apply, hread,
      File.truncate_pwrite_pread hn hend, this]

theorem Makes.write {stop : ℕ} (h : Makes remote F stop reqs) (hs : datafile.size = F.size)
    (hlt : coff < stop) (hend : coff < F.size)
    (hsrc : ∀ i, coff ≤ i → i < stop → i < F.size → F.byte i = datafile.byte i) :
    Makes remote F coff
      (.write coff (datafile.pread (min stop datafile.size - coff) coff) :: reqs) := by
  have hread : datafile.pread (min stop datafile.size - coff) coff =
      F.pread (min stop F.size - coff) coff := by
    rw [hs]
    exact File.pread_congr (by rw [hs]) fun i hi hlt => (hsrc i hi (by omega) (by omega)).symm
  have hlen : (F.pread (min stop F.size - coff) coff).length = min stop F.size - coff := by
    rw [File.length_pread]
    omega
  have hadd : coff + (min stop F.size - coff) = min stop F.size := by omega
  refine ⟨?_, fun off k m => ?_, ?_⟩
  · rw [min_eq_left hend.le, tiles_cons, Request.offset, Request.count, hread, hlen, hadd]
    exact ⟨rfl, by omega, h.tiles⟩
  · rcases mem_cons.1 m with m | m
    · exact Request.noConfusion m
    · exact h.inside off k m
  · rw [min_eq_left hend.le, foldl_cons, Request.apply, hread,
      File.truncate_pwrite_pread (by omega) (by omega), hadd, h.content]

/-- The loop makes the rest of every content that the intervals and the remote file give. -/
theorem uploadRequests_makes (hs : datafile.size = F.size) (hc : Canonical ivs)
    (hstop : ∀ b ∈ ivs, coff < b.stop) (hf : F.size - coff ≤ fuel)
    (hov : Overlays remote datafile F ivs coff) :
    Makes remote F coff (uploadRequests datafile fuel ivs coff) := by
  induction fuel generalizing ivs coff with
  | zero => exact makes_nil (by omega)
  | succ fuel ih =>
    rw [uploadRequests.eq_def]
    dsimp only
    by_cases hlt : coff < F.size
    swap
    · rw [if_neg (by omega)]
      exact makes_nil (not_lt.1 hlt)
    have hmax : 0 < maxCopyFromReq := by decide
    rw [if_pos (by omega)]
    cases ivs with
    | nil =>
      rw [hs]
      refine Makes.writefromfile (ih hc (by simp) (by omega) ?_) (by omega) (by omega) ?_
      · exact hov.congr (by omega) fun _ _ => Iff.rfl
      · exact fun i hi hin => (hov i hi (by omega)).2 not_covered_nil
    | cons ci rest =>
      obtain ⟨hci, hrest, hnext⟩ := canonical_cons.1 hc
      have hstopci := hstop ci (mem_cons_self ..)
      dsimp only
      split_ifs with hstart hin
      · rw [hs]
        refine Makes.writefromfile (ih hc ?_ (by omega) ?_) (by omega) (by omega) ?_
        · intro b m
          have hb := hc.lt b m
          rcases mem_cons.1 m with rfl | m
          · omega
          · have := hnext b m
            omega
        · exact fun i hi => hov i (by omega)
        · refine fun i hi hin => (hov i hi (by omega)).2 ?_
          rintro ⟨b, m, hb, -⟩
          rcases mem_cons.1 m with rfl | m
          · omega
          · have := hnext b m
            omega
      · refine Makes.write (ih hrest ?_ (by omega) ?_) hs hin.2 hlt ?_
        · intro b m
          have := hnext b m
          have := hrest.lt b m
          omega
        · intro i hi hend
          obtain ⟨h1, h2⟩ := hov i (by omega) hend
          exact ⟨fun hcov => h1 (covered_cons.2 (.inr hcov)), fun hcov => h2 fun hcov' =>
            (covered_cons.1 hcov').elim (by omega) hcov⟩
        · exact fun i hi hlt hend => (hov i hi hend).1 (covered_cons.2 (.inl ⟨by omega, hlt⟩))
      · omega

/-! ## Modified files over their whole life -/

variable {of of' : OpenFile}

namespace OpenFile

theorem Sparse.uploadModify_makes (h : of.Sparse) :
    ∃ reqs, uploadModify of.indexfile of.datafile = some reqs ∧ Makes of.remote of.view 0 reqs := by
  obtain ⟨t, ht, hmem⟩ := loadIntervalTree_eq_some h.pos ∅
  have hcov : ∀ i, Covered t.toList i ↔ i ∈ of.writeintervals := fun i =>
    (hmem i).trans ((or_iff_right IntervalTree.notMem_empty).trans (h.mem_index i))
  refine ⟨_, by rw [uploadModify, ht]; rfl, uploadRequests_makes h.size t.canonical_toList ?_ ?_ ?_⟩
  · exact fun b m => Nat.zero_lt_of_lt (t.canonical_toList.lt b m)
  · rw [size_view, h.size]
    exact Nat.sub_le ..
  · rintro i - hi
    rw [byte_view hi, hcov]
    refine ⟨fun hin => if_pos hin, fun hout => ⟨(h.outside i hi hout).trans_le h.remote, ?_⟩⟩
    exact if_neg hout

/-- A file which `psync_fs_open` or `psync_fs_reopen_file_for_writing` has just made sparse over the
    first `size` bytes of the remote file. -/
def sparse (remote : File) (size : ℕ) : OpenFile :=
  { ofRemote remote with
    modified := true
    initialsize := size
    currentsize := size
    datafile := File.empty.truncate size }

/-- `psync_fs_open` of a file with a modify task, after it was closed: `open_write_files` takes the
    size from the data file and the intervals from the index file, or truncates both. The write id
    and the status are those of the task row. -/
def reopen (of : OpenFile) (trunc : Bool) (writeid : ℕ) (releasedforupload : Bool) :
    Option OpenFile :=
  if trunc then
    some { sparse of.remote 0 with writeid, releasedforupload }
  else
    (loadIntervalTree of.indexfile ∅).map fun writeintervals =>
      { of with
        writeid
        releasedforupload
        initialsize := of.remote.size
        currentsize := of.datafile.size
        indexoff := of.indexfile.length
        writeintervals }

end OpenFile

/-- The operations on a modified file, with the outcome of their system calls. -/
inductive ModifyOp
  | write (buf : List UInt8) (offset : ℕ) (calls : WriteCalls)
  | ftruncate (size : ℕ) (calls : TruncateCalls)
  | reopen (trunc : Bool) (writeid : ℕ) (releasedforupload : Bool)

/-- A modified file, from the time it is made sparse over the remote file. -/
def modifyMachine : Machine OpenFile ModifyOp where
  init of := ∃ remote size, size ≤ remote.size ∧ of = .sparse remote size
  step of
    | .write buf offset calls => (of.write buf offset false calls).map Prod.fst
    | .ftruncate size calls => some (of.ftruncate size false calls).1
    | .reopen trunc writeid released => of.reopen trunc writeid released

/-- The system calls of an operation are complete: those writing the index succeed, the one writing
    the data does not fail, and it writes all of it, or does not have to reach past the end of the
    file. The truncations may fail; the outcome of a call that is not made is of no importance. -/
def CallsComplete (of : OpenFile) : ModifyOp → Prop
  | .write buf offset calls => calls.extend.index = .done ∧ calls.index = .done ∧
      ∃ bw, calls.data = some bw ∧ (buf.length ≤ bw ∨ offset + buf.length ≤ of.currentsize)
  | .ftruncate _ calls => calls.extend.index = .done
  | .reopen .. => True

/-- The requests which are sent for the file cover it exactly once and in order, copy from within
    the remote file, and assemble to what is read locally. -/
def UploadsContent (of : OpenFile) : Prop :=
  ∃ reqs, uploadModify of.indexfile of.datafile = some reqs ∧
    Tiles Request.offset Request.count reqs 0 of.datafile.size ∧
    (∀ offset count, .writefromfile offset count ∈ reqs → offset + count ≤ of.remote.size) ∧
    (assemble of.remote reqs).size = of.datafile.size ∧
    ∀ size offset junk, offset + size ≤ of.datafile.size →
      of.read size offset junk = (assemble of.remote reqs).pread size offset

namespace OpenFile

theorem sparse_sparse {remote : File} {size : ℕ} (h : size ≤ remote.size) :
    (sparse remote size).Sparse where
  size := rfl
  remote := h
  outside _ hi _ := hi
  closed _ hi := absurd hi IntervalTree.notMem_empty
  newfile := rfl
  length := rfl
  pos _ hr := absurd hr not_mem_nil
  mem_index _ := iff_of_false (by simp [sparse, ofRemote]) IntervalTree.notMem_empty

theorem Sparse.reopen (h : of.Sparse) {trunc : Bool} {writeid : ℕ} {released : Bool}
    (heq : of.reopen trunc writeid released = some of') : of'.Sparse := by
  rw [OpenFile.reopen] at heq
  split_ifs at heq
  · obtain ⟨⟩ := heq
    exact { sparse_sparse (Nat.zero_le of.remote.size) with }
  · obtain ⟨t, ht, rfl⟩ := Option.map_eq_some_iff.1 heq
    obtain ⟨t', ht', hmem⟩ := loadIntervalTree_eq_some h.pos ∅
    obtain rfl : t = t' := Option.some.inj (ht.symm.trans ht')
    have hiff : ∀ i, i ∈ t ↔ i ∈ of.writeintervals := fun i =>
      (hmem i).trans ((or_iff_right IntervalTree.notMem_empty).trans (h.mem_index i))
    exact {
      size := rfl
      remote := le_rfl
      outside := fun i hi hout =>
        (h.outside i (h.size ▸ hi) (mt (hiff i).2 hout)).trans_le h.remote
      closed := fun i hi j hj hinit =>
        (hiff j).2 (h.closed i ((hiff i).1 hi) j hj (h.remote.trans hinit))
      newfile := h.newfile
      length := rfl
      pos := h.pos
      mem_index := fun i => (h.mem_index i).trans (hiff i).symm }

/-- Every operation with complete system calls keeps the invariant. -/
theorem Sparse.step (h : of.Sparse) (hm : of.modified = true) {op : ModifyOp}
    (hok : CallsComplete of op) (hstep : modifyMachine.step of op = some of') :
    of'.Sparse ∧ of'.modified = true := by
  cases op with
  | write buf offset calls =>
    obtain ⟨⟨g, ret⟩, hw, rfl⟩ := Option.map_eq_some_iff.1 hstep
    rw [OpenFile.write, ensureModified_eq of.incWriteid hm] at hw
    dsimp only at hw
    rw [h.incWriteid.newfile, if_neg (by decide)] at hw
    obtain ⟨hx, hi, bw, hd, hbw⟩ := hok
    rcases h.incWriteid.writeModified hx hi hd hbw hw with ⟨-, rfl⟩ | ⟨hsp, hsame, -⟩
    · exact ⟨h.incWriteid, hm⟩
    · exact ⟨hsp, hsame.modified.trans hm⟩
  | ftruncate size calls =>
    obtain ⟨⟩ := hstep
    rw [OpenFile.ftruncate, ensureModified_eq of.incWriteid hm]
    split_ifs
    · exact ⟨h, hm⟩
    · obtain ⟨hsp, hsame, -⟩ := h.incWriteid.truncateOpened hok (Prod.mk.eta (p := _)).symm
      exact ⟨hsp, hsame.modified.trans hm⟩
  | reopen trunc writeid released =>
    refine ⟨h.reopen hstep, ?_⟩
    replace hstep : of.reopen trunc writeid released = some of' := hstep
    rw [OpenFile.reopen] at hstep
    split_ifs at hstep
    · exact Option.some.inj hstep ▸ rfl
    · obtain ⟨t, -, rfl⟩ := Option.map_eq_some_iff.1 hstep
      exact hm

theorem Sparse.uploadsContent (h : of.Sparse) (hm : of.modified = true) : UploadsContent of := by
  obtain ⟨reqs, hreqs, hmakes⟩ := h.uploadModify_makes
  have hcontent : assemble of.remote reqs = of.view := by
    simpa [assemble] using hmakes.content
  refine ⟨reqs, hreqs, by simpa [h.size] using hmakes.tiles, hmakes.inside, ?_, ?_⟩
  · rw [hcontent, size_view, h.size]
  · intro size offset junk hle
    rw [OpenFile.read, h.newfile, if_neg (by decide), if_pos hm, hcontent]
    exact h.readModified_eq (.inr (.inl (h.size ▸ hle)))

end OpenFile

/-- In every run whose system calls are complete, what an upload sends in any state reached covers
    the file exactly once, copies from within the remote file, and makes the file read locally. -/
theorem upload_modify_correct {of : OpenFile} (h : modifyMachine.Reachable CallsComplete of) :
    UploadsContent of := by
  have hinv : of.Sparse ∧ of.modified = true := by
    refine h.invariant (P := fun of => of.Sparse ∧ of.modified = true) ?_ ?_
    · rintro _ ⟨remote, size, hsize, rfl⟩
      exact ⟨OpenFile.sparse_sparse hsize, rfl⟩
    · exact fun of op of' ⟨hsp, hm⟩ hok hstep => hsp.step hm hok hstep
  exact hinv.1.uploadsContent hinv.2

/-- A run in which `pwrite` writes a part of its bytes at the end of a file of ten bytes, so that
    the size announced is that of all bytes; a later write then lies past a gap. -/
def shortWrite : List ModifyOp :=
  [.write (replicate 10 1) 10 ⟨⟨true, .done⟩, some 4, .done⟩,
    .write [1] 18 ⟨⟨true, .done⟩, some 1, .done⟩]

/-- After the run, the upload asks for the bytes from 14 to 18 of a remote file of ten bytes. -/
theorem shortWrite_copies_past_remote_end :
    ∃ of, modifyMachine.Reachable (fun _ _ => True) of ∧ ¬UploadsContent of := by
  have h0 : modifyMachine.init (.sparse (.ofList (replicate 10 7)) 10) :=
    ⟨_, 10, le_rfl, rfl⟩
  refine ⟨_, @Machine.Reachable.of_run _ _ modifyMachine _ _ shortWrite (.init h0) rfl, ?_⟩
  rintro ⟨reqs, hreqs, -, hinside, -⟩
  obtain rfl : [.writefromfile 0 10, .write 10 [1, 1, 1, 1], .writefromfile 14 4,
    .write 18 [1]] = reqs := Option.some.inj hreqs
  exact absurd (hinside 14 4 (by simp)) (by decide)

/-- A file of three bytes after a write past its end. -/
theorem upload_modify_correct_after_write : ∃ of, modifyMachine.Reachable CallsComplete of ∧
    of.datafile.size = 6 ∧ UploadsContent of := by
  have h : modifyMachine.Reachable CallsComplete
      ((OpenFile.sparse (.ofList [1, 2, 3]) 3).write [9] 5 false
        ⟨⟨true, .done⟩, some 1, .done⟩ |>.map Prod.fst |>.getD .created) :=
    .step (.init ⟨_, 3, le_rfl, rfl⟩) (a := .write [9] 5 ⟨⟨true, .done⟩, some 1, .done⟩)
      ⟨rfl, rfl, 1, rfl, .inl le_rfl⟩ rfl
  exact ⟨_, h, rfl, upload_modify_correct h⟩

/-! ## Reopening -/

open OpenFile

/-- A modified file beside a plain file on which writes and truncations have the effects which their
    results announce. -/
def besidePlain : Machine (OpenFile × File) ModifyOp where
  init s := ∃ remote size, size ≤ remote.size ∧ s = (.sparse remote size, remote.truncate size)
  step s
    | .write buf offset calls => (s.1.write buf offset false calls).map fun r =>
        (r.1, if r.2 < 0 then s.2 else s.2.pwrite (buf.take r.2.toNat) offset)
    | .ftruncate size calls =>
      let r := s.1.ftruncate size false calls
      some (r.1, if r.2 = 0 then s.2.truncate size else s.2)
    | .reopen trunc writeid released => (s.1.reopen trunc writeid released).map fun of =>
        (of, if trunc then .empty else s.2)

namespace OpenFile

variable {of of' : OpenFile}

/-- The intervals which are loaded are those in memory. -/
theorem Sparse.view_reopen (h : of.Sparse) {trunc : Bool} {writeid : ℕ} {released : Bool}
    (heq : of.reopen trunc writeid released = some of') :
    of'.view = if trunc then .empty else of.view := by
  rw [OpenFile.reopen] at heq
  split_ifs at heq with htrunc
  · obtain ⟨⟩ := heq
    rw [if_pos htrunc]
    exact File.ext_of_lt rfl fun i hi => absurd hi (Nat.not_lt_zero i)
  · obtain ⟨t, ht, rfl⟩ := Option.map_eq_some_iff.1 heq
    obtain ⟨t', ht', hmem⟩ := loadIntervalTree_eq_some h.pos ∅
    obtain rfl : t = t' := Option.some.inj (ht.symm.trans ht')
    rw [if_neg htrunc]
    refine File.ext_of_lt h.size fun i hi => ?_
    rw [byte_view hi, byte_view (h.size ▸ hi)]
    exact if_ctx_congr ((hmem i).trans ((or_iff_right IntervalTree.notMem_empty).trans
      (h.mem_index i))) (fun _ => rfl) fun _ => rfl

/-- A write has the effect which its result announces. -/
theorem Sparse.view_writeModified (h : of.Sparse) {calls : WriteCalls} {buf : List UInt8}
    {offset : ℕ} (hok : CallsComplete of (.write buf offset calls)) {ret : ℤ}
    (heq : of.writeModified buf offset calls = some (of', ret)) :
    of'.view = if ret < 0 then of.view else of.view.pwrite (buf.take ret.toNat) offset := by
  obtain ⟨hx, hi, bw, hd, hbw⟩ := hok
  by_cases hfail : of.currentsize < offset ∧ calls.extend.truncate = false
  · rw [OpenFile.writeModified, OpenFile.modfileCheckSizeOk, dif_pos hfail.1, if_pos hfail.2] at heq
    obtain ⟨rfl, rfl⟩ := Prod.mk.inj (Option.some.inj heq)
    rfl
  -- a truncation which is not made may as well succeed
  have hsame : of.writeModified buf offset ⟨⟨true, calls.extend.index⟩, calls.data, calls.index⟩ =
      some (of', ret) := by
    rw [← heq]
    rcases not_and_or.1 hfail with hle | ht
    · rw [OpenFile.writeModified, OpenFile.writeModified, modfileCheckSizeOk_of_le (not_lt.1 hle),
        modfileCheckSizeOk_of_le (not_lt.1 hle)]
    · rw [← (Bool.not_eq_false _).mp ht]
  rcases @Sparse.writeModified of offset h ⟨⟨true, calls.extend.index⟩, calls.data, calls.index⟩ buf
    bw hx hi hd hbw of' ret hsame with ⟨ht, -⟩ | ⟨-, -, rfl, hview⟩
  · cases ht
  · rw [if_neg (Int.not_lt.2 (Int.natCast_nonneg _)), Int.toNat_natCast, hview, length_take,
      ← take_eq_take_min]

end OpenFile

/-- The content of the modified file is the plain file. -/
def SameContent (s : OpenFile × File) : Prop :=
  s.1.Sparse ∧ s.1.modified = true ∧ s.1.view = s.2

theorem SameContent.step {s s' : OpenFile × File} {op : ModifyOp} (h : SameContent s)
    (hok : CallsComplete s.1 op) (hstep : besidePlain.step s op = some s') : SameContent s' := by
  obtain ⟨of, content⟩ := s
  obtain ⟨hsp, hm, hview⟩ := h
  dsimp only at hsp hm hview hok
  subst hview
  cases op with
  | write buf offset calls =>
    obtain ⟨⟨g, ret⟩, hw, rfl⟩ := Option.map_eq_some_iff.1 hstep
    obtain ⟨hkeep, hmod⟩ := hsp.step hm hok (Option.map_eq_some_iff.2 ⟨_, hw, rfl⟩)
    rw [OpenFile.write, ensureModified_eq of.incWriteid hm] at hw
    dsimp only at hw
    rw [hsp.incWriteid.newfile, if_neg Bool.false_ne_true] at hw
    exact ⟨hkeep, hmod, hsp.incWriteid.view_writeModified hok hw⟩
  | ftruncate size calls =>
    obtain ⟨⟩ := hstep
    obtain ⟨hkeep, hmod⟩ := hsp.step hm hok rfl
    refine ⟨hkeep, hmod, ?_⟩
    dsimp only
    rw [OpenFile.ftruncate, ensureModified_eq of.incWriteid hm]
    by_cases hsize : of.currentsize = size
    · rw [if_pos hsize]
      exact hsize ▸ (@File.truncate_size of.view).symm
    · rw [if_neg hsize]
      rcases (hsp.incWriteid.truncateOpened hok (Prod.mk.eta (p := _)).symm).2.2 with
        ⟨hret, hv⟩ | ⟨hret, hv, -⟩
      · exact hv.trans (if_pos hret).symm
      · exact hv.trans (if_neg hret).symm
  | reopen trunc writeid released =>
    obtain ⟨g, hg, rfl⟩ := Option.map_eq_some_iff.1 hstep
    obtain ⟨hkeep, hmod⟩ := hsp.step hm hok hg
    exact ⟨hkeep, hmod, hsp.view_reopen hg⟩

/-- In every run whose system calls are complete, closing and opening a modified file makes no
    difference: what is read, and what an upload makes, is the plain file. -/
theorem reopening_transparent {s : OpenFile × File}
    (h : besidePlain.Reachable (fun s => CallsComplete s.1) s) :
    (∀ size offset junk, offset + size ≤ s.2.size →
      s.1.read size offset junk = s.2.pread size offset) ∧
      ∃ reqs, uploadModify s.1.indexfile s.1.datafile = some reqs ∧
        assemble s.1.remote reqs = s.2 := by
  obtain ⟨hsp, hm, hview⟩ : SameContent s := by
    refine h.invariant ?_ fun s op s' hs hok hstep => hs.step hok hstep
    rintro _ ⟨remote, size, hsize, rfl⟩
    refine ⟨sparse_sparse hsize, rfl, File.ext_of_lt rfl fun i hi => ?_⟩
    rw [byte_view hi, File.byte_truncate]
    exact (if_neg IntervalTree.notMem_empty).trans (if_pos hi).symm
  obtain ⟨reqs, hreqs, hmakes⟩ := hsp.uploadModify_makes
  have hcontent := hmakes.content
  rw [Nat.zero_min, File.truncate_zero, hview] at hcontent
  refine ⟨fun size offset junk hle => ?_, reqs, hreqs, hcontent⟩
  rw [OpenFile.read, hsp.newfile, if_neg Bool.false_ne_true, if_pos hm, ← hview]
  exact hsp.readModified_eq (.inr (.inl (hle.trans_eq (congrArg File.size hview).symm)))

/-- A byte is written past the end of a file of three bytes, which is then opened again. -/
theorem reopening_transparent_once : ∃ s, besidePlain.Reachable (fun s => CallsComplete s.1) s ∧
    s.1.read 6 0 (fun _ => 7) = [1, 2, 3, 0, 0, 9] := by
  have h : besidePlain.Reachable (fun s => CallsComplete s.1) _ :=
    .step (.step (.init ⟨.ofList [1, 2, 3], 3, le_rfl, rfl⟩)
      (a := .write [9] 5 ⟨⟨true, .done⟩, some 1, .done⟩) ⟨rfl, rfl, 1, rfl, .inl le_rfl⟩ rfl)
      (a := .reopen false 1 false) trivial rfl
  exact ⟨_, h, (reopening_transparent h).1 6 0 _ le_rfl⟩

end Pclsync
