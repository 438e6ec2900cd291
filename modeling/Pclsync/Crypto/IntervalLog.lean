import Pclsync.Checksum.FastHash
import Pclsync.Crypto.LogReplay
import Pclsync.OpenFile.IndexFile

/-!
# The intervals of a modified encrypted file in its log

At the end of a log, the intervals written of a file that modifies an uploaded one are added to it,
one record each, in batches of 256 records. The replay of the log then writes them to the index
file, which is loaded when the file is opened again.

* `writeIntervalTreeToLog`: `psync_fs_write_interval_tree_to_log`.
* `finalizeAndReplay`: the end of `psync_fs_crypto_do_finalize_log`: the intervals, the master
  record, and the replay of the log.
* `OpenLog`: a log that is about to be finalized, which holds data records only.
* `writeLoop_fits`, `writeLoop_wraps`: the offset in the log has 32 bits. As long as every batch
  starts below `2 ^ 32`, the records come one after the other at the end of the log; otherwise the
  log is shorter than what was hashed, and the assertion on its size fails.
-/

namespace Pclsync.Crypto

open List

/-! ## The code -/

/-- `PSYNC_CRYPTO_LOG_INT` with the fields of an interval; `junk` is the byte of the header that is
    not set. -/
def intHeader (junk : UInt8) (itr : Interval) : List UInt8 :=
  let len := itr.stop - itr.start
  UInt8.ofNat logInt :: junk :: (toLE 2 (len >>> 32) ++ (toLE 4 (len &&& 0xffffffff) ++
    toLE 8 itr.start))

/-- The fields of `psync_openfile_t` that writing to the log uses: `hashed` are the bytes that
    `loghashctx` has taken in. -/
structure LogState where
  log : File
  logoffset : ℕ
  hashed : List UInt8

/-- A write to the log, whose offset has 32 bits. -/
def LogState.write (of : LogState) (logs : List UInt8) : LogState where
  log := of.log.pwrite logs of.logoffset
  logoffset := (of.logoffset + logs.length) % 2 ^ 32
  hashed := of.hashed ++ logs

/-- The number of headers in the array `logs`. -/
def logsSize : ℕ := 4096 / LogHeader.size

variable (junk : Interval → UInt8)

/-- The loop of `psync_fs_write_interval_tree_to_log`, with the headers in the array so far; the
    assertion on the length of an interval may fail. -/
def writeLoop : List Interval → LogState → List (List UInt8) → Option LogState
  | [], of, logs => some (if logs = [] then of else of.write logs.flatten)
  | itr :: rest, of, logs =>
    let full := logs.length = logsSize
    let of := if full then of.write logs.flatten else of
    let logs := if full then [] else logs
    if (itr.stop - itr.start) >>> 48 ≠ 0 then none
    else writeLoop rest of (logs ++ [intHeader (junk itr) itr])

/-- `psync_fs_write_interval_tree_to_log`. -/
def writeIntervalTreeToLog (writeintervals : IntervalTree) (of : LogState) : Option LogState :=
  writeLoop junk writeintervals.toList of []

variable (crc32c : List UInt8 → ℕ) (hash256 : List UInt8 → List UInt8) (checkhash : Bool)

/-- The end of `psync_fs_crypto_do_finalize_log` for a file that is not new: the index file after
    the replay of the log, if no assertion and no step fails. -/
def finalizeAndReplay (padding : List UInt8) (filesize : ℕ) (files : Files)
    (writeintervals : IntervalTree) (of : LogState) : Option File :=
  (writeIntervalTreeToLog junk writeintervals of).bind fun of =>
    -- the assertion of `psync_fs_crypto_mark_log_finalized`
    if of.log.size ≠ of.hashed.length + sectorSize then none
    else
      let log := markLogFinalized crc32c of.log filesize (hash256 of.hashed) padding
      let r := processLog crc32c hash256 log checkhash true
      if r.outcome = .ok then some (Step.applyAll r.steps files).index else none

/-- Data records that a replay gets through, from an offset up to the end of the log. -/
inductive DataRecords (log : File) : ℕ → Prop
  | done : DataRecords log log.size
  | record {off : ℕ} (hdr : LogHeader) (hhdr : hdr = .ofBytes (log.pread LogHeader.size off))
      (htype : hdr.type = logData) (hlen : hdr.length ≤ sectorSize)
      (hend : off + LogHeader.size + hdr.length ≤ log.size) (hoffset : hdr.offset < 2 ^ 63)
      (rest : DataRecords log (off + LogHeader.size + hdr.length)) : DataRecords log off

/-- A log with data records only, as it is when the intervals are added. -/
structure OpenLog extends LogState where
  size_eq : log.size = logoffset
  lt : logoffset < 2 ^ 32
  hashed_eq : hashed = log.pread log.size sectorSize
  records : DataRecords log sectorSize

/-! ## Records -/

variable {log : File} {of of' : LogState} {itr : Interval} {is : List Interval}
  {logs : List (List UInt8)} {a b : List UInt8} {off : ℕ}

theorem length_intHeader (junk : UInt8) (itr : Interval) :
    (intHeader junk itr).length = LogHeader.size := by
  simp [intHeader, LogHeader.size]

/-- What a replay reads of the record of an interval. -/
theorem ofBytes_intHeader (junk : UInt8) (hlen : (itr.stop - itr.start) >>> 48 = 0)
    (hstart : itr.start < 2 ^ 64) :
    (LogHeader.ofBytes (intHeader junk itr)).type = logInt ∧
      (LogHeader.ofBytes (intHeader junk itr)).offset = itr.start ∧
      (LogHeader.ofBytes (intHeader junk itr)).longlength = itr.stop - itr.start := by
  have hlt : itr.stop - itr.start < 2 ^ 48 := by
    rw [Nat.shiftRight_eq_div_pow] at hlen
    omega
  obtain ⟨len, hdef⟩ : ∃ len, len = itr.stop - itr.start := ⟨_, rfl⟩
  rw [← hdef] at hlt ⊢
  have hu16 : ofLE (toLE 2 (len >>> 32)) = len >>> 32 := by
    refine ofLE_toLE_of_lt ?_
    rw [Nat.shiftRight_eq_div_pow]
    omega
  have hand : len &&& 0xffffffff = len % 2 ^ 32 := Nat.and_two_pow_sub_one_eq_mod len 32
  have hu32 : ofLE (toLE 4 (len &&& 0xffffffff)) = len % 2 ^ 32 := by
    rw [hand]
    refine ofLE_toLE_of_lt ?_
    omega
  have hu64 : ofLE (toLE 8 itr.start) = itr.start := ofLE_toLE_of_lt (hstart.trans_eq rfl)
  have hfields : LogHeader.ofBytes (intHeader junk itr) =
      ⟨logInt, junk.toNat, ofLE (toLE 2 (len >>> 32)), ofLE (toLE 4 (len &&& 0xffffffff)),
        ofLE (toLE 8 itr.start)⟩ := by
    have htake : (toLE 8 itr.start).take 8 = toLE 8 itr.start :=
      take_of_length_le (length_toLE 8 _).le
    simp [LogHeader.ofBytes, intHeader, ← hdef, drop_append, drop_eq_nil_of_le, ofLE, logInt, htake]
  refine ⟨by rw [hfields], ?_, ?_⟩
  · rw [hfields]
    exact hu64
  · rw [hfields, LogHeader.longlength, hu16, hu32, Nat.shiftRight_eq_div_pow]
    exact Nat.mod_add_div' len (2 ^ 32)

/-- The records of some intervals, as bytes. -/
def intHeaders (junk : Interval → UInt8) (is : List Interval) : List UInt8 :=
  is.flatMap fun itr => intHeader (junk itr) itr

theorem length_intHeaders (junk : Interval → UInt8) (is : List Interval) :
    (intHeaders junk is).length = 16 * is.length := by
  induction is with
  | nil => rfl
  | cons itr is ih =>
    rw [intHeaders, flatMap_cons, length_append, length_intHeader, ← intHeaders, ih,
      length_cons, LogHeader.size]
    omega

theorem length_flatten_logs (h : ∀ l ∈ logs, l.length = LogHeader.size) :
    logs.flatten.length = 16 * logs.length := by
  induction logs with
  | nil => rfl
  | cons l logs ih =>
    rw [flatten_cons, length_append, ih fun l hl => h l (mem_cons_of_mem _ hl),
      h l (mem_cons_self ..), length_cons, LogHeader.size]
    omega

/-! ## Batches -/

@[simp] theorem pwrite_nil (f : File) : f.pwrite [] off = f :=
  File.ext rfl (funext fun _ => if_neg fun h => absurd h.2 (Nat.not_lt.2 h.1))

/-- A write that goes on where another one ended. -/
theorem pwrite_pwrite (f : File) (a b : List UInt8) (off : ℕ) :
    (f.pwrite a off).pwrite b (off + a.length) = f.pwrite (a ++ b) off := by
  rcases eq_or_ne a [] with rfl | ha
  · rw [pwrite_nil, nil_append]
    rfl
  rcases eq_or_ne b [] with rfl | hb
  · rw [pwrite_nil, append_nil]
  have hab : a ++ b ≠ [] := append_ne_nil_of_left_ne_nil ha b
  refine File.ext ?_ (funext fun i => ?_)
  · rw [File.size_pwrite hb, File.size_pwrite ha, File.size_pwrite hab, length_append]
    omega
  · rw [File.byte_pwrite, File.byte_pwrite, File.byte_pwrite, length_append]
    by_cases hi : off + a.length ≤ i ∧ i < off + a.length + b.length
    · rw [if_pos hi, if_pos (by omega), getD_append_right _ _ _ _ (by omega)]
      congr 1
      omega
    · rw [if_neg hi]
      by_cases hi' : off ≤ i ∧ i < off + a.length
      · rw [if_pos hi', if_pos (by omega), getD_append _ _ _ _ (by omega)]
      · rw [if_neg hi', if_neg (by omega)]

/-- While every batch starts below `2 ^ 32`, the records are written at the end of the log. -/
theorem writeLoop_fits (junk : Interval → UInt8) (logs : List (List UInt8))
    (hsize : of.log.size = of.logoffset)
    (hlt : of.logoffset < 2 ^ 32) (hlogs : logs.length ≤ logsSize)
    (h16 : ∀ l ∈ logs, l.length = LogHeader.size)
    (hlen : ∀ itr ∈ is, (itr.stop - itr.start) >>> 48 = 0)
    (hlast : of.logoffset + 4096 * ((logs.length + is.length - 1) / logsSize) < 2 ^ 32) :
    ∃ of', writeLoop junk is of logs = some of' ∧
      of'.log = of.log.pwrite (logs.flatten ++ intHeaders junk is) of.log.size ∧
      of'.hashed = of.hashed ++ (logs.flatten ++ intHeaders junk is) := by
  have hsz : logsSize = 256 := rfl
  rw [hsz] at hlogs hlast
  induction is generalizing of logs with
  | nil =>
    rw [writeLoop, intHeaders, flatMap_nil, append_nil]
    by_cases hnil : logs = []
    · rw [if_pos hnil, hnil, flatten_nil, pwrite_nil, append_nil]
      exact ⟨of, rfl, rfl, rfl⟩
    · rw [if_neg hnil, hsize]
      exact ⟨of.write logs.flatten, rfl, rfl, rfl⟩
  | cons itr is ih =>
    have hitr := hlen itr (mem_cons_self ..)
    have hrest : ∀ itr ∈ is, (itr.stop - itr.start) >>> 48 = 0 := fun i hi =>
      hlen i (mem_cons_of_mem _ hi)
    have hheaders : intHeaders junk (itr :: is) =
        intHeader (junk itr) itr ++ intHeaders junk is := rfl
    have hone : ∀ l ∈ [intHeader (junk itr) itr], l.length = LogHeader.size := by
      intro l hl
      rw [mem_singleton.1 hl, length_intHeader]
    rw [length_cons] at hlast
    by_cases hfull : logs.length = 256
    · -- the array is written to the log, and begins again with this record
      have hflat : logs.flatten.length = 4096 := by rw [length_flatten_logs h16, hfull]
      have hoff : (of.write logs.flatten).logoffset = of.logoffset + 4096 := by
        change (of.logoffset + logs.flatten.length) % 2 ^ 32 = _
        omega
      have hgrown : (of.write logs.flatten).log.size = of.logoffset + 4096 := by
        change (of.log.pwrite logs.flatten of.logoffset).size = _
        rw [File.size_pwrite (ne_nil_of_length_pos (by omega)), hflat]
        omega
      have hcount : [intHeader (junk itr) itr].length = 1 := rfl
      obtain ⟨of', hloop, hlog, hhashed⟩ := ih [intHeader (junk itr) itr] (hgrown.trans hoff.symm)
        (by omega) (by omega) hone hrest (by omega)
      refine ⟨of', ?_, ?_, ?_⟩
      · rw [writeLoop]
        simp only [hsz, hfull, if_true, hitr, ne_eq, not_true_eq_false, if_false]
        exact hloop
      · rw [hlog, hgrown, hheaders, ← hflat, hsize]
        exact pwrite_pwrite _ _ _ _
      · rw [hhashed, hheaders]
        change of.hashed ++ logs.flatten ++ _ = _
        rw [append_assoc]
        rfl
    · have hmore : ∀ l ∈ logs ++ [intHeader (junk itr) itr], l.length = LogHeader.size := by
        intro l hl
        rcases mem_append.1 hl with hl | hl
        exacts [h16 l hl, hone l hl]
      have hsum : (logs ++ [intHeader (junk itr) itr]).length = logs.length + 1 :=
        length_append
      obtain ⟨of', hloop, hlog, hhashed⟩ := ih _ hsize hlt (by omega) hmore hrest
        (by omega)
      rw [flatten_append, flatten_singleton, append_assoc, ← hheaders]
        at hlog hhashed
      refine ⟨of', ?_, hlog, hhashed⟩
      rw [writeLoop]
      simp only [hsz, hfull, if_false, hitr, ne_eq, not_true_eq_false]
      exact hloop

/-- Once a batch does not, the log stays behind what was hashed. -/
theorem writeLoop_wraps (junk : Interval → UInt8) (logs : List (List UInt8))
    (hoff : of.logoffset = (of.hashed.length + sectorSize) % 2 ^ 32)
    (hsize : of.log.size ≤ of.hashed.length + sectorSize) (hlogs : logs.length ≤ logsSize)
    (h16 : ∀ l ∈ logs, l.length = LogHeader.size) (hpos : 0 < logs.length + is.length)
    (hlast : 2 ^ 32 ≤ of.hashed.length + sectorSize +
      4096 * ((logs.length + is.length - 1) / logsSize))
    (hloop : writeLoop junk is of logs = some of') :
    of'.log.size < of'.hashed.length + sectorSize := by
  have hsz : logsSize = 256 := rfl
  rw [hsz] at hlogs hlast
  induction is generalizing of logs with
  | nil =>
    have hnil : logs ≠ [] := ne_nil_of_length_pos hpos
    rw [writeLoop, if_neg hnil] at hloop
    obtain ⟨⟩ := hloop
    have hflat := length_flatten_logs h16
    rw [length_nil] at hlast hpos
    change (of.log.pwrite logs.flatten of.logoffset).size <
      (of.hashed ++ logs.flatten).length + sectorSize
    rw [File.size_pwrite (ne_nil_of_length_pos (by omega)), length_append, hflat]
    omega
  | cons itr is ih =>
    have hone : ∀ l ∈ [intHeader (junk itr) itr], l.length = LogHeader.size := by
      intro l hl
      rw [mem_singleton.1 hl, length_intHeader]
    rw [length_cons] at hlast
    rw [writeLoop] at hloop
    by_cases hfull : logs.length = 256
    · have hflat : logs.flatten.length = 4096 := by rw [length_flatten_logs h16, hfull]
      simp only [hsz, hfull, if_true] at hloop
      split at hloop
      · cases hloop
      have hhashed : (of.write logs.flatten).hashed.length = of.hashed.length + 4096 := by
        rw [← hflat]
        exact length_append
      have hcount : [intHeader (junk itr) itr].length = 1 := rfl
      refine ih [intHeader (junk itr) itr] ?_ ?_ (by omega) hone (by omega) (by omega) hloop
      · change (of.logoffset + logs.flatten.length) % 2 ^ 32 = _
        omega
      · change (of.log.pwrite logs.flatten of.logoffset).size ≤ _
        rw [File.size_pwrite (ne_nil_of_length_pos (by omega)), hflat, hhashed]
        omega
    · have hmore : ∀ l ∈ logs ++ [intHeader (junk itr) itr], l.length = LogHeader.size := by
        intro l hl
        rcases mem_append.1 hl with hl | hl
        exacts [h16 l hl, hone l hl]
      have hsum : (logs ++ [intHeader (junk itr) itr]).length = logs.length + 1 :=
        length_append
      simp only [hsz, hfull, if_false] at hloop
      split at hloop
      · cases hloop
      exact ih _ hoff hsize (by omega) hmore (by omega) (by omega) hloop

/-! ## The replay of the records -/

/-- A file from an offset on. -/
structure EndsWith (log : File) (off : ℕ) (bs : List UInt8) : Prop where
  size_eq : log.size = off + bs.length
  pread_eq : ∀ n k, log.pread n (off + k) = (bs.drop k).take n

theorem endsWith_pwrite (f : File) (bs : List UInt8) : EndsWith (f.pwrite bs f.size) f.size bs := by
  have hsize : (f.pwrite bs f.size).size = f.size + bs.length := by
    rcases eq_or_ne bs [] with rfl | hbs
    · rw [pwrite_nil]
      rfl
    · rw [File.size_pwrite hbs]
      omega
  refine ⟨hsize, fun n k => ext_getElem ?_ fun i hi hi' => ?_⟩
  · rw [File.length_pread, hsize, length_take, length_drop]
    omega
  · rw [length_take, length_drop] at hi'
    simp only [File.pread, getElem_map, getElem_range, getElem_take, getElem_drop]
    have hsub : f.size + k + i - f.size = k + i := by omega
    rw [File.byte_pwrite, if_pos (by omega), hsub, getD_eq_getElem _ _ (by omega)]

theorem EndsWith.drop (h : EndsWith log off (a ++ b)) : EndsWith log (off + a.length) b where
  size_eq := by
    rw [h.size_eq, length_append, Nat.add_assoc]
  pread_eq n k := by
    rw [Nat.add_assoc, h.pread_eq, drop_append, drop_eq_nil_of_le (by omega),
      nil_append, Nat.add_sub_cancel_left]

theorem EndsWith.pread (h : EndsWith log off (a ++ b)) : log.pread a.length off = a := by
  have hread := h.pread_eq a.length 0
  rwa [Nat.add_zero, drop_zero, take_left] at hread

theorem EndsWith.pwrite (h : EndsWith log off b) (ha : a.length ≤ off) :
    EndsWith (log.pwrite a 0) off b := by
  have hsize : (log.pwrite a 0).size = log.size := by
    rcases eq_or_ne a [] with rfl | hne
    · rw [pwrite_nil]
    · have hlog := h.size_eq
      rw [File.size_pwrite hne]
      omega
  refine ⟨hsize.trans h.size_eq, fun n k => ?_⟩
  rw [← h.pread_eq n k, File.pread_pwrite_of_le (by omega) (by have := h.size_eq; omega)]

/-- The record of an interval in the index. -/
def indexRecord (itr : Interval) : IndexRecord := ⟨itr.start, itr.stop - itr.start⟩

/-- The bytes of the index file. -/
def indexFile (records : List IndexRecord) : File := .ofList (records.flatMap IndexRecord.toBytes)

theorem length_toBytes_records (records : List IndexRecord) :
    (records.flatMap IndexRecord.toBytes).length = 16 * records.length := by
  induction records with
  | nil => rfl
  | cons r records ih =>
    rw [flatMap_cons, length_append, ih, length_cons, IndexRecord.toBytes,
      length_append, length_toLE, length_toLE]
    omega

theorem ofList_pwrite (a b : List UInt8) :
    (File.ofList a).pwrite b a.length = .ofList (a ++ b) := by
  refine File.ext ?_ (funext fun i => ?_)
  · rcases eq_or_ne b [] with rfl | hb
    · rw [pwrite_nil, append_nil]
    · rw [File.size_pwrite hb, File.size_ofList, File.size_ofList, length_append]
      omega
  · rw [File.byte_pwrite]
    change (if _ then b.getD (i - a.length) 0 else a.getD i 0) = (a ++ b).getD i 0
    by_cases hi : a.length ≤ i
    · rw [getD_append_right _ _ _ _ hi]
      split_ifs with hlt
      · rfl
      · rw [getD_eq_default _ _ hi, getD_eq_default _ _ (by omega)]
    · rw [if_neg (fun h => hi h.1), getD_append _ _ _ _ (by omega)]

/-- A batch of records goes behind those of the index. -/
theorem apply_writeRecords (done records : List IndexRecord) :
    (DiskOp.write (records.flatMap IndexRecord.toBytes)
      (IndexRecord.size * done.length + indexHeaderSize)).apply (indexFile done) =
      indexFile (done ++ records) := by
  have hoff : IndexRecord.size * done.length + indexHeaderSize =
      (done.flatMap IndexRecord.toBytes).length := (length_toBytes_records done).symm
  rw [hoff, indexFile, indexFile, flatMap_append, ← ofList_pwrite]
  rfl

/-- What the steps of a replay make of the index file. -/
def Replay.indexAfter (r : Replay) (index : File) : File :=
  DiskOp.applyAll (r.steps.filterMap Step.indexOp) index

theorem index_applyAll (r : Replay) (files : Files) :
    (Step.applyAll r.steps files).index = r.indexAfter files.index := by
  rw [Step.applyAll_eq]
  rfl

@[simp] theorem outcome_cons (r : Replay) (s : Step) : (r.cons s).outcome = r.outcome := rfl

@[simp] theorem indexAfter_cons_data (r : Replay) (op : DiskOp) (index : File) :
    (r.cons (.data op)).indexAfter index = r.indexAfter index := rfl

@[simp] theorem indexAfter_cons_index (r : Replay) (op : DiskOp) (index : File) :
    (r.cons (.index op)).indexAfter index = r.indexAfter (op.apply index) := rfl

/-- The records of the intervals are written to the index behind those that are there, and those in
    the buffer. -/
theorem replayLoop_intHeaders (junk : Interval → UInt8) (size : ℕ) (done records : List IndexRecord)
    (hlen : ∀ itr ∈ is, (itr.stop - itr.start) >>> 48 = 0 ∧ itr.start < 2 ^ 64)
    (hlog : EndsWith log off (intHeaders junk is))
    (hrecords : records.length < sectorSize / IndexRecord.size) :
    (replayLoop log true size off done.length records).outcome = .ok ∧
      (replayLoop log true size off done.length records).indexAfter (indexFile done) =
        indexFile (done ++ (records ++ is.map indexRecord)) := by
  induction is generalizing off done records with
  | nil =>
    have hend : (log.pread LogHeader.size off).length = 0 := by
      have hsize := hlog.size_eq
      rw [File.length_pread, hsize]
      simp [intHeaders]
    rw [replayLoop, dif_pos hend]
    dsimp only
    rw [map_nil, append_nil]
    by_cases hnil : records = []
    · rw [if_pos hnil, hnil, append_nil]
      exact ⟨rfl, rfl⟩
    · rw [if_neg hnil]
      exact ⟨rfl, apply_writeRecords done records⟩
  | cons itr is ih =>
    obtain ⟨hitr, hstart⟩ := hlen itr (mem_cons_self ..)
    have hrest : ∀ itr ∈ is, (itr.stop - itr.start) >>> 48 = 0 ∧ itr.start < 2 ^ 64 := fun i hi =>
      hlen i (mem_cons_of_mem _ hi)
    obtain ⟨htype, hoffset, hlonglength⟩ := ofBytes_intHeader (junk itr) hitr hstart
    have hread : log.pread LogHeader.size off = intHeader (junk itr) itr := by
      have h := EndsWith.pread (a := intHeader (junk itr) itr) hlog
      rwa [length_intHeader] at h
    have hdrop : EndsWith log (off + LogHeader.size) (intHeaders junk is) := by
      have h := EndsWith.drop (a := intHeader (junk itr) itr) hlog
      rwa [length_intHeader] at h
    have hne : ¬ (log.pread LogHeader.size off).length = 0 := by
      rw [hread, length_intHeader]
      decide
    have hnot : ¬ logInt = logData := by decide
    have hrecord : (⟨itr.start, itr.stop - itr.start⟩ : IndexRecord) = indexRecord itr := rfl
    rw [replayLoop, dif_neg hne, hread, length_intHeader, if_neg (not_not.2 rfl)]
    simp only [htype, hoffset, hlonglength, hnot, if_false, if_true, hrecord]
    rw [map_cons, append_cons records (indexRecord itr) (is.map indexRecord)]
    by_cases hfull : sectorSize / IndexRecord.size ≤ (records ++ [indexRecord itr]).length
    · -- the buffer is full
      rw [if_pos hfull]
      have hih := ih (done ++ (records ++ [indexRecord itr])) [] hrest hdrop (by decide)
      rw [length_append, nil_append, append_assoc] at hih
      refine ⟨hih.1, ?_⟩
      rw [writeRecords, indexAfter_cons_index, apply_writeRecords]
      exact hih.2
    · rw [if_neg hfull]
      exact ih done _ hrest hdrop (Nat.lt_of_not_le hfull)

/-- A replay gets through the data records without a change of the index. -/
theorem replayLoop_dataRecords {log₀ : File} (size ioff : ℕ) (h : DataRecords log₀ off)
    (hread : ∀ n k, sectorSize ≤ k → k + n ≤ log₀.size → log.pread n k = log₀.pread n k)
    (hoff : sectorSize ≤ off) :
    (replayLoop log true size off ioff []).outcome =
        (replayLoop log true size log₀.size ioff []).outcome ∧
      (replayLoop log true size off ioff []).indexAfter =
        (replayLoop log true size log₀.size ioff []).indexAfter := by
  induction h with
  | done => exact ⟨rfl, rfl⟩
  | @record off hdr hhdr htype hlen hend hoffset rest ih =>
    have hheader := hread LogHeader.size off hoff (by omega)
    have hfull : (log.pread LogHeader.size off).length = LogHeader.size := by
      rw [hheader, File.length_pread]
      omega
    have hne : ¬ (log.pread LogHeader.size off).length = 0 := by
      rw [hfull]
      decide
    have hdata : (log.pread hdr.length (off + LogHeader.size)).length = hdr.length := by
      rw [hread _ _ (by omega) hend, File.length_pread]
      omega
    have hih := ih (by omega)
    rw [replayLoop, dif_neg hne, if_neg (not_not.2 hfull), hheader, ← hhdr]
    simp only [htype, if_true]
    rw [if_neg (fun h => h.elim (fun h => absurd hlen (Nat.not_le.2 h)) (fun h => h rfl))]
    by_cases hpast : size < (hdr.offset + hdr.length) % 2 ^ 64
    · rw [if_pos hpast]
      exact hih
    · rw [if_neg hpast, if_neg (not_not.2 hdata), if_neg (Nat.not_le.2 hoffset)]
      exact ⟨hih.1, funext fun index => congrFun hih.2 index⟩

/-! ## Loading the index -/

theorem take_drop_records (records : List IndexRecord) {i : ℕ} (hi : i < records.length) :
    ((records.flatMap IndexRecord.toBytes).drop (16 * i)).take 16 = records[i].toBytes := by
  have hsplit : records = records.take i ++ records[i] :: records.drop (i + 1) := by
    rw [← drop_eq_getElem_cons hi, take_append_drop]
  have hfront : ((records.take i).flatMap IndexRecord.toBytes).length = 16 * i := by
    rw [length_toBytes_records, length_take]
    omega
  have hlen : records[i].toBytes.length = 16 := by
    rw [IndexRecord.toBytes, length_append, length_toLE, length_toLE]
  generalize records[i] = r at hsplit hlen ⊢
  rw [hsplit, flatMap_append, drop_left' hfront, flatMap_cons, take_left' hlen]

theorem records_indexFile (records : List IndexRecord)
    (h : ∀ r ∈ records, r.offset < 2 ^ 64 ∧ r.length < 2 ^ 64) :
    (indexFile records).records =
      records.map fun r => (⟨r.offset, r.length⟩ : Pclsync.IndexRecord) := by
  have hsize : (indexFile records).size = 16 * records.length := length_toBytes_records records
  have hends : EndsWith (indexFile records) 0 (records.flatMap IndexRecord.toBytes) := by
    have hzero := ofList_pwrite [] (records.flatMap IndexRecord.toBytes)
    rw [nil_append] at hzero
    rw [indexFile, ← hzero]
    exact endsWith_pwrite (.ofList []) _
  refine ext_getElem ?_ fun i hi hi' => ?_
  · rw [File.records, length_map, length_range, length_map, hsize]
    omega
  · rw [length_map] at hi'
    obtain ⟨hoffset, hlength⟩ := h _ (getElem_mem hi')
    have hread := hends.pread_eq 16 (16 * i)
    rw [Nat.zero_add, take_drop_records records hi'] at hread
    rw [getElem_map]
    simp only [File.records, getElem_map, getElem_range]
    rw [File.record, hread]
    exact Pclsync.IndexRecord.ofBytes_toBytes (r := ⟨_, _⟩) ⟨hoffset, hlength⟩

/-- An index file denotes a set of positions: loading it gives a tree with these. -/
def Denotes (index : File) (t : IntervalTree) : Prop :=
  ∃ tree cnt, index.loadIntervalTree index.size ∅ = some (tree, cnt) ∧ cnt ≠ -1 ∧
    ∀ i, i ∈ tree ↔ i ∈ t

theorem denotes_indexFile (t : IntervalTree) (h : ∀ a ∈ t.toList, a.stop < 2 ^ 64) :
    Denotes (indexFile (t.toList.map indexRecord)) t := by
  have hfits : ∀ r ∈ t.toList.map indexRecord, r.offset < 2 ^ 64 ∧ r.length < 2 ^ 64 := by
    intro r hr
    obtain ⟨a, ha, rfl⟩ := mem_map.1 hr
    have hlt := t.canonical_toList.lt a ha
    have hstop := h a ha
    have hstart : a.start < 2 ^ 64 := by omega
    have hlength : a.stop - a.start < 2 ^ 64 := by omega
    exact ⟨hstart, hlength⟩
  have hrecords : (indexFile (t.toList.map indexRecord)).records =
      t.toList.map fun a => (⟨a.start, a.stop - a.start⟩ : Pclsync.IndexRecord) := by
    rw [records_indexFile _ hfits, map_map]
    rfl
  have hends : ∀ r ∈ (indexFile (t.toList.map indexRecord)).records,
      r.offset + r.length < 2 ^ 64 ∧ 0 < r.length := by
    intro r hr
    rw [hrecords] at hr
    obtain ⟨a, ha, rfl⟩ := mem_map.1 hr
    have hlt := t.canonical_toList.lt a ha
    have hstop := h a ha
    exact ⟨by dsimp only; omega, by dsimp only; omega⟩
  obtain ⟨tree, htree, hmem⟩ := loadIntervalTree_eq_some (fun r hr => (hends r hr).2) ∅
  refine ⟨tree, (((indexFile (t.toList.map indexRecord)).size / 16 : ℕ) : ℤ), ?_, ?_, fun i => ?_⟩
  · rw [File.loadIntervalTree_eq, addRecords_eq_loadIntervalTree (fun r hr => (hends r hr).1),
      htree]
    rfl
  · omega
  · rw [hmem, hrecords, IntervalTree.mem_def (t := t)]
    simp only [IntervalTree.notMem_empty, false_or, mem_map, exists_exists_and_eq_and]
    refine exists_congr fun a => and_congr_right fun ha => ?_
    have hlt := t.canonical_toList.lt a ha
    omega

/-! ## Sizes of encrypted files -/

/-- The size of an encrypted file, within the bounds of the format. -/
def IsCryptoSize (c : ℕ) : Prop := ∃ n, sectorCount n ≤ maxSectorid ∧ cryptoSize n = some c

/-- An encrypted file is shorter than the lengths that a record can hold. -/
theorem IsCryptoSize.lt {c : ℕ} (h : IsCryptoSize c) : c < 2 ^ 48 := by
  obtain ⟨n, hn, hc⟩ := h
  rcases Nat.eq_zero_or_pos n with rfl | hpos
  · have hzero : cryptoSize 0 = some 0 := by decide
    obtain rfl := Option.some.inj (hzero.symm.trans hc)
    decide
  obtain ⟨L, hL, height, hlo, hhi, hN⟩ := exists_layout n hpos hn
  rw [cryptoSize, offsetsByPlainsize_eq height hL hlo hhi hn] at hc
  have htotal : HashTree.total hashTreeSectors authSize n (sectorCount n) L ≤
      HashTree.nodes hashTreeSectors (sectorCount n) L *
        HashTree.capacity hashTreeSectors authSize L :=
    HashTree.total_le hashTreeSectors_pos hN hhi
  have hcapacity : ∀ L < maxHashTreeLevel,
      HashTree.capacity hashTreeSectors authSize L + authSize < 2 ^ 48 := by decide
  have hroot := hcapacity L hL
  rw [height.top, Nat.one_mul] at htotal
  have hsize : c = HashTree.total hashTreeSectors authSize n (sectorCount n) L +
      if sectorSize < n then authSize else 0 := by
    simpa [layout] using (Option.some.inj hc).symm
  split_ifs at hsize <;> omega

/-! ## Finalizing and replaying -/

section Finalize

variable {crc32c : List UInt8 → ℕ} {hash256 : List UInt8 → List UInt8} {checkhash : Bool}
  {junk : Interval → UInt8} {padding : List UInt8} {filesize : ℕ} {files : Files} {t : IntervalTree}

theorem DataRecords.le {log : File} (h : DataRecords log off) : off ≤ log.size := by
  induction h with
  | done => exact Nat.le_refl _
  | record _ _ _ _ hend _ _ _ => omega

/-- The replay of a finalized log whose records of intervals come after the data records. -/
theorem processLog_intHeaders (checkhash : Bool) {log₀ log : File}
    (hdata : DataRecords log₀ sectorSize)
    (hread : ∀ n k, sectorSize ≤ k → k + n ≤ log₀.size → log.pread n k = log₀.pread n k)
    (hends : EndsWith log log₀.size (intHeaders junk is))
    (hlen : ∀ itr ∈ is, (itr.stop - itr.start) >>> 48 = 0 ∧ itr.start < 2 ^ 64)
    (hfinal : IsFinalized crc32c hash256 log) (hsize : (master log).filesize < 2 ^ 63)
    (index : File) :
    (processLog crc32c hash256 log checkhash true).outcome = .ok ∧
      (processLog crc32c hash256 log checkhash true).indexAfter index =
        indexFile (is.map indexRecord) := by
  have hroom : ([] : List IndexRecord).length < sectorSize / IndexRecord.size := by decide
  obtain ⟨hok, hindex⟩ := replayLoop_intHeaders junk (master log).filesize [] [] hlen hends hroom
  rw [length_nil, nil_append, nil_append] at hindex
  rw [length_nil] at hok
  obtain ⟨houtcome, hafter⟩ := replayLoop_dataRecords (master log).filesize 0 hdata hread
    (Nat.le_refl _)
  have hempty : (DiskOp.truncate indexHeaderSize).apply index = indexFile [] := File.truncate_zero
  have hsize' : ¬ 2 ^ 63 ≤ (master log).filesize := Nat.not_le.2 hsize
  have hlog : processLog crc32c hash256 log checkhash true =
      ((replayLoop log true (master log).filesize sectorSize 0 []).cons
        (.index (.truncate indexHeaderSize))).cons (.data (.truncate (master log).filesize)) := by
    simp only [processLog, hfinal.master, hfinal.hash, hsize', Bool.true_eq_false, and_false,
      if_false, if_true]
  rw [hlog, outcome_cons, outcome_cons, indexAfter_cons_data, indexAfter_cons_index, hafter, hempty]
  exact ⟨houtcome.trans hok, hindex⟩

theorem pread_add (f : File) (m n off : ℕ) (h : off + m ≤ f.size) :
    f.pread (m + n) off = f.pread m off ++ f.pread n (off + m) := by
  have hcut : min (m + n) (f.size - off) = min m (f.size - off) + min n (f.size - (off + m)) := by
    omega
  have hm : min m (f.size - off) = m := by omega
  rw [File.pread, File.pread, File.pread, hcut, hm, range_add, map_append, map_map]
  congr 2
  funext j
  simp only [Function.comp_apply, Nat.add_assoc]

theorem pread_of_le (f : File) {n : ℕ} (off : ℕ) (h : f.size ≤ n) :
    f.pread n off = f.pread f.size off := by
  have hcut : min n (f.size - off) = min f.size (f.size - off) := by omega
  rw [File.pread, File.pread, hcut]

theorem shiftRight_of_lt {x limit : ℕ} (hlimit : IsCryptoSize limit) (h : x ≤ limit) :
    x >>> 48 = 0 := Nat.shiftRight_eq_zero _ _ (h.trans_lt hlimit.lt)

/-- While every batch starts below `2 ^ 32`, the index gets the intervals. -/
theorem finalizeAndReplay_of_fits (of : OpenLog) {limit : ℕ} (hlimit : IsCryptoSize limit)
    (ht : ∀ a ∈ t.toList, a.stop ≤ limit) (hfilesize : IsCryptoSize filesize)
    (hcrc : ∀ bs, crc32c bs < 2 ^ 32) (hhash : ∀ bs, (hash256 bs).length = 32)
    (hp : padding.length = 4)
    (hlast : of.logoffset + 4096 * ((t.toList.length - 1) / logsSize) < 2 ^ 32) :
    finalizeAndReplay junk crc32c hash256 checkhash padding filesize files t of.toLogState =
      some (indexFile (t.toList.map indexRecord)) := by
  have hlen : ∀ a ∈ t.toList, (a.stop - a.start) >>> 48 = 0 ∧ a.start < 2 ^ 64 := by
    intro a ha
    have hstop := ht a ha
    have hlt := t.canonical_toList.lt a ha
    have hbound := hlimit.lt
    exact ⟨shiftRight_of_lt hlimit (by omega), by omega⟩
  obtain ⟨of', hloop, hlog, hhashed⟩ := writeLoop_fits junk [] of.size_eq of.lt
    (Nat.zero_le _) (forall_mem_nil _) (fun a ha => (hlen a ha).1)
    (by rw [length_nil, Nat.zero_add]; exact hlast)
  rw [flatten_nil, nil_append] at hlog hhashed
  have hsector := of.records.le
  have hends : EndsWith of'.log of.log.size (intHeaders junk t.toList) := by
    rw [hlog]
    exact endsWith_pwrite _ _
  have hsize : of'.log.size = of.log.size + 16 * t.toList.length := by
    rw [hends.size_eq, length_intHeaders]
  have hsmall : of'.log.size < 2 ^ 63 := by
    have hlogsize : logsSize = 256 := rfl
    rw [hlogsize] at hlast
    rw [hsize, of.size_eq]
    omega
  -- what was hashed is the log after its first sector
  have hbytes : of'.hashed = of'.log.pread of'.log.size sectorSize := by
    have hpart : of.log.pread of.log.size sectorSize =
        of.log.pread (of.log.size - sectorSize) sectorSize := by
      have hcut : min of.log.size (of.log.size - sectorSize) =
          min (of.log.size - sectorSize) (of.log.size - sectorSize) := by omega
      rw [File.pread, File.pread, hcut]
    have hfront : of'.log.pread (of.log.size - sectorSize) sectorSize =
        of.log.pread (of.log.size - sectorSize) sectorSize := by
      rw [hlog]
      exact File.pread_pwrite_of_ge (by omega) (by omega)
    have hback := hends.pread_eq of'.log.size 0
    rw [Nat.add_zero, drop_zero, take_of_length_le (by rw [length_intHeaders]; omega)]
      at hback
    have hsplit := pread_add of'.log (of.log.size - sectorSize) of'.log.size sectorSize (by omega)
    rw [Nat.add_sub_cancel' hsector, hfront, hback] at hsplit
    rw [hhashed, of.hashed_eq, hpart, ← hsplit, pread_of_le _ _ (Nat.le_add_left _ _)]
  have hassert : of'.log.size = of'.hashed.length + sectorSize := by
    rw [hbytes, File.length_pread]
    omega
  obtain ⟨mr, -, -, -, hmrsize, -, -, hmrlen, heq, hsz, -, hmaster⟩ :=
    master_markLogFinalized (hash256 of'.hashed) (hsector.trans (by omega)) hsmall
      (hfilesize.lt.trans (by decide)) hcrc (hhash _) hp
  have hfinal : IsFinalized crc32c hash256
      (markLogFinalized crc32c of'.log filesize (hash256 of'.hashed) padding) := by
    rw [hbytes]
    exact markLogFinalized_isFinalized (hsector.trans (by omega)) hsmall
      (hfilesize.lt.trans (by decide)) hcrc (hhash _) hp
  have hmrfit : (mr.toBytes padding).length ≤ sectorSize := by
    rw [hmrlen]
    decide
  rw [heq] at hfinal
  have hread : ∀ n k, sectorSize ≤ k → k + n ≤ of.log.size →
      (of'.log.pwrite (mr.toBytes padding) 0).pread n k = of.log.pread n k := by
    intro n k hk hn
    rw [File.pread_pwrite_of_le (by omega) (by omega), hlog,
      File.pread_pwrite_of_ge (by omega) (by omega)]
  obtain ⟨hok, hindex⟩ := processLog_intHeaders checkhash of.records hread
    (hends.pwrite (hmrfit.trans hsector)) hlen hfinal
    (by rw [hmaster, hmrsize]; exact hfilesize.lt.trans (by decide)) files.index
  rw [finalizeAndReplay, writeIntervalTreeToLog, hloop, Option.bind_some,
    if_neg (not_not.2 hassert), heq]
  dsimp only
  rw [if_pos hok, index_applyAll, hindex]

/-- Otherwise the assertion on the size of the log fails. -/
theorem finalizeAndReplay_of_wraps (of : OpenLog)
    (hlast : 2 ^ 32 ≤ of.logoffset + 4096 * ((t.toList.length - 1) / logsSize)) :
    finalizeAndReplay junk crc32c hash256 checkhash padding filesize files t of.toLogState =
      none := by
  have hsector := of.records.le
  have hlt := of.lt
  have hhashed : of.hashed.length + sectorSize = of.logoffset := by
    rw [of.hashed_eq, File.length_pread, of.size_eq]
    rw [of.size_eq] at hsector
    omega
  have hpos : 0 < t.toList.length := by
    rcases Nat.eq_zero_or_pos t.toList.length with h | h
    · rw [h, Nat.zero_sub, Nat.zero_div] at hlast
      omega
    · exact h
  rw [finalizeAndReplay]
  rcases hloop : writeIntervalTreeToLog junk t of.toLogState with _ | of'
  · rfl
  · have hshort := writeLoop_wraps junk [] (by rw [hhashed, Nat.mod_eq_of_lt hlt])
      (by rw [hhashed, of.size_eq]) (Nat.zero_le _) (forall_mem_nil _)
      (by rw [length_nil, Nat.zero_add]; exact hpos)
      (by rw [length_nil, Nat.zero_add, hhashed]; exact hlast) hloop
    exact if_pos hshort.ne

/-- The intervals of the index after finalizing a log and replaying it are those written, if and
    only if every batch of records starts below `2 ^ 32`. -/
theorem finalizeAndReplay_iff (of : OpenLog) (t : IntervalTree) {limit : ℕ}
    (hlimit : IsCryptoSize limit) (ht : ∀ a ∈ t.toList, a.stop ≤ limit)
    (hfilesize : IsCryptoSize filesize) (hcrc : ∀ bs, crc32c bs < 2 ^ 32)
    (hhash : ∀ bs, (hash256 bs).length = 32) (hp : padding.length = 4) :
    (∃ index, finalizeAndReplay junk crc32c hash256 checkhash padding filesize files t
        of.toLogState = some index ∧ Denotes index t) ↔
      of.logoffset + 4096 * ((t.toList.length - 1) / logsSize) < 2 ^ 32 := by
  have h64 : ∀ a ∈ t.toList, a.stop < 2 ^ 64 := fun a ha =>
    (ht a ha).trans_lt (hlimit.lt.trans (by decide))
  constructor
  · rintro ⟨index, hindex, -⟩
    by_contra hlast
    rw [finalizeAndReplay_of_wraps of (Nat.le_of_not_lt hlast)] at hindex
    cases hindex
  · intro hlast
    exact ⟨_, finalizeAndReplay_of_fits of hlimit ht hfilesize hcrc hhash hp hlast,
      denotes_indexFile t h64⟩

end Finalize

/-! ## Two files -/

/-- The log of a file after `psync_fs_crypto_init_log`. -/
def freshLog : OpenLog where
  log := File.empty.truncate sectorSize
  logoffset := sectorSize
  hashed := []
  size_eq := rfl
  lt := by decide
  hashed_eq := rfl
  records := (DataRecords.done : DataRecords (File.empty.truncate sectorSize) sectorSize)

/-- A tree with given intervals, which go to the right. -/
def spine : List Interval → Tree Interval
  | [] => .nil
  | itr :: is => .node .nil itr (spine is) (is.length + 1)

theorem toList_spine (is : List Interval) : (spine is).toList = is := by
  induction is with
  | nil => rfl
  | cons itr is ih =>
    rw [spine, Tree.toList, ih]
    rfl

/-- The first sector of each pair, `n` of them. -/
def everySecondSector (n : ℕ) : List Interval :=
  (List.range n).map fun i => ⟨2 * sectorSize * i, 2 * sectorSize * i + sectorSize⟩

theorem canonical_everySecondSector (n : ℕ) : Canonical (everySecondSector n) where
  lt a ha := by
    obtain ⟨i, -, rfl⟩ := mem_map.1 ha
    exact Nat.lt_add_of_pos_right (by decide)
  sep := by
    refine pairwise_map.2 (pairwise_lt_range.imp fun {i j} hij => ?_)
    simp only [sectorSize]
    omega

/-- Writes to every second sector. -/
def scattered (n : ℕ) : IntervalTree where
  tree := spine (everySecondSector n)
  canonical := by
    rw [toList_spine]
    exact canonical_everySecondSector n

theorem toList_scattered (n : ℕ) : (scattered n).toList = everySecondSector n := toList_spine _

theorem stop_le_of_mem_scattered {n : ℕ} {a : Interval} (ha : a ∈ (scattered n).toList) :
    a.stop ≤ 2 * sectorSize * n := by
  rw [toList_scattered] at ha
  obtain ⟨i, hi, rfl⟩ := mem_map.1 ha
  have hi := mem_range.1 hi
  simp only [sectorSize]
  omega

/-- A file is not larger than its encrypted form. -/
theorem exists_isCryptoSize {n : ℕ} (hpos : 0 < n) (hn : sectorCount n ≤ maxSectorid) :
    ∃ c, IsCryptoSize c ∧ n ≤ c := by
  obtain ⟨L, hL, height, hlo, hhi, -⟩ := exists_layout n hpos hn
  have hplain := offsetsByPlainsize_eq height hL hlo hhi hn
  refine ⟨layoutSize n (sectorCount n) L, ⟨n, hn, ?_⟩, ?_⟩
  · rw [cryptoSize, hplain]
    simp [layout, layoutSize]
  · have htotal := HashTree.total_mono (k := hashTreeSectors) (d := authSize) (n := n)
      (N := sectorCount n) (Nat.zero_le L)
    exact htotal.trans (Nat.le_add_right _ _)

/-- Writes to every second sector of a file of 2 terabytes are within the limits, but the offset of
    the last batch of their records does not fit, and the log is not finalized. -/
theorem finalize_scattered :
    (∃ limit, IsCryptoSize limit ∧ ∀ a ∈ (scattered (2 ^ 28)).toList, a.stop ≤ limit) ∧
      ¬ ∃ index, finalizeAndReplay (fun _ => 0) (Crc.crc Crc32c.poly 0) (FastHash.digest .sw) false
        [0, 0, 0, 0] 0 ⟨.empty, .empty⟩ (scattered (2 ^ 28)) freshLog.toLogState = some index ∧
          Denotes index (scattered (2 ^ 28)) := by
  constructor
  · obtain ⟨c, hc, hle⟩ := exists_isCryptoSize (n := 2 ^ 41) (by decide) (by decide)
    exact ⟨c, hc, fun a ha => (stop_le_of_mem_scattered ha).trans hle⟩
  · rintro ⟨index, hindex, -⟩
    have hlen : (scattered (2 ^ 28)).toList.length = 2 ^ 28 := by
      rw [toList_scattered, everySecondSector, length_map, length_range]
    have hlast : 2 ^ 32 ≤ freshLog.logoffset +
        4096 * (((scattered (2 ^ 28)).toList.length - 1) / logsSize) := by
      rw [hlen]
      decide
    rw [finalizeAndReplay_of_wraps freshLog hlast] at hindex
    cases hindex

/-- Three sectors, with the checksum and the hash of the source. -/
theorem finalizeAndReplay_three_sectors : ∃ filesize, IsCryptoSize filesize ∧
      ∃ index, finalizeAndReplay (fun _ => 0) (Crc.crc Crc32c.poly 0) (FastHash.digest .sw) true
        [0, 0, 0, 0] filesize ⟨.empty, .empty⟩ (scattered 3) freshLog.toLogState = some index ∧
          Denotes index (scattered 3) := by
  obtain ⟨c, hc, hle⟩ := exists_isCryptoSize (n := 2 * sectorSize * 3) (by decide) (by decide)
  exact ⟨c, hc, (finalizeAndReplay_iff freshLog (scattered 3) hc
    (fun a ha => (stop_le_of_mem_scattered ha).trans hle) hc
    (fun bs => Crc32c.crc_lt (by decide)) (FastHash.length_digest .sw) rfl).2 (by decide)⟩

end Pclsync.Crypto
