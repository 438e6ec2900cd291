import Pclsync.Bytes
import Pclsync.DiskOps
import Pclsync.Crypto.Layout

/-!
# Replay of the log of an encrypted file

The changes of an encrypted file are written to a log, which is finalized by its master record and
then replayed onto the data file and, for a file that modifies an uploaded one, its index file. A
log found at startup is replayed again from its beginning.

* `processLog`: the writes and truncations of a replay, in order, and how it ends.
* `markLogFinalized`: the master record written at the end of a log.
* `replay_after_crashes`: a replay gives the same files after any number of interrupted ones, and a
  log that is not finalized, or does not have its hash, changes no file.

The checksum of the master record and the hash of the log are the parameters `crc32c` and
`hash256`.
-/

namespace Pclsync.Crypto

open List

/-! ## Records of the log -/

/-- `psync_crypto_log_header`; the last three fields are those of its unions. -/
structure LogHeader where
  type : ℕ
  u8 : ℕ
  u16 : ℕ
  u32 : ℕ
  u64 : ℕ

namespace LogHeader

def size : ℕ := 16

def ofBytes (bs : List UInt8) : LogHeader where
  type := ofLE (bs.take 1)
  u8 := ofLE ((bs.drop 1).take 1)
  u16 := ofLE ((bs.drop 2).take 2)
  u32 := ofLE ((bs.drop 4).take 4)
  u64 := ofLE ((bs.drop 8).take 8)

def length (h : LogHeader) : ℕ := h.u16
def offset (h : LogHeader) : ℕ := h.u64

/-- The length of an interval, of 48 bits. -/
def longlength (h : LogHeader) : ℕ := h.u32 + h.u16 * 2 ^ 32

end LogHeader

def logData : ℕ := 1
def logInt : ℕ := 2
def logStatusFinalized : ℕ := 1
def logHashidFh256 : ℕ := 0

/-- `psync_crypto_master_record`. -/
structure MasterRecord where
  status : ℕ
  hashid : ℕ
  logsize : ℕ
  filesize : ℕ
  hash : List UInt8
  crc : ℕ

namespace MasterRecord

/-- The size of the record, with the padding after its last field. -/
def size : ℕ := 64

/-- The offset of the field `crc`, which covers the bytes before it. -/
def crcOffset : ℕ := 56

def ofBytes (bs : List UInt8) : MasterRecord where
  status := ofLE (bs.take 4)
  hashid := ofLE ((bs.drop 4).take 4)
  logsize := ofLE ((bs.drop 8).take 8)
  filesize := ofLE ((bs.drop 16).take 8)
  hash := (bs.drop 24).take 32
  crc := ofLE ((bs.drop 56).take 4)

/-- The bytes of a record, the last of them those of the padding. -/
def toBytes (mr : MasterRecord) (padding : List UInt8) : List UInt8 :=
  toLE 4 mr.status ++ (toLE 4 mr.hashid ++ (toLE 8 mr.logsize ++ (toLE 8 mr.filesize ++
    (mr.hash ++ (toLE 4 mr.crc ++ padding)))))

end MasterRecord

/-- `psync_fs_index_record`. -/
structure IndexRecord where
  offset : ℕ
  length : ℕ

def IndexRecord.size : ℕ := 16

def IndexRecord.toBytes (r : IndexRecord) : List UInt8 := toLE 8 r.offset ++ toLE 8 r.length

/-- The size of `psync_fs_index_header`, which has no field. -/
def indexHeaderSize : ℕ := 0

/-! ## Steps of a replay -/

/-- The files to which a log is replayed. -/
@[ext]
structure Files where
  data : File
  index : File

/-- A write or a truncation of one of the files. -/
inductive Step
  | data (op : DiskOp)
  | index (op : DiskOp)

/-- How a replay ends: with `0`, with `-1`, or in a failed assertion. -/
inductive Outcome
  | ok
  | error
  | abort
  deriving DecidableEq

/-- The steps that a replay makes when it is not interrupted, and its end. -/
structure Replay where
  steps : List Step
  outcome : Outcome

namespace Step

def apply : Step → Files → Files
  | data op, f => { f with data := op.apply f.data }
  | index op, f => { f with index := op.apply f.index }

def applyAll : List Step → Files → Files
  | [], f => f
  | s :: steps, f => applyAll steps (s.apply f)

def dataOp : Step → Option DiskOp
  | data op => some op
  | index _ => none

def indexOp : Step → Option DiskOp
  | data _ => none
  | index op => some op

end Step

def Replay.cons (s : Step) (r : Replay) : Replay := { r with steps := s :: r.steps }

/-! ## The replay -/

section Replay

variable (crc32c : List UInt8 → ℕ) (hash256 : List UInt8 → List UInt8)
variable (log : File) (checkhash hasIndex : Bool)

/-- The write of the first `records` of the buffer to the index file. -/
def writeRecords (records : List IndexRecord) (ioff : ℕ) : Step :=
  .index (.write (records.flatMap IndexRecord.toBytes) (IndexRecord.size * ioff + indexHeaderSize))

/-- The loop of `processLog` over the records from `off` on: `records` are those in the buffer,
    `ioff` the number of those written. The system refuses to write at offsets from `2 ^ 63` on. -/
def replayLoop (size off ioff : ℕ) (records : List IndexRecord) : Replay :=
  if hend : (log.pread LogHeader.size off).length = 0 then
    let last : Replay := ⟨[.data (.truncate size)], .ok⟩
    if records = [] then last else last.cons (writeRecords records ioff)
  else if (log.pread LogHeader.size off).length ≠ LogHeader.size then ⟨[], .error⟩
  else
    let hdr := LogHeader.ofBytes (log.pread LogHeader.size off)
    let off' := off + LogHeader.size
    if hdr.type = logData then
      if sectorSize < hdr.length ∨ records ≠ [] then ⟨[], .abort⟩
      -- A record past the end of a file that was truncated after it was written.
      else if size < (hdr.offset + hdr.length) % 2 ^ 64 then
        replayLoop size (off' + hdr.length) ioff records
      else
        let buff := log.pread hdr.length off'
        if buff.length ≠ hdr.length then ⟨[], .error⟩
        else if 2 ^ 63 ≤ hdr.offset then ⟨[], .error⟩
        else (replayLoop size (off' + hdr.length) ioff records).cons
          (.data (.write buff hdr.offset))
    else if hdr.type = logInt then
      if hasIndex then
        let records := records ++ [⟨hdr.offset, hdr.longlength⟩]
        if sectorSize / IndexRecord.size ≤ records.length then
          (replayLoop size off' (ioff + records.length) []).cons (writeRecords records ioff)
        else replayLoop size off' ioff records
      else ⟨[], .abort⟩
    else ⟨[], .error⟩
termination_by log.size - off
decreasing_by
  all_goals
    have := File.lt_size_of_pread hend
    simp only [LogHeader.size] at *
    omega

/-- `psync_fs_crypto_check_log_hash`: the hash covers all after the first sector. -/
def checkLogHash (mr : MasterRecord) : Bool :=
  mr.hashid = logHashidFh256 ∧ hash256 (log.pread log.size sectorSize) = mr.hash

/-- The checks of the master record in `processLog`. -/
def checkMaster (mr : MasterRecord) (bs : List UInt8) : Bool :=
  bs.length = MasterRecord.size ∧ mr.status = logStatusFinalized ∧ mr.logsize = log.size ∧
    mr.crc = crc32c (bs.take MasterRecord.crcOffset)

/-- The master record of a log. -/
def master : MasterRecord := .ofBytes (log.pread MasterRecord.size 0)

/-- `psync_fs_crypto_process_log`, with or without an index file. Sizes are not sought to from
    `2 ^ 63` on. -/
def processLog : Replay :=
  let mr := master log
  if checkMaster crc32c log mr (log.pread MasterRecord.size 0) = false then ⟨[], .error⟩
  else if checkhash ∧ checkLogHash hash256 log mr = false then ⟨[], .error⟩
  else if 2 ^ 63 ≤ mr.filesize then ⟨[], .error⟩
  else
    let r := replayLoop log hasIndex mr.filesize sectorSize 0 []
    (if hasIndex then r.cons (.index (.truncate indexHeaderSize)) else r).cons
      (.data (.truncate mr.filesize))

/-- `psync_fs_crypto_mark_log_finalized`: `loghash` is the hash of what was written to the log,
    `padding` the bytes of the record that are not set. -/
def markLogFinalized (filesize : ℕ) (loghash padding : List UInt8) : File :=
  let mr : MasterRecord :=
    { status := logStatusFinalized, hashid := logHashidFh256, logsize := log.size,
      filesize := filesize, hash := loghash, crc := 0 }
  let crc := crc32c ((mr.toBytes padding).take MasterRecord.crcOffset)
  log.pwrite (({ mr with crc := crc } : MasterRecord).toBytes padding) 0

end Replay

/-! ## Replays of one file and of two -/

namespace Step

variable {s : Step} {steps done : List Step} {f : Files}

theorem applyAll_eq (steps : List Step) (f : Files) : applyAll steps f =
    ⟨DiskOp.applyAll (steps.filterMap dataOp) f.data,
      DiskOp.applyAll (steps.filterMap indexOp) f.index⟩ := by
  induction steps generalizing f with
  | nil => rfl
  | cons s steps ih => cases s <;> exact ih _

theorem mem_dataOps {op : DiskOp} : op ∈ steps.filterMap dataOp ↔ data op ∈ steps := by
  rw [mem_filterMap]
  constructor
  · rintro ⟨s, hs, h⟩
    cases s <;> cases h
    exact hs
  · exact fun h => ⟨_, h, rfl⟩

theorem mem_indexOps {op : DiskOp} : op ∈ steps.filterMap indexOp ↔ index op ∈ steps := by
  rw [mem_filterMap]
  constructor
  · rintro ⟨s, hs, h⟩
    cases s <;> cases h
    exact hs
  · exact fun h => ⟨_, h, rfl⟩

/-- A replay gives the same files after any number of its steps were made, if it can be repeated
    on each of the files. -/
theorem replay_after (hdata : DiskOp.Restarts (steps.filterMap dataOp))
    (hindex : DiskOp.Restarts (steps.filterMap indexOp)) (hdone : ∀ s ∈ done, s ∈ steps)
    (f : Files) : applyAll steps (applyAll done f) = applyAll steps f := by
  simp only [applyAll_eq]
  refine Files.ext (DiskOp.replay_after hdata (fun op hop => ?_) _)
    (DiskOp.replay_after hindex (fun op hop => ?_) _)
  · exact mem_dataOps.2 (hdone _ (mem_dataOps.1 hop))
  · exact mem_indexOps.2 (hdone _ (mem_indexOps.1 hop))

end Step

/-! ## What a replay does -/

section Steps

variable {crc32c : List UInt8 → ℕ} {hash256 : List UInt8 → List UInt8}
variable {log : File} {checkhash hasIndex : Bool} {s : Step}

/-- The steps after the first truncations: the data file is only truncated to its size, the index
    file, when there is one, is not truncated. -/
def LaterStep (size : ℕ) (hasIndex : Bool) : Step → Prop
  | .data op => op.truncatesTo size
  | .index op => hasIndex = true ∧ op.truncatesTo indexHeaderSize

@[simp] theorem mem_steps_cons {t : Step} {r : Replay} :
    s ∈ (r.cons t).steps ↔ s = t ∨ s ∈ r.steps := mem_cons

theorem laterStep_writeRecords {size ioff : ℕ} {records : List IndexRecord}
    (h : hasIndex = true) : LaterStep size hasIndex (writeRecords records ioff) := ⟨h, trivial⟩

theorem laterStep_of_mem_replayLoop {size off ioff : ℕ} {records : List IndexRecord}
    (hrec : records ≠ [] → hasIndex = true)
    (h : s ∈ (replayLoop log hasIndex size off ioff records).steps) :
    LaterStep size hasIndex s := by
  -- The induction is on what is left of the log.
  induction hm : log.size - off using Nat.strong_induction_on generalizing off ioff records with
  | _ m ih =>
    have hlt : ¬ (log.pread LogHeader.size off).length = 0 → ∀ n,
        log.size - (off + LogHeader.size + n) < m := fun h0 n => by
      have := File.lt_size_of_pread h0
      unfold LogHeader.size
      omega
    rw [replayLoop] at h
    dsimp only at h
    split_ifs at h with h0 h1 h2 h3 h4 h5 h6 h7 h8 h9 h10
    -- At the end of the log.
    · obtain rfl := mem_singleton.1 h
      exact Eq.refl size
    · rcases mem_steps_cons.1 h with rfl | h
      · exact laterStep_writeRecords (hrec h1)
      · obtain rfl := mem_singleton.1 h
        exact Eq.refl size
    · exact absurd h not_mem_nil
    -- A record with data.
    · exact absurd h not_mem_nil
    · exact ih _ (hlt h0 _) hrec h rfl
    · exact absurd h not_mem_nil
    · exact absurd h not_mem_nil
    · rcases mem_steps_cons.1 h with rfl | h
      · exact trivial
      · exact ih _ (hlt h0 _) hrec h rfl
    -- A record with an interval.
    · rcases mem_steps_cons.1 h with rfl | h
      · exact laterStep_writeRecords h9
      · exact ih _ (hlt h0 0) (fun hne => absurd rfl hne) h rfl
    · exact ih _ (hlt h0 0) (fun _ => h9) h rfl
    · exact absurd h not_mem_nil
    · exact absurd h not_mem_nil

variable (crc32c hash256 log checkhash hasIndex) in
/-- A replay does nothing, or starts by truncating both files. -/
theorem processLog_steps : (processLog crc32c hash256 log checkhash hasIndex).steps = [] ∨
    ∃ n rest, (∀ s ∈ rest, LaterStep n hasIndex s) ∧
      (processLog crc32c hash256 log checkhash hasIndex).steps = .data (.truncate n) ::
        (if hasIndex then .index (.truncate indexHeaderSize) :: rest else rest) := by
  unfold processLog
  dsimp only
  split_ifs with h1 h2 h3 h4
  · exact .inl rfl
  · exact .inl rfl
  · exact .inl rfl
  · exact .inr ⟨_, _, fun s hs => laterStep_of_mem_replayLoop (absurd rfl) hs, rfl⟩
  · exact .inr ⟨_, _, fun s hs => laterStep_of_mem_replayLoop (absurd rfl) hs, rfl⟩

variable (crc32c hash256 log checkhash hasIndex) in
/-- The replay can be repeated on each of the files. -/
theorem processLog_restarts :
    DiskOp.Restarts ((processLog crc32c hash256 log checkhash hasIndex).steps.filterMap
      Step.dataOp) ∧
    DiskOp.Restarts ((processLog crc32c hash256 log checkhash hasIndex).steps.filterMap
      Step.indexOp) := by
  rcases processLog_steps crc32c hash256 log checkhash hasIndex with h | ⟨n, rest, hrest, h⟩
  · rw [h]
    exact ⟨.inl rfl, .inl rfl⟩
  have hdata : ∀ op ∈ rest.filterMap Step.dataOp, op.truncatesTo n := fun op hop =>
    hrest _ (Step.mem_dataOps.1 hop)
  have hindex : ∀ op ∈ rest.filterMap Step.indexOp,
      hasIndex = true ∧ op.truncatesTo indexHeaderSize := fun op hop =>
    hrest _ (Step.mem_indexOps.1 hop)
  rw [h]
  cases hasIndex with
  | true =>
    exact ⟨.inr ⟨n, _, rfl, hdata⟩, .inr ⟨indexHeaderSize, _, rfl, fun op hop => (hindex op hop).2⟩⟩
  | false =>
    refine ⟨.inr ⟨n, _, rfl, hdata⟩, .inl ?_⟩
    -- Without an index file no step is made on it.
    exact eq_nil_iff_forall_not_mem.2 fun op hop => absurd (hindex op hop).1 (by decide)

/-- Whether the hash of a log is checked makes no difference when it is right. -/
theorem processLog_of_checkLogHash (h : checkLogHash hash256 log (master log) = true) :
    processLog crc32c hash256 log checkhash hasIndex =
      processLog crc32c hash256 log false hasIndex := by
  simp [processLog, h]

end Steps

/-! ## Finalized logs -/

theorem MasterRecord.ofBytes_toBytes {mr : MasterRecord} (padding : List UInt8)
    (h₁ : mr.status < 2 ^ 32) (h₂ : mr.hashid < 2 ^ 32) (h₃ : mr.logsize < 2 ^ 64)
    (h₄ : mr.filesize < 2 ^ 64) (h₅ : mr.hash.length = 32) (h₆ : mr.crc < 2 ^ 32) :
    ofBytes (mr.toBytes padding) = mr := by
  have h32 : ∀ {x : ℕ}, x < 2 ^ 32 → ofLE (toLE 4 x) = x := fun h =>
    ofLE_toLE_of_lt (h.trans_eq rfl)
  have h64 : ∀ {x : ℕ}, x < 2 ^ 64 → ofLE (toLE 8 x) = x := fun h =>
    ofLE_toLE_of_lt (h.trans_eq rfl)
  have hfields : ofBytes (mr.toBytes padding) = ⟨ofLE (toLE 4 mr.status), ofLE (toLE 4 mr.hashid),
      ofLE (toLE 8 mr.logsize), ofLE (toLE 8 mr.filesize), mr.hash, ofLE (toLE 4 mr.crc)⟩ := by
    simp [ofBytes, toBytes, drop_append, drop_eq_nil_of_le, h₅]
  rw [hfields, h32 h₁, h32 h₂, h64 h₃, h64 h₄, h32 h₆]

/-- A log is finalized when its master record passes all checks. -/
structure IsFinalized (crc32c : List UInt8 → ℕ) (hash256 : List UInt8 → List UInt8) (log : File) :
    Prop where
  master : checkMaster crc32c log (master log) (log.pread MasterRecord.size 0) = true
  hash : checkLogHash hash256 log (Crypto.master log) = true

theorem length_toBytes {mr : MasterRecord} {padding : List UInt8} (hh : mr.hash.length = 32)
    (hp : padding.length = 4) : (mr.toBytes padding).length = MasterRecord.size := by
  simp [MasterRecord.toBytes, MasterRecord.size, hh, hp]

section Finalized

variable {crc32c : List UInt8 → ℕ} {hash256 : List UInt8 → List UInt8} {log : File}
  {filesize : ℕ} {padding : List UInt8}

/-- The master record that `markLogFinalized` writes can be read again, and nothing else changes. -/
theorem master_markLogFinalized (loghash : List UInt8) (hlog : sectorSize ≤ log.size)
    (hlog' : log.size < 2 ^ 63) (hsize : filesize < 2 ^ 64) (hcrc : ∀ bs, crc32c bs < 2 ^ 32)
    (hhash : loghash.length = 32) (hp : padding.length = 4) :
    ∃ mr : MasterRecord, mr.status = logStatusFinalized ∧ mr.hashid = logHashidFh256 ∧
      mr.logsize = log.size ∧ mr.filesize = filesize ∧ mr.hash = loghash ∧
      mr.crc = crc32c ((mr.toBytes padding).take MasterRecord.crcOffset) ∧
      (mr.toBytes padding).length = MasterRecord.size ∧
      markLogFinalized crc32c log filesize loghash padding = log.pwrite (mr.toBytes padding) 0 ∧
      (log.pwrite (mr.toBytes padding) 0).size = log.size ∧
      (log.pwrite (mr.toBytes padding) 0).pread MasterRecord.size 0 = mr.toBytes padding ∧
      master (log.pwrite (mr.toBytes padding) 0) = mr := by
  -- The record with and without its checksum.
  set mr₀ : MasterRecord := ⟨logStatusFinalized, logHashidFh256, log.size, filesize, loghash, 0⟩
    with hmr0
  set mr : MasterRecord :=
    { mr₀ with crc := crc32c ((mr₀.toBytes padding).take MasterRecord.crcOffset) } with hmr
  have hlen : (mr.toBytes padding).length = MasterRecord.size := length_toBytes hhash hp
  have hfit : 0 + (mr.toBytes padding).length ≤ log.size := by
    rw [hlen]
    exact le_trans (by decide) hlog
  have hread : (log.pwrite (mr.toBytes padding) 0).pread MasterRecord.size 0 =
      mr.toBytes padding := by
    rw [← hlen]
    exact File.pread_pwrite
  have htake : (mr.toBytes padding).take MasterRecord.crcOffset =
      (mr₀.toBytes padding).take MasterRecord.crcOffset := by
    simp [MasterRecord.toBytes, MasterRecord.crcOffset, hmr, hmr0, take_append, hhash]
  refine ⟨mr, rfl, rfl, rfl, rfl, rfl, by rw [htake], hlen, rfl, ?_, hread, ?_⟩
  · rw [File.size_pwrite (ne_nil_of_length_pos (by rw [hlen]; decide)), max_eq_left hfit]
  · rw [master, hread]
    have hstatus : mr.status < 2 ^ 32 := show logStatusFinalized < _ by decide
    have hhashid : mr.hashid < 2 ^ 32 := show logHashidFh256 < _ by decide
    exact MasterRecord.ofBytes_toBytes padding hstatus hhashid (hlog'.trans (by decide)) hsize
      hhash (hcrc _)

/-- What `markLogFinalized` writes is a finalized log, when the hash kept while the log was written
    is that of its content. -/
theorem markLogFinalized_isFinalized (hlog : sectorSize ≤ log.size) (hlog' : log.size < 2 ^ 63)
    (hsize : filesize < 2 ^ 64) (hcrc : ∀ bs, crc32c bs < 2 ^ 32)
    (hhash : (hash256 (log.pread log.size sectorSize)).length = 32) (hp : padding.length = 4) :
    IsFinalized crc32c hash256 (markLogFinalized crc32c log filesize
      (hash256 (log.pread log.size sectorSize)) padding) := by
  obtain ⟨mr, hstatus, hhashid, hlogsize, -, hmrhash, hmrcrc, hlen, heq, hsz, hread, hmaster⟩ :=
    master_markLogFinalized _ hlog hlog' hsize hcrc hhash hp
  have hfit : 0 + (mr.toBytes padding).length ≤ log.size := by
    rw [hlen]
    exact le_trans (by decide) hlog
  rw [heq]
  refine ⟨?_, ?_⟩
  · rw [hmaster, hread, checkMaster, decide_eq_true_iff]
    exact ⟨hlen, hstatus, hlogsize.trans hsz.symm, hmrcrc⟩
  · rw [hmaster, checkLogHash, decide_eq_true_iff, hsz,
      File.pread_pwrite_of_le (by rw [hlen]; decide) hfit]
    exact ⟨hhashid, hmrhash.symm⟩

/-! ## Crashes -/

variable {f : Files} {hasIndex checkhash : Bool}

/-- Steps that an interrupted replay of the log may leave on the disk: any of those it made, in any
    order. It made the same check of the hash as the replay after it, or the hash is right. -/
def Interrupted (crc32c : List UInt8 → ℕ) (hash256 : List UInt8 → List UInt8) (log : File)
    (checkhash hasIndex : Bool) (done : List Step) : Prop :=
  ∃ checkhash', (checkhash' = checkhash ∨ checkLogHash hash256 log (master log) = true) ∧
    ∀ s ∈ done, s ∈ (processLog crc32c hash256 log checkhash' hasIndex).steps

theorem Interrupted.mem {done : List Step}
    (h : Interrupted crc32c hash256 log checkhash hasIndex done) :
    ∀ s ∈ done, s ∈ (processLog crc32c hash256 log checkhash hasIndex).steps := by
  obtain ⟨checkhash', rfl | hhash, hdone⟩ := h
  · exact hdone
  · rwa [processLog_of_checkLogHash hhash, ← processLog_of_checkLogHash hhash] at hdone

variable (crc32c hash256 log f hasIndex checkhash)

/-- Running the replay again after interrupted ones gives the files of one uninterrupted replay; a
    log that is not finalized, or whose hash is checked and wrong, leaves the files as they are. -/
theorem replay_after_crashes : (∀ crashes : List (List Step),
      (∀ done ∈ crashes, Interrupted crc32c hash256 log checkhash hasIndex done) →
        Step.applyAll (processLog crc32c hash256 log checkhash hasIndex).steps
            (crashes.foldl (fun f done => Step.applyAll done f) f) =
          Step.applyAll (processLog crc32c hash256 log checkhash hasIndex).steps f) ∧
    ((master log).status ≠ logStatusFinalized ∨
        checkhash = true ∧ checkLogHash hash256 log (master log) = false →
      Step.applyAll (processLog crc32c hash256 log checkhash hasIndex).steps f = f ∧
        (processLog crc32c hash256 log checkhash hasIndex).outcome = .error) := by
  constructor
  · intro crashes hcrashes
    have hr := processLog_restarts crc32c hash256 log checkhash hasIndex
    induction crashes generalizing f with
    | nil => rfl
    | cons done crashes ih =>
      rw [foldl_cons, ih _ fun d hd => hcrashes d (mem_cons_of_mem _ hd)]
      exact Step.replay_after hr.1 hr.2 (hcrashes done mem_cons_self).mem f
  · rintro (hstatus | ⟨rfl, hhash⟩)
    · have hbad : checkMaster crc32c log (master log) (log.pread MasterRecord.size 0) = false := by
        rw [checkMaster, decide_eq_false_iff_not]
        exact fun h => hstatus h.2.1
      unfold processLog
      dsimp only
      rw [if_pos hbad]
      exact ⟨rfl, rfl⟩
    · unfold processLog
      dsimp only
      split_ifs
      · exact ⟨rfl, rfl⟩
      · exact ⟨rfl, rfl⟩
      all_goals simp_all

end Finalized

end Pclsync.Crypto
