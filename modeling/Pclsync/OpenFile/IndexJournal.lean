import Pclsync.OpenFile.IndexFile

/-!
# The index file as a journal of the intervals

Writing and truncating a modified file, where each `pwrite` may fail or write a part only, against
what is loaded when the file is opened again.

* `ModifiedFile.writeModified`, `ModifiedFile.ftruncate`: `psync_fs_write_modified` and
  `psync_fs_ftruncate_of_locked`, with the index file in bytes.
* `journalMachine`: the operations, opening the file again, and making it sparse again after an
  upload.
* `journal_matches`: as long as no record is put past the end of the index file (`JournalOk`), what
  is loaded is the tree in memory, and no interval that is added is empty.
* `skippedRecord_differs`: what happens otherwise.
-/

namespace Pclsync

open Option

/-- The fields of `psync_openfile_t` that are used for a modified file. -/
structure ModifiedFile where
  currentsize : ℕ
  datafile : File
  indexfile : File
  indexoff : ℕ
  writeintervals : IntervalTree

/-- What `pwrite` of a record returns: `-1` (`none`), or how many bytes it wrote. -/
abbrev RecordWrite := Option (Fin 17)

/-- The system calls of `psync_fs_modfile_check_size_ok`. -/
structure ModfileCalls where
  truncate : Bool
  index : RecordWrite

/-- The system calls of `psync_fs_write_modified`; `data` is the number of bytes written, `none`
    when `pwrite` returns `-1`. -/
structure WriteModifiedCalls where
  modfile : ModfileCalls
  data : Option ℕ
  index : RecordWrite

/-- The system calls of `psync_fs_ftruncate_of_locked`. -/
structure FtruncateCalls where
  modfile : ModfileCalls
  truncate : Bool

namespace ModifiedFile

/-! ## The operations -/

/-- `psync_fs_modfile_check_size_ok`. -/
def modfileCheckSizeOk (of : ModifiedFile) (size : ℕ) (calls : ModfileCalls) : ModifiedFile × ℤ :=
  if h : of.currentsize < size then
    if calls.truncate = false then (of, -1)
    else
      let datafile := of.datafile.truncate size
      let r : IndexRecord := ⟨of.currentsize, size - of.currentsize⟩
      let indexfile := of.indexfile.pwriteRecord of.indexoff r calls.index
      let indexoff := of.indexoff + 1
      if calls.index ≠ some 16 then ({ of with datafile, indexfile, indexoff }, -1)
      else
        let writeintervals := of.writeintervals.add of.currentsize size h
        ({ datafile, indexfile, indexoff, writeintervals, currentsize := size }, 0)
  else (of, 0)

/-- `psync_fs_write_modified`; `none` is a failed assertion of `psync_interval_tree_add`. -/
def writeModified (of : ModifiedFile) (buf : List UInt8) (offset : ℕ) (calls : WriteModifiedCalls) :
    Option (ModifiedFile × ℤ) :=
  let (of, ret) := of.modfileCheckSizeOk offset calls.modfile
  if ret ≠ 0 then some (of, -eio)
  else
    let ioff := of.indexoff
    let indexoff := of.indexoff + 1
    calls.data.elim (some ({ of with indexoff }, -eio)) fun bw =>
      let written := buf.take bw
      let datafile := of.datafile.pwrite written offset
      let indexfile := of.indexfile.pwriteRecord ioff ⟨offset, written.length⟩ calls.index
      if calls.index ≠ some 16 then some ({ of with indexoff, datafile, indexfile }, -eio)
      else if h : offset < offset + written.length then
        let writeintervals := of.writeintervals.add offset (offset + written.length) h
        let currentsize := max of.currentsize (offset + buf.length)
        some (⟨currentsize, datafile, indexfile, indexoff, writeintervals⟩, written.length)
      else none

/-- `psync_fs_ftruncate_of_locked` of a modified file. -/
def ftruncate (of : ModifiedFile) (size : ℕ) (calls : FtruncateCalls) : ModifiedFile × ℤ :=
  if of.currentsize = size then (of, 0)
  else
    let (of, ret) := of.modfileCheckSizeOk size calls.modfile
    if ret ≠ 0 then (of, -eio)
    else if of.currentsize = size then (of, 0)
    else if calls.truncate = false then (of, -eio)
    else ({ of with datafile := of.datafile.truncate size, currentsize := size }, 0)

/-- `load_interval_tree`. -/
def loadIntervalTree (of : ModifiedFile) : Option (ModifiedFile × ℤ) :=
  (of.indexfile.loadIntervalTree of.indexfile.size of.writeintervals).map fun (tree, ifs) =>
    if ifs = -1 then ({ of with writeintervals := tree }, -1)
    else ({ of with writeintervals := tree, indexoff := ifs.toNat }, 0)

/-- `open_write_files` of files that exist; they are emptied when `trunc` is set. -/
def openWriteFiles (of : ModifiedFile) (trunc : Bool) : Option (ModifiedFile × ℤ) :=
  let datafile := if trunc then .empty else of.datafile
  let indexfile := if trunc then .empty else of.indexfile
  { of with datafile, indexfile, currentsize := datafile.size }.loadIntervalTree

/-- The file is opened anew, as by `psync_fs_open` after a restart. -/
def reopen (of : ModifiedFile) (trunc : Bool) : Option (ModifiedFile × ℤ) :=
  { of with writeintervals := ∅, indexoff := 0 }.openWriteFiles trunc

/-- `psync_fs_reopen_file_for_writing`, when a file of `size` bytes is made sparse: the files are
    new, the intervals stay. -/
def reopenFileForWriting (of : ModifiedFile) (size : ℕ) : ModifiedFile where
  datafile := File.empty.truncate size
  indexfile := .empty
  writeintervals := of.writeintervals
  indexoff := 0
  currentsize := size

/-- A file which has just been made sparse for the first time. -/
def fresh (size : ℕ) : ModifiedFile := reopenFileForWriting ⟨size, .empty, .empty, 0, ∅⟩ size

end ModifiedFile

/-- The operations on a modified file, with the outcome of their system calls. Offsets are signed
    numbers of 64 bits. -/
inductive JournalOp
  | write (buf : { bs : List UInt8 // bs.length < 2 ^ 63 }) (offset : Fin (2 ^ 63))
      (calls : WriteModifiedCalls)
  | ftruncate (size : Fin (2 ^ 63)) (calls : FtruncateCalls)
  | reopen (trunc : Bool)
  | reopenFileForWriting (size : ℕ)

/-- A modified file, from the time it is made sparse. -/
def journalMachine : Machine ModifiedFile JournalOp where
  init of := ∃ size, of = .fresh size
  step of
    | .write buf offset calls => (of.writeModified buf offset calls).map Prod.fst
    | .ftruncate size calls => some (of.ftruncate size calls).1
    | .reopen trunc => (of.reopen trunc).map Prod.fst
    | .reopenFileForWriting size => some (of.reopenFileForWriting size)

namespace ModifiedFile

/-- What `psync_fs_load_interval_tree` makes of the index file is the tree in memory. -/
def Matches (of : ModifiedFile) : Prop :=
  of.indexfile.loadIntervalTree of.indexfile.size ∅ =
    some (of.writeintervals, ((of.indexfile.size / 16 : ℕ) : ℤ))

/-- If any byte of the next record reaches the index file, then it follows the last whole record. -/
def Follows (of : ModifiedFile) (ret : RecordWrite) : Prop :=
  (∃ bw, ret = some bw ∧ bw ≠ 0) → of.indexoff = of.indexfile.size / 16

/-- The condition on the system calls of `psync_fs_modfile_check_size_ok`. -/
def ModfileOk (of : ModifiedFile) (size : ℕ) (calls : ModfileCalls) : Prop :=
  of.currentsize < size → calls.truncate = true → of.Follows calls.index

/-- The file does not have to be extended, or is. -/
def Extended (of : ModifiedFile) (size : ℕ) (calls : ModfileCalls) : Prop :=
  of.currentsize < size → calls.truncate = true ∧ calls.index = some 16

end ModifiedFile

/-- The condition on a step: no byte of a record goes to the index file when a record before it has
    not been written whole, and a write of no byte is not recorded. The intervals of a file that is
    made sparse again are gone. -/
def JournalOk (of : ModifiedFile) : JournalOp → Prop
  | .write buf offset calls => of.ModfileOk offset calls.modfile ∧
      ∀ bw, of.Extended offset calls.modfile → calls.data = some bw →
        of.Follows calls.index ∧ (calls.index = some 16 → 0 < (buf.1.take bw).length)
  | .ftruncate size calls => of.currentsize ≠ size → of.ModfileOk size calls.modfile
  | .reopen _ => True
  | .reopenFileForWriting _ => of.writeintervals = ∅

namespace ModifiedFile

variable {of of' : ModifiedFile} {size offset : ℕ}

/-! ## What a step keeps -/

theorem matches_iff : of.Matches ↔ addRecords of.indexfile.records ∅ = some of.writeintervals := by
  rw [Matches, File.loadIntervalTree_eq, map_eq_some_iff]
  constructor
  · rintro ⟨tree, htree, heq⟩
    rw [htree, (Prod.mk.inj heq).1]
  · intro h
    exact ⟨of.writeintervals, h, rfl⟩

theorem matches_of_empty (hi : of.indexfile = .empty) (ht : of.writeintervals = ∅) :
    of.Matches := by
  rw [matches_iff, hi, ht]
  rfl

theorem Matches.congr (h : of.Matches) (hi : of'.indexfile = of.indexfile)
    (ht : of'.writeintervals = of.writeintervals) : of'.Matches := by
  rw [matches_iff, hi, ht]
  exact matches_iff.1 h

/-- A record written whole, and the interval added. -/
theorem Matches.add (h : of.Matches) {r : IndexRecord} {stop : ℕ} (hr : r.Fits)
    (hstop : (r.offset + r.length) % 2 ^ 64 = stop) (hlt : r.offset < stop)
    (hoff : of.indexoff = of.indexfile.size / 16)
    (hi : of'.indexfile = of.indexfile.pwriteRecord of.indexoff r (some 16))
    (ht : of'.writeintervals = of.writeintervals.add r.offset stop hlt) :
    of'.Matches ∧ of'.indexfile.size / 16 = of.indexoff + 1 := by
  subst hstop
  obtain ⟨hrecords, hsize⟩ := @File.records_pwriteRecord of.indexfile _ hr
  rw [hoff] at hi
  refine ⟨?_, by rw [hi, hsize, hoff]⟩
  rw [matches_iff, hi, hrecords, addRecords_append, matches_iff.1 h, ht]
  exact dif_pos hlt

theorem Matches.part (h : of.Matches) {r : IndexRecord} {ret : RecordWrite} (hret : ret ≠ some 16)
    (hok : of.Follows ret)
    (hi : of'.indexfile = of.indexfile.pwriteRecord of.indexoff r ret)
    (ht : of'.writeintervals = of.writeintervals) : of'.Matches := by
  have hrecords : of'.indexfile.records = of.indexfile.records := by
    cases ret with
    | none =>
      rw [hi]
      rfl
    | some bw =>
      rcases eq_or_ne bw 0 with rfl | h0
      · rw [hi, File.pwriteRecord_zero]
      · rw [hi, hok ⟨bw, rfl, h0⟩]
        exact (File.records_pwriteRecord_part fun h => hret (congrArg some h)).1
  rw [matches_iff, hrecords, ht]
  exact matches_iff.1 h

theorem follows_of_eq {ret : RecordWrite} (h : of.indexoff = of.indexfile.size / 16) :
    of.Follows ret := fun _ => h

/-- Extending a file; afterwards the next record follows the last one. -/
theorem Matches.modfileCheckSizeOk (h : of.Matches) {calls : ModfileCalls}
    (hok : of.ModfileOk size calls) (hsize : size < 2 ^ 63) :
    (of.modfileCheckSizeOk size calls).1.Matches ∧
      ((of.modfileCheckSizeOk size calls).2 = 0 → of.Extended size calls ∧
        ((of.modfileCheckSizeOk size calls).1 = of ∨
          (of.modfileCheckSizeOk size calls).1.indexoff =
            (of.modfileCheckSizeOk size calls).1.indexfile.size / 16)) := by
  rw [ModifiedFile.modfileCheckSizeOk]
  split_ifs with hlt htrunc hidx
  · exact ⟨h, fun h0 => absurd (show (-1 : ℤ) = 0 from h0) (by decide)⟩
  · have hf := hok hlt ((Bool.not_eq_false _).mp htrunc)
    exact ⟨h.part hidx hf rfl rfl, fun h0 => absurd (show (-1 : ℤ) = 0 from h0) (by decide)⟩
  · have htrue := (Bool.not_eq_false _).mp htrunc
    have hdone : calls.index = some 16 := not_not.1 hidx
    have hf := hok hlt htrue ⟨16, hdone, by decide⟩
    have hfits : IndexRecord.Fits ⟨of.currentsize, size - of.currentsize⟩ :=
      ⟨show of.currentsize < 2 ^ 64 by omega, show size - of.currentsize < 2 ^ 64 by omega⟩
    have hstop : (of.currentsize + (size - of.currentsize)) % 2 ^ 64 = size := by omega
    rw [hdone]
    obtain ⟨hm, hoff⟩ := @Matches.add of ⟨size, of.datafile.truncate size,
      of.indexfile.pwriteRecord of.indexoff ⟨of.currentsize, size - of.currentsize⟩ (some 16),
      of.indexoff + 1, of.writeintervals.add of.currentsize size hlt⟩ h
      ⟨of.currentsize, size - of.currentsize⟩ size hfits hstop hlt hf rfl rfl
    exact ⟨hm, fun _ => ⟨fun _ => ⟨htrue, hdone⟩, .inr hoff.symm⟩⟩
  · exact ⟨h, fun _ => ⟨fun hlt' => absurd hlt' hlt, .inl rfl⟩⟩

theorem Matches.writeModified (h : of.Matches) {buf : { bs : List UInt8 // bs.length < 2 ^ 63 }}
    {offset : Fin (2 ^ 63)} {calls : WriteModifiedCalls}
    (hok : JournalOk of (.write buf offset calls)) :
    ∃ r, of.writeModified buf offset calls = some r ∧ r.1.Matches := by
  obtain ⟨hm, hext⟩ := h.modfileCheckSizeOk hok.1 offset.isLt
  rw [ModifiedFile.writeModified]
  obtain ⟨g, hg⟩ : ∃ g, g = of.modfileCheckSizeOk offset calls.modfile := ⟨_, rfl⟩
  rw [← hg] at hm hext ⊢
  obtain ⟨g, ret⟩ := g
  dsimp only at hm hext ⊢
  by_cases hret : ret = 0
  · rw [if_neg (not_not.2 hret)]
    obtain ⟨hextended, hpos⟩ := hext hret
    cases hdata : calls.data with
    | none => exact ⟨_, rfl, hm.congr rfl rfl⟩
    | some bw =>
      obtain ⟨hfollows, hnonempty⟩ := hok.2 bw hextended hdata
      have hg : g.Follows calls.index := hpos.elim (fun h => h ▸ hfollows) follows_of_eq
      have hlen : (buf.1.take bw).length < 2 ^ 63 :=
        (List.length_take_le' bw buf.1).trans_lt buf.2
      have hoffset := offset.isLt
      rw [elim_some]
      by_cases hidx : calls.index = some 16
      · have hlt : offset.val < offset + (buf.1.take bw).length :=
          Nat.lt_add_of_pos_right (hnonempty hidx)
        have hfits : IndexRecord.Fits ⟨offset, (buf.1.take bw).length⟩ :=
          ⟨show offset.val < 2 ^ 64 by omega, show (buf.1.take bw).length < 2 ^ 64 by omega⟩
        have hstop : (offset.val + (buf.1.take bw).length) % 2 ^ 64 =
            offset + (buf.1.take bw).length := Nat.mod_eq_of_lt (by omega)
        rw [if_neg (not_not.2 hidx), dif_pos hlt, hidx]
        exact ⟨_, rfl, (hm.add hfits hstop hlt (hg ⟨16, hidx, by decide⟩) rfl rfl).1⟩
      · rw [if_pos hidx]
        exact ⟨_, rfl, hm.part hidx hg rfl rfl⟩
  · rw [if_pos hret]
    exact ⟨_, rfl, hm⟩

theorem Matches.ftruncate (h : of.Matches) {size : Fin (2 ^ 63)} {calls : FtruncateCalls}
    (hok : JournalOk of (.ftruncate size calls)) : (of.ftruncate size calls).1.Matches := by
  rw [ModifiedFile.ftruncate]
  by_cases hne : of.currentsize = size
  · rw [if_pos hne]
    exact h
  rw [if_neg hne]
  obtain ⟨hm, -⟩ := h.modfileCheckSizeOk (hok hne) size.isLt
  obtain ⟨g, hg⟩ : ∃ g, g = of.modfileCheckSizeOk size calls.modfile := ⟨_, rfl⟩
  rw [← hg] at hm ⊢
  obtain ⟨g, ret⟩ := g
  dsimp only at hm ⊢
  -- neither the index file nor the intervals are cut
  split_ifs
  all_goals exact hm

/-- Opening the file again gives the same tree. -/
theorem Matches.reopen (h : of.Matches) (trunc : Bool) :
    ∃ r, of.reopen trunc = some r ∧ r.1.Matches := by
  cases trunc with
  | false =>
    have hload : of.indexfile.loadIntervalTree of.indexfile.size ∅ =
      some (of.writeintervals, ((of.indexfile.size / 16 : ℕ) : ℤ)) := h
    have hret : ((of.indexfile.size / 16 : ℕ) : ℤ) ≠ -1 := by omega
    refine ⟨(⟨of.datafile.size, of.datafile, of.indexfile, of.indexfile.size / 16,
      of.writeintervals⟩, 0), ?_, matches_iff.2 (matches_iff.1 h)⟩
    show (of.indexfile.loadIntervalTree of.indexfile.size ∅).map _ = _
    rw [hload, map_some]
    dsimp only
    rw [if_neg hret]
    rfl
  | true =>
    have hload : File.empty.loadIntervalTree File.empty.size ∅ =
        some (∅, ((0 : ℕ) : ℤ)) := File.loadIntervalTree_eq .empty ∅
    refine ⟨(⟨0, .empty, .empty, 0, ∅⟩, 0), ?_, matches_of_empty rfl rfl⟩
    show (File.empty.loadIntervalTree File.empty.size ∅).map _ = _
    rw [hload]
    rfl

theorem Matches.step (h : of.Matches) {op : JournalOp} (hok : JournalOk of op) :
    ∃ of', journalMachine.step of op = some of' ∧ of'.Matches := by
  cases op with
  | write buf offset calls =>
    obtain ⟨r, hr, hm⟩ := h.writeModified hok
    exact ⟨r.1, congrArg (Option.map Prod.fst) hr, hm⟩
  | ftruncate size calls => exact ⟨_, rfl, h.ftruncate hok⟩
  | reopen trunc =>
    obtain ⟨r, hr, hm⟩ := h.reopen trunc
    exact ⟨r.1, congrArg (Option.map Prod.fst) hr, hm⟩
  | reopenFileForWriting size => exact ⟨_, rfl, matches_of_empty rfl hok⟩

end ModifiedFile

/-- In a run whose steps meet the condition, loading the index file gives the tree in memory in
every state, and no step fails the assertion that an interval is not empty. -/
theorem journal_matches {of : ModifiedFile} (h : journalMachine.Reachable JournalOk of) :
    of.Matches ∧ ∀ op, JournalOk of op → (journalMachine.step of op).isSome := by
  have hm : of.Matches := by
    refine h.invariant ?_ ?_
    · rintro _ ⟨size, rfl⟩
      exact ModifiedFile.matches_of_empty rfl rfl
    · intro of op of' hm hok hstep
      obtain ⟨g, hg, hgm⟩ := hm.step hok
      rw [hstep] at hg
      exact some.inj hg ▸ hgm
  refine ⟨hm, fun op hok => ?_⟩
  obtain ⟨of', hof', -⟩ := hm.step hok
  rw [hof']
  rfl

/-- The system calls of a write of `n` bytes that does not extend the file, when all succeed. -/
def WriteModifiedCalls.complete (n : ℕ) : WriteModifiedCalls := ⟨⟨true, some 16⟩, some n, some 16⟩

/-- Two bytes are written to a file of 10 bytes. -/
theorem journal_matches_write : ∃ of, journalMachine.Reachable JournalOk of ∧ of.Matches := by
  have h₀ : journalMachine.Reachable JournalOk (.fresh 10) := .init ⟨10, rfl⟩
  have hok : JournalOk (.fresh 10) (.write ⟨[1, 2], by decide⟩ 4 (.complete 2)) := by
    refine ⟨fun h => absurd h (by decide), fun bw _ hbw => ⟨fun _ => rfl, fun _ => ?_⟩⟩
    obtain rfl : 2 = bw := some.inj hbw
    decide
  obtain ⟨of, hof⟩ := isSome_iff_exists.1 ((journal_matches h₀).2 _ hok)
  have h1 : journalMachine.Reachable JournalOk of := .step h₀ hok hof
  exact ⟨of, h1, (journal_matches h1).1⟩

/-- When writing the data fails, the position of its record is skipped: after the next write the
index file has an empty record, which fails the assertion when it is loaded. When only a part of a
record is written, an interval is loaded that is not in memory. -/
theorem skippedRecord_differs : journalMachine.init (.fresh 10) ∧
    (journalMachine.run (.fresh 10) [.write ⟨[1, 2, 3, 4], by decide⟩ 0 ⟨⟨true, none⟩, none, none⟩,
        .write ⟨[1, 2, 3, 4], by decide⟩ 0 (.complete 4)]).map (fun of =>
          (of.indexfile.loadIntervalTree of.indexfile.size ∅).map fun r => r.1.toList) =
      some none ∧
    (journalMachine.run (.fresh 10)
      [.write ⟨[1, 2, 3, 4], by decide⟩ 0 ⟨⟨true, none⟩, some 4, some 9⟩,
        .write ⟨[5], by decide⟩ 8 (.complete 1)]).map (fun of =>
          ((of.indexfile.loadIntervalTree of.indexfile.size ∅).map (fun r => r.1.toList),
            of.writeintervals.toList)) =
      some (some [⟨0, 4⟩, ⟨8, 9⟩], [⟨8, 9⟩]) := by
  refine ⟨⟨10, rfl⟩, ?_, ?_⟩
  all_goals
    simp only [File.loadIntervalTree_eq]
    decide +kernel

end Pclsync
