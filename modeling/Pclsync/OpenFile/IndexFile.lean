import Pclsync.Bytes
import Pclsync.OpenFile.UploadModify

/-!
# The index file

The index file of a modified file as bytes: a record of 16 bytes for each range written, without a
header (`psync_fs_index_header` has no bytes). The position of the next record is counted in
`indexoff`, before the calls that may fail, and a record may be written in part.

* `File.loadIntervalTree`: `psync_fs_load_interval_tree`, which reads 512 records at a time.
  `File.loadIntervalTree_eq`: it adds the records of the file, without what follows the last whole
  one.
* `ModifiedFile`: the fields of `psync_openfile_t` that writing and truncating a modified file use.
* `File.records_pwriteRecord`, `File.records_pwriteRecord_part`: a record written at the end, whole
  or in part.
-/

namespace Pclsync

open List

/-! ## Records -/

def IndexRecord.toBytes (r : IndexRecord) : List UInt8 := toLE 8 r.offset ++ toLE 8 r.length

def IndexRecord.ofBytes (bs : List UInt8) : IndexRecord :=
  ⟨ofLE (bs.take 8), ofLE ((bs.drop 8).take 8)⟩

@[simp] theorem IndexRecord.length_toBytes (r : IndexRecord) : r.toBytes.length = 16 := by
  rw [toBytes, length_append, length_toLE, length_toLE]

/-- The numbers of a record fit in 64 bits. -/
def IndexRecord.Fits (r : IndexRecord) : Prop := r.offset < 2 ^ 64 ∧ r.length < 2 ^ 64

theorem IndexRecord.ofBytes_toBytes {r : IndexRecord} (h : r.Fits) : ofBytes r.toBytes = r := by
  have htake : r.toBytes.take 8 = toLE 8 r.offset := take_left' (length_toLE 8 _)
  have hdrop : r.toBytes.drop 8 = toLE 8 r.length := drop_left' (length_toLE 8 _)
  have hlast : (toLE 8 r.length).take 8 = toLE 8 r.length :=
    take_of_length_le (length_toLE 8 _).le
  rw [ofBytes, htake, hdrop, hlast, ofLE_toLE_of_lt h.1, ofLE_toLE_of_lt h.2]

/-- The loop of `psync_fs_load_interval_tree` over the records that were read; a record whose end,
    in 64 bits, is not after its start fails the assertion of `psync_interval_tree_add`. -/
def addRecords : List IndexRecord → IntervalTree → Option IntervalTree
  | [], tree => some tree
  | r :: rs, tree =>
    let stop := (r.offset + r.length) % 2 ^ 64
    if h : r.offset < stop then addRecords rs (tree.add r.offset stop h) else none

theorem addRecords_append (rs ss : List IndexRecord) (tree : IntervalTree) :
    addRecords (rs ++ ss) tree = (addRecords rs tree).bind (addRecords ss) := by
  induction rs generalizing tree with
  | nil => rfl
  | cons r rs ih =>
    rw [cons_append, addRecords, addRecords]
    split_ifs
    · exact ih _
    · rfl

/-- Where no end goes past 64 bits, the records are those of the uploader. -/
theorem addRecords_eq_loadIntervalTree {rs : List IndexRecord}
    (h : ∀ r ∈ rs, r.offset + r.length < 2 ^ 64) (tree : IntervalTree) :
    addRecords rs tree = loadIntervalTree rs tree := by
  induction rs generalizing tree with
  | nil => rfl
  | cons r rs ih =>
    have hr := Nat.mod_eq_of_lt (h r (mem_cons_self ..))
    rw [addRecords, loadIntervalTree]
    simp only [hr]
    split_ifs
    · exact ih (fun s hs => h s (mem_cons_of_mem _ hs)) _
    · rfl

namespace File

variable {fd : File} {r : IndexRecord} {tree : IntervalTree} {i n cnt : ℕ}

/-! ## Loading -/

/-- The record at position `i`. -/
def record (fd : File) (i : ℕ) : IndexRecord := .ofBytes (fd.pread 16 (16 * i))

/-- The whole records of the file. -/
def records (fd : File) : List IndexRecord := (range (fd.size / 16)).map fd.record

/-- The array of `rd` records that has been filled with bytes. -/
def recordsOf (rd : ℕ) (bytes : List UInt8) : List IndexRecord :=
  (range rd).map fun j => .ofBytes ((bytes.drop (16 * j)).take 16)

/-- The loop on `i` of `psync_fs_load_interval_tree`. -/
def loadLoop (fd : File) (cnt i : ℕ) (tree : IntervalTree) : Option (IntervalTree × ℤ) :=
  if i < cnt then
    let rd := if cnt - i < 512 then cnt - i else 512
    let bytes := fd.pread (rd * 16) (i * 16)
    if bytes.length ≠ rd * 16 then some (tree, -1)
    else (addRecords (recordsOf rd bytes) tree).bind (loadLoop fd cnt (i + 512))
  else some (tree, cnt)
  termination_by cnt - i
  decreasing_by omega

/-- `psync_fs_load_interval_tree`: the tree, and what is returned. -/
def loadIntervalTree (fd : File) (size : ℕ) (tree : IntervalTree) : Option (IntervalTree × ℤ) :=
  fd.loadLoop (size / 16) 0 tree

theorem recordsOf_pread (h : (i + n) * 16 ≤ fd.size) :
    recordsOf n (fd.pread (n * 16) (i * 16)) = (range n).map fun j => fd.record (i + j) := by
  refine map_congr_left fun j hj => ?_
  have hj := mem_range.1 hj
  rw [record]
  congr 1
  have hlen : ((fd.pread (n * 16) (i * 16)).drop (16 * j)).length = n * 16 - 16 * j := by
    rw [length_drop, length_pread]
    omega
  refine ext_getElem ?_ fun k hk hk' => ?_
  · rw [length_take, hlen, length_pread]
    omega
  · simp only [pread, getElem_take, getElem_drop, getElem_map, getElem_range]
    congr 1
    omega

theorem loadLoop_eq (h : cnt * 16 ≤ fd.size) (i : ℕ) (tree : IntervalTree) :
    fd.loadLoop cnt i tree =
      (addRecords ((range (cnt - i)).map fun j => fd.record (i + j)) tree).map
        fun tree => (tree, (cnt : ℤ)) := by
  obtain ⟨k, hk⟩ : ∃ k, k = cnt - i := ⟨_, rfl⟩
  induction k using Nat.strong_induction_on generalizing i tree with
  | _ k ih =>
    rw [loadLoop]
    by_cases hi : i < cnt
    · obtain ⟨rd, hrd⟩ : ∃ rd, rd = if cnt - i < 512 then cnt - i else 512 := ⟨_, rfl⟩
      obtain ⟨hpos, hsum, hrest⟩ : 0 < rd ∧ rd + (cnt - (i + 512)) = cnt - i ∧
          ∀ j < cnt - (i + 512), i + 512 + j = i + (rd + j) := by
        rw [hrd]
        split_ifs
        all_goals exact ⟨by omega, by omega, by omega⟩
      have hread : (fd.pread (rd * 16) (i * 16)).length = rd * 16 := by
        rw [length_pread]
        omega
      -- the records that are read now, and those of the rounds that follow
      have hsplit : (range (cnt - i)).map (fun j => fd.record (i + j)) =
          (range rd).map (fun j => fd.record (i + j)) ++
            (range (cnt - (i + 512))).map fun j => fd.record (i + 512 + j) := by
        rw [← hsum, range_add, map_append, map_map]
        refine congrArg _ (map_congr_left fun j hj => ?_)
        rw [hrest j (mem_range.1 hj)]
        rfl
      have hround : fd.loadLoop cnt (i + 512) = fun t =>
          (addRecords ((range (cnt - (i + 512))).map fun j => fd.record (i + 512 + j)) t).map
            fun t => (t, (cnt : ℤ)) := by
        funext t
        exact ih (cnt - (i + 512)) (by omega) (i + 512) t rfl
      rw [if_pos hi, ← hrd]
      dsimp only
      rw [if_neg (not_not.2 hread), recordsOf_pread (by omega), hsplit, addRecords_append, hround,
        Option.map_bind]
      rfl
    · rw [if_neg hi, show cnt - i = 0 by omega]
      rfl

theorem loadIntervalTree_eq (fd : File) (tree : IntervalTree) : fd.loadIntervalTree fd.size tree =
      (addRecords fd.records tree).map fun tree => (tree, ((fd.size / 16 : ℕ) : ℤ)) := by
  rw [loadIntervalTree, loadLoop_eq (Nat.div_mul_le_self _ _), records, Nat.sub_zero]
  congr 2
  exact map_congr_left fun j _ => congrArg fd.record (Nat.zero_add j)

/-! ## Writing a record -/

/-- `psync_file_pwrite` of a record at position `ioff`: it returns `-1` (`none`), or how many of the
    bytes it has written. -/
def pwriteRecord (fd : File) (ioff : ℕ) (r : IndexRecord) : Option (Fin 17) → File
  | none => fd
  | some bw => fd.pwrite (r.toBytes.take bw) (16 * ioff)

variable {ioff : ℕ} {bw : Fin 17}

theorem record_pwriteRecord (h : i < fd.size / 16) (hi : i < ioff) (ret : Option (Fin 17)) :
    (fd.pwriteRecord ioff r ret).record i = fd.record i := by
  cases ret with
  | none => rfl
  | some bw =>
    rw [record, record, pwriteRecord, pread_pwrite_of_ge (by omega) (by omega)]

theorem size_pwriteRecord (h : bw ≠ 0) :
    (fd.pwriteRecord ioff r (some bw)).size = max fd.size (16 * ioff + bw) := by
  have hbw := bw.isLt
  have hlen : (r.toBytes.take bw).length = bw := by
    rw [length_take, IndexRecord.length_toBytes]
    omega
  have hne : r.toBytes.take bw ≠ [] := by
    intro hnil
    rw [hnil] at hlen
    exact h (Fin.ext hlen.symm)
  rw [pwriteRecord, size_pwrite hne, hlen]

/-- A record written whole after the others. -/
theorem records_pwriteRecord (hr : r.Fits) :
    (fd.pwriteRecord (fd.size / 16) r (some 16)).records = fd.records ++ [r] ∧
      (fd.pwriteRecord (fd.size / 16) r (some 16)).size / 16 = fd.size / 16 + 1 := by
  have hsize : (fd.pwriteRecord (fd.size / 16) r (some 16)).size / 16 = fd.size / 16 + 1 := by
    rw [size_pwriteRecord (by decide)]
    show max fd.size (16 * (fd.size / 16) + 16) / 16 = _
    omega
  refine ⟨?_, hsize⟩
  have hlast : (fd.pwriteRecord (fd.size / 16) r (some 16)).record (fd.size / 16) = r := by
    have hread := @pread_pwrite fd r.toBytes (16 * (fd.size / 16))
    rw [IndexRecord.length_toBytes] at hread
    have htake : r.toBytes.take ((16 : Fin 17) : ℕ) = r.toBytes :=
      take_of_length_le r.length_toBytes.le
    rw [record, pwriteRecord, htake, hread, IndexRecord.ofBytes_toBytes hr]
  rw [records, hsize, range_succ, map_append, map_singleton, hlast, records]
  congr 1
  refine map_congr_left fun j hj => ?_
  have hj := mem_range.1 hj
  exact record_pwriteRecord hj hj _

/-- What is left after the last whole record is not loaded. -/
theorem records_pwriteRecord_part (hbw : bw ≠ 16) :
    (fd.pwriteRecord (fd.size / 16) r (some bw)).records = fd.records ∧
      (fd.pwriteRecord (fd.size / 16) r (some bw)).size / 16 = fd.size / 16 := by
  have hlt : (bw : ℕ) < 16 := by
    have := bw.isLt
    have hne : (bw : ℕ) ≠ 16 := fun h => hbw (Fin.ext h)
    omega
  have hsize : (fd.pwriteRecord (fd.size / 16) r (some bw)).size / 16 = fd.size / 16 := by
    rcases eq_or_ne bw 0 with rfl | h0
    · rfl
    · rw [size_pwriteRecord h0]
      omega
  refine ⟨?_, hsize⟩
  rw [records, hsize, records]
  refine map_congr_left fun j hj => ?_
  have hj := mem_range.1 hj
  exact record_pwriteRecord hj hj _

theorem pwriteRecord_zero : fd.pwriteRecord ioff r (some 0) = fd := by
  refine File.ext rfl (funext fun i => ?_)
  rw [pwriteRecord]
  exact if_neg fun h => absurd h.2 (Nat.not_lt.2 h.1)

end File

end Pclsync
