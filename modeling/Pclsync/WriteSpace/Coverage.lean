import Pclsync.Crypto.SectorNumbers
import Pclsync.IntervalTree

/-!
# Writes that need no space

`psync_fs_check_modified_file_write_space` tells that a write to a modified file needs no more space
on disk, as all that it changes is in one interval of the local data file. For an encrypted file it
looks from the first to the last data sector.

* `checkModifiedFileWriteSpace`: the check, with its products of 32 bits.
* `Written`, `DataWritten`: the bytes of the data file that a write changes, and those of them that
  hold data.
* `writeSpace_iff`: when the check is enough.
-/

namespace Pclsync.WriteSpace

open Crypto HashTree PostOrder

/-! ## The check -/

/-- `from` in `checkModifiedFileWriteSpace`. -/
def checkStart (encrypted : Bool) (offset : ℕ) : ℕ :=
  if encrypted then
    dataSectoridBySectorid (offset / sectorSize % 2 ^ 32) * sectorSize % 2 ^ 32
  else offset

/-- `to` in `checkModifiedFileWriteSpace`, for the end of the write. -/
def checkStop (encrypted : Bool) (stop : ℕ) : ℕ :=
  if encrypted then
    dataSectoridBySectorid (stop / sectorSize % 2 ^ 32) * sectorSize % 2 ^ 32 + stop % sectorSize
  else stop

/-- `psync_fs_check_modified_file_write_space` -/
def checkModifiedFileWriteSpace (encrypted : Bool) (writeintervals : IntervalTree)
    (size offset : ℕ) : Bool :=
  match writeintervals.firstContainingOrAfter (checkStart encrypted offset) with
  | some tr => tr.start ≤ checkStart encrypted offset &&
      checkStop encrypted ((offset + size) % 2 ^ 64) ≤ tr.stop
  | none => false

/-! ## What a write changes -/

/-- The data sectors that a write changes. -/
def SectorWritten (offset size sectorid : ℕ) : Prop :=
  0 < size ∧ offset / sectorSize ≤ sectorid ∧ sectorid * sectorSize < offset + size

/-- Sectors are encrypted and authenticated as a whole, up to the root of the tree. -/
def WrittenIn (o : Offsets) (offset size : ℕ) : Sector → Prop
  | .data sectorid => SectorWritten offset size sectorid
  | .auth level id => level < o.treelevels ∧
      ∃ sectorid, SectorWritten offset size sectorid ∧ id = sectorid / hashTreeSectors ^ (level + 1)
  | .master => o.needmasterauth = true ∧ ∃ sectorid, SectorWritten offset size sectorid

/-- A byte of the data file that a write within the file changes. -/
def Written (encrypted : Bool) (currentsize offset size i : ℕ) : Prop :=
  if encrypted then
    ∃ o x, offsetsByPlainsize currentsize = some o ∧ WrittenIn o offset size x ∧
      (o.place x).1 ≤ i ∧ i < (o.place x).1 + (o.place x).2
  else offset ≤ i ∧ i < offset + size

/-- A byte of the data file with one of the bytes written. -/
def DataWritten (encrypted : Bool) (offset size i : ℕ) : Prop :=
  ∃ p, offset ≤ p ∧ p < offset + size ∧
    i = if encrypted then dataOffsetBySectorid (p / sectorSize) + p % sectorSize else p

/-- The sizes of files: those of encrypted files are bounded by the ids of sectors. -/
def Admitted (encrypted : Bool) (currentsize : ℕ) : Prop :=
  currentsize < 2 ^ 63 ∧ (encrypted = true → sectorCount currentsize ≤ maxSectorid)

/-! ## Places of data -/

/-- Where a byte of the plain file is in the data file. -/
def physical (x : ℕ) : ℕ := x + before hashTreeSectors (x / sectorSize) * sectorSize

variable {n N L offset size currentsize p : ℕ} {encrypted : Bool}

theorem physical_lt {x y : ℕ} (h : x < y) : physical x < physical y :=
  Nat.add_lt_add_of_lt_of_le h
    (Nat.mul_le_mul_right _ (before_mono (by decide) (Nat.div_le_div_right h.le)))

theorem dataOffset_add_mod (x : ℕ) :
    dataOffsetBySectorid (x / sectorSize) + x % sectorSize = physical x := by
  rw [dataOffsetBySectorid_eq, position_zero, physical, Nat.add_mul]
  have hx := Nat.div_add_mod x sectorSize
  rw [Nat.mul_comm] at hx
  omega

/-- Before the master authenticator there is room for the auth sectors of all full groups. -/
theorem add_before_le_total (hN : 0 < N) (l : ℕ) :
    n + before hashTreeSectors N * sectorSize ≤ total hashTreeSectors authSize n N l +
      before hashTreeSectors (N / hashTreeSectors ^ l) * sectorSize := by
  induction l with
  | zero => rw [pow_zero, Nat.div_one, total_zero]
  | succ l ih =>
    have hnodes := nodes_sub_one hashTreeSectors_pos hN l
    have hpos := nodes_pos hashTreeSectors_pos hN l
    have hle : N / hashTreeSectors ^ l ≤ nodes hashTreeSectors N l := by
      have hsucc : N / hashTreeSectors ^ l ≤ (N - 1) / hashTreeSectors ^ l + 1 := by
        have hpow : 0 < hashTreeSectors ^ l := Nat.pow_pos hashTreeSectors_pos
        rw [← Nat.add_div_right _ hpow]
        exact Nat.div_le_div_right (by omega)
      omega
    have hstep := before_eq (k := hashTreeSectors) (by decide) (N / hashTreeSectors ^ l)
    rw [Nat.div_div_eq_div_mul, ← pow_succ] at hstep
    have hgroup : N / hashTreeSectors ^ (l + 1) * sectorSize ≤
        nodes hashTreeSectors N l * authSize := by
      rw [pow_succ, ← Nat.div_div_eq_div_mul, hashTreeSectors_eq, sectorSize, authSize]
      rw [hashTreeSectors_eq] at hle
      omega
    rw [hstep, Nat.add_mul] at ih
    rw [total_succ]
    omega

/-- All data of a file is before its master authenticator. -/
theorem physical_le_total (h : IsHeight hashTreeSectors N L) (hN : 0 < N)
    (hn : n ≤ N * sectorSize) : physical n ≤ total hashTreeSectors authSize n N L := by
  have htop : before hashTreeSectors (N / hashTreeSectors ^ L) = 0 := by
    have hnodes := nodes_sub_one (k := hashTreeSectors) hashTreeSectors_pos hN L
    rw [h.top, Nat.sub_self] at hnodes
    have hpow : 0 < hashTreeSectors ^ L := Nat.pow_pos hashTreeSectors_pos
    have hlt : N - 1 < hashTreeSectors ^ L := by
      rcases Nat.div_eq_zero_iff.1 hnodes.symm with hzero | hlt
      · exact absurd hzero hpow.ne'
      · exact hlt
    have hone : N / hashTreeSectors ^ L ≤ 1 :=
      (Nat.div_le_div_right (show N ≤ hashTreeSectors ^ L by omega)).trans
        (Nat.div_self hpow).le
    rw [before, if_neg]
    rw [hashTreeSectors_eq] at *
    omega
  have hsum := add_before_le_total (n := n) hN L
  rw [htop, Nat.zero_mul, Nat.add_zero] at hsum
  refine le_trans ?_ hsum
  refine Nat.add_le_add_left (Nat.mul_le_mul_right _ (before_mono (by decide) ?_)) n
  have hdiv := Nat.div_le_div_right (c := sectorSize) hn
  rwa [Nat.mul_div_cancel N (by decide)] at hdiv

/-! ## What the check finds -/

theorem checkStart_eq (hle : offset / sectorSize < 2 ^ 32) : checkStart true offset =
      (offset / sectorSize + before hashTreeSectors (offset / sectorSize)) * sectorSize %
        2 ^ 32 := by
  have hdvd : 2 ^ 32 ∣ 2 ^ 32 * sectorSize := Nat.dvd_mul_right _ _
  rw [checkStart, if_pos rfl, Nat.mod_eq_of_lt hle, dataSectoridBySectorid_eq hle, position_zero,
    ← Nat.mul_mod_mul_right, Nat.mod_mod_of_dvd _ hdvd]

theorem checkStop_eq {stop : ℕ} (hle : stop / sectorSize < 2 ^ 32) :
    checkStop true stop = (stop / sectorSize + before hashTreeSectors (stop / sectorSize)) *
      sectorSize % 2 ^ 32 + stop % sectorSize := by
  have hdvd : 2 ^ 32 ∣ 2 ^ 32 * sectorSize := Nat.dvd_mul_right _ _
  rw [checkStop, if_pos rfl, Nat.mod_eq_of_lt hle, dataSectoridBySectorid_eq hle, position_zero,
    ← Nat.mul_mod_mul_right, Nat.mod_mod_of_dvd _ hdvd]

/-- When the check says yes, the interval it has found covers what it looks for. -/
theorem mem_of_check {ws : IntervalTree} {i : ℕ}
    (h : checkModifiedFileWriteSpace encrypted ws size offset = true)
    (hi : checkStart encrypted offset ≤ i)
    (hi' : i < checkStop encrypted ((offset + size) % 2 ^ 64)) : i ∈ ws := by
  rw [checkModifiedFileWriteSpace] at h
  split at h
  · next tr htr =>
    obtain ⟨hstart, hstop⟩ := Bool.and_eq_true_iff.1 h
    refine ⟨tr, IntervalTree.mem_toList_of_mem_containingOrAfter (List.mem_of_head? htr), ?_, ?_⟩
    · exact (of_decide_eq_true hstart).trans hi
    · exact hi'.trans_le (of_decide_eq_true hstop)
  · cases h

/-- It says yes for a single interval, the shortest one that it may find. -/
theorem exists_check (encrypted : Bool) (size offset : ℕ) : ∃ ws : IntervalTree,
    checkModifiedFileWriteSpace encrypted ws size offset = true ∧
      ∀ i ∈ ws, i < max (checkStop encrypted ((offset + size) % 2 ^ 64))
        (checkStart encrypted offset + 1) := by
  have hlt : checkStart encrypted offset <
      max (checkStop encrypted ((offset + size) % 2 ^ 64)) (checkStart encrypted offset + 1) :=
    lt_max_of_lt_right (Nat.lt_succ_self _)
  generalize hmax : max (checkStop encrypted ((offset + size) % 2 ^ 64))
    (checkStart encrypted offset + 1) = stop at hlt
  have hle : checkStop encrypted ((offset + size) % 2 ^ 64) ≤ stop := hmax ▸ le_max_left _ _
  have hcanonical : Canonical (Tree.node .nil ⟨checkStart encrypted offset, stop⟩ .nil 1).toList :=
    canonical_cons.2 ⟨hlt, canonical_nil, fun _ h => (by cases h)⟩
  refine ⟨⟨_, hcanonical⟩, ?_, fun i hi => ?_⟩
  · have hfind : (⟨_, hcanonical⟩ : IntervalTree).firstContainingOrAfter
        (checkStart encrypted offset) = some ⟨checkStart encrypted offset, stop⟩ := by
      rw [IntervalTree.firstContainingOrAfter, IntervalTree.containingOrAfter, firstPlace,
        if_neg (not_le.2 hlt), if_pos le_rfl]
      rfl
    rw [checkModifiedFileWriteSpace, hfind]
    exact Bool.and_eq_true_iff.2 ⟨decide_eq_true le_rfl, decide_eq_true hle⟩
  · obtain ⟨tr, htr, -, hi⟩ := hi
    rwa [List.mem_singleton.1 htr] at hi

/-! ## When the check is enough -/

/-- The last byte written of an encrypted file is behind what the check looks for. -/
theorem exists_written (hsize : 0 < size) (hle : offset + size ≤ currentsize)
    (hadm : Admitted true currentsize) : ∃ i, Written true currentsize offset size i ∧
      max (checkStop true ((offset + size) % 2 ^ 64)) (checkStart true offset + 1) ≤ i := by
  obtain ⟨hlt, hcount⟩ := hadm
  have hmax := hcount rfl
  obtain ⟨L, hL, h, hlo, hhi, hN0⟩ := exists_layout currentsize (by omega) hmax
  have hplain := offsetsByPlainsize_eq h hL hlo hhi hmax
  have hid : ∀ x ≤ currentsize, x / sectorSize < 2 ^ 32 := by
    intro x hx
    unfold maxSectorid at hmax
    unfold sectorCount sectorSize at *
    omega
  have hend : max (checkStop true ((offset + size) % 2 ^ 64)) (checkStart true offset + 1) ≤
      physical currentsize := by
    rw [Nat.mod_eq_of_lt (by omega), checkStop_eq (hid _ hle), checkStart_eq (hid _ (by omega))]
    have hstop : physical (offset + size) ≤ physical currentsize := by
      rcases hle.eq_or_lt with heq | hlt'
      · rw [heq]
      · exact (physical_lt hlt').le
    have hstart := physical_lt (show offset < offset + size by omega)
    have hoff := dataOffset_add_mod (offset + size)
    have hoff' := dataOffset_add_mod offset
    rw [dataOffsetBySectorid_eq, position_zero] at hoff hoff'
    have hmod := Nat.mod_le ((offset / sectorSize +
      before hashTreeSectors (offset / sectorSize)) * sectorSize) (2 ^ 32)
    have hmod' := Nat.mod_le (((offset + size) / sectorSize +
      before hashTreeSectors ((offset + size) / sectorSize)) * sectorSize) (2 ^ 32)
    omega
  have hsector : SectorWritten offset size (offset / sectorSize) := by
    have hdiv := Nat.div_mul_le_self offset sectorSize
    exact ⟨hsize, le_rfl, by omega⟩
  by_cases hneed : sectorSize < currentsize
  · -- the master authenticator is behind all data
    refine ⟨total hashTreeSectors authSize currentsize (sectorCount currentsize) L, ?_,
      hend.trans (physical_le_total h hN0 hhi)⟩
    rw [Written, if_pos rfl]
    refine ⟨_, .master, hplain, ⟨decide_eq_true hneed, _, hsector⟩, le_rfl, ?_⟩
    exact Nat.lt_add_of_pos_right (show 0 < authSize by decide)
  · -- a single sector is followed by its auth sector
    have hone : sectorCount currentsize = 1 := by
      unfold sectorCount sectorSize at *
      omega
    have hfirst : offset / sectorSize = 0 := by
      unfold sectorSize at *
      omega
    have hplace := place_last (l := 0) hL hlo hhi hmax (Nat.zero_le L)
    rw [hone, Nat.sub_self, Nat.zero_div] at hplace
    have hphysical : physical currentsize = currentsize := by
      have hdiv : currentsize / sectorSize ≤ 1 := by
        unfold sectorSize at *
        omega
      rw [physical, before, if_neg, Nat.zero_mul, Nat.add_zero]
      rw [hashTreeSectors_eq]
      omega
    refine ⟨lastOff currentsize 1 L 0, ?_, ?_⟩
    · rw [Written, if_pos rfl]
      refine ⟨_, .auth 0 0, hplain, ⟨h.pos, _, hsector, ?_⟩, ?_, ?_⟩
      · rw [hfirst, Nat.zero_div]
      · rw [hone, hplace]
      · rw [hone, hplace]
        exact Nat.lt_add_of_pos_right (lastLen_pos 1 0)
    · rw [hphysical] at hend
      exact hend.trans (Nat.le_add_right _ _)

/-- The last data byte written is behind it when the end is too far for 32 bits. -/
theorem data_wraps (hsize : 0 < size) (hle : offset + size ≤ currentsize)
    (hadm : Admitted true currentsize) (hfar : 4261416960 ≤ offset + size) :
    max (checkStop true ((offset + size) % 2 ^ 64)) (checkStart true offset + 1) ≤
      physical (offset + size - 1) := by
  obtain ⟨hlt, hcount⟩ := hadm
  have hmax := hcount rfl
  have hid : ∀ x ≤ currentsize, x / sectorSize < 2 ^ 32 := by
    intro x hx
    unfold maxSectorid at hmax
    unfold sectorCount sectorSize at *
    omega
  rw [Nat.mod_eq_of_lt (by omega), checkStop_eq (hid _ hle), checkStart_eq (hid _ (by omega)),
    physical]
  have hfirst :=
    before_mono (k := hashTreeSectors) (by decide) (Nat.div_le_div_right (c := sectorSize)
    (show offset ≤ offset + size - 1 by omega))
  have hstop := before_eq_sum (hid _ hle)
  have hlast := before_eq_sum (hid (offset + size - 1) (by omega))
  have hnear : before hashTreeSectors ((offset + size) / sectorSize) ≤
      before hashTreeSectors ((offset + size - 1) / sectorSize) + 4 := by
    rw [hstop, hlast]
    unfold sectorSize
    omega
  have hbig : 2 ^ 20 ≤ (offset + size) / sectorSize +
      before hashTreeSectors ((offset + size) / sectorSize) := by
    rw [hstop]
    unfold sectorSize
    omega
  -- in the middle of a sector its last byte is in the sector of the end
  have hsame : (offset + size) % sectorSize ≠ 0 →
      before hashTreeSectors ((offset + size - 1) / sectorSize) =
        before hashTreeSectors ((offset + size) / sectorSize) := by
    intro hmod
    congr 1
    unfold sectorSize at *
    omega
  clear hstop hlast hmax hcount hid
  generalize before hashTreeSectors (offset / sectorSize) = b₁ at hfirst ⊢
  generalize before hashTreeSectors ((offset + size - 1) / sectorSize) = b₂ at hfirst hnear hsame ⊢
  generalize before hashTreeSectors ((offset + size) / sectorSize) = b₃ at hnear hbig hsame ⊢
  unfold sectorSize at *
  refine max_le ?_ ?_
  · omega
  · omega

/-- The check is enough for files that are not encrypted. For encrypted files it misses auth
    sectors, and without them it is enough up to the point where its numbers have 32 bits. -/
theorem writeSpace_iff (hle : offset + size ≤ currentsize) (hadm : Admitted encrypted currentsize) :
    ((∀ ws, checkModifiedFileWriteSpace encrypted ws size offset = true →
        ∀ i, Written encrypted currentsize offset size i → i ∈ ws) ↔
      encrypted = false ∨ size = 0) ∧
    ((∀ ws, checkModifiedFileWriteSpace encrypted ws size offset = true →
        ∀ i, DataWritten encrypted offset size i → i ∈ ws) ↔
      encrypted = false ∨ size = 0 ∨ offset + size < 4261416960) := by
  have hwrap : (offset + size) % 2 ^ 64 = offset + size := by
    have hlt := hadm.1
    exact Nat.mod_eq_of_lt (by omega)
  have hempty : ∀ s, ¬ SectorWritten offset 0 s := fun s hs => absurd hs.1 (lt_irrefl 0)
  refine ⟨⟨fun h => ?_, ?_⟩, ⟨fun h => ?_, ?_⟩⟩
  · by_contra hnot
    obtain ⟨henc, hsize⟩ := not_or.1 hnot
    obtain rfl := eq_true_of_ne_false henc
    obtain ⟨ws, hcheck, hws⟩ := exists_check true size offset
    obtain ⟨i, hi, hbehind⟩ := exists_written (Nat.pos_of_ne_zero hsize) hle hadm
    exact absurd (hws i (h ws hcheck i hi)) (not_lt.2 hbehind)
  · rintro (rfl | rfl) ws hcheck i hi
    · rw [Written, if_neg (by decide)] at hi
      refine mem_of_check hcheck hi.1 ?_
      rw [hwrap]
      exact hi.2
    · cases encrypted with
      | false =>
        rw [Written, if_neg (by decide)] at hi
        exact absurd hi.2 (not_lt.2 hi.1)
      | true =>
        rw [Written, if_pos rfl] at hi
        obtain ⟨o, x, -, hx, -⟩ := hi
        cases x with
        | data s => exact absurd hx (hempty s)
        | auth level id => exact absurd hx.2.choose_spec.1 (hempty _)
        | master => exact absurd hx.2.choose_spec (hempty _)
  · by_contra hnot
    obtain ⟨henc, hnot⟩ := not_or.1 hnot
    obtain ⟨hsize, hfar⟩ := not_or.1 hnot
    obtain rfl := eq_true_of_ne_false henc
    obtain ⟨ws, hcheck, hws⟩ := exists_check true size offset
    have hpos := Nat.pos_of_ne_zero hsize
    have hbehind := data_wraps hpos hle hadm (not_lt.1 hfar)
    refine absurd (hws _ (h ws hcheck _ ⟨offset + size - 1, by omega, by omega, ?_⟩))
      (not_lt.2 hbehind)
    rw [if_pos rfl, dataOffset_add_mod]
  · rintro hcond ws hcheck i ⟨p, hp, hp', rfl⟩
    cases encrypted with
    | false => exact mem_of_check hcheck hp (by rw [hwrap]; exact hp')
    | true =>
      rcases hcond with henc | rfl | hnear
      · cases henc
      · exact absurd hp' (not_lt.2 hp)
      · have hid : ∀ x ≤ offset + size, x / sectorSize ≤ 1040384 := by
          intro x hx
          unfold sectorSize
          omega
        have hsmall : ∀ x ≤ offset + size, (x / sectorSize +
            before hashTreeSectors (x / sectorSize)) * sectorSize < 2 ^ 32 := by
          intro x hx
          have hx := hid x hx
          rw [before_eq_sum (by omega)]
          unfold sectorSize at *
          omega
        have hstop := dataOffset_add_mod (offset + size)
        have hstart := dataOffset_add_mod offset
        rw [dataOffsetBySectorid_eq, position_zero] at hstop hstart
        rw [if_pos rfl, dataOffset_add_mod]
        refine mem_of_check hcheck ?_ ?_
        · rw [checkStart_eq ((hid offset (by omega)).trans_lt (by decide)),
            Nat.mod_eq_of_lt (hsmall offset (by omega))]
          rcases hp.eq_or_lt with rfl | hlt
          · omega
          · have hphysical := physical_lt hlt
            omega
        · rw [hwrap, checkStop_eq ((hid _ le_rfl).trans_lt (by decide)),
            Nat.mod_eq_of_lt (hsmall _ le_rfl), hstop]
          exact physical_lt hp'

/-- A write to the middle of an encrypted file of three sectors. -/
theorem writeSpace_iff_encrypted : Admitted true 10000 ∧
    ¬ (∀ ws, checkModifiedFileWriteSpace true ws 10 5000 = true →
      ∀ i, Written true 10000 5000 10 i → i ∈ ws) ∧
    ∀ ws, checkModifiedFileWriteSpace true ws 10 5000 = true →
      ∀ i, DataWritten true 5000 10 i → i ∈ ws := by
  have hadm : Admitted true 10000 := ⟨by decide, fun _ => by decide⟩
  have h := writeSpace_iff (show 5000 + 10 ≤ 10000 by decide) hadm
  refine ⟨hadm, fun hall => ?_, h.2.2 (.inr (.inr (by decide)))⟩
  rcases h.1.1 hall with h | h
  · cases h
  · cases h

/-- With the first sector of the data file local, a write to the sector at `2 ^ 32` of it passes. -/
theorem not_writeSpace : Admitted true 8589934592 ∧ ∃ ws : IntervalTree,
    checkModifiedFileWriteSpace true ws 4096 4261416960 = true ∧
      DataWritten true 4261416960 4096 (2 ^ 32) ∧
      Written true 8589934592 4261416960 4096 (2 ^ 32) ∧ 2 ^ 32 ∉ ws := by
  have hplace : dataOffsetBySectorid 1040385 = 2 ^ 32 := by
    rw [dataOffsetBySectorid_eq, position_zero, before_eq_sum (by decide)]
    rfl
  have hstart : checkStart true 4261416960 = 0 := by
    rw [checkStart_eq (by decide), before_eq_sum (by decide)]
    rfl
  have hstop : checkStop true ((4261416960 + 4096) % 2 ^ 64) = 4096 := by
    rw [checkStop_eq (by decide), before_eq_sum (by decide)]
    rfl
  have hadm : Admitted true 8589934592 := ⟨by decide, fun _ => by decide⟩
  obtain ⟨L, hL, h, hlo, hhi, -⟩ := exists_layout 8589934592 (by decide) (hadm.2 rfl)
  have hplain := offsetsByPlainsize_eq h hL hlo hhi (hadm.2 rfl)
  refine ⟨hadm, (∅ : IntervalTree).add 0 4096 (by decide), ?_, ?_, ?_, ?_⟩
  · rw [checkModifiedFileWriteSpace, hstart, hstop]
    rfl
  · refine ⟨4261416960, le_rfl, by decide, ?_⟩
    rw [if_pos rfl]
    exact hplace.symm
  · rw [Written, if_pos rfl]
    refine ⟨_, .data 1040385, hplain, ⟨by decide, by decide, by decide⟩, hplace.le, ?_⟩
    exact hplace.symm.le.trans_lt (Nat.lt_add_of_pos_right (show 0 < min sectorSize
      (8589934592 - 1040385 * sectorSize) by decide))
  · rw [IntervalTree.mem_add]
    exact fun h => h.elim IntervalTree.notMem_empty fun h => absurd h.2 (by decide)

end Pclsync.WriteSpace
