import Pclsync.Crypto.Sectors

/-!
# Numbers of sectors

A data sector of an encrypted file is found by its number in the file, which
`psync_fs_crypto_data_sectorid_by_sectorid` computes in 32 bits, or by its offset, which
`psync_fs_crypto_data_offset_by_sectorid` computes in 64 bits. The sectors that the write and the
read functions admit have ids up to `maxSectorid`.

* `dataSectoridBySectorid`: the number of a data sector, as it is computed.
* `sumChecked`, `authOffsetChecked`: the same computations, without a result when a value is too
  large for its type.
* `sectorPlaced_iff`: up to which id the numbers are those of the sectors.
-/

namespace Pclsync.Crypto

open HashTree PostOrder Option

/-! ## Computations -/

/-- The loop of `dataSectoridBySectorid`. -/
def dataSectoridLoop (sectorid sect : ℕ) : ℕ :=
  if hashTreeSectors ≤ sectorid then
    dataSectoridLoop (sectorid / hashTreeSectors) ((sect + sectorid / hashTreeSectors) % 2 ^ 32)
  else sect
termination_by sectorid
decreasing_by
  rw [hashTreeSectors_eq] at *
  omega

/-- `psync_fs_crypto_data_sectorid_by_sectorid`. -/
def dataSectoridBySectorid (sectorid : ℕ) : ℕ := dataSectoridLoop sectorid sectorid

/-- A value of `w` bits, if there are enough. -/
def fits (w v : ℕ) : Option ℕ := if v < 2 ^ w then some v else none

/-- The loop of the functions for sectors, with products of `p` bits by `c` and sums of `w` bits
    that have to fit. -/
def sumChecked (p w c sectorid sum : ℕ) : Option ℕ :=
  if hashTreeSectors ≤ sectorid then
    (fits p (sectorid / hashTreeSectors * c)).bind fun prod =>
      (fits w (sum + prod)).bind (sumChecked p w c (sectorid / hashTreeSectors))
  else some sum
termination_by sectorid
decreasing_by
  rw [hashTreeSectors_eq] at *
  omega

/-- `psync_fs_crypto_data_sectorid_by_sectorid`, where the sums have to fit. -/
def dataSectoridChecked (sectorid : ℕ) : Option ℕ := sumChecked 32 32 1 sectorid sectorid

/-- `psync_fs_crypto_data_offset_by_sectorid`, where the products and sums have to fit. -/
def dataOffsetChecked (sectorid : ℕ) : Option ℕ :=
  (fits 64 (sectorid * sectorSize)).bind (sumChecked 64 64 sectorSize sectorid)

/-- `psync_fs_crypto_auth_offset`, where all values have to fit. -/
def authOffsetChecked (level id : ℕ) : Option ℕ :=
  (fits 32 (id + 1)).bind fun i => (fits 64 (maxLevelSize (level + 1) * i)).bind fun m =>
    if sectorSize ≤ m then sumChecked 32 64 sectorSize id (m - sectorSize) else none

/-- The place of a data sector and those of the auth sectors above it, except the last ones of
    their levels, are computed as they should be. -/
structure SectorPlaced (sectorid : ℕ) : Prop where
  offset : dataSectoridBySectorid sectorid * sectorSize = dataOffsetBySectorid sectorid
  lt : ∀ t < sectorid, dataSectoridBySectorid t < dataSectoridBySectorid sectorid
  sectoridFits : dataSectoridChecked sectorid = some (dataSectoridBySectorid sectorid)
  offsetFits : dataOffsetChecked sectorid = some (dataOffsetBySectorid sectorid)
  auth : ∀ level id, id = sectorid / hashTreeSectors ^ (level + 1) →
    (id + 1) * hashTreeSectors ^ (level + 1) ≤ maxSectorid →
      authOffsetChecked level id = some (authOffset level id) ∧
        ∀ t ≤ maxSectorid, authOffset level id ≠ dataOffsetBySectorid t

/-- The last data sector whose number has 32 bits. -/
def lastNumbered : ℕ := 2 ^ 32 - 2 ^ 25

/-! ## Their values -/

variable {sectorid level id p w c sum : ℕ}

theorem dataSectoridLoop_eq (hsum : sum < 2 ^ 32) :
    dataSectoridLoop sectorid sum = (sum + before hashTreeSectors sectorid) % 2 ^ 32 := by
  induction sectorid using Nat.strong_induction_on generalizing sum with
  | _ sectorid ih =>
    rw [dataSectoridLoop]
    split_ifs with hle
    · have hlt : sectorid / hashTreeSectors < sectorid := by
        rw [hashTreeSectors_eq] at *
        omega
      rw [ih _ hlt (Nat.mod_lt _ (by decide)), before_eq (by decide) sectorid, Nat.mod_add_mod,
        Nat.add_assoc]
    · rw [before, if_neg fun h => hle h.2, Nat.add_zero, Nat.mod_eq_of_lt hsum]

theorem dataSectoridBySectorid_eq (h : sectorid < 2 ^ 32) :
    dataSectoridBySectorid sectorid = position hashTreeSectors 0 sectorid % 2 ^ 32 := by
  rw [dataSectoridBySectorid, dataSectoridLoop_eq h, position_zero]

theorem fits_eq {v : ℕ} (h : v < 2 ^ w) : fits w v = some v := if_pos h

/-- The sum fits when its products and its value do. -/
theorem sumChecked_eq (hprod : sectorid / hashTreeSectors * c < 2 ^ p)
    (hsum : sum + before hashTreeSectors sectorid * c < 2 ^ w) :
    sumChecked p w c sectorid sum = some (sum + before hashTreeSectors sectorid * c) := by
  induction sectorid using Nat.strong_induction_on generalizing sum with
  | _ sectorid ih =>
    rw [sumChecked]
    split_ifs with hle
    · have hlt : sectorid / hashTreeSectors < sectorid := by
        rw [hashTreeSectors_eq] at *
        omega
      have hnext : sectorid / hashTreeSectors / hashTreeSectors * c < 2 ^ p :=
        (Nat.mul_le_mul_right c (Nat.div_le_self _ _)).trans_lt hprod
      rw [before_eq (by decide) sectorid, Nat.add_mul, ← Nat.add_assoc] at hsum ⊢
      rw [fits_eq hprod, bind_some, fits_eq ((Nat.le_add_right _ _).trans_lt hsum),
        bind_some, ih _ hlt hnext hsum]
    · rw [before, if_neg fun h => hle h.2, Nat.zero_mul, Nat.add_zero]

/-- The auth sectors before a data sector, for ids of 32 bits. -/
theorem before_eq_sum (h : sectorid < 2 ^ 32) : before hashTreeSectors sectorid =
    sectorid / 128 + sectorid / 128 / 128 + sectorid / 128 / 128 / 128 +
      sectorid / 128 / 128 / 128 / 128 := by
  have hlast : before hashTreeSectors (sectorid / 128 / 128 / 128 / 128) = 0 := by
    rw [before, if_neg]
    rw [hashTreeSectors_eq]
    omega
  have hone (j : ℕ) : before hashTreeSectors j = j / 128 + before hashTreeSectors (j / 128) :=
    before_eq (by decide) j
  rw [hone, hone (sectorid / 128), hone (sectorid / 128 / 128), hone (sectorid / 128 / 128 / 128),
    hlast]
  omega

theorem position_lt_iff (h : sectorid ≤ maxSectorid) :
    position hashTreeSectors 0 sectorid < 2 ^ 32 ↔ sectorid ≤ lastNumbered := by
  unfold maxSectorid at h
  rw [position_zero, before_eq_sum (by omega), lastNumbered]
  omega

theorem position_strictMono {t : ℕ} (h : t < sectorid) :
    position hashTreeSectors 0 t < position hashTreeSectors 0 sectorid := by
  rw [position_zero, position_zero]
  exact Nat.add_lt_add_of_lt_of_le h (before_mono (by decide) h.le)

/-- No node of the tree above the data is where a data sector is. -/
theorem position_ne (level id t : ℕ) :
    position hashTreeSectors (level + 1) id ≠ position hashTreeSectors 0 t := by
  intro heq
  have hk : 2 ≤ hashTreeSectors := by decide
  have hauth : (level + 1, id) ∈ prefixTo hashTreeSectors
      (max ((id + 1) * hashTreeSectors ^ (level + 1)) (t + 1)) :=
    (mem_prefixTo hk).2 (le_max_left _ _)
  have hdata : (0, t) ∈ prefixTo hashTreeSectors
      (max ((id + 1) * hashTreeSectors ^ (level + 1)) (t + 1)) := by
    refine (mem_prefixTo hk).2 ?_
    rw [pow_zero, Nat.mul_one]
    exact le_max_right _ _
  have hdis := (tiles_prefixTo hk Nat.one_pos _).disjoint hauth hdata
    fun h => absurd (congrArg Prod.fst h) (Nat.succ_ne_zero level)
  dsimp only at hdis
  omega

/-- The offset of an auth sector fits, when there may be a data sector behind those under it. -/
theorem authOffsetChecked_eq (hid : (id + 1) * hashTreeSectors ^ (level + 1) ≤ maxSectorid) :
    level < maxHashTreeLevel ∧ authOffsetChecked level id = some (authOffset level id) := by
  have hmax : maxSectorid < 2 ^ 32 := by decide
  have hlevel := level_lt hid
  refine ⟨hlevel, ?_⟩
  have hbefore := before_le (k := hashTreeSectors) (by decide) id
  have hone : 1 ≤ span hashTreeSectors (level + 1) * (id + 1) :=
    Nat.mul_pos (span_pos _ _) (Nat.succ_pos id)
  obtain ⟨hprod, hid25⟩ := span_mul_le (hid.trans_lt hmax)
  have hring : span hashTreeSectors (level + 1) * sectorSize * (id + 1) =
      span hashTreeSectors (level + 1) * (id + 1) * sectorSize := by ring
  rw [authOffset_eq hlevel (by omega), authOffsetChecked, fits_eq (by omega), bind_some,
    maxLevelSize_eq hlevel, hring, position]
  generalize span hashTreeSectors (level + 1) * (id + 1) = n at hone hprod ⊢
  have hsub : n * sectorSize - sectorSize = (n - 1) * sectorSize := by rw [Nat.sub_one_mul]
  rw [fits_eq (by unfold sectorSize; omega), bind_some,
    if_pos (Nat.le_mul_of_pos_left _ hone), hsub, sumChecked_eq, ← Nat.add_mul,
    Nat.sub_add_comm hone]
  · rw [hashTreeSectors_eq, sectorSize]
    omega
  · generalize before hashTreeSectors id = b at hbefore
    unfold sectorSize
    omega

/-! ## The places of the sectors -/

/-- Up to `lastNumbered` the places of sectors are right, and none behind it is. -/
theorem sectorPlaced_iff (h : sectorid ≤ maxSectorid) :
    SectorPlaced sectorid ↔ sectorid ≤ lastNumbered := by
  have hmax : ∀ t ≤ maxSectorid, t < 2 ^ 32 := fun t ht => ht.trans_lt (by decide)
  rw [← position_lt_iff h]
  constructor
  · intro hplaced
    have heq := hplaced.offset
    rw [dataOffsetBySectorid_eq, dataSectoridBySectorid_eq (hmax _ h)] at heq
    rw [← Nat.eq_of_mul_eq_mul_right (by decide : 0 < sectorSize) heq]
    exact Nat.mod_lt _ (by decide)
  · intro hlt
    have hnumber : dataSectoridBySectorid sectorid = position hashTreeSectors 0 sectorid := by
      rw [dataSectoridBySectorid_eq (hmax _ h), Nat.mod_eq_of_lt hlt]
    have hpos := position_zero (k := hashTreeSectors) sectorid
    refine ⟨?_, fun t ht => ?_, ?_, ?_, fun level id _ hcomplete => ?_⟩
    · rw [hnumber, dataOffsetBySectorid_eq]
    · rw [hnumber, dataSectoridBySectorid_eq (hmax t (ht.le.trans h))]
      exact (Nat.mod_le _ _).trans_lt (position_strictMono ht)
    · rw [dataSectoridChecked, sumChecked_eq, Nat.mul_one, ← hpos, hnumber]
      · exact (Nat.mul_one _).symm ▸ (Nat.div_le_self _ _).trans_lt (hmax _ h)
      · rwa [Nat.mul_one, ← hpos]
    · have hoff :
          sectorid * sectorSize + before hashTreeSectors sectorid * sectorSize < 2 ^ 64 := by
        rw [← Nat.add_mul, ← hpos, sectorSize]
        omega
      have hdiv := Nat.mul_le_mul_right sectorSize (Nat.div_le_self sectorid hashTreeSectors)
      rw [dataOffsetChecked, fits_eq ((Nat.le_add_right _ _).trans_lt hoff), bind_some,
        sumChecked_eq (hdiv.trans_lt ((Nat.le_add_right _ _).trans_lt hoff)) hoff, ← Nat.add_mul,
        ← hpos, dataOffsetBySectorid_eq]
    · obtain ⟨hlevel, hchecked⟩ := authOffsetChecked_eq hcomplete
      refine ⟨hchecked, fun t _ heq => ?_⟩
      rw [authOffset_eq hlevel (hmax _ hcomplete), dataOffsetBySectorid_eq] at heq
      exact position_ne level id t (Nat.eq_of_mul_eq_mul_right (by decide : 0 < sectorSize) heq)

theorem sectorPlaced_iff_last : lastNumbered ≤ maxSectorid ∧ SectorPlaced lastNumbered :=
  ⟨by decide, (sectorPlaced_iff (by decide)).2 le_rfl⟩

/-- The number of the next sector is that of the first one. -/
theorem not_sectorPlaced : 4261412865 ≤ maxSectorid ∧ dataSectoridBySectorid 4261412865 = 0 ∧
    dataOffsetBySectorid 4261412865 = 2 ^ 32 * sectorSize ∧ ¬ SectorPlaced 4261412865 := by
  have hpos : position hashTreeSectors 0 4261412865 = 2 ^ 32 := by
    rw [position_zero, before_eq_sum (by decide)]
    rfl
  have hnumber : dataSectoridBySectorid 4261412865 = 0 := by
    rw [dataSectoridBySectorid_eq (by decide), hpos, Nat.mod_self]
  have hoffset : dataOffsetBySectorid 4261412865 = 2 ^ 32 * sectorSize := by
    rw [dataOffsetBySectorid_eq, hpos]
  refine ⟨by decide, hnumber, hoffset, fun h => ?_⟩
  have heq := h.offset
  rw [hnumber, hoffset] at heq
  exact absurd heq (by decide)

end Pclsync.Crypto
