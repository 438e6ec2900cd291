import Mathlib.Data.Fintype.Basic
import Mathlib.Tactic.IntervalCases
import Pclsync.HashTree

/-!
# Layout of encrypted files

An encrypted file holds its data in sectors of 4096 bytes, and after each 128 of them a sector with
their authentication codes of 32 bytes; these auth sectors are themselves authenticated in groups
of 128, and so on, up to a master authentication code. The last auth sector of each level, which
may be short, is moved to the end of the file, below the master code.

* `offsetsByPlainsize`, `offsetsByCryptosize`: where the last auth sectors and the master code
  stand, by the size of the plain and by the size of the encrypted file.
* `cryptoSize`, `plainSize`: the size of one file by that of the other.
* `offsetsByPlainsize_eq`, `offsetsByCryptosize_eq`: both computations give the `layout` of the
  hash tree over the sectors.
-/

namespace Pclsync.Crypto

open HashTree Option

/-! ## Constants -/

def sectorSize : ℕ := 4096
def authSize : ℕ := 32
def hashTreeSectors : ℕ := sectorSize / authSize
def maxHashTreeLevel : ℕ := 6
def maxSectorid : ℕ := 2 ^ 32 - 2

theorem hashTreeSectors_eq : hashTreeSectors = 128 := rfl

/-- The table `max_level_size`, for levels up to `maxHashTreeLevel`. -/
def maxLevelSize (level : ℕ) : ℕ :=
  [0x1000, 0x81000, 0x4081000, 0x204081000, 0x10204081000, 0x810204081000,
    0x40810204081000].getD level 0

/-- The number of data sectors of a file of the given plain size. -/
def sectorCount (plainsize : ℕ) : ℕ := (plainsize + sectorSize - 1) / sectorSize

/-! ## Offsets -/

/-- `psync_crypto_offsets_t`. -/
@[ext]
structure Offsets where
  masterauthoff : ℕ
  plainsize : ℕ
  lastauthsectoroff : Fin maxHashTreeLevel → ℕ
  lastauthsectorlen : Fin maxHashTreeLevel → ℕ
  treelevels : ℕ
  needmasterauth : Bool
  deriving DecidableEq

/-- The offsets after `memset`. -/
def Offsets.zero : Offsets := ⟨0, 0, fun _ => 0, fun _ => 0, 0, false⟩

/-- The assignment of the entry of a level in both arrays; a level past their end is an access
    out of bounds. -/
def Offsets.setLevel (o : Offsets) (level off len : ℕ) : Option Offsets :=
  if h : level < maxHashTreeLevel then
    some { o with
      lastauthsectoroff := Function.update o.lastauthsectoroff ⟨level, h⟩ off
      lastauthsectorlen := Function.update o.lastauthsectorlen ⟨level, h⟩ len }
  else none

/-- The loop of `psync_fs_crypto_data_offset_by_sectorid`. -/
def dataOffsetLoop (sectorid off : ℕ) : ℕ :=
  if hashTreeSectors ≤ sectorid then
    dataOffsetLoop (sectorid / hashTreeSectors) (off + sectorid / hashTreeSectors * sectorSize)
  else off
termination_by sectorid
decreasing_by
  rw [hashTreeSectors_eq] at *
  omega

/-- The offset of a data sector, which is past the auth sectors of the full groups before it. -/
def dataOffsetBySectorid (sectorid : ℕ) : ℕ :=
  dataOffsetLoop sectorid (sectorid * sectorSize)

/-- The loop of `offsetsByPlainsize`: `size` nodes are left at `level`; the results are the
    offsets, the offset after them and the number of levels. -/
def plainLoop (size off level : ℕ) (o : Offsets) : Option (Offsets × ℕ × ℕ) :=
  let sz := size % hashTreeSectors
  let size' := (size + hashTreeSectors - 1) / hashTreeSectors
  let sz := (if sz = 0 then hashTreeSectors else sz) * authSize
  (o.setLevel level off sz).bind fun o =>
    if 1 < size' then plainLoop size' (off + sz) (level + 1) o
    else some (o, off + sz, level + 1)
termination_by size
decreasing_by
  rename_i h
  simp only [hashTreeSectors_eq, size'] at *
  omega

/-- `psync_fs_crypto_offsets_by_plainsize`, without a result when it leaves the arrays. Sizes are
    64-bit, ids of sectors 32-bit. -/
def offsetsByPlainsize (size : ℕ) : Option Offsets :=
  let o := { Offsets.zero with plainsize := size, needmasterauth := sectorSize < size }
  if size = 0 then some o
  else
    let lastsectorid := size / sectorSize % 2 ^ 32
    let lastsectorsize := size % sectorSize
    let last := if lastsectorsize = 0 then ((lastsectorid + 2 ^ 32 - 1) % 2 ^ 32, sectorSize)
      else (lastsectorid, lastsectorsize)
    let off := dataOffsetBySectorid last.1 + last.2
    (plainLoop ((size + sectorSize - 1) % 2 ^ 64 / sectorSize) off 0 o).bind fun (o, off, level) =>
      (o.setLevel level off authSize).map fun o =>
        { o with masterauthoff := off, treelevels := level }

/-- The search for the level in `offsetsByCryptosize`: the first one, from `level` on, whose full
    subtree is not smaller than the file. The assertion fails when there is none. -/
def findLevel (size level : ℕ) : Option ℕ :=
  if level ≤ maxHashTreeLevel then
    if size ≤ maxLevelSize level then some level
    else findLevel size (level + 1)
  else none
termination_by maxHashTreeLevel + 1 - level

/-- The loop of `offsetsByCryptosize` from `level` down: `size` is what is left of the file, `off`
    the offset of the last auth sectors written. -/
def cryptoLoop : (level size off : ℕ) → Offsets → Option Offsets
  | 0, size, _, o => some { o with plainsize := size }
  | level + 1, size, off, o =>
    let m := maxLevelSize level
    let cnt := (size + m + authSize - 1) / (m + authSize)
    let size := size - cnt * authSize
    let cnt := cnt % hashTreeSectors
    let cnt := if cnt = 0 then hashTreeSectors else cnt
    let off := off - cnt * authSize
    (o.setLevel level off (cnt * authSize)).bind fun o => cryptoLoop level size off o

/-- `psync_fs_crypto_offsets_by_cryptosize`, without a result when its assertion fails or it
    leaves the arrays. -/
def offsetsByCryptosize (size : ℕ) : Option Offsets :=
  if size ≤ authSize then some Offsets.zero
  else
    let needmasterauth := decide (sectorSize + authSize < size)
    let size := if needmasterauth then size - authSize else size
    (findLevel size 1).bind fun level =>
      (({ Offsets.zero with
          needmasterauth := needmasterauth, masterauthoff := size,
          treelevels := level } : Offsets).setLevel level size authSize).bind fun o =>
        cryptoLoop level size size o

/-- `psync_fs_crypto_plain_size`. -/
def plainSize (cryptosize : ℕ) : Option ℕ :=
  (offsetsByCryptosize cryptosize).map Offsets.plainsize

/-- `psync_fs_crypto_crypto_size`. -/
def cryptoSize (plainsize : ℕ) : Option ℕ :=
  (offsetsByPlainsize plainsize).map fun o =>
    o.masterauthoff + if o.needmasterauth then authSize else 0

/-! ## The layout of a file -/

variable {n N l L m : ℕ} {o : Offsets}

/-- The length of the last auth sector of a level. -/
def lastLen (N l : ℕ) : ℕ := ((nodes hashTreeSectors N l - 1) % hashTreeSectors + 1) * authSize

/-- The offset of the last auth sector of the level `l`, of `L`: before it come the data, the
    authentication codes of the levels below, and the full auth sectors of its level and of those
    above. -/
def lastOff (n N L l : ℕ) : ℕ :=
  total hashTreeSectors authSize n N l + full hashTreeSectors N l (L - l) * sectorSize

/-- The offsets with the entries of the levels from `a` to `b` replaced. -/
def Offsets.fill (o : Offsets) (off len : ℕ → ℕ) (a b : ℕ) : Offsets :=
  { o with
    lastauthsectoroff := fun i => if a ≤ i ∧ i < b then off i else o.lastauthsectoroff i
    lastauthsectorlen := fun i => if a ≤ i ∧ i < b then len i else o.lastauthsectorlen i }

/-- The offsets of a file of `n` bytes in `N` sectors whose hash tree has `L` levels. -/
def layout (n N L : ℕ) : Offsets :=
  { Offsets.zero.fill (lastOff n N L) (lastLen N) 0 (L + 1) with
    masterauthoff := total hashTreeSectors authSize n N L
    plainsize := n
    treelevels := L
    needmasterauth := sectorSize < n }

theorem Offsets.fill_self (off len : ℕ → ℕ) (a : ℕ) : o.fill off len a a = o := by
  have h : ∀ i, ¬ (a ≤ i ∧ i < a) := fun i h => absurd (h.1.trans_lt h.2) (lt_irrefl _)
  simp [Offsets.fill, h]

/-- The entries of adjacent levels may be written in any order. -/
theorem Offsets.fill_fill (off len : ℕ → ℕ) {a b c d e : ℕ}
    (h : ∀ i, (d ≤ i ∧ i < e) ↔ (a ≤ i ∧ i < b) ∨ (b ≤ i ∧ i < c)) :
    (o.fill off len a b).fill off len b c = o.fill off len d e ∧
      (o.fill off len b c).fill off len a b = o.fill off len d e := by
  constructor <;> refine Offsets.ext rfl rfl (funext fun i => ?_) (funext fun i => ?_) rfl rfl
  all_goals
    simp only [Offsets.fill, h]
    by_cases h1 : a ≤ (i : ℕ) ∧ (i : ℕ) < b <;> by_cases h2 : b ≤ (i : ℕ) ∧ (i : ℕ) < c <;>
      simp [h1, h2]

theorem Offsets.setLevel_eq (off len : ℕ → ℕ) (hl : l < maxHashTreeLevel) :
    o.setLevel l (off l) (len l) = some (o.fill off len l (l + 1)) := by
  have h : ∀ i : Fin maxHashTreeLevel, (l ≤ i ∧ (i : ℕ) < l + 1) ↔ i = ⟨l, hl⟩ := fun i => by
    rw [Fin.ext_iff, Nat.lt_succ_iff, le_antisymm_iff, and_comm]
  rw [Offsets.setLevel, dif_pos hl]
  refine congrArg some (Offsets.ext rfl rfl (funext fun i => ?_) (funext fun i => ?_) rfl rfl)
  all_goals
    simp only [Offsets.fill, h, Function.update_apply]
    split_ifs with hi <;> simp [hi]

/-! ## What the loops compute -/

section Loops

variable {off : ℕ} (h : IsHeight hashTreeSectors N L) (hN : 0 < N)

theorem hashTreeSectors_pos : 0 < hashTreeSectors := by decide

theorem lastOff_top : lastOff n N L L = total hashTreeSectors authSize n N L := by
  rw [lastOff, Nat.sub_self, full, Nat.zero_mul, Nat.add_zero]

include hN in
/-- The last auth sectors follow each other, from the lowest level to the highest. -/
theorem lastOff_add (hl : l < L) : lastOff n N L l + lastLen N l = lastOff n N L (l + 1) := by
  have hs := nodes_succ_sub_one (l := l) hashTreeSectors_pos hN
  have hp := nodes_pos (l := l) hashTreeSectors_pos hN
  have hm := Nat.div_add_mod (nodes hashTreeSectors N l - 1) hashTreeSectors
  have hL : L - l = L - (l + 1) + 1 := by omega
  -- The digests of a level: those of its full groups, and those of the last group.
  have hg : (nodes hashTreeSectors N (l + 1) - 1) * sectorSize + lastLen N l =
      nodes hashTreeSectors N l * authSize := by
    rw [hs, lastLen]
    rw [hashTreeSectors_eq] at *
    simp only [sectorSize, authSize]
    omega
  rw [lastOff, lastOff, hL, full, total_succ, ← hg]
  ring

variable (off) in
include h hN in
theorem dataOffsetLoop_eq (hm : l + m = L) : dataOffsetLoop (nodes hashTreeSectors N l - 1) off =
      off + full hashTreeSectors N l m * sectorSize := by
  have hs := nodes_succ_sub_one (l := l) hashTreeSectors_pos hN
  induction m generalizing l off with
  | zero =>
    obtain rfl : l = L := hm
    rw [h.top, dataOffsetLoop, if_neg (by decide), full, Nat.zero_mul, Nat.add_zero]
  | succ m ih =>
    have hs' := nodes_succ_sub_one (l := l + 1) hashTreeSectors_pos hN
    rw [dataOffsetLoop, full, ← hs]
    split_ifs with hlt
    · rw [ih _ (by omega) hs', Nat.add_mul, Nat.add_assoc]
    · -- The sector is in the first group, and so are its ancestors.
      have h0 : nodes hashTreeSectors N (l + 1) - 1 = 0 :=
        hs.trans (Nat.div_eq_of_lt (not_le.1 hlt))
      have := ih off (by omega) hs'
      rw [h0, dataOffsetLoop, if_neg (by decide)] at this
      rw [h0, Nat.zero_add]
      exact this

/-- The length computed by the loops is that of the last group. -/
theorem lastLen_eq (hN : 0 < N) :
    (if nodes hashTreeSectors N l % hashTreeSectors = 0 then hashTreeSectors
      else nodes hashTreeSectors N l % hashTreeSectors) * authSize = lastLen N l := by
  have hp := nodes_pos (l := l) hashTreeSectors_pos hN
  rw [lastLen]
  congr 1
  rw [hashTreeSectors_eq] at *
  split_ifs <;> omega

include h hN in
/-- From the level `l` on, the loop of `offsetsByPlainsize` writes the entries of all levels. -/
theorem plainLoop_eq (hm : l + m + 1 = L) (hL : L < maxHashTreeLevel) :
    plainLoop (nodes hashTreeSectors N l) (lastOff n N L l) l o =
      some (o.fill (lastOff n N L) (lastLen N) l L, lastOff n N L L, L) := by
  induction m generalizing l o with
  | zero =>
    obtain rfl : l + 1 = L := hm
    rw [plainLoop]
    simp only [lastLen_eq hN, ← nodes_succ, h.top, lt_irrefl, if_false]
    rw [Offsets.setLevel_eq (lastOff n N (l + 1)) (lastLen N) (by omega), bind_some,
      lastOff_add hN (Nat.lt_succ_self l)]
  | succ m ih =>
    have hlt : 1 < nodes hashTreeSectors N (l + 1) := h.below _ (by omega) (by omega)
    rw [plainLoop]
    simp only [lastLen_eq hN, ← nodes_succ, hlt, if_true]
    rw [Offsets.setLevel_eq (lastOff n N L) (lastLen N) (by omega), bind_some,
      lastOff_add hN (by omega), ih (by omega)]
    rw [(Offsets.fill_fill (d := l) (e := L) _ _ fun i => by omega).1]

include hN in
/-- From the level `l` down, the loop of `offsetsByCryptosize` recovers the number of nodes of each
    level from what is left of the file. -/
theorem cryptoLoop_eq (hn : (N - 1) * sectorSize < n) (hn' : n ≤ N * sectorSize) (hl : l ≤ L)
    (hL : L < maxHashTreeLevel) :
    cryptoLoop l (total hashTreeSectors authSize n N l) (lastOff n N L l) o =
      some { o.fill (lastOff n N L) (lastLen N) 0 l with plainsize := n } := by
  induction l generalizing o with
  | zero => rw [cryptoLoop, Offsets.fill_self, total_zero]
  | succ l ih =>
    have hcap : maxLevelSize l = capacity hashTreeSectors authSize l := by
      have : l < 6 := by unfold maxHashTreeLevel at hL; omega
      interval_cases l <;> rfl
    have hcnt := nodes_eq_ceilDiv (l := l) hashTreeSectors_pos (d := authSize) (by decide) hN
      (n := n) hn hn'
    have hsub : total hashTreeSectors authSize n N (l + 1) - nodes hashTreeSectors N l * authSize =
        total hashTreeSectors authSize n N l := by rw [total_succ, Nat.add_sub_cancel]
    have hoff : lastOff n N L (l + 1) - lastLen N l = lastOff n N L l := by
      rw [← lastOff_add hN (by omega), Nat.add_sub_cancel]
    rw [cryptoLoop]
    simp only [hcap, hcnt, hsub, lastLen_eq hN, hoff]
    rw [Offsets.setLevel_eq (lastOff n N L) (lastLen N) (by omega), bind_some,
      ih (by omega)]
    rw [(Offsets.fill_fill (d := 0) (e := l + 1) _ _ fun i => by omega).2]

end Loops

/-! ## Both computations give the layout -/

section Layout

variable (h : IsHeight hashTreeSectors N L) (hL : L < maxHashTreeLevel)
  (hn : (N - 1) * sectorSize < n) (hn' : n ≤ N * sectorSize)

include h hL in
/-- The entries left to write after the loops are those of the top level. -/
theorem setLevel_top : o.setLevel L (lastOff n N L L) authSize =
    some (o.fill (lastOff n N L) (lastLen N) L (L + 1)) := by
  have hlen : lastLen N L = authSize := by rw [lastLen, h.top]; rfl
  rw [← Offsets.setLevel_eq _ _ hL, hlen]

include h hL hn hn' in
theorem offsetsByPlainsize_eq (hN : N ≤ maxSectorid) :
    offsetsByPlainsize n = some (layout n N L) := by
  have hN0 : 0 < N := by
    by_contra h0
    obtain rfl : N = 0 := by omega
    omega
  have hcount : (n + sectorSize - 1) % 2 ^ 64 / sectorSize = N := by
    unfold maxSectorid at hN
    unfold sectorSize at *
    omega
  -- The last sector, with its id of 32 bits and its length.
  have hlast : (if n % sectorSize = 0 then
        ((n / sectorSize % 2 ^ 32 + 2 ^ 32 - 1) % 2 ^ 32, sectorSize)
      else (n / sectorSize % 2 ^ 32, n % sectorSize)) = (N - 1, n - (N - 1) * sectorSize) := by
    unfold maxSectorid at hN
    unfold sectorSize at *
    split_ifs <;> refine Prod.ext ?_ ?_ <;> dsimp only <;> omega
  have hoff : dataOffsetBySectorid (N - 1) + (n - (N - 1) * sectorSize) = lastOff n N L 0 := by
    have := dataOffsetLoop_eq ((N - 1) * sectorSize) h hN0 (Nat.zero_add L)
    rw [dataOffsetBySectorid]
    rw [nodes_zero] at this
    rw [this, lastOff, total_zero, Nat.sub_zero]
    omega
  have hpos := h.pos
  have hloop := fun o => plainLoop_eq (o := o) (n := n) (l := 0) (m := L - 1) h hN0 (by omega) hL
  rw [offsetsByPlainsize, if_neg (by omega)]
  simp only [hcount, hlast, hoff]
  rw [nodes_zero] at hloop
  rw [hloop, bind_some]
  dsimp only
  rw [setLevel_top h hL, (Offsets.fill_fill (d := 0) (e := L + 1) _ _ fun i => by omega).1,
    lastOff_top]
  rfl

/-- The size of the encrypted file of a layout. -/
def layoutSize (n N L : ℕ) : ℕ :=
  total hashTreeSectors authSize n N L + if sectorSize < n then authSize else 0

include h hL hn hn' in
theorem findLevel_eq (hl : 1 ≤ l) (hlL : l ≤ L) :
    findLevel (total hashTreeSectors authSize n N L) l = some L := by
  have hN0 : 0 < N := by
    by_contra h0
    obtain rfl : N = 0 := by omega
    omega
  have hcap : ∀ l ≤ maxHashTreeLevel, maxLevelSize l = capacity hashTreeSectors authSize l := by
    decide
  induction hlL using Nat.decreasingInduction with
  | self =>
    have hle := total_le (l := L) hashTreeSectors_pos (d := authSize) hN0 (n := n) hn'
    rw [h.top, Nat.one_mul] at hle
    rw [findLevel, if_pos hL.le, hcap _ hL.le, if_pos hle]
  | of_succ l hlt ih =>
    -- Below the height there are two nodes, so that the first one is full.
    have hlo := lt_total (l := l) hashTreeSectors_pos (d := authSize) hN0 (n := n) hn
    have hmono : total hashTreeSectors authSize n N l ≤ total hashTreeSectors authSize n N L :=
      total_mono hlt.le
    have hmul := Nat.le_mul_of_pos_left (capacity hashTreeSectors authSize l)
      (Nat.sub_pos_of_lt (h.below l hl hlt))
    rw [findLevel, if_pos (by omega), hcap _ (by omega), if_neg (by omega)]
    exact ih (by omega)

include h hL hn hn' in
theorem offsetsByCryptosize_eq : offsetsByCryptosize (layoutSize n N L) = some (layout n N L) := by
  have hN0 : 0 < N := by
    by_contra h0
    obtain rfl : N = 0 := by omega
    omega
  have hpos := h.pos
  -- At least one digest stands after the data, and two when there is more than one sector.
  have h1 : n + N * authSize ≤ total hashTreeSectors authSize n N L :=
    total_mono (l := 1) hpos
  have h2 : n ≤ sectorSize → total hashTreeSectors authSize n N L = n + authSize := fun hle => by
    obtain rfl : N = 1 := by unfold sectorSize at *; omega
    have hL1 : ¬ 1 < L := fun hlt => absurd (h.below 1 le_rfl hlt) (by decide)
    obtain rfl : L = 1 := by omega
    rw [total_succ, total_zero, nodes_zero, Nat.one_mul]
  have hneed : sectorSize + authSize < layoutSize n N L ↔ sectorSize < n := by
    rw [layoutSize]
    split_ifs with hlt
    · unfold sectorSize authSize at *
      omega
    · rw [h2 (not_lt.1 hlt)]
      omega
  have hsize : (if sectorSize + authSize < layoutSize n N L then layoutSize n N L - authSize
      else layoutSize n N L) = total hashTreeSectors authSize n N L := by
    simp only [hneed]
    rw [layoutSize]
    split_ifs
    · rw [Nat.add_sub_cancel]
    · rw [Nat.add_zero]
  have hbig : ¬ layoutSize n N L ≤ authSize := by
    rw [layoutSize]
    unfold sectorSize authSize at *
    omega
  rw [offsetsByCryptosize, if_neg hbig]
  simp only [decide_eq_true_eq, hsize, findLevel_eq h hL hn hn' le_rfl hpos, bind_some]
  rw [← lastOff_top (n := n) (N := N) (L := L), setLevel_top h hL, bind_some]
  nth_rewrite 1 [lastOff_top]
  rw [cryptoLoop_eq hN0 hn hn' le_rfl hL,
    (Offsets.fill_fill (d := 0) (e := L + 1) _ _ fun i => by omega).2]
  simp only [hneed, lastOff_top]
  rfl

end Layout

/-! ## The two computations agree -/

/-- A file within the bounds has a layout: five levels of 128 are enough for ids of 32 bits. -/
theorem exists_layout (n : ℕ) (hpos : 0 < n) (hn : sectorCount n ≤ maxSectorid) :
    ∃ L < maxHashTreeLevel, IsHeight hashTreeSectors (sectorCount n) L ∧
      (sectorCount n - 1) * sectorSize < n ∧ n ≤ sectorCount n * sectorSize ∧
      0 < sectorCount n := by
  have hN0 : 0 < sectorCount n := by unfold sectorCount sectorSize; omega
  have hlo : (sectorCount n - 1) * sectorSize < n := by unfold sectorCount sectorSize at *; omega
  have hhi : n ≤ sectorCount n * sectorSize := by unfold sectorCount sectorSize; omega
  have hB : sectorCount n ≤ hashTreeSectors ^ 5 := hn.trans (by decide)
  obtain ⟨L, hL, h⟩ := exists_isHeight hashTreeSectors_pos hN0 (by decide) hB
  exact ⟨L, Nat.lt_succ_of_le hL, h, hlo, hhi, hN0⟩

/-- Both computations give the same offsets for a file of at most `maxSectorid` sectors, and its
    sizes are those of each other. -/
theorem offsets_agree (n : ℕ) (hn : sectorCount n ≤ maxSectorid) :
    ∃ o c, offsetsByPlainsize n = some o ∧ cryptoSize n = some c ∧ plainSize c = some n ∧
      offsetsByCryptosize c = some o := by
  rcases Nat.eq_zero_or_pos n with rfl | hpos
  · exact ⟨Offsets.zero, 0, by decide, by decide, by decide, by decide⟩
  obtain ⟨L, hL, h, hlo, hhi, -⟩ := exists_layout n hpos hn
  have hplain := offsetsByPlainsize_eq h hL hlo hhi hn
  have hcrypto := offsetsByCryptosize_eq h hL hlo hhi
  refine ⟨layout n (sectorCount n) L, layoutSize n (sectorCount n) L, hplain, ?_, ?_, hcrypto⟩
  · rw [cryptoSize, hplain]
    simp [layout, layoutSize]
  · rw [plainSize, hcrypto]
    rfl

theorem offsets_agree_two_levels : sectorCount (129 * 4096 - 5) ≤ maxSectorid ∧
      ∃ o c, offsetsByPlainsize (129 * 4096 - 5) = some o ∧ cryptoSize (129 * 4096 - 5) = some c ∧
        plainSize c = some (129 * 4096 - 5) ∧ offsetsByCryptosize c = some o :=
  ⟨by decide, offsets_agree _ (by decide)⟩

end Pclsync.Crypto
