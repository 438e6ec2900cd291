import Pclsync.Crypto.Layout
import Pclsync.PostOrder

/-!
# The sectors of an encrypted file

The data sectors and the auth sectors of all levels stand in the order in which they are complete,
each auth sector after the last one of its children; the last auth sectors of the levels, which may
be short, follow the last data sector. So they tile the file (`sectors_tile`), and the
authenticators in them stand at different places.

* `authOffset`, `getAuthSectorOff`: where an auth sector and an authenticator stand.
* `Sector`, `Offsets.place`: the sectors and the bytes that the functions give to them.
-/

namespace Pclsync.Crypto

open HashTree PostOrder
open List hiding span

/-! ## Offsets of auth sectors -/

/-- `get_last_sectorid_by_size`. -/
def getLastSectoridBySize (size : ℕ) : ℕ := if size = 0 then 0 else (size - 1) / sectorSize % 2 ^ 32

/-- The loop of `authOffset`; the product is one of 32 bits. -/
def authOffsetLoop (id ret : ℕ) : ℕ :=
  if hashTreeSectors ≤ id then
    authOffsetLoop (id / hashTreeSectors)
      ((ret + id / hashTreeSectors * sectorSize % 2 ^ 32) % 2 ^ 64)
  else ret
termination_by id
decreasing_by
  rw [hashTreeSectors_eq] at *
  omega

/-- `psync_fs_crypto_auth_offset`. -/
def authOffset (level id : ℕ) : ℕ :=
  authOffsetLoop id
    ((maxLevelSize (level + 1) * ((id + 1) % 2 ^ 32) + 2 ^ 64 - sectorSize) % 2 ^ 64)

/-- The loop of `getAuthSectorOff`, with `i` rounds left. -/
def authSectorLoop : (i sizesecd secd aid : ℕ) → ℕ × ℕ × ℕ
  | 0, sizesecd, secd, aid => (sizesecd, secd, aid)
  | i + 1, sizesecd, secd, _ =>
    authSectorLoop i (sizesecd / hashTreeSectors) (secd / hashTreeSectors) (secd % hashTreeSectors)

/-- `psync_fs_crypto_get_auth_sector_off`: the offset and the size of the auth sector, and the
    number of the authenticator in it. -/
def getAuthSectorOff (sectorid level : ℕ) (o : Offsets) : Option (ℕ × ℕ × ℕ) :=
  let r := authSectorLoop level (getLastSectoridBySize o.plainsize / hashTreeSectors)
    (sectorid / hashTreeSectors) (sectorid % hashTreeSectors)
  if r.2.1 = r.1 then
    if h : level < maxHashTreeLevel then
      some (o.lastauthsectoroff ⟨level, h⟩, o.lastauthsectorlen ⟨level, h⟩, r.2.2)
    else none
  else if r.2.1 < r.1 then some (authOffset level r.2.1, sectorSize, r.2.2)
  else none

/-! ## Sectors -/

inductive Sector
  | data (sectorid : ℕ)
  | auth (level id : ℕ)
  | master
  deriving DecidableEq

/-- The offset and the length of a sector. -/
def Offsets.place (o : Offsets) : Sector → ℕ × ℕ
  | .data sectorid =>
    (dataOffsetBySectorid sectorid, min sectorSize (o.plainsize - sectorid * sectorSize))
  | .auth level id =>
    match getAuthSectorOff (id * hashTreeSectors ^ (level + 1)) level o with
    | some (offset, size, _) => (offset, size)
    | none => (0, 0)
  | .master => (o.masterauthoff, authSize)

/-- The sectors of a file: the auth sectors are those above a data sector. -/
def Sector.InFile (o : Offsets) : Sector → Prop
  | .data sectorid => sectorid < sectorCount o.plainsize
  | .auth level id => level < o.treelevels ∧
      ∃ sectorid < sectorCount o.plainsize, id = sectorid / hashTreeSectors ^ (level + 1)
  | .master => o.needmasterauth = true

/-- The place of the authenticator of what is at the level above the sector. -/
def entryOff (sectorid level : ℕ) (o : Offsets) : Option ℕ :=
  (getAuthSectorOff sectorid level o).map fun r => r.1 + r.2.2 * authSize

/-! ## What the functions compute -/

theorem authSectorLoop_eq (i sizesecd secd aid : ℕ) : authSectorLoop i sizesecd secd aid =
      (sizesecd / hashTreeSectors ^ i, secd / hashTreeSectors ^ i,
        if i = 0 then aid else secd / hashTreeSectors ^ (i - 1) % hashTreeSectors) := by
  induction i generalizing sizesecd secd aid with
  | zero => simp [authSectorLoop]
  | succ i ih =>
    rw [authSectorLoop, ih, Nat.div_div_eq_div_mul, Nat.div_div_eq_div_mul, ← pow_succ',
      if_neg (Nat.succ_ne_zero i), Nat.add_sub_cancel]
    rcases i with - | i
    · simp
    · rw [if_neg (Nat.succ_ne_zero i), Nat.add_sub_cancel, Nat.div_div_eq_div_mul, ← pow_succ']

/-- The auth sector, and the authenticator in it, by division. -/
theorem getAuthSectorOff_eq (sectorid level : ℕ) (o : Offsets) : getAuthSectorOff sectorid level o =
      let last := getLastSectoridBySize o.plainsize / hashTreeSectors ^ (level + 1)
      let id := sectorid / hashTreeSectors ^ (level + 1)
      let aid := sectorid / hashTreeSectors ^ level % hashTreeSectors
      if id = last then
        if h : level < maxHashTreeLevel then
          some (o.lastauthsectoroff ⟨level, h⟩, o.lastauthsectorlen ⟨level, h⟩, aid)
        else none
      else if id < last then some (authOffset level id, sectorSize, aid)
      else none := by
  have haid : (if level = 0 then sectorid % hashTreeSectors
      else sectorid / hashTreeSectors / hashTreeSectors ^ (level - 1) % hashTreeSectors) =
      sectorid / hashTreeSectors ^ level % hashTreeSectors := by
    rcases level with - | level
    · simp
    · rw [if_neg (Nat.succ_ne_zero level), Nat.add_sub_cancel, Nat.div_div_eq_div_mul, ← pow_succ']
  rw [getAuthSectorOff, authSectorLoop_eq, haid]
  simp only [Nat.div_div_eq_div_mul, ← pow_succ']

theorem dataOffsetLoop_eq_before (sectorid off : ℕ) :
    dataOffsetLoop sectorid off = off + before hashTreeSectors sectorid * sectorSize := by
  induction sectorid using Nat.strong_induction_on generalizing off with
  | _ sectorid ih =>
    rw [dataOffsetLoop]
    split_ifs with hle
    · have hlt : sectorid / hashTreeSectors < sectorid := by
        rw [hashTreeSectors_eq] at *
        omega
      rw [ih _ hlt, before_eq (by decide) sectorid]
      ring
    · rw [before, if_neg fun h => hle h.2, Nat.zero_mul, Nat.add_zero]

theorem dataOffsetBySectorid_eq (sectorid : ℕ) :
    dataOffsetBySectorid sectorid = position hashTreeSectors 0 sectorid * sectorSize := by
  rw [dataOffsetBySectorid, dataOffsetLoop_eq_before, position_zero]
  ring

/-- The loop computes without overflow below the bounds for ids. -/
theorem authOffsetLoop_eq {id ret : ℕ} (hid : id < 2 ^ 27)
    (hret : ret + before hashTreeSectors id * sectorSize < 2 ^ 64) :
    authOffsetLoop id ret = ret + before hashTreeSectors id * sectorSize := by
  induction id using Nat.strong_induction_on generalizing ret with
  | _ id ih =>
    rw [authOffsetLoop]
    split_ifs with hle
    · have hlt : id / hashTreeSectors < id := by
        rw [hashTreeSectors_eq] at *
        omega
      have hmul :
          id / hashTreeSectors * sectorSize % 2 ^ 32 = id / hashTreeSectors * sectorSize := by
        refine Nat.mod_eq_of_lt ?_
        rw [hashTreeSectors_eq, sectorSize]
        omega
      rw [before_eq (by decide) id, Nat.add_mul, ← Nat.add_assoc] at hret
      have hsum : ret + id / hashTreeSectors * sectorSize < 2 ^ 64 := by omega
      rw [hmul, Nat.mod_eq_of_lt hsum, ih _ hlt (hlt.trans hid) hret, before_eq (by decide) id]
      ring
    · rw [before, if_neg fun h => hle h.2, Nat.zero_mul, Nat.add_zero]

/-- The levels of the auth sectors that are complete before a data sector. -/
theorem level_lt {level id : ℕ} (h : (id + 1) * hashTreeSectors ^ (level + 1) ≤ maxSectorid) :
    level < maxHashTreeLevel := by
  have hmax : maxSectorid < 2 ^ 32 := by decide
  by_contra hle
  have hmono : hashTreeSectors ^ 5 ≤ hashTreeSectors ^ (level + 1) :=
    Nat.pow_le_pow_right hashTreeSectors_pos (by unfold maxHashTreeLevel at hle; omega)
  have hge : hashTreeSectors ^ (level + 1) ≤ (id + 1) * hashTreeSectors ^ (level + 1) :=
    Nat.le_mul_of_pos_left _ (Nat.succ_pos id)
  have hfive : hashTreeSectors ^ 5 = 2 ^ 35 := by decide
  omega

/-- The nodes up to an auth sector, for data sectors of 32 bits. -/
theorem span_mul_le {level id : ℕ} (h : (id + 1) * hashTreeSectors ^ (level + 1) < 2 ^ 32) :
    span hashTreeSectors (level + 1) * (id + 1) ≤ 2 ^ 33 ∧ id < 2 ^ 25 := by
  have hspan := span_le (k := hashTreeSectors) (by decide) (level + 1)
  have hlow : (id + 1) * hashTreeSectors ≤ (id + 1) * hashTreeSectors ^ (level + 1) :=
    Nat.mul_le_mul_left _ (Nat.le_self_pow (Nat.succ_ne_zero level) _)
  constructor
  · calc span hashTreeSectors (level + 1) * (id + 1)
        ≤ 2 * hashTreeSectors ^ (level + 1) * (id + 1) := Nat.mul_le_mul_right _ (by omega)
      _ = 2 * ((id + 1) * hashTreeSectors ^ (level + 1)) := by ring
      _ ≤ 2 ^ 33 := by omega
  · rw [hashTreeSectors_eq] at hlow h
    omega

theorem maxLevelSize_eq {level : ℕ} (h : level ≤ maxHashTreeLevel) :
    maxLevelSize level = span hashTreeSectors level * sectorSize := by
  unfold maxHashTreeLevel at h
  interval_cases level <;> rfl

/-- An auth sector that is not the last one of its level stands after its last child. -/
theorem authOffset_eq {level id : ℕ} (hl : level < maxHashTreeLevel)
    (hid : (id + 1) * hashTreeSectors ^ (level + 1) < 2 ^ 32) :
    authOffset level id = position hashTreeSectors (level + 1) id * sectorSize := by
  have hbefore := before_le (k := hashTreeSectors) (by decide) id
  have hone : 1 ≤ span hashTreeSectors (level + 1) * (id + 1) :=
    Nat.mul_pos (span_pos _ _) (Nat.succ_pos id)
  obtain ⟨hprod, hid25⟩ := span_mul_le hid
  have hmod : (id + 1) % 2 ^ 32 = id + 1 := Nat.mod_eq_of_lt (by omega)
  have hring : span hashTreeSectors (level + 1) * sectorSize * (id + 1) =
      span hashTreeSectors (level + 1) * (id + 1) * sectorSize := by ring
  rw [authOffset, hmod, maxLevelSize_eq hl, position, hring]
  generalize span hashTreeSectors (level + 1) * (id + 1) = p at hone hprod ⊢
  have hstart : (p * sectorSize + 2 ^ 64 - sectorSize) % 2 ^ 64 = (p - 1) * sectorSize := by
    unfold sectorSize
    omega
  have hbound : (p - 1) * sectorSize + before hashTreeSectors id * sectorSize < 2 ^ 64 := by
    generalize before hashTreeSectors id = b at hbefore
    unfold sectorSize
    omega
  have hsub : p - 1 + before hashTreeSectors id = p + before hashTreeSectors id - 1 := by omega
  rw [hstart, authOffsetLoop_eq (by omega) hbound, ← Nat.add_mul, hsub]

/-! ## The tiling -/

variable {n N L l : ℕ}

/-- The sector of a node of the tree over the data sectors. -/
def ofNode : ℕ × ℕ → Sector
  | (0, sectorid) => .data sectorid
  | (level + 1, id) => .auth level id

/-- The sectors of a file of `N` data sectors and `L` levels but the master authenticator, in the
    order of the file. -/
def treeSectors (N L : ℕ) : List Sector :=
  (prefixTo hashTreeSectors (N - 1)).map ofNode ++ .data (N - 1) ::
    (List.range L).map fun level => .auth level ((N - 1) / hashTreeSectors ^ (level + 1))

def fileSectors (n N L : ℕ) : List Sector :=
  treeSectors N L ++ if sectorSize < n then [.master] else []

section Layout

variable (h : IsHeight hashTreeSectors N L) (hL : L < maxHashTreeLevel)
  (hn : (N - 1) * sectorSize < n) (hn' : n ≤ N * sectorSize) (hN : N ≤ maxSectorid)

include hn hn' hN in
theorem lastSectorid_eq : getLastSectoridBySize n = N - 1 := by
  unfold maxSectorid at hN
  unfold sectorSize at hn hn'
  rw [getLastSectoridBySize, if_neg (by omega), sectorSize]
  omega

include hn hn' in
theorem sectorCount_eq : sectorCount n = N := by
  rw [sectorCount]
  unfold sectorSize at *
  omega

include hn hn' hN in
/-- A sector that is complete before the last data sector. -/
theorem place_ofNode {k j : ℕ} (hj : (j + 1) * hashTreeSectors ^ k ≤ N - 1) :
    (layout n N L).place (ofNode (k, j)) =
      (position hashTreeSectors k j * sectorSize, sectorSize) := by
  have hmax : N ≤ 2 ^ 32 - 2 := hN
  rcases k with - | level
  · rw [pow_zero, Nat.mul_one] at hj
    rw [ofNode, Offsets.place, dataOffsetBySectorid_eq]
    refine Prod.ext rfl (min_eq_left ?_)
    have hmul : (j + 1) * sectorSize ≤ (N - 1) * sectorSize := Nat.mul_le_mul_right _ hj
    rw [Nat.succ_mul] at hmul
    have hsize : (layout n N L).plainsize = n := rfl
    omega
  · have hpow : 0 < hashTreeSectors ^ (level + 1) := Nat.pow_pos hashTreeSectors_pos
    have hlt : j < (N - 1) / hashTreeSectors ^ (level + 1) := (Nat.le_div_iff_mul_le hpow).2 hj
    have hplain : (layout n N L).plainsize = n := rfl
    rw [ofNode, Offsets.place, getAuthSectorOff_eq, hplain, lastSectorid_eq hn hn' hN]
    dsimp only
    rw [Nat.mul_div_cancel j hpow, if_neg hlt.ne, if_pos hlt,
      authOffset_eq (level_lt (hj.trans (by omega))) (by omega)]

include hL hn hn' hN in
/-- The last auth sector of a level, or the master authenticator. -/
theorem getAuthSectorOff_last {sectorid : ℕ} (hl : l ≤ L)
    (hs : sectorid / hashTreeSectors ^ (l + 1) = (N - 1) / hashTreeSectors ^ (l + 1)) :
    getAuthSectorOff sectorid l (layout n N L) = some (lastOff n N L l, lastLen N l,
      sectorid / hashTreeSectors ^ l % hashTreeSectors) := by
  have hplain : (layout n N L).plainsize = n := rfl
  have hlevel : 0 ≤ l ∧ l < L + 1 := ⟨Nat.zero_le l, Nat.lt_succ_of_le hl⟩
  rw [getAuthSectorOff_eq, hplain, lastSectorid_eq hn hn' hN]
  dsimp only
  rw [if_pos hs, dif_pos (lt_of_le_of_lt hl hL)]
  simp only [layout, Offsets.fill, if_pos hlevel]

include hL hn hn' hN in
theorem place_last (hl : l ≤ L) :
    (layout n N L).place (.auth l ((N - 1) / hashTreeSectors ^ (l + 1))) =
      (lastOff n N L l, lastLen N l) := by
  have hpow : 0 < hashTreeSectors ^ (l + 1) := Nat.pow_pos hashTreeSectors_pos
  rw [Offsets.place, getAuthSectorOff_last hL hn hn' hN hl (Nat.mul_div_cancel _ hpow)]

theorem lastLen_pos (N l : ℕ) : 0 < lastLen N l :=
  Nat.mul_pos (Nat.succ_pos _) (by decide)

include hL hn hn' hN in
/-- The last auth sectors tile what is between the data and the master authenticator. -/
theorem tiles_last (hN0 : 0 < N) {i : ℕ} (hi : l + i = L) :
    Tiles (fun x => ((layout n N L).place x).1) (fun x => ((layout n N L).place x).2)
      ((List.range' l i).map fun level => .auth level ((N - 1) / hashTreeSectors ^ (level + 1)))
      (lastOff n N L l) (lastOff n N L L) := by
  induction i generalizing l with
  | zero =>
    obtain rfl : l = L := hi
    rfl
  | succ i ih =>
    have hplace := place_last (l := l) hL hn hn' hN (by omega)
    rw [List.range'_succ, map_cons, tiles_cons, hplace, lastOff_add hN0 (by omega)]
    exact ⟨rfl, lastLen_pos N l, ih (by omega)⟩

include h hL hn hn' hN in
theorem tiles_treeSectors (hN0 : 0 < N) :
    Tiles (fun x => ((layout n N L).place x).1) (fun x => ((layout n N L).place x).2)
      (treeSectors N L) 0 (lastOff n N L L) := by
  have hprefix := tiles_prefixTo (k := hashTreeSectors) (by decide)
    (show 0 < sectorSize by decide) (N - 1)
  have hdata : position hashTreeSectors 0 (N - 1) * sectorSize + (n - (N - 1) * sectorSize) =
      lastOff n N L 0 := by
    have hloop := dataOffsetLoop_eq ((N - 1) * sectorSize) h hN0 (Nat.zero_add L)
    rw [nodes_zero] at hloop
    rw [← dataOffsetBySectorid_eq, dataOffsetBySectorid, hloop, lastOff, total_zero, Nat.sub_zero]
    omega
  have hlen : min sectorSize (n - (N - 1) * sectorSize) = n - (N - 1) * sectorSize := by
    unfold sectorSize at *
    omega
  refine tiles_append.2 ⟨_, hprefix.map fun x hx => ?_, ?_⟩
  · have hx' : (x.2 + 1) * hashTreeSectors ^ x.1 ≤ N - 1 :=
      (mem_prefixTo (by decide)).1 hx
    rw [place_ofNode hn hn' hN hx']
    exact ⟨rfl, rfl⟩
  · have hplace : (layout n N L).place (.data (N - 1)) =
        (position hashTreeSectors 0 (N - 1) * sectorSize, n - (N - 1) * sectorSize) := by
      rw [← hlen, ← dataOffsetBySectorid_eq]
      rfl
    rw [tiles_cons, hplace, hdata]
    refine ⟨rfl, Nat.sub_pos_of_lt hn, ?_⟩
    have hlast := tiles_last (l := 0) hL hn hn' hN hN0 (Nat.zero_add L)
    rw [← range_eq_range'] at hlast
    exact hlast

include h hL hn hn' hN in
theorem tiles_fileSectors (hN0 : 0 < N) :
    Tiles (fun x => ((layout n N L).place x).1) (fun x => ((layout n N L).place x).2)
      (fileSectors n N L) 0 (layoutSize n N L) := by
  refine tiles_append.2 ⟨_, tiles_treeSectors h hL hn hn' hN hN0, ?_⟩
  rw [lastOff_top, layoutSize]
  split_ifs
  · exact ⟨rfl, (by decide : 0 < authSize), rfl⟩
  · rfl

theorem exists_above (hN0 : 0 < N) (l id : ℕ) :
    (∃ sectorid < N, id = sectorid / hashTreeSectors ^ l) ↔ id ≤ (N - 1) / hashTreeSectors ^ l := by
  have hpow : 0 < hashTreeSectors ^ l := Nat.pow_pos hashTreeSectors_pos
  constructor
  · rintro ⟨sectorid, hlt, rfl⟩
    exact Nat.div_le_div_right (by omega)
  · intro hle
    refine ⟨id * hashTreeSectors ^ l, ?_, (Nat.mul_div_cancel id hpow).symm⟩
    have hmul := (Nat.le_div_iff_mul_le hpow).1 hle
    omega

include h hn hn' in
theorem mem_fileSectors (hN0 : 0 < N) (x : Sector) :
    x ∈ fileSectors n N L ↔ x.InFile (layout n N L) := by
  have hnode {x : Sector} : x ∈ (prefixTo hashTreeSectors (N - 1)).map ofNode ↔
      ∃ k j, (j + 1) * hashTreeSectors ^ k ≤ N - 1 ∧ ofNode (k, j) = x := by
    simp only [mem_map, Prod.exists, mem_prefixTo (k := hashTreeSectors) (by decide)]
  have hcount : sectorCount (layout n N L).plainsize = N := sectorCount_eq hn hn'
  rw [fileSectors, treeSectors, mem_append, mem_append, mem_cons, hnode]
  cases x with
  | data sectorid =>
    rw [Sector.InFile, hcount]
    constructor
    · rintro ((⟨k, j, hj, hx⟩ | hx | hx) | hx)
      · cases k <;> cases hx
        rw [pow_zero, Nat.mul_one] at hj
        omega
      · cases hx
        omega
      · obtain ⟨level, -, ⟨⟩⟩ := mem_map.1 hx
      · split_ifs at hx <;> simp at hx
    · intro hlt
      rcases Nat.lt_or_ge sectorid (N - 1) with hlt' | hge
      · refine .inl (.inl ⟨0, sectorid, ?_, rfl⟩)
        rw [pow_zero, Nat.mul_one]
        exact hlt'
      · refine .inl (.inr (.inl (congrArg _ ?_)))
        omega
  | auth level id =>
    have htree : (layout n N L).treelevels = L := rfl
    have hpow : 0 < hashTreeSectors ^ (level + 1) := Nat.pow_pos hashTreeSectors_pos
    rw [Sector.InFile, hcount, htree, exists_above hN0]
    constructor
    · rintro ((⟨k, j, hj, hx⟩ | hx | hx) | hx)
      · cases k <;> cases hx
        have hle : id + 1 ≤ (N - 1) / hashTreeSectors ^ (level + 1) :=
          (Nat.le_div_iff_mul_le hpow).2 hj
        refine ⟨?_, by omega⟩
        -- Above the top level there is one auth sector only.
        by_contra hge
        have htop := nodes_sub_one (k := hashTreeSectors) hashTreeSectors_pos hN0 L
        rw [h.top, Nat.sub_self] at htop
        have hmono : (N - 1) / hashTreeSectors ^ (level + 1) ≤ (N - 1) / hashTreeSectors ^ L :=
          Nat.div_le_div_left (Nat.pow_le_pow_right hashTreeSectors_pos (by omega))
            (Nat.pow_pos hashTreeSectors_pos)
        omega
      · cases hx
      · obtain ⟨level', hlevel, ⟨⟩⟩ := mem_map.1 hx
        exact ⟨mem_range.1 hlevel, le_rfl⟩
      · split_ifs at hx <;> simp at hx
    · rintro ⟨hlevel, hle⟩
      rcases Nat.eq_or_lt_of_le hle with rfl | hlt
      · exact .inl (.inr (.inr (mem_map.2 ⟨level, mem_range.2 hlevel, rfl⟩)))
      · exact .inl (.inl ⟨level + 1, id, (Nat.le_div_iff_mul_le hpow).1 hlt, rfl⟩)
  | master =>
    rw [Sector.InFile]
    constructor
    · rintro ((⟨k, j, -, hx⟩ | hx | hx) | hx)
      · cases k <;> cases hx
      · cases hx
      · obtain ⟨level, -, ⟨⟩⟩ := mem_map.1 hx
      · split_ifs at hx with hneed
        · exact decide_eq_true hneed
        · simp at hx
    · intro hneed
      have hlt : sectorSize < n := of_decide_eq_true hneed
      rw [if_pos hlt]
      exact .inr mem_cons_self

/-! ## Authenticators -/

include hL hn hn' hN in
/-- The authenticator of a sector or of an auth sector stands in the auth sector above it. -/
theorem getAuthSectorOff_place {sectorid level : ℕ} (hs : sectorid < N) (hl : level ≤ L)
    (hN0 : 0 < N) :
    ∃ aid, getAuthSectorOff sectorid level (layout n N L) =
        some (((layout n N L).place (.auth level (sectorid / hashTreeSectors ^ (level + 1)))).1,
          ((layout n N L).place (.auth level (sectorid / hashTreeSectors ^ (level + 1)))).2, aid) ∧
      aid = sectorid / hashTreeSectors ^ level % hashTreeSectors ∧
      (aid + 1) * authSize ≤
        ((layout n N L).place (.auth level (sectorid / hashTreeSectors ^ (level + 1)))).2 := by
  have hpow : 0 < hashTreeSectors ^ (level + 1) := Nat.pow_pos hashTreeSectors_pos
  have hle : sectorid / hashTreeSectors ^ (level + 1) ≤ (N - 1) / hashTreeSectors ^ (level + 1) :=
    Nat.div_le_div_right (by omega)
  refine ⟨sectorid / hashTreeSectors ^ level % hashTreeSectors, ?_, rfl, ?_⟩
  all_goals rcases Nat.eq_or_lt_of_le hle with heq | hlt
  · rw [getAuthSectorOff_last hL hn hn' hN hl heq, heq, place_last hL hn hn' hN hl]
  · have hmul : (sectorid / hashTreeSectors ^ (level + 1) + 1) * hashTreeSectors ^ (level + 1) ≤
        N - 1 := (Nat.le_div_iff_mul_le hpow).1 hlt
    have hplace := place_ofNode (L := L) (k := level + 1) hn hn' hN hmul
    have hplain : (layout n N L).plainsize = n := rfl
    rw [ofNode] at hplace
    rw [hplace, getAuthSectorOff_eq, hplain, lastSectorid_eq hn hn' hN]
    dsimp only
    have hmax : N ≤ 2 ^ 32 - 2 := hN
    rw [if_neg hlt.ne, if_pos hlt, authOffset_eq (lt_of_le_of_lt hl hL) (by omega)]
  · -- The last auth sector of a level is as long as it has authenticators.
    rw [heq, place_last hL hn hn' hN hl, lastLen, nodes_sub_one hashTreeSectors_pos hN0]
    refine Nat.mul_le_mul_right _ (Nat.succ_le_succ ?_)
    have hchild : sectorid / hashTreeSectors ^ level ≤ (N - 1) / hashTreeSectors ^ level :=
      Nat.div_le_div_right (by omega)
    rw [pow_succ, ← Nat.div_div_eq_div_mul, ← Nat.div_div_eq_div_mul] at heq
    rw [hashTreeSectors_eq] at *
    omega
  · have hplace := place_ofNode (L := L) (k := level + 1) hn hn' hN
      ((Nat.le_div_iff_mul_le hpow).1 hlt)
    rw [ofNode] at hplace
    rw [hplace]
    have haid := Nat.mod_lt (sectorid / hashTreeSectors ^ level) hashTreeSectors_pos
    have hmul := Nat.mul_le_mul_right authSize (Nat.succ_le_of_lt haid)
    exact hmul

include h hn hn' in
theorem auth_mem_treeSectors {sectorid level : ℕ} (hs : sectorid < N) (hl : level < L)
    (hN0 : 0 < N) :
    .auth level (sectorid / hashTreeSectors ^ (level + 1)) ∈ treeSectors N L := by
  have hcount : sectorCount (layout n N L).plainsize = N := sectorCount_eq hn hn'
  have hmem := (mem_fileSectors (L := L) h hn hn' hN0
    (.auth level (sectorid / hashTreeSectors ^ (level + 1)))).2 ⟨hl, sectorid, hcount ▸ hs, rfl⟩
  rcases mem_append.1 hmem with hmem | hmem
  · exact hmem
  · split_ifs at hmem <;> simp at hmem

include h hL hn hn' hN in
/-- An authenticator in an auth sector stands before the master authenticator. -/
theorem entryOff_lt {sectorid level : ℕ} (hs : sectorid < N) (hl : level < L) (hN0 : 0 < N) :
    ∃ off < lastOff n N L L, entryOff sectorid level (layout n N L) = some off := by
  obtain ⟨aid, hauth, -, hlen⟩ := getAuthSectorOff_place hL hn hn' hN hs hl.le hN0
  have hrange := (tiles_treeSectors h hL hn hn' hN hN0).range_le
    (auth_mem_treeSectors h hn hn' hs hl hN0)
  rw [Nat.succ_mul] at hlen
  refine ⟨_, ?_, by rw [entryOff, hauth, Option.map_some]⟩
  have hsize : 0 < authSize := by decide
  dsimp only at hrange ⊢
  omega

include h in
/-- Above the top level there is one node. -/
theorem div_top {sectorid : ℕ} (hs : sectorid < N) (hN0 : 0 < N) :
    sectorid / hashTreeSectors ^ L = 0 := by
  have htop := nodes_sub_one (k := hashTreeSectors) hashTreeSectors_pos hN0 L
  rw [h.top, Nat.sub_self] at htop
  have hle : sectorid / hashTreeSectors ^ L ≤ (N - 1) / hashTreeSectors ^ L :=
    Nat.div_le_div_right (by omega)
  exact Nat.eq_zero_of_le_zero (hle.trans htop.symm.le)

include h hL hn hn' hN in
/-- The top one is the master authenticator. -/
theorem entryOff_top {sectorid : ℕ} (hs : sectorid < N) (hN0 : 0 < N) :
    entryOff sectorid L (layout n N L) = some (lastOff n N L L) := by
  have hchild := div_top h hs hN0
  have htop := div_top h (show N - 1 < N by omega) hN0
  have hsame : sectorid / hashTreeSectors ^ (L + 1) = (N - 1) / hashTreeSectors ^ (L + 1) := by
    rw [pow_succ, ← Nat.div_div_eq_div_mul, ← Nat.div_div_eq_div_mul, hchild, htop]
  rw [entryOff, getAuthSectorOff_last hL hn hn' hN le_rfl hsame, hchild, Option.map_some,
    Nat.zero_mod, Nat.zero_mul, Nat.add_zero]

include h hL hn hn' hN in
theorem entryOff_ne {sectorid sectorid' level level' : ℕ} (hs : sectorid < N)
    (hs' : sectorid' < N) (hl : level < L) (hl' : level' < L) (hN0 : 0 < N)
    (hne : (level, sectorid / hashTreeSectors ^ level) ≠
      (level', sectorid' / hashTreeSectors ^ level')) :
    entryOff sectorid level (layout n N L) ≠ entryOff sectorid' level' (layout n N L) := by
  obtain ⟨aid, hauth, haid, hlen⟩ := getAuthSectorOff_place hL hn hn' hN hs hl.le hN0
  obtain ⟨aid', hauth', haid', hlen'⟩ := getAuthSectorOff_place hL hn hn' hN hs' hl'.le hN0
  have hsize : 0 < authSize := by decide
  rw [entryOff, entryOff, hauth, hauth', Option.map_some, Option.map_some]
  intro heq
  have heq := Option.some.inj heq
  rw [Nat.succ_mul] at hlen hlen'
  by_cases hsec : Sector.auth level (sectorid / hashTreeSectors ^ (level + 1)) =
      .auth level' (sectorid' / hashTreeSectors ^ (level' + 1))
  · -- the same auth sector
    rw [hsec] at heq
    obtain ⟨rfl, hid⟩ := Sector.auth.inj hsec
    have haids : aid = aid' := Nat.eq_of_mul_eq_mul_right hsize (Nat.add_left_cancel heq)
    refine hne (Prod.ext rfl ?_)
    rw [pow_succ, ← Nat.div_div_eq_div_mul, ← Nat.div_div_eq_div_mul] at hid
    dsimp only
    rw [← Nat.div_add_mod (sectorid / hashTreeSectors ^ level) hashTreeSectors, hid, ← haid,
      haids, haid', Nat.div_add_mod]
  · have hdis := (tiles_treeSectors h hL hn hn' hN hN0).disjoint
      (auth_mem_treeSectors h hn hn' hs hl hN0) (auth_mem_treeSectors h hn hn' hs' hl' hN0) hsec
    dsimp only at hdis heq
    omega

end Layout

/-- The sectors of a file tile it, and the authenticators stand in their auth sectors, at different
    places. -/
theorem sectors_tile (n : ℕ) (hn : sectorCount n ≤ maxSectorid) :
    ∃ o c, offsetsByPlainsize n = some o ∧ cryptoSize n = some c ∧
      (∃ l : List Sector, (∀ x, x ∈ l ↔ x.InFile o) ∧
        Tiles (fun x => (o.place x).1) (fun x => (o.place x).2) l 0 c) ∧
      (∀ sectorid < sectorCount n, ∀ level < o.treelevels,
        ∃ aid, getAuthSectorOff sectorid level o =
          some ((o.place (.auth level (sectorid / hashTreeSectors ^ (level + 1)))).1,
            (o.place (.auth level (sectorid / hashTreeSectors ^ (level + 1)))).2, aid) ∧
          (aid + 1) * authSize ≤
            (o.place (.auth level (sectorid / hashTreeSectors ^ (level + 1)))).2) ∧
      ∀ sectorid < sectorCount n, ∀ sectorid' < sectorCount n,
        ∀ level ≤ o.treelevels, ∀ level' ≤ o.treelevels,
          (level, sectorid / hashTreeSectors ^ level) ≠
              (level', sectorid' / hashTreeSectors ^ level') →
            entryOff sectorid level o ≠ entryOff sectorid' level' o := by
  rcases Nat.eq_zero_or_pos n with rfl | hpos
  · have hcount : sectorCount 0 = 0 := by decide
    refine ⟨Offsets.zero, 0, by decide, by decide, ⟨[], fun x => ?_, rfl⟩, ?_, ?_⟩
    · cases x <;> simp [Sector.InFile, Offsets.zero, hcount]
    · intro sectorid hs
      rw [hcount] at hs
      exact absurd hs (Nat.not_lt_zero _)
    · intro sectorid hs
      rw [hcount] at hs
      exact absurd hs (Nat.not_lt_zero _)
  obtain ⟨L, hL, h, hlo, hhi, hN0⟩ := exists_layout n hpos hn
  have hplain := offsetsByPlainsize_eq h hL hlo hhi hn
  have hcrypto : cryptoSize n = some (layoutSize n (sectorCount n) L) := by
    rw [cryptoSize, hplain]
    simp [layout, layoutSize]
  refine ⟨layout n (sectorCount n) L, _, hplain, hcrypto, ⟨fileSectors n (sectorCount n) L,
    mem_fileSectors h hlo hhi hN0, tiles_fileSectors h hL hlo hhi hn hN0⟩, ?_, ?_⟩
  · intro sectorid hs level hl
    obtain ⟨aid, hauth, -, hlen⟩ := getAuthSectorOff_place hL hlo hhi hn hs (Nat.le_of_lt hl) hN0
    exact ⟨aid, hauth, hlen⟩
  · intro sectorid hs sectorid' hs' level hl level' hl' hne
    have hlevels : (layout n (sectorCount n) L).treelevels = L := rfl
    rw [hlevels] at hl hl'
    rcases Nat.eq_or_lt_of_le hl with heq | hlt <;> rcases Nat.eq_or_lt_of_le hl' with heq' | hlt'
    · -- there is one master authenticator
      refine absurd ?_ hne
      rw [heq, heq', div_top h hs hN0, div_top h hs' hN0]
    · obtain ⟨off, hoff, hentry⟩ := entryOff_lt h hL hlo hhi hn hs' hlt' hN0
      rw [heq, entryOff_top h hL hlo hhi hn hs hN0, hentry]
      exact fun he => hoff.ne' (Option.some.inj he)
    · obtain ⟨off, hoff, hentry⟩ := entryOff_lt h hL hlo hhi hn hs hlt hN0
      rw [heq', entryOff_top h hL hlo hhi hn hs' hN0, hentry]
      exact fun he => hoff.ne (Option.some.inj he)
    · exact entryOff_ne h hL hlo hhi hn hs hs' hlt hlt' hN0 hne

/-- The sectors of a file of 129 data sectors. -/
theorem sectors_tile_two_levels : sectorCount (129 * 4096 - 5) ≤ maxSectorid ∧
    ∃ o c, offsetsByPlainsize (129 * 4096 - 5) = some o ∧ cryptoSize (129 * 4096 - 5) = some c ∧
      ∃ l : List Sector, (∀ x, x ∈ l ↔ x.InFile o) ∧
        Tiles (fun x => (o.place x).1) (fun x => (o.place x).2) l 0 c := by
  refine ⟨by decide, ?_⟩
  obtain ⟨o, c, ho, hc, hl, -⟩ := sectors_tile (129 * 4096 - 5) (by decide)
  exact ⟨o, c, ho, hc, hl⟩

end Pclsync.Crypto
