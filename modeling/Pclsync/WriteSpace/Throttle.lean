import Mathlib.Algebra.Order.Ring.Nat
import Mathlib.Data.Nat.Bitwise

/-!
# Throttling of writes

`psync_fs_do_check_write_space` compares the free space of the disk with the setting
`minlocalfreespace`. Where less is free, it refuses a write, lets it go as pages of the read cache
are freed instead, or limits its speed by `psync_fs_throttle`; the limit is a part of the upload
speed, from 1/1024 where half of the minimum is free to all of it.

* `doCheckWriteSpace`: the decision, for a reading `freespc` of 64 bits as it is compared, where all
  bits are set if there is none. The read cache can free a number of pages.
* `Shaping.mult`, `Shaping.speed`: the multiplier and the speed, with their wrapping arithmetic.
* `throttle`: the delay of a write that is limited.
* `throttles_iff`: when a division by zero, a multiplier above its cap and a smaller delay for less
  free space do not occur.
-/

namespace Pclsync.WriteSpace

/-! ## The read cache -/

/-- `size_round_up_to_page` -/
def sizeRoundUpToPage (size : UInt64) : UInt64 := ((size - 1) ||| 4095) + 1

/-- `psync_pagecache_free_from_read_cache`, where `pages` pages can be freed: the bytes that are
    freed, and the pages that are left. -/
def freeFromReadCache (pages : ℕ) (size : UInt64) : UInt64 × ℕ :=
  let i := min (sizeRoundUpToPage size / 4096).toNat pages
  (UInt64.ofNat i * 4096, pages - i)

/-! ## The decision -/

/-- What the limit is computed from. -/
structure Shaping where
  freespc : UInt64
  /-- half of the setting -/
  minlocal : UInt64
  uploadspeed : UInt32

def Shaping.mult (s : Shaping) : UInt64 := (s.freespc - s.minlocal) * 1023 / s.minlocal + 1

/-- `speed` before it is multiplied. -/
def Shaping.base (s : Shaping) : UInt64 :=
  let speed := (s.uploadspeed * 3 / 2).toUInt64
  if speed < 204800 then 204800 else speed

def Shaping.speed (s : Shaping) : UInt64 := s.base * s.mult / 1024

inductive Outcome where
  /-- the write goes on -/
  | go
  /-- five seconds are waited, and `-EINTR` is returned -/
  | refuse
  | shape (s : Shaping)

/-- The end of `psync_fs_do_check_write_space`. -/
def shapeOrGo (minlocal freespc size : UInt64) (uploadspeed : UInt32) (freed : Bool) (pages : ℕ) :
    Outcome :=
  if uploadspeed = 0 ∧ (freed = true ∨ size ≤ (freeFromReadCache pages size).1) then .go
  else .shape ⟨freespc, minlocal / 2, uploadspeed⟩

/-- `psync_fs_do_check_write_space` -/
def doCheckWriteSpace (minlocal size : UInt64) (uploadspeed : UInt32) (pages : ℕ)
    (freespc : UInt64) : Outcome :=
  if freespc = 18446744073709551615 then .go
  else if minlocal + size ≤ freespc then .go
  else if freespc ≤ minlocal / 2 ∨ minlocal ≤ 4096 ∨ freespc ≤ size then
    let r := freeFromReadCache pages (size * 2)
    if r.1 < size * 2 then .refuse
    else shapeOrGo minlocal (minlocal / 2 + 1) size uploadspeed true r.2
  else if freespc ≤ minlocal / 4 * 3 then
    let r := freeFromReadCache pages size
    shapeOrGo minlocal freespc size uploadspeed (size ≤ r.1) r.2
  else shapeOrGo minlocal freespc size uploadspeed false pages

/-! ## The delay -/

/-- The loop of `psync_fs_throttle` with `cnt` rounds left: the milliseconds that are waited by a
    write that comes at the start of a second. Others have written `written i` bytes in the second
    `i`. -/
def throttle (speed : UInt64) (written : ℕ → UInt64) : ℕ → ℕ → UInt64 → ℕ
  | _, 0, _ => 0
  | i, cnt + 1, size =>
    if written i < speed then
      if speed < written i + size then
        1000 + throttle speed written (i + 1) cnt (size - (speed - written i))
      else (size * 1000 / speed).toNat
    else 1000 + throttle speed written (i + 1) cnt size

/-- The delay of a write; one that is refused is never made. -/
def Outcome.delay (written : ℕ → UInt64) (size : UInt64) : Outcome → WithTop ℕ
  | go => 0
  | refuse => ⊤
  | shape s => throttle s.speed written 0 8 size

/-- The speed of the first is not above that of the second. -/
def Outcome.Slower : Outcome → Outcome → Prop
  | refuse, _ => True
  | _, go => True
  | shape s, shape t => s.speed ≤ t.speed
  | _, _ => False

/-- The divisor is not zero, the subtraction does not wrap, and the multiplier is in its range. -/
def Outcome.Computes : Outcome → Prop
  | shape s => s.minlocal ≠ 0 ∧ s.minlocal ≤ s.freespc ∧ 1 ≤ s.mult ∧ s.mult ≤ 1024
  | _ => True

/-! ## Freeing pages -/

/-- The number of pages a size is rounded up to. -/
def pageCount (size : UInt64) : ℕ := (sizeRoundUpToPage size / 4096).toNat

def Frees (pages : ℕ) (size : UInt64) : Prop := size ≤ (freeFromReadCache pages size).1

instance (pages : ℕ) (size : UInt64) : Decidable (Frees pages size) :=
  inferInstanceAs (Decidable (_ ≤ _))

theorem or_page (x : ℕ) : x ||| 4095 = x / 4096 * 4096 + 4095 := by
  have hdiv : (x ||| 4095) / 2 ^ 12 = x / 2 ^ 12 ||| 4095 / 2 ^ 12 := Nat.or_div_two_pow
  have hmod : (x ||| 4095) % 2 ^ 12 = x % 2 ^ 12 ||| 4095 % 2 ^ 12 := Nat.or_mod_two_pow
  have hle : 4095 ≤ x % 2 ^ 12 ||| 4095 := Nat.right_le_or
  have hlt : x % 2 ^ 12 ||| 4095 < 2 ^ 12 :=
    Nat.or_lt_two_pow (Nat.mod_lt _ (by decide)) (by decide)
  rw [Nat.div_eq_of_lt (by decide : 4095 < 2 ^ 12), Nat.or_zero] at hdiv
  rw [Nat.mod_eq_of_lt (by decide : 4095 < 2 ^ 12)] at hmod
  omega

theorem le_pageCount {size : UInt64} (h : size.toNat ≤ 2 ^ 64 - 4096) :
    size.toNat ≤ pageCount size * 4096 := by
  rcases Nat.eq_zero_or_pos size.toNat with hzero | hpos
  · omega
  have hsub : (size - 1).toNat = size.toNat - 1 := UInt64.toNat_sub_of_le _ _ hpos
  have hround : (sizeRoundUpToPage size).toNat = ((size.toNat - 1) / 4096 * 4096 + 4095 + 1) := by
    rw [sizeRoundUpToPage, UInt64.toNat_add, UInt64.toNat_or, hsub]
    change ((size.toNat - 1 ||| 4095) + 1) % 2 ^ 64 = _
    rw [or_page]
    omega
  have hcount : pageCount size = (sizeRoundUpToPage size).toNat / 4096 := UInt64.toNat_div ..
  rw [hcount, hround]
  omega

theorem pageCount_lt (size : UInt64) : pageCount size < 2 ^ 52 := by
  have hlt := (sizeRoundUpToPage size).toNat_lt
  have hcount : pageCount size = (sizeRoundUpToPage size).toNat / 4096 := UInt64.toNat_div ..
  omega

theorem frees_iff {pages : ℕ} {size : UInt64} :
    Frees pages size ↔ size.toNat ≤ pageCount size * 4096 ∧ size.toNat ≤ pages * 4096 := by
  have hlt := pageCount_lt size
  have hbytes : (freeFromReadCache pages size).1.toNat = min (pageCount size) pages * 4096 := by
    have hfree : (freeFromReadCache pages size).1 =
        UInt64.ofNat (min (pageCount size) pages) * 4096 := rfl
    have hpage : (4096 : UInt64).toNat = 4096 := rfl
    rw [hfree, UInt64.toNat_mul, UInt64.toNat_ofNat', hpage]
    omega
  rw [Frees, UInt64.le_iff_toNat_le, hbytes, ← Nat.mul_min_mul_right, le_min_iff]

/-- A second try frees enough only if the first one has. -/
theorem frees_left {pages : ℕ} {size : UInt64}
    (h : Frees (freeFromReadCache pages size).2 size) : Frees pages size := by
  obtain ⟨hcount, hpages⟩ := frees_iff.1 h
  have hleft : (freeFromReadCache pages size).2 ≤ pages := Nat.sub_le _ _
  exact frees_iff.2 ⟨hcount, hpages.trans (Nat.mul_le_mul_right 4096 hleft)⟩

/-- Where twice the size can be freed, the size can. -/
theorem frees_of_double {pages : ℕ} {size : UInt64} (hsize : size.toNat < 2 ^ 62)
    (h : Frees pages (size * 2)) : Frees pages size := by
  have hdouble : (size * 2).toNat = size.toNat * 2 := by
    have htwo : (2 : UInt64).toNat = 2 := rfl
    rw [UInt64.toNat_mul, htwo]
    omega
  have hpages := (frees_iff.1 h).2
  rw [hdouble] at hpages
  exact frees_iff.2 ⟨le_pageCount (by omega), (Nat.le_mul_of_pos_right _ (by decide)).trans hpages⟩

/-! ## The branches -/

variable {minlocal size freespc : UInt64} {uploadspeed : UInt32} {pages : ℕ}

/-- There is no reading, or enough space. -/
theorem doCheck_of_le (h : freespc = 18446744073709551615 ∨ minlocal + size ≤ freespc) :
    doCheckWriteSpace minlocal size uploadspeed pages freespc = .go := by
  rw [doCheckWriteSpace]
  split
  · rfl
  · exact if_pos (h.resolve_left ‹_›)

theorem ne_of_low (h : freespc < minlocal + size) : freespc ≠ 18446744073709551615 := by
  rintro rfl
  have hlt := (minlocal + size).toNat_lt
  have hone : (18446744073709551615 : UInt64).toNat = 18446744073709551615 := rfl
  rw [UInt64.lt_iff_toNat_lt, hone] at h
  omega

/-- Space is so short that pages are freed for twice the size. -/
def Short (minlocal size freespc : UInt64) : Prop :=
  freespc ≤ minlocal / 2 ∨ minlocal ≤ 4096 ∨ freespc ≤ size

theorem doCheck_of_short (hlow : freespc < minlocal + size) (hshort : Short minlocal size freespc) :
    doCheckWriteSpace minlocal size uploadspeed pages freespc = if Frees pages (size * 2) then
        if uploadspeed = 0 then .go else .shape ⟨minlocal / 2 + 1, minlocal / 2, uploadspeed⟩
      else .refuse := by
  rw [Short] at hshort
  rw [doCheckWriteSpace, if_neg (ne_of_low hlow), if_neg (UInt64.not_le.2 hlow), if_pos hshort]
  by_cases hfree : Frees pages (size * 2)
  · rw [if_pos hfree]
    refine (if_neg (UInt64.not_lt.2 hfree)).trans (if_congr ?_ rfl rfl)
    exact and_iff_left (.inl rfl)
  · rw [if_neg hfree]
    exact if_pos (UInt64.not_le.1 hfree)

theorem doCheck_of_not_short (hlow : freespc < minlocal + size)
    (hshort : ¬Short minlocal size freespc) :
    doCheckWriteSpace minlocal size uploadspeed pages freespc =
      if uploadspeed = 0 ∧ Frees pages size then .go
      else .shape ⟨freespc, minlocal / 2, uploadspeed⟩ := by
  rw [Short] at hshort
  rw [doCheckWriteSpace, if_neg (ne_of_low hlow), if_neg (UInt64.not_le.2 hlow), if_neg hshort]
  split
  · refine if_congr (and_congr_right fun _ => ?_) rfl rfl
    refine ⟨fun h => ?_, fun h => .inl (decide_eq_true h)⟩
    exact h.elim (fun h => of_decide_eq_true h) frees_left
  · exact if_congr (and_congr_right fun _ => or_iff_right Bool.false_ne_true) rfl rfl

/-! ## The multiplier and the speed -/

theorem Shaping.toNat_mult {s : Shaping} (hle : s.minlocal ≤ s.freespc)
    (hlt : (s.freespc.toNat - s.minlocal.toNat) * 1023 % 2 ^ 64 / s.minlocal.toNat + 1 < 2 ^ 64) :
    s.mult.toNat = (s.freespc.toNat - s.minlocal.toNat) * 1023 % 2 ^ 64 / s.minlocal.toNat + 1 := by
  have hfactor : (1023 : UInt64).toNat = 1023 := rfl
  have hone : (1 : UInt64).toNat = 1 := rfl
  rw [mult, UInt64.toNat_add, UInt64.toNat_div, UInt64.toNat_mul, UInt64.toNat_sub_of_le _ _ hle,
    hfactor, hone]
  exact Nat.mod_eq_of_lt hlt

theorem Shaping.base_bounds (s : Shaping) : 204800 ≤ s.base.toNat ∧ s.base.toNat < 2 ^ 32 := by
  have hmin : (204800 : UInt64).toNat = 204800 := rfl
  have hspeed : (s.uploadspeed * 3 / 2).toUInt64.toNat < 2 ^ 32 := by
    rw [UInt32.toNat_toUInt64]
    exact UInt32.toNat_lt _
  rw [base]
  split
  · rw [hmin]
    decide
  · have hge := UInt64.le_iff_toNat_le.1 (UInt64.not_lt.1 ‹_›)
    exact ⟨hmin ▸ hge, hspeed⟩

theorem Shaping.toNat_speed {s : Shaping} (hcap : s.mult ≤ 1024) :
    s.speed.toNat = s.base.toNat * s.mult.toNat / 1024 := by
  have hdiv : (1024 : UInt64).toNat = 1024 := rfl
  have hmult : s.mult.toNat ≤ 1024 := UInt64.le_iff_toNat_le.1 hcap
  have hle : s.base.toNat * s.mult.toNat ≤ 2 ^ 32 * 1024 :=
    Nat.mul_le_mul s.base_bounds.2.le hmult
  rw [speed, UInt64.toNat_div, UInt64.toNat_mul, hdiv, Nat.mod_eq_of_lt (by omega)]

theorem Shaping.base_eq {s t : Shaping} (h : s.uploadspeed = t.uploadspeed) : s.base = t.base := by
  rw [base, base, h]

theorem Shaping.speed_le {s t : Shaping} (hupload : s.uploadspeed = t.uploadspeed)
    (hmult : s.mult ≤ t.mult) (hcap : t.mult ≤ 1024) : s.speed ≤ t.speed := by
  rw [UInt64.le_iff_toNat_le] at hmult ⊢
  have hcap' : s.mult ≤ 1024 :=
    UInt64.le_iff_toNat_le.2 (hmult.trans (UInt64.le_iff_toNat_le.1 hcap))
  rw [toNat_speed hcap, toNat_speed hcap', base_eq hupload]
  exact Nat.div_le_div_right (Nat.mul_le_mul_left _ hmult)

theorem Shaping.speed_lt {s t : Shaping} (hupload : s.uploadspeed = t.uploadspeed)
    (hmult : s.mult < t.mult) (hcap : t.mult ≤ 1024) : s.speed < t.speed := by
  rw [UInt64.lt_iff_toNat_lt] at hmult ⊢
  have hcap' : s.mult ≤ 1024 :=
    UInt64.le_iff_toNat_le.2 (hmult.le.trans (UInt64.le_iff_toNat_le.1 hcap))
  have hbase := t.base_bounds.1
  have hstep : t.base.toNat * s.mult.toNat + t.base.toNat ≤ t.base.toNat * t.mult.toNat := by
    rw [← Nat.mul_succ]
    exact Nat.mul_le_mul_left _ hmult
  rw [toNat_speed hcap, toNat_speed hcap', base_eq hupload]
  omega

/-- What is left of a write fits into a second. -/
theorem toNat_last {t w size : UInt64} (ht : t.toNat < 2 ^ 32) (hw : w < t)
    (hsize : size.toNat < 2 ^ 55) (hfit : ¬t < w + size) :
    w.toNat + size.toNat ≤ t.toNat ∧ (size * 1000 / t).toNat = size.toNat * 1000 / t.toNat := by
  have hfactor : (1000 : UInt64).toNat = 1000 := rfl
  rw [UInt64.lt_iff_toNat_lt] at hw
  rw [UInt64.lt_iff_toNat_lt, UInt64.toNat_add, Nat.mod_eq_of_lt (by omega)] at hfit
  refine ⟨by omega, ?_⟩
  rw [UInt64.toNat_div, UInt64.toNat_mul, hfactor, Nat.mod_eq_of_lt (by omega)]

theorem toNat_rest {t w size : UInt64} (hw : w < t) (hsize : size.toNat < 2 ^ 55)
    (ht : t.toNat < 2 ^ 32) (hfit : t < w + size) :
    (size - (t - w)).toNat = size.toNat - (t.toNat - w.toNat) ∧
      t.toNat < w.toNat + size.toNat := by
  have hsub : (t - w).toNat = t.toNat - w.toNat := UInt64.toNat_sub_of_le _ _ (UInt64.le_of_lt hw)
  rw [UInt64.lt_iff_toNat_lt] at hw
  rw [UInt64.lt_iff_toNat_lt, UInt64.toNat_add, Nat.mod_eq_of_lt (by omega)] at hfit
  refine ⟨?_, hfit⟩
  rw [UInt64.toNat_sub_of_le, hsub]
  rw [UInt64.le_iff_toNat_le, hsub]
  omega

/-- At a lower speed, a write that is not shorter takes at least as long. -/
theorem throttle_antitone {s t : UInt64} {written : ℕ → UInt64} {i cnt : ℕ} {size size' : UInt64}
    (hspeed : s ≤ t) (ht : t.toNat < 2 ^ 32) (hsize : size.toNat ≤ size'.toNat)
    (hlt : size'.toNat < 2 ^ 55) :
    throttle t written i cnt size ≤ throttle s written i cnt size' := by
  have hst := UInt64.le_iff_toNat_le.1 hspeed
  induction cnt generalizing i size size' with
  | zero => exact le_rfl
  | succ cnt ih =>
    rw [throttle, throttle]
    by_cases hws : written i < s
    · have hwt : written i < t := UInt64.lt_of_lt_of_le hws hspeed
      rw [if_pos hws, if_pos hwt]
      by_cases hfits : s < written i + size'
      · obtain ⟨hrest, hmore⟩ := toNat_rest hws hlt (hst.trans_lt ht) hfits
        rw [if_pos hfits]
        split
        · -- both go on in the next second
          obtain ⟨hrest', hmore'⟩ := toNat_rest hwt (hsize.trans_lt hlt) ht ‹_›
          exact Nat.add_le_add_left (ih (by omega) (by omega)) 1000
        · -- the faster one ends in this second
          obtain ⟨hfit, hlast⟩ := toNat_last ht hwt (hsize.trans_lt hlt) ‹_›
          have hsecond : size.toNat * 1000 / t.toNat ≤ 1000 :=
            Nat.div_le_of_le_mul (Nat.mul_le_mul_right 1000 (by omega))
          rw [hlast]
          omega
      · obtain ⟨hfit, hlast⟩ := toNat_last (hst.trans_lt ht) hws hlt hfits
        have hfits' : ¬t < written i + size := by
          rw [UInt64.lt_iff_toNat_lt, UInt64.toNat_add, Nat.mod_eq_of_lt (by omega)]
          omega
        obtain ⟨-, hlast'⟩ := toNat_last ht hwt (hsize.trans_lt hlt) hfits'
        rw [if_neg hfits, if_neg hfits', hlast, hlast']
        have hpos : 0 < s.toNat := Nat.zero_lt_of_lt (UInt64.lt_iff_toNat_lt.1 hws)
        exact (Nat.div_le_div_left hst hpos).trans
          (Nat.div_le_div_right (Nat.mul_le_mul_right 1000 hsize))
    · rw [if_neg hws]
      split
      · split
        · obtain ⟨hrest', hmore'⟩ := toNat_rest ‹_› (hsize.trans_lt hlt) ht ‹_›
          exact Nat.add_le_add_left (ih (by omega) hlt) 1000
        · obtain ⟨hfit, hlast⟩ := toNat_last ht ‹_› (hsize.trans_lt hlt) ‹_›
          have hsecond : size.toNat * 1000 / t.toNat ≤ 1000 :=
            Nat.div_le_of_le_mul (Nat.mul_le_mul_right 1000 (by omega))
          rw [hlast]
          omega
      · exact Nat.add_le_add_left (ih hsize hlt) 1000

/-! ## The condition -/

/-- For a setting, a write, an upload speed and a read cache, whatever is free: no division by zero,
    no subtraction that wraps, a multiplier from 1 to 1024, and no higher speed and no smaller delay
    for less free space. -/
structure Throttles (minlocal size : UInt64) (uploadspeed : UInt32) (pages : ℕ) : Prop where
  computes : ∀ freespc, (doCheckWriteSpace minlocal size uploadspeed pages freespc).Computes
  slower : ∀ freespc freespc', freespc ≤ freespc' →
    (doCheckWriteSpace minlocal size uploadspeed pages freespc).Slower
      (doCheckWriteSpace minlocal size uploadspeed pages freespc')
  delay_le : ∀ freespc freespc', freespc ≤ freespc' → ∀ written,
    (doCheckWriteSpace minlocal size uploadspeed pages freespc').delay written size ≤
      (doCheckWriteSpace minlocal size uploadspeed pages freespc).delay written size

/-- The multiplier stays in its range up to the largest reading that is too low. -/
def SmallWrite (minlocal size : UInt64) : Prop :=
  (minlocal.toNat + size.toNat - 1 - minlocal.toNat / 2) * 1023 <
    min (minlocal.toNat / 2 * 1024) (2 ^ 64)

/-- A setting of 0 or 1 is not halved to a divisor; and above one page either no write is limited
    while more than half of the setting is free, or the write is small for the setting. -/
def Fits (minlocal size : UInt64) (uploadspeed : UInt32) (pages : ℕ) : Prop :=
  (minlocal < 2 → uploadspeed = 0 ∨ ¬Frees pages (size * 2) ∨ minlocal + size = 0) ∧
    (4096 < minlocal → (uploadspeed = 0 ∧ Frees pages size) ∨
      2 ^ 64 ≤ minlocal.toNat + size.toNat ∨ SmallWrite minlocal size)

theorem toNat_half : (minlocal / 2).toNat = minlocal.toNat / 2 := UInt64.toNat_div ..

/-- What is known of a reading that limits a write and is above half of the setting. -/
structure Between (minlocal size freespc : UInt64) : Prop where
  half_lt : minlocal.toNat / 2 < freespc.toNat
  page_lt : 4096 < minlocal.toNat
  size_lt : size.toNat < freespc.toNat
  sum_lt : minlocal.toNat + size.toNat < 2 ^ 64
  lt_sum : freespc.toNat < minlocal.toNat + size.toNat

theorem between_iff : Between minlocal size freespc ↔
    freespc < minlocal + size ∧ ¬Short minlocal size freespc := by
  have hpage : (4096 : UInt64).toNat = 4096 := rfl
  have hm := minlocal.toNat_lt
  rw [Short, not_or, not_or, UInt64.lt_iff_toNat_lt, UInt64.le_iff_toNat_le,
    UInt64.le_iff_toNat_le, UInt64.le_iff_toNat_le, toNat_half, hpage, UInt64.toNat_add]
  refine ⟨fun h => ?_, fun h => ?_⟩
  · obtain ⟨h1, h2, h3, h4, h5⟩ := h
    rw [Nat.mod_eq_of_lt h4]
    omega
  · -- a sum that wraps is below the size
    obtain ⟨hlow, hhalf, hmin, hsize⟩ := h
    have hsum : minlocal.toNat + size.toNat < 2 ^ 64 := by
      have := size.toNat_lt
      omega
    rw [Nat.mod_eq_of_lt hsum] at hlow
    exact ⟨by omega, by omega, by omega, hsum, hlow⟩

/-! ## Multipliers in their range -/

theorem toNat_half_add : (minlocal / 2 + 1).toNat = minlocal.toNat / 2 + 1 := by
  have hm := minlocal.toNat_lt
  have hone : (1 : UInt64).toNat = 1 := rfl
  rw [UInt64.toNat_add, toNat_half, hone]
  omega

/-- The multiplier where pages have been freed. -/
theorem toNat_mult_freed : (Shaping.mk (minlocal / 2 + 1) (minlocal / 2) uploadspeed).mult.toNat =
      1023 / (minlocal.toNat / 2) + 1 := by
  have hle : minlocal / 2 ≤ minlocal / 2 + 1 := by
    rw [UInt64.le_iff_toNat_le, toNat_half_add, toNat_half]
    omega
  have hdiv : 1023 / (minlocal.toNat / 2) ≤ 1023 := Nat.div_le_self _ _
  have hsub : minlocal.toNat / 2 + 1 - minlocal.toNat / 2 = 1 := Nat.add_sub_cancel_left ..
  have hfactor : 1 * 1023 % 2 ^ 64 = 1023 := rfl
  rw [Shaping.toNat_mult hle]
  · rw [toNat_half_add, toNat_half, hsub, hfactor]
  · rw [toNat_half_add, toNat_half, hsub, hfactor]
    omega

theorem Between.toNat_mult (h : Between minlocal size freespc) :
    (Shaping.mk freespc (minlocal / 2) uploadspeed).mult.toNat =
      (freespc.toNat - minlocal.toNat / 2) * 1023 % 2 ^ 64 / (minlocal.toNat / 2) + 1 := by
  have hpage := h.page_lt
  have hle : minlocal / 2 ≤ freespc := by
    rw [UInt64.le_iff_toNat_le, toNat_half]
    exact h.half_lt.le
  rw [Shaping.toNat_mult hle]
  · rw [toNat_half]
  · rw [toNat_half]
    have hdiv := Nat.div_le_div_left (show 2 ≤ minlocal.toNat / 2 by omega) (by decide : 0 < 2)
      (a := (freespc.toNat - minlocal.toNat / 2) * 1023 % 2 ^ 64)
    change (freespc.toNat - minlocal.toNat / 2) * 1023 % 2 ^ 64 / (minlocal.toNat / 2) + 1 < 2 ^ 64
    omega

theorem Between.mult_le (h : Between minlocal size freespc) (uploadspeed : UInt32)
    (hsmall : SmallWrite minlocal size) :
    (Shaping.mk freespc (minlocal / 2) uploadspeed).mult.toNat =
        (freespc.toNat - minlocal.toNat / 2) * 1023 / (minlocal.toNat / 2) + 1 ∧
      (Shaping.mk freespc (minlocal / 2) uploadspeed).mult ≤ 1024 := by
  have hle : (freespc.toNat - minlocal.toNat / 2) * 1023 ≤
      (minlocal.toNat + size.toNat - 1 - minlocal.toNat / 2) * 1023 :=
    Nat.mul_le_mul_right 1023 (by have := h.lt_sum; omega)
  obtain ⟨hcap, hwrap⟩ := lt_min_iff.1 (hle.trans_lt hsmall)
  have heq : (Shaping.mk freespc (minlocal / 2) uploadspeed).mult.toNat = _ := h.toNat_mult
  rw [Nat.mod_eq_of_lt hwrap] at heq
  refine ⟨heq, ?_⟩
  rw [UInt64.le_iff_toNat_le, heq]
  exact Nat.succ_le_of_lt (Nat.div_lt_of_lt_mul hcap)

/-! ## The condition is enough -/

/-- How the decisions for less and for more free space are related. -/
inductive Ordered (size : UInt64) : Outcome → Outcome → Prop where
  | go (a : Outcome) : Ordered size a .go
  | refuse (b : Outcome) : Ordered size .refuse b
  | same (a : Outcome) : Ordered size a a
  | shape {s t : Shaping} (hupload : s.uploadspeed = t.uploadspeed) (hmult : s.mult ≤ t.mult)
      (hcap : t.mult ≤ 1024) (hsize : size.toNat < 2 ^ 55) : Ordered size (.shape s) (.shape t)

theorem Outcome.slower_refl (a : Outcome) : a.Slower a := by
  cases a with
  | go | refuse => exact trivial
  | shape s => exact UInt64.le_refl _

theorem Ordered.slower {a b : Outcome} (h : Ordered size a b) : a.Slower b := by
  cases h with
  | go => cases a <;> exact trivial
  | refuse => exact trivial
  | same => exact a.slower_refl
  | shape hupload hmult hcap _ => exact Shaping.speed_le hupload hmult hcap

theorem Ordered.delay_le {a b : Outcome} (h : Ordered size a b) (written : ℕ → UInt64) :
    b.delay written size ≤ a.delay written size := by
  cases h with
  | go => exact bot_le
  | refuse => exact le_top
  | same => exact le_rfl
  | @shape s t hupload hmult hcap hsize =>
    have hbase := t.base_bounds.2
    have hspeed : t.speed.toNat < 2 ^ 32 := by
      have hle : t.base.toNat * t.mult.toNat ≤ t.base.toNat * 1024 :=
        Nat.mul_le_mul_left _ (UInt64.le_iff_toNat_le.1 hcap)
      rw [Shaping.toNat_speed hcap]
      omega
    exact WithTop.coe_le_coe.2
      (throttle_antitone (Shaping.speed_le hupload hmult hcap) hspeed le_rfl hsize)

theorem SmallWrite.size_lt (h : SmallWrite minlocal size) : size.toNat < 2 ^ 55 := by
  obtain ⟨-, hwrap⟩ := lt_min_iff.1 h
  omega

section

variable (h : Fits minlocal size uploadspeed pages)
include h

/-- A reading that is not short is limited by its multiplier, or goes on as pages are freed. -/
theorem Fits.small
    (hb : Between minlocal size freespc) (hgo : ¬(uploadspeed = 0 ∧ Frees pages size)) :
    SmallWrite minlocal size := by
  have hpage : (4096 : UInt64).toNat = 4096 := rfl
  have hm : 4096 < minlocal := by
    rw [UInt64.lt_iff_toNat_lt, hpage]
    exact hb.page_lt
  rcases h.2 hm with hfree | hwrap | hsmall
  · exact absurd hfree hgo
  · exact absurd hb.sum_lt (Nat.not_lt.2 hwrap)
  · exact hsmall

theorem Fits.ordered {freespc' : UInt64} (hle : freespc ≤ freespc') :
    Ordered size (doCheckWriteSpace minlocal size uploadspeed pages freespc)
      (doCheckWriteSpace minlocal size uploadspeed pages freespc') := by
  by_cases hgo : freespc' = 18446744073709551615 ∨ minlocal + size ≤ freespc'
  · rw [doCheck_of_le hgo]
    exact .go _
  have hlow' : freespc' < minlocal + size := UInt64.not_le.1 (not_or.1 hgo).2
  have hlow : freespc < minlocal + size := UInt64.lt_of_le_of_lt hle hlow'
  by_cases hshort' : Short minlocal size freespc'
  · -- the smaller reading is short as well, and the larger one is not looked at any more
    have hshort : Short minlocal size freespc :=
      hshort'.imp (UInt64.le_trans hle) (Or.imp_right (UInt64.le_trans hle))
    rw [doCheck_of_short hlow hshort, doCheck_of_short hlow' hshort']
    exact .same _
  have hb' : Between minlocal size freespc' := between_iff.2 ⟨hlow', hshort'⟩
  by_cases hfree : uploadspeed = 0 ∧ Frees pages size
  · rw [doCheck_of_not_short hlow' hshort', if_pos hfree]
    exact .go _
  have hsmall := h.small hb' hfree
  obtain ⟨heq', hcap'⟩ := hb'.mult_le uploadspeed hsmall
  by_cases hshort : Short minlocal size freespc
  · rw [doCheck_of_short hlow hshort]
    split
    · have hup : uploadspeed ≠ 0 := fun h0 =>
        hfree ⟨h0, frees_of_double (hsmall.size_lt.trans (by decide)) ‹_›⟩
      rw [if_neg hup, doCheck_of_not_short hlow' hshort', if_neg hfree]
      refine .shape rfl ?_ hcap' hsmall.size_lt
      have hhalf := hb'.half_lt
      rw [UInt64.le_iff_toNat_le, heq', toNat_mult_freed]
      exact Nat.succ_le_succ (Nat.div_le_div_right (by omega))
    · exact .refuse _
  · have hb : Between minlocal size freespc := between_iff.2 ⟨hlow, hshort⟩
    obtain ⟨heq, -⟩ := hb.mult_le uploadspeed hsmall
    rw [doCheck_of_not_short hlow hshort, if_neg hfree, doCheck_of_not_short hlow' hshort',
      if_neg hfree]
    refine .shape rfl ?_ hcap' hsmall.size_lt
    rw [UInt64.le_iff_toNat_le, heq, heq']
    have hnat := UInt64.le_iff_toNat_le.1 hle
    exact Nat.succ_le_succ (Nat.div_le_div_right (by omega))

theorem Fits.computes (freespc : UInt64) :
    (doCheckWriteSpace minlocal size uploadspeed pages freespc).Computes := by
  by_cases hgo : freespc = 18446744073709551615 ∨ minlocal + size ≤ freespc
  · rw [doCheck_of_le hgo]
    exact trivial
  have hlow : freespc < minlocal + size := UInt64.not_le.1 (not_or.1 hgo).2
  have hone : (1 : UInt64).toNat = 1 := rfl
  by_cases hshort : Short minlocal size freespc
  · rw [doCheck_of_short hlow hshort]
    split
    · split
      · exact trivial
      · have htwo : (2 : UInt64).toNat = 2 := rfl
        have hcap : (1024 : UInt64).toNat = 1024 := rfl
        have hzero : (0 : UInt64).toNat = 0 := rfl
        have hsum : minlocal + size ≠ 0 := by
          intro h0
          rw [h0, UInt64.lt_iff_toNat_lt, hzero] at hlow
          omega
        have hm : ¬minlocal < 2 := fun hlt => by
          rcases h.1 hlt with h0 | h0 | h0
          · exact absurd h0 ‹_›
          · exact h0 ‹_›
          · exact hsum h0
        rw [UInt64.lt_iff_toNat_lt, htwo] at hm
        have hdiv : 1023 / (minlocal.toNat / 2) ≤ 1023 := Nat.div_le_self _ _
        refine ⟨?_, ?_, ?_, ?_⟩
        · rw [Ne, ← UInt64.toNat_inj, toNat_half, hzero]
          omega
        · rw [UInt64.le_iff_toNat_le, toNat_half_add, toNat_half]
          omega
        · rw [UInt64.le_iff_toNat_le, toNat_mult_freed, hone]
          exact Nat.le_add_left 1 _
        · rw [UInt64.le_iff_toNat_le, toNat_mult_freed, hcap]
          omega
    · exact trivial
  · have hb : Between minlocal size freespc := between_iff.2 ⟨hlow, hshort⟩
    rw [doCheck_of_not_short hlow hshort]
    split
    · exact trivial
    · obtain ⟨heq, hcap⟩ := hb.mult_le uploadspeed (h.small hb ‹_›)
      have hpage := hb.page_lt
      have hhalf := hb.half_lt
      have hzero : (0 : UInt64).toNat = 0 := rfl
      refine ⟨?_, ?_, ?_, hcap⟩
      · rw [Ne, ← UInt64.toNat_inj, toNat_half, hzero]
        omega
      · rw [UInt64.le_iff_toNat_le, toNat_half]
        exact hhalf.le
      · rw [UInt64.le_iff_toNat_le, heq, hone]
        exact Nat.le_add_left 1 _

theorem Fits.throttles : Throttles minlocal size uploadspeed pages where
  computes := h.computes
  slower _ _ hle := (h.ordered hle).slower
  delay_le _ _ hle := (h.ordered hle).delay_le

end

/-! ## The condition is needed -/

/-- Numbers that grow by 1023 without wrapping. -/
theorem mod_top {x n : ℕ} (h : ∀ j < n, (x + 1023 * j) % 2 ^ 64 + 1023 < 2 ^ 64) :
    (x + 1023 * n) % 2 ^ 64 = x % 2 ^ 64 + 1023 * n := by
  induction n with
  | zero => rfl
  | succ n ih =>
    have hlast := h n (Nat.lt_succ_self n)
    have hprev := ih fun j hj => h j (by omega)
    omega

theorem exists_between (hpage : 4096 < minlocal.toNat)
    (hsum : minlocal.toNat + size.toNat < 2 ^ 64) {f : ℕ} (hhalf : minlocal.toNat / 2 < f)
    (hsize : size.toNat < f) (hf : f < minlocal.toNat + size.toNat) :
    ∃ freespc : UInt64, freespc.toNat = f ∧ Between minlocal size freespc := by
  have heq : (UInt64.ofNat f).toNat = f := UInt64.toNat_ofNat_of_lt' (hf.trans hsum)
  exact ⟨_, heq, heq.symm ▸ hhalf, hpage, heq.symm ▸ hsize, hsum, heq.symm ▸ hf⟩

theorem Throttles.limited (h : Throttles minlocal size uploadspeed pages)
    (hgo : ¬(uploadspeed = 0 ∧ Frees pages size)) (hb : Between minlocal size freespc) :
    doCheckWriteSpace minlocal size uploadspeed pages freespc =
        .shape ⟨freespc, minlocal / 2, uploadspeed⟩ ∧
      (freespc.toNat - minlocal.toNat / 2) * 1023 % 2 ^ 64 < minlocal.toNat / 2 * 1024 := by
  obtain ⟨hlt, hshort⟩ := between_iff.1 hb
  have hshape : doCheckWriteSpace minlocal size uploadspeed pages freespc =
      .shape ⟨freespc, minlocal / 2, uploadspeed⟩ := by
    rw [doCheck_of_not_short hlt hshort, if_neg hgo]
  have hcomputes := h.computes freespc
  rw [hshape] at hcomputes
  have hcap := UInt64.le_iff_toNat_le.1 hcomputes.2.2.2
  rw [hb.toNat_mult] at hcap
  have hpos : 0 < minlocal.toNat / 2 := by
    have hpage := hb.page_lt
    omega
  have hlt := (Nat.div_lt_iff_lt_mul hpos).1 (Nat.lt_of_succ_le hcap)
  exact ⟨hshape, hlt.trans_eq (Nat.mul_comm _ _)⟩

/-- The quotient drops where the product wraps. -/
theorem div_drop {x half : ℕ} (hhalf : 1023 < half) (hlt : half < 2 ^ 63)
    (hwrap : 2 ^ 64 ≤ x % 2 ^ 64 + 1023) :
    (x + 1023) % 2 ^ 64 / half + 1 < x % 2 ^ 64 / half + 1 := by
  have hzero : (x + 1023) % 2 ^ 64 / half = 0 := Nat.div_eq_of_lt (by omega)
  have hone : 1 ≤ x % 2 ^ 64 / half := (Nat.one_le_div_iff (by omega)).2 (by omega)
  omega

section

variable (h : Throttles minlocal size uploadspeed pages)
include h

/-- The product for the next reading does not wrap: the multiplier would be too large before it, or
    drop to 1. -/
theorem Throttles.next
    (hgo : ¬(uploadspeed = 0 ∧ Frees pages size)) {freespc' : UInt64}
    (hb : Between minlocal size freespc) (hb' : Between minlocal size freespc')
    (hnext : freespc'.toNat = freespc.toNat + 1) :
    (freespc.toNat - minlocal.toNat / 2) * 1023 % 2 ^ 64 + 1023 < 2 ^ 64 := by
  obtain ⟨hshape, -⟩ := h.limited hgo hb
  obtain ⟨hshape', -⟩ := h.limited hgo hb'
  by_contra hwrap
  have hm := minlocal.toNat_lt
  have hhalf := hb.half_lt
  have hprod : (freespc'.toNat - minlocal.toNat / 2) * 1023 =
      (freespc.toNat - minlocal.toNat / 2) * 1023 + 1023 := by omega
  have hmult : (Shaping.mk freespc (minlocal / 2) uploadspeed).mult.toNat = _ := hb.toNat_mult
  have hmult' : (Shaping.mk freespc' (minlocal / 2) uploadspeed).mult.toNat = _ := hb'.toNat_mult
  rw [hprod] at hmult'
  have hpage := hb.page_lt
  have hslower := h.slower freespc freespc' (UInt64.le_iff_toNat_le.2 (by omega))
  have hcap := h.computes freespc
  rw [hshape] at hslower hcap
  rw [hshape'] at hslower
  have hfaster : (Shaping.mk freespc' (minlocal / 2) uploadspeed).speed <
      (Shaping.mk freespc (minlocal / 2) uploadspeed).speed := by
    refine Shaping.speed_lt rfl ?_ hcap.2.2.2
    rw [UInt64.lt_iff_toNat_lt, hmult, hmult']
    exact div_drop (by omega) (by omega) (Nat.not_lt.1 hwrap)
  exact absurd hslower (UInt64.not_le.2 hfaster)

/-- A write that is limited is small for the setting. -/
theorem Throttles.small
    (hpage : 4096 < minlocal.toNat) (hgo : ¬(uploadspeed = 0 ∧ Frees pages size))
    (hsum : minlocal.toNat + size.toNat < 2 ^ 64) : SmallWrite minlocal size := by
  have hbetween : ∀ f, max (minlocal.toNat / 2) size.toNat < f →
      f < minlocal.toNat + size.toNat → _ := fun f hmax hf =>
    exists_between hpage hsum (max_lt_iff.1 hmax).1 (max_lt_iff.1 hmax).2 hf
  -- From the first to the last of the readings that limit the write, the products do not wrap.
  obtain ⟨low, hlow⟩ : ∃ low, max (minlocal.toNat / 2) size.toNat + 1 = low := ⟨_, rfl⟩
  obtain ⟨n, hn⟩ : ∃ n, low + n = minlocal.toNat + size.toNat - 1 :=
    ⟨minlocal.toNat + size.toNat - 1 - low, by omega⟩
  have hfactor : ∀ j, (low + j - minlocal.toNat / 2) * 1023 =
      (low - minlocal.toNat / 2) * 1023 + 1023 * j := fun j => by omega
  have htop := mod_top (x := (low - minlocal.toNat / 2) * 1023) (n := n) fun j hj => by
    obtain ⟨f, hf, hb⟩ := hbetween (low + j) (by omega) (by omega)
    obtain ⟨f', hf', hb'⟩ := hbetween (low + j + 1) (by omega) (by omega)
    have hnext := h.next hgo hb hb' (by omega)
    rwa [hf, hfactor] at hnext
  obtain ⟨f, hf, hb⟩ := hbetween (low + n) (by omega) (by omega)
  have hlast := (h.limited hgo hb).2
  rw [hf, hfactor, htop] at hlast
  have hlt := Nat.mod_lt ((low - minlocal.toNat / 2) * 1023 + 1023 * n) (by decide : 0 < 2 ^ 64)
  rw [htop] at hlt
  rcases Nat.lt_or_ge (minlocal.toNat / 2) size.toNat with hlong | hshort
  · -- A write that is longer than half of the setting has too many of them.
    rw [Nat.max_eq_right hlong.le] at hlow
    omega
  · rw [Nat.max_eq_left hshort] at hlow
    have hfirst : (low - minlocal.toNat / 2) * 1023 = 1023 := by omega
    rw [hfirst] at hlast hlt
    rw [SmallWrite, lt_min_iff]
    omega

theorem Throttles.fits : Fits minlocal size uploadspeed pages := by
  have hpage : (4096 : UInt64).toNat = 4096 := rfl
  refine ⟨fun hm => ?_, fun hm => ?_⟩
  · by_contra hbad
    obtain ⟨hup, hfree, hsum⟩ : uploadspeed ≠ 0 ∧ Frees pages (size * 2) ∧ minlocal + size ≠ 0 := by
      refine ⟨fun h0 => hbad (.inl h0), ?_, fun h0 => hbad (.inr (.inr h0))⟩
      by_contra h0
      exact hbad (.inr (.inl h0))
    have htwo : (2 : UInt64).toNat = 2 := rfl
    rw [UInt64.lt_iff_toNat_lt, htwo] at hm
    have hshort : Short minlocal size 0 := .inr (.inl (UInt64.le_iff_toNat_le.2 (by omega)))
    have hcomputes := h.computes 0
    rw [doCheck_of_short (UInt64.pos_iff_ne_zero.2 hsum) hshort, if_pos hfree, if_neg hup]
      at hcomputes
    refine hcomputes.1 (UInt64.toNat_inj.1 ?_)
    rw [toNat_half]
    exact Nat.div_eq_of_lt hm
  · by_cases hgo : uploadspeed = 0 ∧ Frees pages size
    · exact .inl hgo
    rcases Nat.lt_or_ge (minlocal.toNat + size.toNat) (2 ^ 64) with hsum | hsum
    · exact .inr (.inr (h.small (by rwa [UInt64.lt_iff_toNat_lt, hpage] at hm) hgo hsum))
    · exact .inr (.inl hsum)

end

/-- For every setting, size of a write, upload speed and read cache: over all readings of the free
    space the limit is computed without a division by zero, a wrap or a multiplier out of its range,
    and less space never means a smaller delay, exactly where the condition holds. -/
theorem throttles_iff (minlocal size : UInt64) (uploadspeed : UInt32) (pages : ℕ) :
    Throttles minlocal size uploadspeed pages ↔ Fits minlocal size uploadspeed pages :=
  ⟨Throttles.fits, Fits.throttles⟩

/-- With a setting of 0, pages of the read cache that are freed and an upload, the divisor is zero;
    with 64 KiB and 4095 bytes above them, the multiplier is 1151. -/
theorem not_throttles : ¬Throttles 0 4096 1 2 ∧ ¬Throttles 65536 4096 1 0 := by
  refine ⟨fun h => (h.computes 0).1 rfl, fun h => ?_⟩
  have hcap := (h.computes 69631).2.2.2
  revert hcap
  decide

end Pclsync.WriteSpace
