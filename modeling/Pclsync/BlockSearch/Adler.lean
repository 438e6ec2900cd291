import Mathlib.Data.List.GetD
import Mathlib.Data.ZMod.Basic
import Mathlib.Tactic.LinearCombination
import Pclsync.FletcherSum

/-!
# Adler-32 of a sliding window

`adler32` and `adler32_roll` (`pnetlibs.c`), with which a local file is searched for blocks of the
file to be transferred: the checksum of a window of the length of a block is computed once and then
rolled from byte to byte.

* `halves_adler32`: no 32-bit value wraps in `adler32`: it is the pair of running sums modulo 65521.
* `consistent_iff`: rolling gives the checksum of every window, for every file, if and only if the
  window is no longer than 16835555 bytes. For a longer one `len*byteout` can exceed what
  `ADLER32_BASE*ADLER32_BASE` makes up for.
-/

namespace Pclsync.BlockSearch

open List

/-- `ADLER32_BASE`. -/
def adler32Base : UInt32 := 65521

/-- `ADLER32_NMAX`. -/
def adler32Nmax : ℕ := 5552

/-- `ADLER32_INITIAL`. -/
def adler32Initial : UInt32 := 1

/-- `ADLER32_1`, on `adler` and `sum`. -/
def adler32Step (p : UInt32 × UInt32) (b : UInt8) : UInt32 × UInt32 :=
  (p.1 + b.toUInt32, p.2 + (p.1 + b.toUInt32))

/-- `ADLER32_16`. -/
def adler32_16 (p : UInt32 × UInt32) (buff : List UInt8) : UInt32 × UInt32 :=
  (buff.take 16).foldl adler32Step p

/-- `n` rounds of the inner loop, and the bytes after them. -/
def adler32Rounds : ℕ → UInt32 × UInt32 → List UInt8 → UInt32 × UInt32 × List UInt8
  | 0, p, buff => (p.1, p.2, buff)
  | n + 1, p, buff => adler32Rounds n (adler32_16 p buff) (buff.drop 16)

/-- The loop over pieces of `ADLER32_NMAX` bytes. -/
def adler32Pieces (p : UInt32 × UInt32) (buff : List UInt8) : UInt32 × UInt32 × List UInt8 :=
  if _ : adler32Nmax ≤ buff.length then
    let r := adler32Rounds (adler32Nmax / 16) p buff
    adler32Pieces (r.1 % adler32Base, r.2.1 % adler32Base) (buff.drop adler32Nmax)
  else (p.1, p.2, buff)
termination_by buff.length
decreasing_by
  unfold adler32Nmax at *
  rw [length_drop]
  omega

/-- The loop over 16 bytes at a time. -/
def adler32Sixteens (p : UInt32 × UInt32) (buff : List UInt8) : UInt32 × UInt32 × List UInt8 :=
  if _ : 16 ≤ buff.length then adler32Sixteens (adler32_16 p buff) (buff.drop 16)
  else (p.1, p.2, buff)
termination_by buff.length
decreasing_by
  rw [length_drop]
  omega

/-- `adler|(sum<<16)`. -/
def adler32Pack (adler sum : UInt32) : UInt32 := adler ||| (sum <<< 16)

def adler32 (adler : UInt32) (buff : List UInt8) : UInt32 :=
  let p := adler32Pieces (adler &&& 0xffff, adler >>> 16) buff
  let q := adler32Sixteens (p.1, p.2.1) p.2.2
  let r := q.2.2.foldl adler32Step (q.1, q.2.1)
  adler32Pack (r.1 % adler32Base) (r.2 % adler32Base)

def adler32Roll (adler : UInt32) (byteout bytein : UInt8) (len : UInt32) : UInt32 :=
  let sum := adler >>> 16
  let adler := (adler &&& 0xffff) + (adler32Base + bytein.toUInt32 - byteout.toUInt32)
  let sum := (adler32Base * adler32Base + sum - len * byteout.toUInt32 - adler32Initial + adler) %
    adler32Base
  adler32Pack (adler % adler32Base) sum

/-! ## Halves -/

theorem toNat_adler32Pack {adler sum : UInt32} (h : adler.toNat < 65536) (hs : sum.toNat < 65536) :
    (adler32Pack adler sum).toNat = 65536 * sum.toNat + adler.toNat := by
  rw [adler32Pack, UInt32.toNat_or, UInt32.toNat_shiftLeft, Nat.or_comm,
    show (16 : UInt32).toNat % 32 = 16 from rfl, Nat.mod_eq_of_lt,
    ← Nat.shiftLeft_add_eq_or_of_lt h, Nat.shiftLeft_eq, Nat.mul_comm]
  rw [Nat.shiftLeft_eq]
  omega

theorem toNat_low (x : UInt32) : (x &&& 0xffff).toNat = x.toNat % 65536 := by
  rw [UInt32.toNat_and]
  exact Nat.and_two_pow_sub_one_eq_mod _ 16

theorem toNat_high (x : UInt32) : (x >>> 16).toNat = x.toNat / 65536 := by
  rw [UInt32.toNat_shiftRight]
  exact Nat.shiftRight_eq_div_pow _ 16

/-- Both halves are below `ADLER32_BASE`. -/
structure Reduced (x : UInt32) : Prop where
  low : x.toNat % 65536 < 65521
  high : x.toNat / 65536 < 65521

/-- The halves as residues. -/
def halves (x : UInt32) : ZMod 65521 × ZMod 65521 :=
  ((x.toNat % 65536 : ℕ), (x.toNat / 65536 : ℕ))

theorem Reduced.ext {x y : UInt32} (hx : Reduced x) (hy : Reduced y) (h : halves x = halves y) :
    x = y := by
  have hlow := (ZMod.natCast_eq_natCast_iff' _ _ _).1 (Prod.ext_iff.1 h).1
  have hhigh := (ZMod.natCast_eq_natCast_iff' _ _ _).1 (Prod.ext_iff.1 h).2
  rw [Nat.mod_eq_of_lt hx.low, Nat.mod_eq_of_lt hy.low] at hlow
  rw [Nat.mod_eq_of_lt hx.high, Nat.mod_eq_of_lt hy.high] at hhigh
  exact UInt32.toNat_inj.1 (by omega)

/-! ## Loops -/

/-- `adler` and `sum` as residues. -/
def residues (p : UInt32 × UInt32) : ZMod 65521 × ZMod 65521 := (p.1.toNat, p.2.toNat)

/-- Bytes as residues. -/
def bytes (l : List UInt8) : List (ZMod 65521) := l.map fun b => (b.toNat : ZMod 65521)

variable {p : UInt32 × UInt32} {buff l l' : List UInt8}

@[simp] theorem length_bytes : (bytes l).length = l.length := length_map ..

@[simp] theorem bytes_append : bytes (l ++ l') = bytes l ++ bytes l' := map_append

/-- The sums do not wrap on as many bytes as they have room for. -/
theorem residues_foldl {A S : ℕ} (hA : p.1.toNat ≤ A) (hS : p.2.toNat ≤ S)
    (h : S + l.length * A + 255 * (l.length + 1).choose 2 < 4294967296) :
    residues (l.foldl adler32Step p) = fletcher (residues p) (bytes l) := by
  induction l generalizing p A S with
  | nil => rfl
  | cons b l ih =>
    have hb := b.toNat_lt
    have hchoose : (l.length + 1 + 1).choose 2 = (l.length + 1) + (l.length + 1).choose 2 := by
      rw [Nat.choose_succ_succ, Nat.choose_one_right]
    have hmul : (l.length + 1) * A = l.length * A + A := Nat.succ_mul _ _
    have hmul' : l.length * (A + 255) = l.length * A + l.length * 255 := Nat.mul_add _ _ _
    rw [length_cons, hchoose, hmul] at h
    have hfst : (p.1 + b.toUInt32).toNat = p.1.toNat + b.toNat := by
      rw [UInt32.toNat_add, UInt8.toNat_toUInt32, Nat.mod_eq_of_lt (by omega)]
    have hsnd : (p.2 + (p.1 + b.toUInt32)).toNat = p.2.toNat + (p.1.toNat + b.toNat) := by
      rw [UInt32.toNat_add, hfst, Nat.mod_eq_of_lt (by omega)]
    rw [foldl_cons, ih (p := adler32Step p b) (A := A + 255) (S := S + A + 255)
      (hfst.trans_le (by omega)) (hsnd.trans_le (by omega)) (by omega)]
    refine congrArg (fletcher · (bytes l)) (Prod.ext ?_ ?_)
    · exact (congrArg Nat.cast hfst).trans (Nat.cast_add _ _)
    · refine (congrArg Nat.cast hsnd).trans ?_
      rw [Nat.cast_add, Nat.cast_add]
      rfl

theorem adler32Rounds_eq (n : ℕ) : adler32Rounds n p buff =
      (((buff.take (16 * n)).foldl adler32Step p).1, ((buff.take (16 * n)).foldl adler32Step p).2,
        buff.drop (16 * n)) := by
  induction n generalizing p buff with
  | zero => rfl
  | succ n ih =>
    have htake : buff.take (16 * (n + 1)) = buff.take 16 ++ (buff.drop 16).take (16 * n) := by
      rw [Nat.mul_succ, Nat.add_comm, take_add]
    rw [adler32Rounds, ih, drop_drop, htake, foldl_append, Nat.mul_succ, Nat.add_comm]
    rfl

theorem adler32Sixteens_eq (buff : List UInt8) : (adler32Sixteens p buff).2.2.foldl adler32Step
      ((adler32Sixteens p buff).1, (adler32Sixteens p buff).2.1) = buff.foldl adler32Step p := by
  induction hn : buff.length using Nat.strong_induction_on generalizing p buff with
  | _ n ih =>
    rw [adler32Sixteens]
    split
    · rename_i hlen
      rw [ih (buff.drop 16).length (by rw [length_drop]; omega) _ rfl, adler32_16,
        ← foldl_append, take_append_drop]
    · rfl

theorem residues_mod (p : UInt32 × UInt32) :
    residues (p.1 % adler32Base, p.2 % adler32Base) = residues p := by
  refine Prod.ext ?_ ?_ <;>
    exact (congrArg Nat.cast (UInt32.toNat_mod _ _)).trans (ZMod.natCast_mod _ _)

theorem toNat_mod_lt (x : UInt32) : (x % adler32Base).toNat < 65521 := by
  rw [UInt32.toNat_mod]
  exact Nat.mod_lt _ (by decide)

/-- From reduced sums there is room for `ADLER32_NMAX` bytes. -/
theorem room {n : ℕ} (hn : n ≤ 5552) : 65520 + n * 65520 + 255 * (n + 1).choose 2 < 4294967296 := by
  have hchoose : (n + 1).choose 2 ≤ (5552 + 1).choose 2 := Nat.choose_le_choose 2 (by omega)
  have hval : (5552 + 1).choose 2 = 15415128 := by rw [Nat.choose_two_right]
  omega

/-- The sums after the first loop, and the bytes which are left. -/
theorem adler32Pieces_spec (buff : List UInt8) (hlow : p.1.toNat < 65521)
    (hhigh : p.2.toNat < 65521) :
    (adler32Pieces p buff).1.toNat < 65521 ∧ (adler32Pieces p buff).2.1.toNat < 65521 ∧
      (adler32Pieces p buff).2.2.length < 5552 ∧
      fletcher (residues ((adler32Pieces p buff).1, (adler32Pieces p buff).2.1))
        (bytes (adler32Pieces p buff).2.2) = fletcher (residues p) (bytes buff) := by
  induction hn : buff.length using Nat.strong_induction_on generalizing p buff with
  | _ n ih =>
    rw [adler32Pieces]
    split
    · rename_i hlen
      have hlen : 5552 ≤ buff.length := hlen
      have htake : (buff.take 5552).length = 5552 := length_take_of_le hlen
      have hsum : residues ((buff.take 5552).foldl adler32Step p) =
          fletcher (residues p) (bytes (buff.take 5552)) :=
        residues_foldl (Nat.le_of_lt_succ hlow) (Nat.le_of_lt_succ hhigh) (room htake.le)
      have hrounds := @adler32Rounds_eq p buff (adler32Nmax / 16)
      rw [show 16 * (adler32Nmax / 16) = 5552 by decide] at hrounds
      obtain ⟨h1, h2, h3, h4⟩ := ih (buff.drop 5552).length (by rw [length_drop]; omega)
        (buff.drop 5552) (p := (((buff.take 5552).foldl adler32Step p).1 % adler32Base,
          ((buff.take 5552).foldl adler32Step p).2 % adler32Base)) (toNat_mod_lt _)
        (toNat_mod_lt _) rfl
      rw [residues_mod, hsum, ← fletcher_append, ← bytes_append, take_append_drop] at h4
      rw [hrounds]
      exact ⟨h1, h2, h3, h4⟩
    · rename_i hlen
      exact ⟨hlow, hhigh, Nat.lt_of_not_le hlen, rfl⟩

/-! ## The checksum -/

theorem reduced_pack {a b : UInt32} (ha : a.toNat < 65521) (hb : b.toNat < 65521) :
    Reduced (adler32Pack a b) ∧ halves (adler32Pack a b) = residues (a, b) := by
  have hpack := @toNat_adler32Pack a b (by omega) (by omega)
  have hlow : (adler32Pack a b).toNat % 65536 = a.toNat := by omega
  have hhigh : (adler32Pack a b).toNat / 65536 = b.toNat := by omega
  exact ⟨⟨hlow.trans_lt ha, hhigh.trans_lt hb⟩, by rw [halves, hlow, hhigh]; rfl⟩

/-- `adler32` is the pair of running sums. -/
theorem halves_adler32 {adler : UInt32} (h : Reduced adler) (buff : List UInt8) :
    Reduced (adler32 adler buff) ∧
      halves (adler32 adler buff) = fletcher (halves adler) (bytes buff) := by
  let p : UInt32 × UInt32 := (adler &&& 0xffff, adler >>> 16)
  have hp : residues p = halves adler :=
    Prod.ext (congrArg Nat.cast (toNat_low adler)) (congrArg Nat.cast (toNat_high adler))
  obtain ⟨h1, h2, h3, h4⟩ := adler32Pieces_spec (p := p) buff
    ((toNat_low adler).trans_lt h.low) ((toNat_high adler).trans_lt h.high)
  generalize hr : adler32Pieces p buff = r at h1 h2 h3 h4
  have hsum := residues_foldl (p := (r.1, r.2.1)) (l := r.2.2) (Nat.le_of_lt_succ h1)
    (Nat.le_of_lt_succ h2) (room h3.le)
  have hpack := reduced_pack (toNat_mod_lt (r.2.2.foldl adler32Step (r.1, r.2.1)).1)
    (toNat_mod_lt (r.2.2.foldl adler32Step (r.1, r.2.1)).2)
  rw [residues_mod, hsum, h4, hp] at hpack
  have hunfold : adler32 adler buff =
      adler32Pack ((r.2.2.foldl adler32Step (r.1, r.2.1)).1 % adler32Base)
        ((r.2.2.foldl adler32Step (r.1, r.2.1)).2 % adler32Base) := by
    rw [← adler32Sixteens_eq, ← hr]
    rfl
  rw [hunfold]
  exact hpack

theorem reduced_initial : Reduced adler32Initial := ⟨by decide, by decide⟩

theorem halves_initial : halves adler32Initial = (1, 0) := by
  refine Prod.ext ?_ ?_
  · exact Nat.cast_one
  · exact Nat.cast_zero

/-! ## Rolling -/

/-- What `sum` is computed from in `adler32_roll`, before `len*byteout+1` is subtracted. -/
def rollRoom (adler : UInt32) (byteout bytein : UInt8) : ℕ :=
  4293001441 + adler.toNat / 65536 +
    (adler.toNat % 65536 + 65521 + bytein.toNat - byteout.toNat)

/-- The checksum after a step: `sum` is off by 225, the residue of `2^32`, each time the subtraction
    wraps. -/
theorem halves_adler32Roll {adler : UInt32} (h : Reduced adler) (byteout bytein : UInt8)
    (len : UInt32) :
    ∃ k : ℕ, k ≤ 256 ∧
      (k = 0 ↔ len.toNat * byteout.toNat + 1 ≤ rollRoom adler byteout bytein) ∧
      Reduced (adler32Roll adler byteout bytein len) ∧
      halves (adler32Roll adler byteout bytein len) =
        ((halves adler).1 - byteout.toNat + bytein.toNat,
          (halves adler).2 - len.toNat * byteout.toNat - 1 +
            ((halves adler).1 - byteout.toNat + bytein.toNat) + k * 225) := by
  have hout := byteout.toNat_lt
  have hin := bytein.toNat_lt
  have hlt := len.toNat_lt
  have hlow := h.low
  have hhigh := h.high
  let low : UInt32 := (adler &&& 0xffff) + (adler32Base + bytein.toUInt32 - byteout.toUInt32)
  let e : UInt32 := adler32Base * adler32Base + (adler >>> (16 : UInt32)) - len * byteout.toUInt32 -
    adler32Initial + low
  have hbytes : (adler32Base + bytein.toUInt32 - byteout.toUInt32).toNat =
      65521 + bytein.toNat - byteout.toNat := by
    have hadd : (adler32Base + bytein.toUInt32).toNat = 65521 + bytein.toNat := by
      rw [UInt32.toNat_add, UInt8.toNat_toUInt32, Nat.mod_eq_of_lt] <;>
        rw [show adler32Base.toNat = 65521 from rfl]
      omega
    rw [UInt32.toNat_sub_of_le _ _ (UInt32.le_iff_toNat_le.2 (by
      rw [hadd, UInt8.toNat_toUInt32]; omega)), hadd, UInt8.toNat_toUInt32]
  have hlowval : low.toNat = adler.toNat % 65536 + 65521 + bytein.toNat - byteout.toNat := by
    rw [UInt32.toNat_add, toNat_low, hbytes, Nat.mod_eq_of_lt (by omega)]
    omega
  have hroom : rollRoom adler byteout bytein = 4293001441 + adler.toNat / 65536 + low.toNat := by
    rw [rollRoom, hlowval]
  -- The subtractions taken back.
  have he : e + len * byteout.toUInt32 + 1 =
      adler32Base * adler32Base + (adler >>> (16 : UInt32)) + low := by
    dsimp only [e, adler32Initial]
    grind
  have hval : (e.toNat + len.toNat * byteout.toNat + 1) % 4294967296 =
      rollRoom adler byteout bytein := by
    have hnat := congrArg UInt32.toNat he
    simp only [UInt32.toNat_add, UInt32.toNat_mul, toNat_high, UInt8.toNat_toUInt32] at hnat
    rw [show adler32Base.toNat = 65521 from rfl, show (1 : UInt32).toNat = 1 from rfl] at hnat
    omega
  have hmul : len.toNat * byteout.toNat ≤ 4294967295 * 255 :=
    Nat.mul_le_mul (by omega) (by omega)
  have helt := e.toNat_lt
  obtain ⟨k, hk⟩ : ∃ k, e.toNat + len.toNat * byteout.toNat + 1 =
      rollRoom adler byteout bytein + 4294967296 * k :=
    ⟨_, (hval ▸ Nat.mod_add_div _ 4294967296).symm⟩
  have hpack := reduced_pack (toNat_mod_lt low) (toNat_mod_lt e)
  have hres : residues (low % adler32Base, e % adler32Base) = residues (low, e) :=
    residues_mod (low, e)
  refine ⟨k, by omega, ⟨fun hk0 => by omega, fun hle => by omega⟩, hpack.1, ?_⟩
  refine (hpack.2.trans hres).trans ?_
  have hbase : ((65521 : ℕ) : ZMod 65521) = 0 := ZMod.natCast_self 65521
  have hsquare : ((4293001441 : ℕ) : ZMod 65521) = 0 :=
    (ZMod.natCast_eq_zero_iff _ _).2 (by decide)
  have hwrap : ((4294967296 : ℕ) : ZMod 65521) = (225 : ℕ) :=
    (ZMod.natCast_eq_natCast_iff' _ _ _).2 (by decide)
  have hlowcast : (low.toNat : ZMod 65521) = (halves adler).1 - byteout.toNat + bytein.toNat := by
    have hsum : low.toNat + byteout.toNat = adler.toNat % 65536 + 65521 + bytein.toNat := by omega
    have hcast := congrArg (Nat.cast : ℕ → ZMod 65521) hsum
    simp only [Nat.cast_add, hbase, add_zero] at hcast
    rw [eq_sub_of_add_eq hcast, add_sub_right_comm]
    rfl
  refine Prod.ext hlowcast ?_
  have hcast := congrArg (Nat.cast : ℕ → ZMod 65521) (hroom ▸ hk)
  simp only [Nat.cast_add, Nat.cast_mul, hsquare, hwrap, Nat.cast_one, hlowcast] at hcast
  have hhighcast : (halves adler).2 = ((adler.toNat / 65536 : ℕ) : ZMod 65521) := rfl
  rw [← hhighcast] at hcast
  refine Eq.trans (b := (e.toNat : ZMod 65521)) rfl ?_
  push_cast at hcast ⊢
  linear_combination hcast

/-! ## Windows -/

/-- The checksum of the window at `n`, rolled from the beginning. -/
def rolled (file : List UInt8) (len : UInt32) : ℕ → UInt32
  | 0 => adler32 adler32Initial (file.take len.toNat)
  | n + 1 => adler32Roll (rolled file len n) (file.getD n 0) (file.getD (n + len.toNat) 0) len

/-- What is expected of the checksums of windows of a length. -/
structure Consistent (len : UInt32) : Prop where
  /-- The direct computation is the one in natural numbers. -/
  direct : ∀ buff, (adler32 adler32Initial buff).toNat =
    (fletcher (1, 0) (buff.map UInt8.toNat)).1 % 65521 +
      65536 * ((fletcher (1, 0) (buff.map UInt8.toNat)).2 % 65521)
  append : ∀ a b, adler32 adler32Initial (a ++ b) = adler32 (adler32 adler32Initial a) b
  roll : ∀ file n, n + len.toNat ≤ file.length →
    rolled file len n = adler32 adler32Initial ((file.drop n).take len.toNat)

theorem adler32_direct (buff : List UInt8) : (adler32 adler32Initial buff).toNat =
    (fletcher (1, 0) (buff.map UInt8.toNat)).1 % 65521 +
      65536 * ((fletcher (1, 0) (buff.map UInt8.toNat)).2 % 65521) := by
  obtain ⟨hred, hhalves⟩ := halves_adler32 reduced_initial buff
  have hcast := fletcher_natCast (R := ZMod 65521) (1, 0) (buff.map UInt8.toNat)
  rw [Nat.cast_one, Nat.cast_zero, map_map] at hcast
  rw [halves_initial, bytes] at hhalves
  have h := hhalves.trans hcast
  have hlow := (ZMod.natCast_eq_natCast_iff' _ _ _).1 (Prod.ext_iff.1 h).1
  have hhigh := (ZMod.natCast_eq_natCast_iff' _ _ _).1 (Prod.ext_iff.1 h).2
  rw [Nat.mod_eq_of_lt hred.low] at hlow
  rw [Nat.mod_eq_of_lt hred.high] at hhigh
  omega

theorem adler32_append {adler : UInt32} (h : Reduced adler) (a b : List UInt8) :
    adler32 adler (a ++ b) = adler32 (adler32 adler a) b := by
  have hab := halves_adler32 h (a ++ b)
  have ha := halves_adler32 h a
  have hb := halves_adler32 ha.1 b
  refine hab.1.ext hb.1 ?_
  rw [hab.2, hb.2, ha.2, bytes_append, fletcher_append]

section
variable {file : List UInt8} {len : UInt32} {n : ℕ}

theorem fletcher_window (hn : n + 1 + len.toNat ≤ file.length) :
    fletcher (1, 0) (bytes ((file.drop (n + 1)).take len.toNat)) =
      ((fletcher (1, 0) (bytes ((file.drop n).take len.toNat))).1 - (file.getD n 0).toNat +
          (file.getD (n + len.toNat) 0).toNat,
        (fletcher (1, 0) (bytes ((file.drop n).take len.toNat))).2 -
            len.toNat * (file.getD n 0).toNat - 1 +
          ((fletcher (1, 0) (bytes ((file.drop n).take len.toNat))).1 - (file.getD n 0).toNat +
            (file.getD (n + len.toNat) 0).toNat)) := by
  generalize len.toNat = m at hn ⊢
  cases m with
  | zero =>
    rw [take_zero, take_zero, Nat.add_zero]
    refine Prod.ext ?_ ?_
    · exact (sub_add_cancel _ _).symm
    · simp [bytes]
  | succ m =>
    have hlt : n < file.length := by omega
    have hdrop : file.drop n = file.getD n 0 :: file.drop (n + 1) := by
      rw [drop_eq_getElem_cons hlt, getD_eq_getElem _ _ hlt]
    have htake : (file.drop (n + 1)).take (m + 1) =
        (file.drop (n + 1)).take m ++ [file.getD (n + (m + 1)) 0] := by
      rw [take_add_one, getElem?_drop, getElem?_eq_getElem (by omega),
        getD_eq_getElem _ _ (by omega), Option.toList_some]
      congr 3
      omega
    have hlen : ((file.drop (n + 1)).take m).length + 1 = m + 1 := by
      rw [length_take_of_le (by rw [length_drop]; omega)]
    have hroll := fletcher_roll ((1 : ZMod 65521), 0) ((file.getD n 0).toNat)
      ((file.getD (n + (m + 1)) 0).toNat) (bytes ((file.drop (n + 1)).take m))
    rw [length_cons, length_bytes, hlen] at hroll
    rw [htake, bytes_append, hdrop, take_succ_cons]
    exact hroll

/-- One step of rolling gives the checksum of the next window if and only if the subtraction does
    not wrap. -/
theorem adler32Roll_eq_iff (hn : n + 1 + len.toNat ≤ file.length) :
    adler32Roll (adler32 adler32Initial ((file.drop n).take len.toNat)) (file.getD n 0)
        (file.getD (n + len.toNat) 0) len =
      adler32 adler32Initial ((file.drop (n + 1)).take len.toNat) ↔
    len.toNat * (file.getD n 0).toNat + 1 ≤
      rollRoom (adler32 adler32Initial ((file.drop n).take len.toNat)) (file.getD n 0)
        (file.getD (n + len.toNat) 0) := by
  obtain ⟨hred, hhalves⟩ := halves_adler32 reduced_initial ((file.drop n).take len.toNat)
  obtain ⟨hred', hhalves'⟩ := halves_adler32 reduced_initial ((file.drop (n + 1)).take len.toNat)
  obtain ⟨k, hk, hiff, hroll, hrolled⟩ := halves_adler32Roll hred (file.getD n 0)
    (file.getD (n + len.toNat) 0) len
  rw [halves_initial] at hhalves hhalves'
  rw [fletcher_window hn] at hhalves'
  rw [hhalves] at hrolled
  rw [← hiff]
  constructor
  · intro heq
    -- The residue 225 of each wrap is left over.
    have hsnd := (Prod.ext_iff.1 hrolled).2.symm.trans
      ((congrArg (fun x => (halves x).2) heq).trans (Prod.ext_iff.1 hhalves').2)
    have hzero : ((k * 225 : ℕ) : ZMod 65521) = 0 := by
      push_cast
      exact add_eq_left.1 hsnd
    have hdvd := (ZMod.natCast_eq_zero_iff _ _).1 hzero
    have := Nat.eq_zero_of_dvd_of_lt hdvd (by omega)
    omega
  · rintro rfl
    refine hroll.ext hred' (hrolled.trans ?_)
    rw [hhalves', Nat.cast_zero, zero_mul, add_zero]

/-- Rolling along a file, with windows for which no subtraction wraps. -/
theorem rolled_eq (hlen : len.toNat ≤ 16835555) (hn : n + len.toNat ≤ file.length) :
    rolled file len n = adler32 adler32Initial ((file.drop n).take len.toNat) := by
  induction n with
  | zero => rfl
  | succ n ih =>
    rw [rolled, ih (by omega)]
    refine (adler32Roll_eq_iff hn).2 ?_
    have hb := (file.getD n 0).toNat_lt
    have hmul := Nat.mul_le_mul_right (file.getD n 0).toNat hlen
    unfold rollRoom
    omega

end

/-! ## The longest window -/

/-- A window with both sums 0 which starts with 255: the others are 0, but for 240 before `v` zeros
    and 255 times 255 at the end. -/
def zeroWindow (m v : ℕ) : List UInt8 :=
  255 :: (replicate (m - 257 - v) 0 ++ (240 :: (replicate v 0 ++ replicate 255 255)))

/-- Where the 240 stands, for windows of length `m`. -/
def zeroPlace (m : ℕ) : ℕ := 273 * (256 * m + 8384640) % 65521

theorem length_zeroWindow {m v : ℕ} (h : v + 257 ≤ m) : (zeroWindow m v).length = m := by
  rw [zeroWindow, length_cons, length_append, length_replicate, length_cons,
    length_append, length_replicate, length_replicate]
  omega

theorem bytes_replicate (n : ℕ) (b : UInt8) :
    bytes (replicate n b) = replicate n (b.toNat : ZMod 65521) := map_replicate

theorem fletcher_zeroWindow {m : ℕ} (h : 16835555 < m) :
    fletcher (1, 0) (bytes (zeroWindow m (zeroPlace m))) = 0 := by
  have hv : zeroPlace m < 65521 := Nat.mod_lt _ (by decide)
  have hcons : ∀ (b : UInt8) l, bytes (b :: l) = (b.toNat : ZMod 65521) :: bytes l := fun _ _ => rfl
  have hchoose : (255 + 1).choose 2 = 32640 := by rw [Nat.choose_two_right]
  have hsum : ((240 * zeroPlace m + (256 * m + 8384640) : ℕ) : ZMod 65521) = 0 := by
    refine (ZMod.natCast_eq_zero_iff _ _).2 ?_
    unfold zeroPlace
    omega
  have hlen : ((m - 257 - zeroPlace m : ℕ) : ZMod 65521) = m - 257 - zeroPlace m := by
    rw [Nat.cast_sub (by omega), Nat.cast_sub (by omega)]
    rfl
  rw [zeroWindow, hcons, bytes_append, hcons, bytes_append, bytes_replicate, bytes_replicate,
    bytes_replicate, fletcher_cons, fletcher_append, fletcher_replicate, fletcher_cons,
    fletcher_append, fletcher_replicate, fletcher_replicate, hchoose, hlen]
  rw [show (0 : UInt8).toNat = 0 from rfl, show (240 : UInt8).toNat = 240 from rfl,
    show (255 : UInt8).toNat = 255 from rfl]
  have hbase : ((65521 : ℕ) : ZMod 65521) = 0 := ZMod.natCast_self 65521
  push_cast at hsum hbase ⊢
  refine Prod.ext ?_ ?_
  · dsimp only [Prod.fst_zero]
    linear_combination hbase
  · dsimp only [Prod.snd_zero]
    linear_combination hsum

/-- A file on which rolling a window that is too long fails at the first step. -/
theorem not_rolls {len : UInt32} {w : List UInt8} (hlen : w.length = len.toNat) (hpos : w ≠ [])
    (hroom : rollRoom (adler32 adler32Initial w) (w.getD 0 0) 0 <
      len.toNat * (w.getD 0 0).toNat + 1) :
    ¬ Consistent len := by
  intro h
  have hlt := length_pos_iff.2 hpos
  have hroll := h.roll (w ++ [0]) 1 (by rw [length_append, length_singleton]; omega)
  have hzero : (w ++ [0]).getD 0 0 = w.getD 0 0 := getD_append _ _ _ _ hlt
  have htake : ((w ++ [0]).drop 0).take len.toNat = w := by
    rw [drop_zero, ← hlen, take_left']
    rfl
  have hlast : (w ++ [0]).getD (0 + len.toNat) 0 = 0 := by
    rw [Nat.zero_add, ← hlen, getD_append_right _ _ _ _ (le_refl _), Nat.sub_self]
    rfl
  have hiff := @adler32Roll_eq_iff (w ++ [0]) len 0
    (by rw [length_append, length_singleton]; omega)
  rw [htake, hzero, hlast] at hiff
  refine absurd (hiff.1 ?_) (not_le_of_gt hroom)
  rw [← hroll, rolled, rolled, hzero, hlast, ← drop_zero (l := w ++ [0]), htake]

/-- Rolling gives the checksum of every window of every file if and only if the window is not
    longer than 16835555 bytes. -/
theorem consistent_iff (len : UInt32) : Consistent len ↔ len ≤ 16835555 := by
  rw [UInt32.le_iff_toNat_le, show (16835555 : UInt32).toNat = 16835555 from rfl]
  constructor
  · intro h
    by_contra hlt
    have hlt : 16835555 < len.toNat := Nat.lt_of_not_le hlt
    have hv : zeroPlace len.toNat < 65521 := Nat.mod_lt _ (by decide)
    have hhalves := halves_adler32 reduced_initial (zeroWindow len.toNat (zeroPlace len.toNat))
    rw [halves_initial, fletcher_zeroWindow hlt] at hhalves
    have hzero : halves (adler32 adler32Initial (zeroWindow len.toNat (zeroPlace len.toNat))) =
        halves 0 := hhalves.2.trans (Prod.ext Nat.cast_zero.symm Nat.cast_zero.symm)
    have hx := hhalves.1.ext ⟨by decide, by decide⟩ hzero
    have hlen : (zeroWindow len.toNat (zeroPlace len.toNat)).length = len.toNat :=
      length_zeroWindow (by omega)
    refine not_rolls hlen (cons_ne_nil _ _) ?_ h
    rw [hx, show (zeroWindow len.toNat (zeroPlace len.toNat)).getD 0 0 = 255 from rfl,
      show rollRoom 0 255 0 = 4293066707 from rfl, show (255 : UInt8).toNat = 255 from rfl]
    omega
  · exact fun hle => ⟨adler32_direct, adler32_append reduced_initial, fun file n => rolled_eq hle⟩

/-- Much longer windows fail on a file of 255 and zeros. -/
theorem not_consistent_of_le {len : UInt32} (h : 33554432 ≤ len.toNat) : ¬ Consistent len := by
  have hlen : (255 :: replicate (len.toNat - 1) (0 : UInt8)).length = len.toNat := by
    rw [length_cons, length_replicate]
    omega
  refine not_rolls hlen (cons_ne_nil _ _) ?_
  have hred := (halves_adler32 reduced_initial (255 :: replicate (len.toNat - 1) 0)).1
  have hlow := hred.low
  have hhigh := hred.high
  rw [getD_cons_zero, rollRoom, show (255 : UInt8).toNat = 255 from rfl,
    show (0 : UInt8).toNat = 0 from rfl]
  omega

/-- Windows of 32 MiB. -/
theorem not_consistent : ¬ Consistent 33554432 := not_consistent_of_le (le_refl _)

end Pclsync.BlockSearch
