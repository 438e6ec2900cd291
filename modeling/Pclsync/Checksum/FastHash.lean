import Mathlib.Data.Vector.Defs
import Pclsync.BlockFold
import Pclsync.Bytes
import Pclsync.Checksum.Crc32c
import Pclsync.Crypto.Layout
import Pclsync.File

/-!
# The hash of a log

`psync_fast_hash256` (`pcrc32c.c`): a hash of 256 bits with a state of six words, which takes in
blocks of 64 bytes. What is left of a call waits in the buffer of the context, whose last byte
counts it.

* `psyncFastHash256Update`: a short call only adds to the buffer, a long one completes the block
  there, takes in the blocks of its own data and leaves the rest.
* `checkLogHash`: the hash of a log as `psync_fs_crypto_check_log_hash` computes it, sector by
  sector.
* `Holds`: what a context has taken in, however the message was cut. `hash256_cut` is the result:
  the hash is a function of the message.
-/

namespace Pclsync.FastHash

open List hiding Vector

open Crc32c (entry crc32cTable poly)

/-! ## The code -/

/-- The ways to compute a check value: with tables, or with the instruction on words of 8 or of 4
    bytes. -/
inductive CrcPath
  | sw
  | hw64
  | hw32

/-- `fh_crc32_64sw`, which is `CRC32C_64BIT_UINT`. -/
def fhCrc3264sw (crc data : UInt64) : UInt64 :=
  let c := (crc ^^^ (data &&& 0xffffffff)).toNat
  let uint := data.toNat
  UInt64.ofNat
    (entry crc32cTable 7 (c &&& 0xff) ^^^
      entry crc32cTable 6 ((c >>> 8) &&& 0xff) ^^^
      entry crc32cTable 5 ((c >>> 16) &&& 0xff) ^^^
      entry crc32cTable 4 ((c >>> 24) &&& 0xff) ^^^
      entry crc32cTable 3 ((uint >>> 32) &&& 0xff) ^^^
      entry crc32cTable 2 ((uint >>> 40) &&& 0xff) ^^^
      entry crc32cTable 1 ((uint >>> 48) &&& 0xff) ^^^
      entry crc32cTable 0 ((uint >>> 56) &&& 0xff))

/-- The instruction with an operand of `n` bytes, which uses the lower half of the check value. -/
def crcHw (n crc data : ℕ) : ℕ := Crc.bitSteps poly (8 * n) (crc % 2 ^ 32 ^^^ data)

/-- `fh_crc32_64sw` or one of the two `fh_crc32_64hw`. -/
def fhCrc3264 : CrcPath → UInt64 → UInt64 → UInt64
  | .sw, crc, data => fhCrc3264sw crc data
  | .hw64, crc, data => UInt64.ofNat (crcHw 8 crc.toNat data.toNat)
  | .hw32, crc, data =>
    UInt64.ofNat (crcHw 4 (crcHw 4 crc.toNat (data.toNat % 2 ^ 32)) (data.toNat >>> 32))

/-- `fh_load64`: the word `i` of a block. -/
def fhLoad64 (block : List UInt8) (i : ℕ) : UInt64 :=
  UInt64.ofNat (ofLE ((block.drop (8 * i)).take 8))

def fhRotate64 (val shift : UInt64) : UInt64 :=
  if shift ≠ 0 then (val >>> shift) ||| (val <<< (64 - shift)) else val

def fhShiftmix (val : UInt64) : UInt64 := val ^^^ (val >>> 47)

def fhHashmul3 (u v mul : UInt64) : UInt64 :=
  fhShiftmix ((fhShiftmix ((u ^^^ v) * mul) ^^^ v) * mul) * mul

def fhHashmul2 (u v : UInt64) : UInt64 := fhHashmul3 u v 0x9ddfea08eb382d69

def k0 : UInt64 := 0xc3a5c85c97cb3127
def k1 : UInt64 := 0xb492b66fbe98f273
def k2 : UInt64 := 0x9ae16a3b2f90404f

/-- The words of the state, under their names in a round. -/
@[ext]
structure State where
  a : UInt64
  b : UInt64
  c : UInt64
  d : UInt64
  x : UInt64
  y : UInt64

/-- `ROUND_GEN`, with the words of a block. -/
def roundGen (crc : UInt64 → UInt64 → UInt64) (from64 : ℕ → UInt64) (s : State) : State :=
  let a := s.a + from64 0
  let b := s.b + from64 1
  let c := s.c + from64 2
  let d := s.d + from64 3
  let b := b ^^^ fhRotate64 a 21
  let d := d ^^^ fhRotate64 c 17
  let x := crc s.x (a + b)
  let y := crc s.y (c + d)
  let a := a + from64 4
  let b := b + from64 5
  let c := c + from64 6
  let d := d + from64 7
  let a := a ^^^ fhRotate64 b 13
  let c := c ^^^ fhRotate64 d 16
  let x := crc x (a + b)
  let y := crc y (c + d)
  -- `ROTATE_4_64` and `ROTATE_2_64`
  { a := d, b := a, c := b, d := c, x := y, y := x }

def blockLen : ℕ := 64

/-- `psync_fast_hash256_ctx`. -/
structure Ctx where
  state : State
  length : UInt64
  buff : List UInt8

/-- The number of bytes that wait in the buffer. -/
def Ctx.count (ctx : Ctx) : ℕ := (ctx.buff.getD (blockLen - 1) 0).toNat

/-- `memcpy` to a place in a buffer. -/
def copyTo (buff : List UInt8) (off : ℕ) (data : List UInt8) : List UInt8 :=
  buff.take off ++ (data ++ buff.drop (off + data.length))

/-- `n` bytes of the table `k` of check values, from the entry `i` on. -/
def tableBytes (k i n : ℕ) : List UInt8 :=
  (((crc32cTable.getD k []).drop i).flatMap (toLE 4)).take n

/-- `psync_fast_hash256_init`, where the buffer had some content before. -/
def psyncFastHash256Init (buff : List UInt8) : Ctx :=
  let state := tableBytes 0 2 48
  { state := { a := fhLoad64 state 0, b := fhLoad64 state 1, c := fhLoad64 state 2,
               d := fhLoad64 state 3, x := fhLoad64 state 4, y := fhLoad64 state 5 }
    length := 0
    buff := buff.set (blockLen - 1) 0 }

/-- `psync_fast_hash256_update_short_sw`. -/
def updateShort (ctx : Ctx) (cdata : List UInt8) : Ctx :=
  let l := ctx.count
  let buff := ctx.buff.set (blockLen - 1) (UInt8.ofNat (l + cdata.length))
  { ctx with buff := copyTo buff l cdata }

/-- The loop over the blocks of the data. -/
def rounds (path : CrcPath) : State → List UInt8 → State × List UInt8 :=
  foldBlocks blockLen fun s block => roundGen (fhCrc3264 path) (fhLoad64 block) s

/-- `psync_fast_hash256_update_long_sw` and `psync_fast_hash256_update_long_hw`. -/
def updateLong (path : CrcPath) (ctx : Ctx) (cdata : List UInt8) : Ctx :=
  let l := ctx.count
  let buff := if l ≠ 0 then copyTo ctx.buff l (cdata.take (blockLen - l)) else ctx.buff
  let cdata := if l ≠ 0 then cdata.drop (blockLen - l) else cdata
  let state := if l ≠ 0 then roundGen (fhCrc3264 path) (fhLoad64 buff) ctx.state else ctx.state
  let r := rounds path state cdata
  { ctx with
    state := r.1
    buff := (copyTo buff 0 r.2).set (blockLen - 1) (UInt8.ofNat r.2.length) }

/-- `psync_fast_hash256_update`; the data is in memory, so the sum of the two lengths is below
    `2 ^ 64`. -/
def psyncFastHash256Update (path : CrcPath) (ctx : Ctx) (data : List UInt8) : Ctx :=
  let ctx := { ctx with length := ctx.length + UInt64.ofNat data.length }
  if data.length + ctx.count < blockLen then updateShort ctx data else updateLong path ctx data

/-- The words of a block that `psync_fast_hash256_final` mixes with the length of the message. -/
def mixLength (len : UInt64) (buff64 : ℕ → UInt64) : ℕ → UInt64
  | 0 => buff64 0 + len * k0
  | 1 => buff64 1 ^^^ fhHashmul2 len k0
  | 2 => buff64 2 ^^^ len * k1
  | 3 => buff64 3 - len * k2
  | i + 4 => buff64 (i + 4)

/-- The end of `psync_fast_hash256_final`. -/
def finish (s : State) : List UInt8 :=
  let d := s.d ^^^ fhRotate64 s.a 43
  let a := s.a + fhRotate64 s.b 42
  let b := s.b ^^^ fhRotate64 s.c 41
  let c := s.c + fhRotate64 d 40
  let x := s.x
  let y := s.y
  let a := fhHashmul2 a (x + b)
  let b := fhHashmul2 b (y + c)
  let c := fhHashmul2 c (x + d)
  let d := fhHashmul2 d (y + a)
  [a + b + y + x, fhShiftmix ((a + x) * k0) * k0 + b, fhShiftmix ((c ^^^ y) * k1) * k1 + d,
    fhShiftmix ((x - y) * k2) * k2 + (c ^^^ d)].flatMap fun w => toLE 8 w.toNat

/-- `psync_fast_hash256_final`. -/
def psyncFastHash256Final (path : CrcPath) (ctx : Ctx) : List UInt8 :=
  let len := ctx.count
  let buff := copyTo ctx.buff len (tableBytes 1 2 (blockLen - len))
  finish (roundGen (fhCrc3264 path) (mixLength ctx.length (fhLoad64 buff)) ctx.state)

/-- The hash of a message that is given in parts. -/
def hash256 (path : CrcPath) (buff : List UInt8) (parts : List (List UInt8)) : List UInt8 :=
  psyncFastHash256Final path
    (parts.foldl (psyncFastHash256Update path) (psyncFastHash256Init buff))

/-- The reads of `psync_fs_crypto_check_log_hash`. -/
def logSectors (log : File) (off : ℕ) : List (List UInt8) :=
  if _ : (log.pread Crypto.sectorSize off).length ≠ 0 then
    log.pread Crypto.sectorSize off ::
      logSectors log (off + (log.pread Crypto.sectorSize off).length)
  else []
  termination_by log.size - off
  decreasing_by
    rename_i h
    have hlt : off < log.size := File.lt_size_of_pread h
    exact Nat.sub_lt_sub_left hlt (Nat.lt_add_of_pos_right (Nat.pos_of_ne_zero h))

/-- The hash that `psync_fs_crypto_check_log_hash` computes. -/
def checkLogHash (path : CrcPath) (buff : List UInt8) (log : File) : List UInt8 :=
  hash256 path buff (logSectors log Crypto.sectorSize)

/-! ## Check values -/

variable {path : CrcPath} {ctx : Ctx} {m data buff : List UInt8} {off : ℕ}

/-- The operand of the instruction, where `c` has the lower half of the data. -/
theorem operand_eq (crc data : ℕ) :
    crc % 2 ^ 32 ^^^ data = (crc ^^^ data % 2 ^ 32) % 2 ^ 32 ^^^ (data >>> 32) <<< 32 := by
  conv_lhs => rw [← Crc.mod_xor_shift 32 data]
  rw [← Nat.xor_assoc, Nat.xor_mod_two_pow, Nat.mod_mod]

/-- The bytes of a word, of which `c` has the lower half and `d` the upper one. -/
theorem byBytes_halves (c : ℕ) {d : ℕ} (hd : d < 2 ^ 32) :
    Crc.byBytes (entry crc32cTable) 8 (c % 2 ^ 32 ^^^ d <<< 32) =
      entry crc32cTable 7 (c &&& 0xff) ^^^
        entry crc32cTable 6 ((c >>> 8) &&& 0xff) ^^^
        entry crc32cTable 5 ((c >>> 16) &&& 0xff) ^^^
        entry crc32cTable 4 ((c >>> 24) &&& 0xff) ^^^
        entry crc32cTable 3 (d &&& 0xff) ^^^
        entry crc32cTable 2 ((d >>> 8) &&& 0xff) ^^^
        entry crc32cTable 1 ((d >>> 16) &&& 0xff) ^^^
        entry crc32cTable 0 ((d >>> 24) &&& 0xff) := by
  have h0 : c % 2 ^ 32 % 2 ^ 8 = c % 2 ^ 8 := by omega
  have h1 : (c % 2 ^ 32) >>> 8 % 2 ^ 8 = c >>> 8 % 2 ^ 8 := by
    simp only [Nat.shiftRight_eq_div_pow]
    omega
  have h2 : (c % 2 ^ 32) >>> 16 % 2 ^ 8 = c >>> 16 % 2 ^ 8 := by
    simp only [Nat.shiftRight_eq_div_pow]
    omega
  have h3 : (c % 2 ^ 32) >>> 24 % 2 ^ 8 = c >>> 24 % 2 ^ 8 := by
    simp only [Nat.shiftRight_eq_div_pow]
    omega
  have hc : (c % 2 ^ 32) >>> 32 = 0 :=
    Nat.shiftRight_eq_zero _ _ (Nat.mod_lt _ (by decide))
  have hend : d >>> 32 = 0 := Nat.shiftRight_eq_zero _ _ hd
  change Crc.byBytes _ 8 (_ ^^^ d <<< (24 + 8)) = _
  rw [Crc.byBytes_xor_shift, Crc.byBytes_xor_shift _ _ _ _ 16, Crc.byBytes_xor_shift _ _ _ _ 8,
    Crc.byBytes_xor_shift _ _ _ _ 0, Nat.shiftLeft_zero, Crc.byBytes, Crc.byBytes, Crc.byBytes,
    Crc.byBytes, Crc.byBytes]
  simp only [← Nat.shiftRight_add, Nat.reduceAdd, hc, hend, h0, h1, h2, h3, Nat.zero_xor,
    Nat.xor_zero, Crc32c.and_ff, Nat.xor_assoc]

/-- The tables do what the instruction does. -/
theorem fhCrc3264sw_eq (crc data : UInt64) :
    fhCrc3264sw crc data = UInt64.ofNat (crcHw 8 crc.toNat data.toNat) := by
  have hmask : (data &&& 0xffffffff).toNat = data.toNat % 2 ^ 32 := by
    rw [UInt64.toNat_and]
    exact Nat.and_two_pow_sub_one_eq_mod _ 32
  have hhigh : data.toNat >>> 32 < 2 ^ 32 := by
    have hlt := data.toNat_lt
    rw [Nat.shiftRight_eq_div_pow]
    omega
  have h40 : data.toNat >>> 40 = data.toNat >>> 32 >>> 8 := Nat.shiftRight_add _ 32 8
  have h48 : data.toNat >>> 48 = data.toNat >>> 32 >>> 16 := Nat.shiftRight_add _ 32 16
  have h56 : data.toNat >>> 56 = data.toNat >>> 32 >>> 24 := Nat.shiftRight_add _ 32 24
  rw [fhCrc3264sw, crcHw, operand_eq, UInt64.toNat_xor, hmask, Crc32c.bitSteps_64,
    byBytes_halves _ hhigh, h40, h48, h56]

/-- Two instructions on halves do what one does on the word. -/
theorem crcHw_halves (crc data : ℕ) :
    crcHw 4 (crcHw 4 crc (data % 2 ^ 32)) (data >>> 32) = crcHw 8 crc data := by
  have hlt : Crc.bitSteps poly (8 * 4) (crc % 2 ^ 32 ^^^ data % 2 ^ 32) < 2 ^ 32 :=
    Crc.bitSteps_lt Crc32c.poly_lt
      (Nat.xor_lt_two_pow (Nat.mod_lt _ (by decide)) (Nat.mod_lt _ (by decide)))
  have hsplit : crc % 2 ^ 32 ^^^ data =
      crc % 2 ^ 32 ^^^ data % 2 ^ 32 ^^^ (data >>> 32) <<< 32 := by
    rw [Nat.xor_assoc, Crc.mod_xor_shift]
  have hupper : Crc.bitSteps poly (8 * 8) ((data >>> 32) <<< 32) =
      Crc.bitSteps poly (8 * 4) (data >>> 32) := Crc.bitSteps_add_shiftLeft 32 (8 * 4) _
  rw [crcHw, crcHw, crcHw, Nat.mod_eq_of_lt hlt, hsplit]
  generalize crc % 2 ^ 32 ^^^ data % 2 ^ 32 = x
  rw [Crc.bitSteps_xor, Crc.bitSteps_xor _ x, hupper, ← Crc.bitSteps_add]

/-- All ways of computing a check value give the same. -/
theorem fhCrc3264_eq (path : CrcPath) : fhCrc3264 path = fhCrc3264 .hw64 := by
  funext crc data
  cases path with
  | sw => exact fhCrc3264sw_eq crc data
  | hw64 => rfl
  | hw32 => exact congrArg UInt64.ofNat (crcHw_halves crc.toNat data.toNat)

/-! ## The buffer -/

theorem length_copyTo (h : off + data.length ≤ buff.length) :
    (copyTo buff off data).length = buff.length := by
  rw [copyTo, length_append, length_append, length_take, length_drop]
  omega

/-- The bytes in front, and those that were copied behind them. -/
theorem take_copyTo (h : off + data.length ≤ buff.length) :
    (copyTo buff off data).take (off + data.length) = buff.take off ++ data := by
  have hlen : (buff.take off ++ data).length = off + data.length := by
    rw [length_append, length_take]
    omega
  rw [copyTo, ← append_assoc]
  exact take_left' hlen

theorem getD_copyTo {i : ℕ} (h : off + data.length ≤ i) (hi : i < buff.length) :
    (copyTo buff off data).getD i 0 = buff.getD i 0 := by
  have hlen : (buff.take off ++ data).length = off + data.length := by
    rw [length_append, length_take]
    omega
  rw [copyTo, ← append_assoc, getD_append_right _ _ _ _ (by omega), hlen,
    getD_eq_getElem?_getD, getElem?_drop, getD_eq_getElem?_getD]
  congr 2
  omega

theorem blockLen_pos : 0 < blockLen := by decide

/-- The count of a context is its last byte. -/
theorem count_set (hbuff : buff.length = blockLen) {n : ℕ} (hn : n < blockLen) (s : State)
    (len : UInt64) : (Ctx.mk s len (buff.set (blockLen - 1) (UInt8.ofNat n))).count = n := by
  have hlt : blockLen - 1 < buff.length := by
    rw [hbuff]
    decide
  have hmod : n % 2 ^ 8 = n := by
    rw [blockLen] at hn
    omega
  rw [Ctx.count, getD_eq_getElem?_getD, getElem?_set_self hlt]
  exact UInt8.toNat_ofNat'.trans hmod

theorem take_set_count {n : ℕ} (hn : n < blockLen) (b : UInt8) :
    (buff.set (blockLen - 1) b).take n = buff.take n := by
  rw [take_set, set_eq_of_length_le]
  rw [length_take]
  omega

/-! ## What is taken in -/

/-- The state after a message, and what of it waits. -/
def taken (path : CrcPath) (m : List UInt8) : State × List UInt8 :=
  rounds path (psyncFastHash256Init []).state m

/-- A context that has taken in a message. -/
structure Holds (path : CrcPath) (m : List UInt8) (ctx : Ctx) : Prop where
  length_buff : ctx.buff.length = blockLen
  length_eq : ctx.length = UInt64.ofNat m.length
  state_eq : ctx.state = (taken path m).1
  count_eq : ctx.count = (taken path m).2.length
  rest_eq : ctx.buff.take ctx.count = (taken path m).2

theorem length_taken (path : CrcPath) (m : List UInt8) : (taken path m).2.length < blockLen :=
  length_foldBlocks_lt blockLen_pos m

/-- What waits comes before the new data. -/
theorem taken_append (path : CrcPath) (m data : List UInt8) :
    taken path (m ++ data) = rounds path (taken path m).1 ((taken path m).2 ++ data) :=
  foldBlocks_append blockLen_pos m data

theorem holds_init (path : CrcPath) (h : buff.length = blockLen) :
    Holds path [] (psyncFastHash256Init buff) := by
  have htaken : taken path [] = ((psyncFastHash256Init []).state, []) :=
    foldBlocks_of_lt (by decide)
  have hcount : (psyncFastHash256Init buff).count = 0 := count_set h blockLen_pos _ _
  refine ⟨?_, rfl, ?_, ?_, ?_⟩
  · exact length_set.trans h
  · rw [htaken]
    rfl
  · rw [htaken, hcount]
    rfl
  · rw [htaken, hcount]
    rfl

theorem length_add (m data : List UInt8) :
    UInt64.ofNat m.length + UInt64.ofNat data.length = UInt64.ofNat (m ++ data).length := by
  rw [length_append, UInt64.ofNat_add]

theorem Holds.of_buff (hlen : buff.length = blockLen)
    (hcount : (buff.getD (blockLen - 1) 0).toNat = (taken path m).2.length)
    (hrest : buff.take (taken path m).2.length = (taken path m).2) :
    Holds path m ⟨(taken path m).1, UInt64.ofNat m.length, buff⟩ where
  length_buff := hlen
  length_eq := rfl
  state_eq := rfl
  count_eq := hcount
  rest_eq := by
    rw [Ctx.count, hcount]
    exact hrest

/-- A short call only adds to what waits. -/
theorem Holds.updateShort (h : Holds path m ctx) (hshort : data.length + ctx.count < blockLen) :
    Holds path (m ++ data)
      (updateShort { ctx with length := ctx.length + UInt64.ofNat data.length } data) := by
  have htaken : taken path (m ++ data) = ((taken path m).1, (taken path m).2 ++ data) := by
    rw [taken_append]
    refine foldBlocks_of_lt ?_
    rw [length_append, ← h.count_eq]
    omega
  obtain ⟨buff₁, hbuff1⟩ : ∃ buff₁, buff₁ =
      ctx.buff.set (blockLen - 1) (UInt8.ofNat (ctx.count + data.length)) := ⟨_, rfl⟩
  have hctx : FastHash.updateShort
      { ctx with length := ctx.length + UInt64.ofNat data.length } data =
      ⟨(taken path (m ++ data)).1, UInt64.ofNat (m ++ data).length,
        copyTo buff₁ ctx.count data⟩ := by
    rw [htaken, ← length_add, ← h.state_eq, ← h.length_eq, hbuff1]
    rfl
  have hlen1 : buff₁.length = blockLen := by rw [hbuff1, length_set, h.length_buff]
  have hfits : ctx.count + data.length ≤ buff₁.length := by omega
  have hsum : ((taken path m).2 ++ data).length = ctx.count + data.length := by
    rw [length_append, h.count_eq]
  rw [hctx]
  refine .of_buff ((length_copyTo hfits).trans hlen1) ?_ ?_
  · -- the count is behind what was copied
    rw [getD_copyTo (by omega) (by rw [hlen1]; decide), htaken, hsum, hbuff1]
    exact count_set h.length_buff (by omega) ctx.state ctx.length
  · rw [htaken, hsum, take_copyTo hfits, hbuff1, take_set_count (by omega), h.rest_eq]

theorem buff_of_rest {rest : List UInt8} (hlen : buff.length = blockLen)
    (hrest : rest.length < blockLen) :
    ((copyTo buff 0 rest).set (blockLen - 1) (UInt8.ofNat rest.length)).length = blockLen ∧
      (((copyTo buff 0 rest).set (blockLen - 1) (UInt8.ofNat rest.length)).getD
        (blockLen - 1) 0).toNat = rest.length ∧
      ((copyTo buff 0 rest).set (blockLen - 1) (UInt8.ofNat rest.length)).take rest.length =
        rest := by
  have hfits : 0 + rest.length ≤ buff.length := by omega
  have hcopy : (copyTo buff 0 rest).length = blockLen := (length_copyTo hfits).trans hlen
  refine ⟨length_set.trans hcopy, ?_, ?_⟩
  · exact count_set hcopy hrest (psyncFastHash256Init []).state 0
  · have htake := take_copyTo hfits
    rw [Nat.zero_add, take_zero, nil_append] at htake
    rw [take_set_count hrest, htake]

/-- The context after a loop that ends with `r`. -/
def Ctx.leave (ctx : Ctx) (r : State × List UInt8) (buff : List UInt8) : Ctx :=
  { ctx with
    state := r.1
    buff := (copyTo buff 0 r.2).set (blockLen - 1) (UInt8.ofNat r.2.length) }

theorem updateLong_of_zero (ctx : Ctx) (hl : ctx.count = 0) :
    updateLong path ctx data = ctx.leave (rounds path ctx.state data) ctx.buff := by
  simp only [updateLong, hl, ne_eq, not_true_eq_false, if_false]
  rfl

/-- The bytes that wait are completed to a block. -/
theorem updateLong_of_pos (ctx : Ctx) (hl : ctx.count ≠ 0) (hlen : ctx.buff.length = blockLen)
    (hcount : ctx.count < blockLen) (hlong : blockLen ≤ data.length + ctx.count) :
    updateLong path ctx data = ctx.leave (rounds path ctx.state (ctx.buff.take ctx.count ++ data))
        (ctx.buff.take ctx.count ++ data.take (blockLen - ctx.count)) := by
  have hfits : ctx.count + (data.take (blockLen - ctx.count)).length ≤ ctx.buff.length := by
    rw [length_take]
    omega
  have hfull : copyTo ctx.buff ctx.count (data.take (blockLen - ctx.count)) =
      ctx.buff.take ctx.count ++ data.take (blockLen - ctx.count) := by
    have hall : ctx.count + (data.take (blockLen - ctx.count)).length =
        (copyTo ctx.buff ctx.count (data.take (blockLen - ctx.count))).length := by
      rw [length_copyTo hfits, length_take]
      omega
    rw [← take_copyTo hfits, hall, take_length]
  have hblock : (ctx.buff.take ctx.count ++ data.take (blockLen - ctx.count)).length =
      blockLen := by
    rw [length_append, length_take, length_take]
    omega
  have hsplit : ctx.buff.take ctx.count ++ data =
      (ctx.buff.take ctx.count ++ data.take (blockLen - ctx.count)) ++
        data.drop (blockLen - ctx.count) := by
    rw [append_assoc, take_append_drop]
  rw [hsplit, rounds, foldBlocks_block blockLen_pos hblock, ← hfull]
  simp only [updateLong, if_pos hl]
  rfl

/-- A long call takes in the block that it completes and those of its own data. -/
theorem Holds.updateLong (h : Holds path m ctx) (hlong : blockLen ≤ data.length + ctx.count) :
    Holds path (m ++ data)
      (updateLong path { ctx with length := ctx.length + UInt64.ofNat data.length } data) := by
  have hcount : ctx.count < blockLen := by
    rw [h.count_eq]
    exact length_taken path m
  have htaken : taken path (m ++ data) =
      rounds path ctx.state (ctx.buff.take ctx.count ++ data) := by
    rw [taken_append, h.state_eq, h.rest_eq]
  -- whether the loop starts with a block of the buffer or not, it ends with what is taken in of all
  obtain ⟨buff₁, hlen1, hctx⟩ : ∃ buff₁ : List UInt8, buff₁.length = blockLen ∧
      FastHash.updateLong path { ctx with length := ctx.length + UInt64.ofNat data.length } data =
        Ctx.leave { ctx with length := ctx.length + UInt64.ofNat data.length }
          (taken path (m ++ data)) buff₁ := by
    rw [htaken]
    by_cases hl : ctx.count = 0
    · refine ⟨ctx.buff, h.length_buff, ?_⟩
      rw [hl, take_zero, nil_append]
      exact updateLong_of_zero { ctx with length := ctx.length + UInt64.ofNat data.length } hl
    · refine ⟨ctx.buff.take ctx.count ++ data.take (blockLen - ctx.count), ?_,
        updateLong_of_pos _ hl h.length_buff hcount hlong⟩
      rw [length_append, length_take, length_take, h.length_buff]
      omega
  obtain ⟨hlen, hnew, hrest⟩ := buff_of_rest hlen1 (length_taken path (m ++ data))
  rw [hctx, Ctx.leave, h.length_eq, length_add]
  exact .of_buff hlen hnew hrest

theorem Holds.update (h : Holds path m ctx) (data : List UInt8) :
    Holds path (m ++ data) (psyncFastHash256Update path ctx data) := by
  rw [psyncFastHash256Update]
  split
  · next hshort => exact h.updateShort hshort
  · next hlong => exact h.updateLong (Nat.le_of_not_lt hlong)

theorem holds_foldl {parts : List (List UInt8)} (h : Holds path m ctx) :
    Holds path (m ++ parts.flatten) (parts.foldl (psyncFastHash256Update path) ctx) := by
  induction parts generalizing m ctx with
  | nil =>
    rw [flatten_nil, append_nil]
    exact h
  | cons data parts ih =>
    rw [flatten_cons, ← append_assoc]
    exact ih (h.update data)

/-! ## The hash -/

/-- The hash of a message. -/
def digest (path : CrcPath) (m : List UInt8) : List UInt8 :=
  let rest := (taken path m).2
  let block := rest ++ tableBytes 1 2 (blockLen - rest.length)
  finish (roundGen (fhCrc3264 path) (mixLength (UInt64.ofNat m.length) (fhLoad64 block))
    (taken path m).1)

theorem length_flatMap_toLE (k : ℕ) (l : List ℕ) : (l.flatMap (toLE k)).length = l.length * k := by
  induction l with
  | nil => exact (Nat.zero_mul k).symm
  | cons x l ih =>
    rw [flatMap_cons, length_append, length_toLE, ih, length_cons, Nat.succ_mul, Nat.add_comm]

theorem length_finish (s : State) : (finish s).length = 32 := by
  simp only [finish, flatMap_cons, flatMap_nil, length_append, length_toLE, length_nil]

theorem length_digest (path : CrcPath) (m : List UInt8) : (digest path m).length = 32 :=
  length_finish _

theorem length_tableBytes {n : ℕ} (hn : n ≤ blockLen) : (tableBytes 1 2 n).length = n := by
  have hrow : ((crc32cTable.getD 1 []).drop 2).length = 254 := by decide +kernel
  have hall : (((crc32cTable.getD 1 []).drop 2).flatMap (toLE 4)).length = 254 * 4 := by
    rw [length_flatMap_toLE, hrow]
  rw [blockLen] at hn
  rw [tableBytes, length_take]
  omega

/-- The hash of a context is that of what it has taken in. -/
theorem Holds.final (h : Holds path m ctx) : psyncFastHash256Final path ctx = digest path m := by
  have hcount : ctx.count < blockLen := by
    rw [h.count_eq]
    exact length_taken path m
  have hlen := length_tableBytes (Nat.sub_le blockLen ctx.count)
  have hfits : ctx.count + (tableBytes 1 2 (blockLen - ctx.count)).length ≤ ctx.buff.length := by
    rw [hlen, h.length_buff]
    omega
  have hfull : copyTo ctx.buff ctx.count (tableBytes 1 2 (blockLen - ctx.count)) =
      (taken path m).2 ++ tableBytes 1 2 (blockLen - ctx.count) := by
    have hall : ctx.count + (tableBytes 1 2 (blockLen - ctx.count)).length =
        (copyTo ctx.buff ctx.count (tableBytes 1 2 (blockLen - ctx.count))).length := by
      rw [length_copyTo hfits, hlen, h.length_buff]
      omega
    rw [← h.rest_eq, ← take_copyTo hfits, hall, take_length]
  rw [psyncFastHash256Final, hfull, h.state_eq, h.length_eq, h.count_eq]
  rfl

theorem taken_path (path path' : CrcPath) (m : List UInt8) : taken path m = taken path' m := by
  rw [taken, taken, rounds, rounds, fhCrc3264_eq path, fhCrc3264_eq path']

theorem digest_path (path path' : CrcPath) (m : List UInt8) : digest path m = digest path' m := by
  rw [digest, digest, taken_path path path', fhCrc3264_eq path, fhCrc3264_eq path']

theorem hash256_eq (path : CrcPath) (buff : Vector UInt8 64) (parts : List (List UInt8)) :
    hash256 path buff.toList parts = digest path parts.flatten :=
  (holds_foldl (holds_init path buff.length_toList)).final

theorem pread_of_le (log : File) {n : ℕ} (off : ℕ) (h : log.size ≤ n) :
    log.pread n off = log.pread log.size off := by
  have hcut : min n (log.size - off) = min log.size (log.size - off) := by omega
  rw [File.pread, File.pread, hcut]

theorem pread_append (log : File) (n off : ℕ) :
    log.pread n off ++ log.pread log.size (off + (log.pread n off).length) =
      log.pread (n + log.size) off := by
  have hcut : min (n + log.size) (log.size - off) = min n (log.size - off) +
      min log.size (log.size - (off + min n (log.size - off))) := by omega
  rw [File.length_pread, File.pread, File.pread, File.pread, hcut, range_add, map_append, map_map]
  congr 2
  funext j
  simp only [Function.comp_apply, Nat.add_assoc]

/-- The sectors that are read are the rest of the log. -/
theorem flatten_logSectors (log : File) (off : ℕ) :
    (logSectors log off).flatten = log.pread log.size off := by
  induction hm : log.size - off using Nat.strong_induction_on generalizing off with
  | _ k ih =>
    rw [logSectors]
    by_cases h : (log.pread Crypto.sectorSize off).length ≠ 0
    · have hlt := File.lt_size_of_pread h
      rw [dif_pos h, flatten_cons, ih _ (by omega) _ rfl, pread_append,
        pread_of_le _ _ (Nat.le_add_left _ _)]
    · have hend : log.size ≤ off := by
        rw [File.length_pread, Crypto.sectorSize] at h
        omega
      rw [dif_neg h, File.pread_eq_nil hend, flatten_nil]

/-- For every message and every way of cutting it into calls, the hash is that of one call with the
    whole message, whatever the buffer held before and however check values are computed. So the
    hash of a log that is read sector by sector is that of its bytes after the first sector, in
    whatever pieces they were written. -/
theorem hash256_cut (path path' : CrcPath) (buff buff' : Vector UInt8 64) :
    (∀ parts, hash256 path buff.toList parts = hash256 path' buff'.toList [parts.flatten]) ∧
      ∀ log : File, checkLogHash path buff.toList log =
        hash256 path' buff'.toList [log.pread log.size Crypto.sectorSize] := by
  have hone : ∀ m : List UInt8, [m].flatten = m := fun m => append_nil m
  constructor
  · intro parts
    rw [hash256_eq, hash256_eq, hone, digest_path path path']
  · intro log
    rw [checkLogHash, hash256_eq, hash256_eq, hone, flatten_logSectors, digest_path path path']

end Pclsync.FastHash
