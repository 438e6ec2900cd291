import Pclsync.Buffers
import Pclsync.Bytes

/-!
# Encryption of sectors

`psync_crypto_aes256_encode_sector` and `psync_crypto_aes256_decode_sector`. AES is a permutation of
blocks and the MAC a function of what it is fed. The buffers of the caller are in one memory `m`,
and `buff` is the array on the stack, where `aessrc`, `aesdst`, `aesxor` and `hmac` are offsets.

* `SectorCipher.encodeSector`, `SectorCipher.decodeSector`.
* `SectorCipher.decodeSectorWith`: decoding with other loops for the full blocks.
-/

namespace Pclsync

/-- The keys of `psync_crypto_aes256_sector_encoder_decoder_t`. -/
structure SectorCipher where
  aes : Equiv.Perm Block
  /-- the 64 bytes of the MAC, keyed with `iv` -/
  hmac : List UInt8 → Buf

/-- `memcmp_const` -/
def memcmpConst (s1 : Buf) (p : ℕ) (s2 : Buf) (q cnt : ℕ) : UInt32 :=
  let r := (List.range cnt).foldl
    (fun (r : UInt32) i => r ||| (s1 (p + i) ^^^ s2 (q + i)).toUInt32) 0
  (((r - 1) >>> 8) &&& 1) ^^^ 1

namespace SectorCipher

variable (enc : SectorCipher)

/-! ## AES on buffers -/

/-- `psync_aes256_encode_block` -/
def encodeBlock (buff : Buf) (src dst : ℕ) : Buf := buff.putBlock dst (enc.aes (buff.block src))

/-- `psync_aes256_decode_block` -/
def decodeBlock (buff : Buf) (src dst : ℕ) : Buf :=
  buff.putBlock dst (enc.aes.symm (buff.block src))

/-- `psync_aes256_encode_2blocks_consec` -/
def encode2Blocks (buff : Buf) (src dst : ℕ) : Buf :=
  enc.encodeBlock (enc.encodeBlock buff src dst) (src + 16) (dst + 16)

/-- `psync_aes256_decode_2blocks_consec` -/
def decode2Blocks (buff : Buf) (src dst : ℕ) : Buf :=
  enc.decodeBlock (enc.decodeBlock buff src dst) (src + 16) (dst + 16)

/-- `psync_aes256_decode_4blocks_consec_xor` -/
def decode4BlocksXor (buff : Buf) (src dst bxor : ℕ) : Buf :=
  let buff := enc.decode2Blocks buff src dst
  let buff := enc.decode2Blocks buff (src + 32) (dst + 32)
  buff.xorCnt dst buff bxor 64

/-- The MAC of the data, the sector id and the 16 random bytes at `rnd+r`. -/
def mac (m : Buf) (data datalen : ℕ) (sectorid : UInt64) (rnd : Buf) (r : ℕ) : Buf :=
  enc.hmac (m.bytes data datalen ++ toLE 8 sectorid.toNat ++ rnd.bytes r 16)

/-! ## Encoding -/

structure EncodeState where
  m : Buf
  buff : Buf
  data : ℕ
  out : ℕ
  datalen : ℕ
  aessrc : ℕ
  aesdst : ℕ

/-- One round of `while (datalen)`; the pointers are swapped. -/
def encodeStep (st : EncodeState) : EncodeState :=
  let buff := st.buff.xorCnt st.aessrc st.m st.data 16
  let buff := enc.encodeBlock buff st.aessrc st.aesdst
  let m := st.m.memcpy st.out buff st.aesdst 16
  ⟨m, buff, st.data + 16, st.out + 16, st.datalen - 16, st.aesdst, st.aessrc⟩

def encodeLoop (st : EncodeState) : EncodeState :=
  if st.datalen = 0 then st else encodeLoop (enc.encodeStep st)
  termination_by st.datalen
  decreasing_by exact (show st.datalen - 16 < st.datalen by omega)

/-- The branch `if (unlikely(needsteal))`: the last full block and what follows it. -/
def encodeSteal (st : EncodeState) (needsteal : ℕ) : Buf :=
  let buff := st.buff.xorCnt st.aessrc st.m st.data 16
  let data := st.data + 16
  let buff := enc.encodeBlock buff st.aessrc st.aesdst
  let m := st.m.memcpy (st.out + 16) buff st.aesdst needsteal
  let buff := buff.xorCnt st.aesdst m data needsteal
  let buff := enc.encodeBlock buff st.aesdst st.aessrc
  m.memcpy st.out buff st.aessrc 16

/-- `psync_crypto_aes256_encode_sector`: the memory after it, and the authenticator. -/
def encodeSector (buff rnd m : Buf) (data datalen out : ℕ) (authout : Buf) (sectorid : UInt64) :
    Buf × Buf :=
  let hmacsha1bin := enc.mac m data datalen sectorid rnd 0
  if datalen < 16 then
    let buff := buff.memcpy 0 rnd 0 16
    let buff := buff.xorCnt 0 m data datalen
    let m := m.memcpy out rnd 0 datalen
    let buff := buff.memcpy 16 hmacsha1bin 0 16
    let buff := enc.encode2Blocks buff 0 0
    (m, authout.memcpy 0 buff 0 32)
  else
    let needsteal := datalen % 16
    let datalen := if needsteal ≠ 0 then datalen - (needsteal + 16) else datalen
    let buff := buff.memcpy 0 rnd 0 8
    let buff := buff.memcpy 8 hmacsha1bin 0 16
    let buff := buff.memcpy 24 rnd 8 8
    let buff := enc.encode2Blocks buff 0 0
    let authout := authout.memcpy 0 buff 0 32
    let buff := buff.memcpy 0 hmacsha1bin 0 16
    let st := enc.encodeLoop ⟨m, buff, data, out, datalen, 0, 16⟩
    (if needsteal ≠ 0 then enc.encodeSteal st needsteal else st.m, authout)

/-! ## Decoding -/

structure DecodeState where
  m : Buf
  buff : Buf
  data : ℕ
  out : ℕ
  datalen : ℕ
  aessrc : ℕ
  aesxor : ℕ

/-- One round of `while (datalen>=PSYNC_AES256_BLOCK_SIZE*4)`. -/
def decodeStep4 (st : DecodeState) : DecodeState :=
  let buff := st.buff.memcpy st.aessrc st.m st.data 64
  let buff := buff.memcpy (st.aesxor + 16) buff st.aessrc 48
  let buff := enc.decode4BlocksXor buff st.aessrc 64 st.aesxor
  let m := st.m.memcpy st.out buff 64 64
  let buff := buff.memcpy st.aesxor buff (st.aessrc + 48) 16
  ⟨m, buff, st.data + 64, st.out + 64, st.datalen - 64, st.aessrc, st.aesxor⟩

def decodeLoop4 (st : DecodeState) : DecodeState :=
  if 64 ≤ st.datalen then decodeLoop4 (enc.decodeStep4 st) else st
  termination_by st.datalen
  decreasing_by exact (show st.datalen - 64 < st.datalen by omega)

/-- One round of `while (datalen)`; the pointers are swapped. -/
def decodeStep (st : DecodeState) : DecodeState :=
  let buff := st.buff.memcpy st.aessrc st.m st.data 16
  let buff := enc.decodeBlock buff st.aessrc 64
  let buff := buff.xorCnt 64 buff st.aesxor 16
  let m := st.m.memcpy st.out buff 64 16
  ⟨m, buff, st.data + 16, st.out + 16, st.datalen - 16, st.aesxor, st.aessrc⟩

def decodeLoop (st : DecodeState) : DecodeState :=
  if st.datalen = 0 then st else decodeLoop (enc.decodeStep st)
  termination_by st.datalen
  decreasing_by exact (show st.datalen - 16 < st.datalen by omega)

/-- The branch `if (unlikely(needsteal))`. -/
def decodeSteal (st : DecodeState) (needsteal : ℕ) : Buf × Buf :=
  let buff := st.buff.memcpy st.aessrc st.m st.data 16
  let buff := enc.decodeBlock buff st.aessrc 64
  let buff := buff.xorCnt 64 st.m (st.data + 16) needsteal
  let buff := buff.memcpy st.aessrc st.m (st.data + 16) needsteal
  let m := st.m.memcpy (st.out + 16) buff 64 needsteal
  let buff := buff.memcpy 64 buff st.aessrc needsteal
  let buff := enc.decodeBlock buff 64 st.aessrc
  let buff := buff.xorCnt st.aessrc buff st.aesxor 16
  (m.memcpy st.out buff st.aessrc 16, buff)

/-- The two branches on the length, with `hmac` at offset 192 and `loops` for the full blocks. -/
def decodeData (loops : DecodeState → DecodeState) (buff m : Buf) (data datalen out : ℕ) :
    Buf × Buf :=
  if datalen < 16 then
    let buff := buff.xorCnt 192 m data datalen
    let buff := buff.memcpy 0 m data datalen
    let m := m.memcpy out buff 192 datalen
    (m, buff.memcpy 192 buff 0 datalen)
  else
    let needsteal := datalen % 16
    let datalen := if needsteal ≠ 0 then datalen - (needsteal + 16) else datalen
    let buff := buff.memcpy 128 buff 200 16
    let buff := buff.memcpy 200 buff 216 8
    let buff := buff.memcpy 208 buff 128 16
    let st := loops ⟨m, buff, data, out, datalen, 0, 128⟩
    if needsteal ≠ 0 then enc.decodeSteal st needsteal else (st.m, st.buff)

/-- Decoding with `loops` for the full blocks. -/
def decodeSectorWith (loops : DecodeState → DecodeState) (buff m : Buf) (data datalen out : ℕ)
    (auth : Buf) (sectorid : UInt64) : ℤ × Buf :=
  let buff := buff.memcpy 0 auth 0 32
  let buff := enc.decode2Blocks buff 0 192
  let r := enc.decodeData loops buff m data datalen out
  let hmacsha1bin := enc.mac r.1 out datalen sectorid r.2 192
  (-(memcmpConst hmacsha1bin 0 r.2 208 16).toNat, r.1)

/-- `psync_crypto_aes256_decode_sector`: the result, and the memory after it. -/
def decodeSector (buff m : Buf) (data datalen out : ℕ) (auth : Buf) (sectorid : UInt64) : ℤ × Buf :=
  enc.decodeSectorWith (fun st => enc.decodeLoop (enc.decodeLoop4 st)) buff m data datalen out auth
    sectorid

end SectorCipher

end Pclsync
