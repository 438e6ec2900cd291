import Pclsync.Buffers

/-!
# Encryption of texts

`psync_crypto_aes256_encode_text` and `psync_crypto_aes256_decode_text`. AES is a permutation of
blocks and the MAC a function of a message and a key. `buff` is the array on the stack, with
`aessrc` at 0, `aesdst` at 16 and `hmac` at 32; the output is an object of its own, of which `alloc`
is what `psync_new_cnt` returned. Texts lie in memory, so their lengths do not wrap.

* `TextCipher.encodeText`, `TextCipher.decodeText`.
* `TextCipher.encodeText_spec`: the blocks of the output are a chain, that starts from the IV for a
  text of one block and from the MAC of what follows the first block for a longer one.
* `TextCipher.decodeText_encodeText`: the text is read back, and both write inside their output.
-/

namespace Pclsync

open List

/-- `psync_crypto_aes256_key_var_iv_struct_t` -/
structure TextCipher where
  aes : Equiv.Perm Block
  iv : Buf
  ivlen : ℕ
  /-- the length is checked where an encoder or a decoder is created -/
  le_ivlen : 16 ≤ ivlen
  /-- the 64 bytes of the MAC of a message, under a key -/
  hmac : List UInt8 → List UInt8 → Buf

/-- `memset(b+p, x, n)` -/
def Buf.memset (b : Buf) (p : ℕ) (x : UInt8) (n : ℕ) : Buf := b.memcpy p (fun _ => x) 0 n

/-- `strlen(b+p)`, where `n` bytes are allocated at `b+p`. -/
def Buf.strlen (b : Buf) (p : ℕ) : ℕ → ℕ
  | 0 => 0
  | n + 1 => if b p = 0 then 0 else b.strlen (p + 1) n + 1

namespace TextCipher

variable (enc : TextCipher)

/-- `ALIGN_A256_BS` -/
def alignA256Bs (n : ℕ) : ℕ := (n + 15) / 16 * 16

/-- `psync_aes256_encode_block` -/
def encodeBlock (buff : Buf) (src dst : ℕ) : Buf := buff.putBlock dst (enc.aes (buff.block src))

/-- `psync_aes256_decode_block` -/
def decodeBlock (buff : Buf) (src dst : ℕ) : Buf :=
  buff.putBlock dst (enc.aes.symm (buff.block src))

/-- `psync_hmac_sha512` of a text, keyed with the IV. -/
def mac (m : Buf) (msg msglen : ℕ) : Buf := enc.hmac (m.bytes msg msglen) (enc.iv.bytes 0 enc.ivlen)

/-! ## Encoding -/

structure Padded where
  dst : Buf
  txt : ℕ
  txtlen : ℕ

/-- `copy_pad` -/
def copyPad (dst : Buf) (p cnt : ℕ) (m : Buf) (txt txtlen : ℕ) : Padded :=
  if cnt ≤ txtlen then ⟨dst.memcpy p m txt cnt, txt + cnt, txtlen - cnt⟩
  else ⟨(dst.memcpy p m txt txtlen).memset (p + txtlen) 0 (cnt - txtlen), txt, 0⟩

structure EncodeState where
  buff : Buf
  out : Buf
  outptr : ℕ
  txt : ℕ
  txtlen : ℕ

/-- One round of `do … while (txtlen)`. -/
def encodeStep (m : Buf) (st : EncodeState) : EncodeState :=
  let pad := copyPad st.buff 0 16 m st.txt st.txtlen
  let buff := pad.dst.xor16Aligned 0 pad.dst 16
  let buff := enc.encodeBlock buff 0 16
  ⟨buff, st.out.copyAligned st.outptr buff 16, st.outptr + 16, pad.txt, pad.txtlen⟩

theorem txtlen_copyPad (dst : Buf) (p cnt : ℕ) (m : Buf) (txt txtlen : ℕ) :
    (copyPad dst p cnt m txt txtlen).txtlen = txtlen - cnt := by
  rw [copyPad]
  split
  · rfl
  · exact (Nat.sub_eq_zero_of_le (Nat.le_of_not_le ‹_›)).symm

theorem txtlen_encodeStep (m : Buf) (st : EncodeState) :
    (enc.encodeStep m st).txtlen = st.txtlen - 16 := txtlen_copyPad ..

def encodeLoop (m : Buf) (st : EncodeState) : EncodeState :=
  if (enc.encodeStep m st).txtlen = 0 then enc.encodeStep m st
  else encodeLoop m (enc.encodeStep m st)
  termination_by st.txtlen
  decreasing_by
    have hlen := txtlen_encodeStep enc m st
    omega

structure Encoded where
  out : Buf
  outlen : ℕ

/-- `psync_crypto_aes256_encode_text` -/
def encodeText (buff alloc m : Buf) (txt txtlen : ℕ) : Encoded :=
  let ol := alignA256Bs txtlen
  if txtlen ≤ 16 then
    let buff := (copyPad buff 0 16 m txt txtlen).dst
    let buff := buff.xor16Aligned 0 enc.iv 0
    let buff := enc.encodeBlock buff 0 16
    ⟨alloc.copyAligned 0 buff 16, ol⟩
  else
    let buff := buff.memcpy 32 (enc.mac m (txt + 16) (txtlen - 16)) 0 64
    let buff := buff.copyUnaligned 0 m txt
    let buff := buff.xor16Aligned 0 buff 32
    let buff := enc.encodeBlock buff 0 16
    let out := alloc.copyAligned 0 buff 16
    ⟨(enc.encodeLoop m ⟨buff, out, 16, txt + 16, txtlen - 16⟩).out, ol⟩

/-! ## Decoding -/

structure DecodeState where
  buff : Buf
  ret : Buf
  outptr : ℕ
  data : ℕ

/-- One round of `while (--datalen)`. -/
def decodeStep (copy16 xor16 : Buf → ℕ → Buf → ℕ → Buf) (m : Buf) (st : DecodeState) :
    DecodeState :=
  let xorptr := st.data
  let data := st.data + 16
  let buff := copy16 st.buff 0 m data
  let buff := enc.decodeBlock buff 0 16
  let buff := xor16 buff 16 m xorptr
  ⟨buff, st.ret.copyAligned st.outptr buff 16, st.outptr + 16, data⟩

/-- The `n` blocks at `data`. -/
def decodeBlocks (copy16 xor16 : Buf → ℕ → Buf → ℕ → Buf) (buff alloc m : Buf) (data n : ℕ) :
    DecodeState :=
  let buff := copy16 buff 0 m data
  let buff := enc.decodeBlock buff 0 16
  (enc.decodeStep copy16 xor16 m)^[n - 1] ⟨buff, alloc.copyAligned 0 buff 16, 16, data⟩

/-- The loop that looks for a byte of the padding that is not zero. -/
def checkPadding (ret : Buf) (len outptr : ℕ) : Option Buf :=
  if (range (outptr - len)).all fun i => ret (len + i) = 0 then some ret else none

/-- `psync_crypto_aes256_decode_text` -/
def decodeText (buff alloc m : Buf) (data datalen : ℕ) : Option Buf :=
  if datalen % 16 ≠ 0 ∨ datalen = 0 then none
  else if datalen / 16 = 1 then
    let buff := buff.copyUnaligned 0 m data
    let buff := enc.decodeBlock buff 0 16
    let buff := buff.xor16Aligned 16 enc.iv 0
    let ret := alloc.copyAligned 0 buff 16
    let ret := ret.memset 16 0 1
    let len := ret.strlen 0 17 + 1
    checkPadding ret len 16
  else
    let st := if data % 8 = 0 then
        enc.decodeBlocks Buf.copyAligned Buf.xor16Aligned buff alloc m data (datalen / 16)
      else enc.decodeBlocks Buf.copyUnaligned Buf.xor16Unaligned buff alloc m data (datalen / 16)
    let ret := st.ret.memset st.outptr 0 1
    let len := ret.strlen 16 (st.outptr + 1 - 16)
    let buff := st.buff.memcpy 0 (enc.mac ret 16 len) 0 64
    let ret := ret.xor16Aligned 0 buff 0
    checkPadding ret (len + 17) st.outptr

/-! ## The chain of blocks -/

/-- A text with zeros behind it. -/
def padded (m : Buf) (txt txtlen : ℕ) : Buf := fun i => if i < txtlen then m (txt + i) else 0

/-- The block the chain starts from. -/
def start (m : Buf) (txt txtlen : ℕ) : Block :=
  if txtlen ≤ 16 then enc.iv.block 0 else (enc.mac m (txt + 16) (txtlen - 16)).block 0

/-- The blocks of the output. -/
def cipherBlock (x : Block) (plain : Buf) : ℕ → Block
  | 0 => enc.aes ((plain.block 0).xor x)
  | j + 1 => enc.aes ((plain.block (16 * (j + 1))).xor (cipherBlock x plain j))

variable {enc} {m buff alloc out : Buf} {txt txtlen : ℕ}

theorem padded_add {p q i : ℕ} (h : 16 ≤ txtlen) (hq : q = 16 + p) :
    padded m txt txtlen (q + i) = padded m (txt + 16) (txtlen - 16) (p + i) := by
  have hiff : q + i < txtlen ↔ p + i < txtlen - 16 := by omega
  rw [padded, padded, hq, Nat.add_assoc 16, Nat.add_assoc txt]
  exact if_congr (by omega) rfl rfl

/-- Where the text does not end before a block, the block is copied and padded. -/
theorem block_copyPad {j : ℕ} (hlt : 16 * j < txtlen) :
    (copyPad buff 0 16 m (txt + 16 * j) (txtlen - 16 * j)).dst.block 0 =
      (padded m txt txtlen).block (16 * j) := by
  funext i
  have hi := i.isLt
  rw [copyPad, Buf.block, Buf.block, padded]
  split <;> dsimp only
  · rw [Buf.memcpy_of_mem hi, if_pos (by omega), Nat.add_assoc]
  · rcases Nat.lt_or_ge (i : ℕ) (txtlen - 16 * j) with hin | hout
    · rw [Buf.memset, Buf.memcpy_of_notMem (.inl (by omega)), Buf.memcpy_of_mem hin,
        if_pos (by omega), Nat.add_assoc]
    · obtain ⟨k, hk⟩ := Nat.exists_eq_add_of_le hout
      rw [Buf.memset, hk, ← Nat.add_assoc, Buf.memcpy_of_mem (by omega), if_neg (by omega)]

theorem copyPad_of_le {a : ℕ} (ha : 16 ≤ a) (txt txtlen : ℕ) :
    (copyPad buff 0 16 m txt txtlen).dst a = buff a := by
  rw [copyPad]
  split <;> dsimp only
  · exact Buf.memcpy_of_notMem (.inr (by omega))
  · rw [Buf.memset, Buf.memcpy_of_notMem (.inr (by omega)), Buf.memcpy_of_notMem (.inr (by omega))]

/-- The first `j` of the blocks are in the output, and nothing is written behind them. -/
structure Written (f : ℕ → Block) (alloc out : Buf) (j : ℕ) : Prop where
  blocks : ∀ i < j, out.block (16 * i) = f i
  frame : ∀ a, 16 * j ≤ a → out a = alloc a

variable {x : Block} {plain : Buf} {f : ℕ → Block}

theorem written_zero (f : ℕ → Block) (alloc : Buf) : Written f alloc alloc 0 :=
  ⟨fun _ hi => absurd hi (Nat.not_lt_zero _), fun _ _ => rfl⟩

theorem Written.copy {j : ℕ} (h : Written f alloc out j) (hdst : buff.block 16 = f j) :
    Written f alloc (out.copyAligned (16 * j) buff 16) (j + 1) := by
  rw [Buf.copyAligned_eq]
  refine ⟨fun i hi => ?_, fun a ha => ?_⟩
  · rcases Nat.lt_succ_iff_lt_or_eq.1 hi with hlt | rfl
    · rw [Buf.copyUnaligned, Buf.block_memcpy_of_apart (by omega), h.blocks i hlt]
    · exact (Buf.block_memcpy (j := 0) le_rfl).trans hdst
  · rw [Buf.copyUnaligned, Buf.memcpy_of_notMem (.inr (by omega)), h.frame a (by omega)]

/-! ## What encoding does -/

theorem block_encodeBlock {src : ℕ} :
    (enc.encodeBlock buff src 16).block 16 = enc.aes (buff.block src) := Buf.block_putBlock

theorem block_xor16Aligned {key : Buf} {p k : ℕ} :
    (buff.xor16Aligned p key k).block p = (buff.block p).xor (key.block k) := by
  rw [Buf.xor16Aligned_eq]
  exact Buf.block_xorCnt (j := 0) le_rfl

theorem block_copyUnaligned {src : Buf} {p s : ℕ} :
    (buff.copyUnaligned p src s).block p = src.block s := Buf.block_memcpy (j := 0) le_rfl

/-- The first of several blocks is chained to what lies at `hmac`. -/
theorem block_firstBlock (enc : TextCipher) (m buff : Buf) (txt : ℕ) :
    (enc.encodeBlock ((buff.copyUnaligned 0 m txt).xor16Aligned 0 (buff.copyUnaligned 0 m txt) 32)
      0 16).block 16 = enc.aes ((m.block txt).xor (buff.block 32)) := by
  rw [block_encodeBlock, block_xor16Aligned, block_copyUnaligned, Buf.copyUnaligned,
    Buf.block_memcpy_of_apart (.inr (by decide))]

/-- The loop has written `j + 1` blocks, and the last one is still at `aesdst`. -/
structure Encoding (enc : TextCipher) (x : Block) (m alloc : Buf) (txt txtlen j : ℕ)
    (st : EncodeState) : Prop where
  written : Written (enc.cipherBlock x (padded m txt txtlen)) alloc st.out (j + 1)
  dst : st.buff.block 16 = enc.cipherBlock x (padded m txt txtlen) j
  outptr_eq : st.outptr = 16 * (j + 1)
  txtlen_eq : st.txtlen = txtlen - 16 * (j + 1)
  txt_eq : st.txtlen ≠ 0 → st.txt = txt + 16 * (j + 1)

theorem Encoding.step {j : ℕ} {st : EncodeState} (h : Encoding enc x m alloc txt txtlen j st)
    (hne : st.txtlen ≠ 0) : Encoding enc x m alloc txt txtlen (j + 1) (enc.encodeStep m st) := by
  have htxt := h.txt_eq hne
  have hlen := h.txtlen_eq
  have hpad : (copyPad st.buff 0 16 m st.txt st.txtlen).dst.block 0 =
      (padded m txt txtlen).block (16 * (j + 1)) := by
    rw [htxt, hlen]
    exact block_copyPad (by omega)
  have hprev : (copyPad st.buff 0 16 m st.txt st.txtlen).dst.block 16 =
      enc.cipherBlock x (padded m txt txtlen) j := by
    rw [← h.dst]
    exact Buf.block_congr fun i _ => copyPad_of_le (by omega) _ _
  have hdst : (enc.encodeStep m st).buff.block 16 =
      enc.cipherBlock x (padded m txt txtlen) (j + 1) := by
    rw [encodeStep, block_encodeBlock, block_xor16Aligned, hpad, hprev, cipherBlock]
  refine ⟨?_, hdst, ?_, ?_, fun hrest => ?_⟩
  · have hcopy := h.written.copy hdst
    rwa [← h.outptr_eq] at hcopy
  · change st.outptr + 16 = _
    rw [h.outptr_eq]
    omega
  · rw [txtlen_encodeStep, hlen]
    omega
  · -- Where text is left, a whole block of it has been copied.
    rw [txtlen_encodeStep] at hrest
    have hmove : (enc.encodeStep m st).txt = st.txt + 16 := by
      rw [encodeStep, copyPad, if_pos (by omega)]
    rw [hmove, htxt]
    omega

theorem Encoding.loop {j : ℕ} {st : EncodeState} (h : Encoding enc x m alloc txt txtlen j st)
    (hne : st.txtlen ≠ 0) :
    Written (enc.cipherBlock x (padded m txt txtlen)) alloc (enc.encodeLoop m st).out
      ((txtlen + 15) / 16) := by
  fun_induction encodeLoop generalizing j with
  | case1 st hzero =>
    have hstep := h.step hne
    have hlen := hstep.txtlen_eq
    have hold := h.txtlen_eq
    have hcount : (txtlen + 15) / 16 = j + 1 + 1 := by omega
    rw [hcount]
    exact hstep.written
  | case2 st hrest ih => exact ih (h.step hne) hrest

/-- The output is the chain of all blocks, and nothing is written behind it. -/
theorem encodeText_spec (enc : TextCipher) (hpos : 0 < txtlen) (buff alloc m : Buf) (txt : ℕ) :
    (enc.encodeText buff alloc m txt txtlen).outlen = 16 * ((txtlen + 15) / 16) ∧
      Written (enc.cipherBlock (enc.start m txt txtlen) (padded m txt txtlen)) alloc
        (enc.encodeText buff alloc m txt txtlen).out ((txtlen + 15) / 16) := by
  rw [encodeText, start]
  split
  · have hcount : (txtlen + 15) / 16 = 0 + 1 := by omega
    have hpad : (copyPad buff 0 16 m txt txtlen).dst.block 0 = (padded m txt txtlen).block 0 :=
      block_copyPad (j := 0) hpos
    refine ⟨Nat.mul_comm _ 16, ?_⟩
    rw [hcount]
    refine (written_zero _ alloc).copy ?_
    rw [block_encodeBlock, block_xor16Aligned, hpad, cipherBlock]
  · have hlong : 16 < txtlen := Nat.not_le.1 ‹_›
    refine ⟨Nat.mul_comm _ 16, ?_⟩
    have hfirst : m.block txt = (padded m txt txtlen).block 0 :=
      Buf.block_congr fun i hi => by rw [Nat.zero_add, padded, if_pos (by omega)]
    have hmac : (buff.memcpy 32 (enc.mac m (txt + 16) (txtlen - 16)) 0 64).block 32 =
        (enc.mac m (txt + 16) (txtlen - 16)).block 0 := Buf.block_memcpy (j := 0) (by decide)
    have hdst := block_firstBlock enc m
      (buff.memcpy 32 (enc.mac m (txt + 16) (txtlen - 16)) 0 64) txt
    rw [hmac, hfirst] at hdst
    refine Encoding.loop (j := 0)
      ⟨(written_zero _ alloc).copy hdst, hdst, rfl, rfl, fun _ => rfl⟩ ?_
    dsimp only
    omega

/-! ## What decoding does -/

/-- The blocks before the first one is changed by the MAC or the IV. -/
def plainBlock (x : Block) (plain : Buf) : ℕ → Block
  | 0 => (plain.block 0).xor x
  | j + 1 => plain.block (16 * (j + 1))

theorem block_decodeBlock {src : ℕ} :
    (enc.decodeBlock buff src 16).block 16 = enc.aes.symm (buff.block src) := Buf.block_putBlock

/-- The loop has decoded `j + 1` blocks. -/
structure Decoding (x : Block) (plain alloc : Buf) (data j : ℕ) (st : DecodeState) : Prop where
  written : Written (plainBlock x plain) alloc st.ret (j + 1)
  outptr_eq : st.outptr = 16 * (j + 1)
  data_eq : st.data = data + 16 * j

/-- The chained blocks lie at `data`. -/
def Holds (enc : TextCipher) (x : Block) (plain m : Buf) (data n : ℕ) : Prop :=
  ∀ j < n, m.block (data + 16 * j) = enc.cipherBlock x plain j

theorem Decoding.step {data n j : ℕ} {st : DecodeState} (hm : Holds enc x plain m data n)
    (h : Decoding x plain alloc data j st) (hj : j + 1 < n) :
    Decoding x plain alloc data (j + 1)
      (enc.decodeStep Buf.copyUnaligned Buf.xor16Unaligned m st) := by
  have hnext : st.data + 16 = data + 16 * (j + 1) := by
    rw [h.data_eq]
    omega
  have hdst : (enc.decodeStep Buf.copyUnaligned Buf.xor16Unaligned m st).buff.block 16 =
      plainBlock x plain (j + 1) := by
    rw [decodeStep, ← Buf.xor16Aligned_eq, block_xor16Aligned, block_decodeBlock,
      block_copyUnaligned, hnext, hm (j + 1) hj, h.data_eq, hm j (by omega), cipherBlock,
      Equiv.symm_apply_apply, Block.xor_xor_cancel, plainBlock]
  refine ⟨?_, ?_, hnext⟩
  · have hcopy := h.written.copy hdst
    rwa [← h.outptr_eq] at hcopy
  · change st.outptr + 16 = _
    rw [h.outptr_eq]
    omega

theorem Decoding.blocks {data n : ℕ} (hm : Holds enc x plain m data n) (hpos : 0 < n) :
    Decoding x plain alloc data (n - 1)
      (enc.decodeBlocks Buf.copyUnaligned Buf.xor16Unaligned buff alloc m data n) := by
  have hfirst : (enc.decodeBlock (buff.copyUnaligned 0 m data) 0 16).block 16 =
      plainBlock x plain 0 := by
    rw [block_decodeBlock, block_copyUnaligned]
    exact (congrArg _ (hm 0 hpos)).trans (Equiv.symm_apply_apply ..)
  have hrounds : ∀ j, j < n → Decoding x plain alloc data j
      ((enc.decodeStep Buf.copyUnaligned Buf.xor16Unaligned m)^[j]
        ⟨enc.decodeBlock (buff.copyUnaligned 0 m data) 0 16, alloc.copyAligned 0
          (enc.decodeBlock (buff.copyUnaligned 0 m data) 0 16) 16, 16, data⟩) := by
    intro j hj
    induction j with
    | zero => exact ⟨(written_zero _ alloc).copy hfirst, rfl, rfl⟩
    | succ j ih =>
      rw [Function.iterate_succ_apply']
      exact (ih (by omega)).step hm hj
  exact hrounds (n - 1) (by omega)

theorem strlen_eq {b : Buf} {p n k : ℕ} (hk : k < n) (hne : ∀ i < k, b (p + i) ≠ 0)
    (hzero : b (p + k) = 0) : b.strlen p n = k := by
  induction k generalizing p n with
  | zero =>
    obtain ⟨n, rfl⟩ := Nat.exists_eq_succ_of_ne_zero hk.ne'
    exact if_pos hzero
  | succ k ih =>
    obtain ⟨n, rfl⟩ := Nat.exists_eq_succ_of_ne_zero (Nat.ne_of_gt (Nat.zero_lt_of_lt hk))
    have htail := @ih (p + 1) n (by omega)
      (fun i hi => by rw [Nat.add_assoc, Nat.add_comm 1]; exact hne (i + 1) (by omega))
      (by rwa [Nat.add_assoc, Nat.add_comm 1])
    rw [Buf.strlen, htail]
    exact if_neg (hne 0 (Nat.succ_pos k))

theorem checkPadding_eq {ret : Buf} {len outptr : ℕ}
    (h : ∀ a, len ≤ a → a < outptr → ret a = 0) : checkPadding ret len outptr = some ret := by
  refine if_pos (all_eq_true.2 fun i hi => decide_eq_true ?_)
  have hlt := mem_range.1 hi
  exact h (len + i) (Nat.le_add_right len i) (by omega)

/-- The text, and zeros up to the end of the last block and at the byte behind it. -/
structure ReadBack (m : Buf) (txt txtlen : ℕ) (alloc ret : Buf) : Prop where
  text : ∀ i < txtlen, ret i = m (txt + i)
  zeros : ∀ i, txtlen ≤ i → i ≤ 16 * ((txtlen + 15) / 16) → ret i = 0
  frame : ∀ a, 16 * ((txtlen + 15) / 16) + 1 ≤ a → ret a = alloc a

theorem ReadBack.bytes {ret : Buf} (h : ReadBack m txt txtlen alloc ret) :
    ret.bytes 0 (txtlen + 1) = m.bytes txt txtlen ++ [0] := by
  have hlast : ret (0 + txtlen) = 0 := by
    rw [Nat.zero_add]
    exact h.zeros txtlen le_rfl (by omega)
  have htext : ret.bytes 0 txtlen = m.bytes txt txtlen :=
    Buf.bytes_congr fun i hi => by rw [Nat.zero_add, h.text i hi]
  rw [← htext, Buf.bytes, range_succ, map_append, map_singleton, hlast, Buf.bytes]

/-- The blocks of the padded text, with a zero behind them. -/
theorem ReadBack.of_blocks {ret : Buf} (hblocks : ∀ j < (txtlen + 15) / 16,
      ret.block (16 * j) = (padded m txt txtlen).block (16 * j))
    (hzero : ret (16 * ((txtlen + 15) / 16)) = 0)
    (hframe : ∀ a, 16 * ((txtlen + 15) / 16) + 1 ≤ a → ret a = alloc a) :
    ReadBack m txt txtlen alloc ret := by
  have hbyte : ∀ i < 16 * ((txtlen + 15) / 16), ret i = padded m txt txtlen i := by
    intro i hi
    have hat := Buf.eq_of_block (hblocks (i / 16) (by omega)) (Nat.mod_lt i (by decide : 0 < 16))
    rwa [Nat.div_add_mod] at hat
  refine ⟨fun i hi => ?_, fun i hle hi => ?_, hframe⟩
  · rw [hbyte i (by omega), padded, if_pos hi]
  · rcases Nat.lt_or_ge i (16 * ((txtlen + 15) / 16)) with hlt | hge
    · rw [hbyte i hlt, padded, if_neg (by omega)]
    · rw [Nat.le_antisymm hi hge, hzero]

theorem memset_self {b : Buf} {p : ℕ} : b.memset p 0 1 p = 0 :=
  Buf.memcpy_of_mem (i := 0) Nat.one_pos

theorem memset_of_ne {b : Buf} {p a : ℕ} (h : a ≠ p) : b.memset p 0 1 a = b a :=
  Buf.memcpy_of_notMem (by omega)

theorem block_memset {b : Buf} {p q : ℕ} (h : q + 16 ≤ p) : (b.memset p 0 1).block q = b.block q :=
  Buf.block_memcpy_of_apart (.inl h)

theorem decodeText_short {data : ℕ} (hpos : 0 < txtlen) (hshort : txtlen ≤ 16)
    (hne : ∀ i < txtlen, m (txt + i) ≠ 0) {c : Buf}
    (hc : Holds enc (enc.iv.block 0) (padded m txt txtlen) c data 1) (buff alloc : Buf) :
    ∃ ret, enc.decodeText buff alloc c data 16 = some ret ∧ ReadBack m txt txtlen alloc ret := by
  have hdst : (((enc.decodeBlock (buff.copyUnaligned 0 c data) 0 16).xor16Aligned 16
      enc.iv 0).block 16) = (padded m txt txtlen).block 0 := by
    rw [block_xor16Aligned, block_decodeBlock, block_copyUnaligned]
    have hfirst := hc 0 Nat.one_pos
    rw [Nat.mul_zero, Nat.add_zero, cipherBlock] at hfirst
    rw [hfirst, Equiv.symm_apply_apply, Block.xor_xor_cancel]
  have hwritten := (written_zero (fun _ => (padded m txt txtlen).block 0) alloc).copy hdst
  rw [Nat.mul_zero] at hwritten
  rw [decodeText, if_neg (by decide), if_pos (by decide)]
  dsimp only
  generalize (alloc.copyAligned 0 ((enc.decodeBlock (buff.copyUnaligned 0 c data) 0
    16).xor16Aligned 16 enc.iv 0) 16) = ret at hwritten ⊢
  have hcount : (txtlen + 15) / 16 = 1 := by omega
  have hback : ReadBack m txt txtlen alloc (ret.memset 16 0 1) := by
    refine .of_blocks (fun j hj => ?_) (by rw [hcount]; exact memset_self) fun a ha => ?_
    · obtain rfl : j = 0 := by omega
      rw [block_memset (by decide)]
      exact hwritten.blocks 0 Nat.one_pos
    · rw [memset_of_ne (by omega), hwritten.frame a (by omega)]
  have hlen : (ret.memset 16 0 1).strlen 0 17 = txtlen := by
    refine strlen_eq (by omega) (fun i hi => ?_) ?_
    · rw [Nat.zero_add, hback.text i hi]
      exact hne i hi
    · rw [Nat.zero_add]
      exact hback.zeros txtlen le_rfl (by omega)
  refine ⟨_, ?_, hback⟩
  rw [hlen]
  exact checkPadding_eq fun a ha hlt => hback.zeros a (by omega) (by omega)

theorem decodeText_long {data : ℕ} (hlong : 16 < txtlen) (hne : ∀ i < txtlen, m (txt + i) ≠ 0)
    {c : Buf} (hc : Holds enc ((enc.mac m (txt + 16) (txtlen - 16)).block 0) (padded m txt txtlen) c
      data ((txtlen + 15) / 16)) (buff alloc : Buf) :
    ∃ ret, enc.decodeText buff alloc c data (16 * ((txtlen + 15) / 16)) = some ret ∧
      ReadBack m txt txtlen alloc ret := by
  have hblocks : Decoding _ _ alloc data _
      (enc.decodeBlocks Buf.copyUnaligned Buf.xor16Unaligned buff alloc c data _) :=
    .blocks hc (by omega)
  have hn : 16 * ((txtlen + 15) / 16) / 16 = (txtlen + 15) / 16 := by omega
  rw [decodeText, if_neg (by omega), if_neg (by omega), Buf.copyAligned_eq, Buf.xor16Aligned_eq,
    ite_self, hn]
  dsimp only
  generalize enc.decodeBlocks Buf.copyUnaligned Buf.xor16Unaligned buff alloc c data
    ((txtlen + 15) / 16) = st at hblocks ⊢
  obtain ⟨n, hcount⟩ : ∃ n, (txtlen + 15) / 16 = n + 1 := ⟨(txtlen + 15) / 16 - 1, by omega⟩
  have hwritten := hblocks.written
  have hout := hblocks.outptr_eq
  rw [hcount, Nat.add_sub_cancel] at hwritten hout
  rw [hout, ← Buf.xor16Aligned_eq]
  have hterm : ∀ j < n + 1, (st.ret.memset (16 * (n + 1)) 0 1).block (16 * j) =
      plainBlock ((enc.mac m (txt + 16) (txtlen - 16)).block 0) (padded m txt txtlen) j :=
    fun j hj => (block_memset (by omega)).trans (hwritten.blocks j hj)
  have hframe : ∀ a, 16 * (n + 1) + 1 ≤ a → st.ret.memset (16 * (n + 1)) 0 1 a = alloc a :=
    fun a ha => (memset_of_ne (by omega)).trans (hwritten.frame a (by omega))
  have hzero : st.ret.memset (16 * (n + 1)) 0 1 (16 * (n + 1)) = 0 := memset_self
  generalize st.ret.memset (16 * (n + 1)) 0 1 = ret at hterm hframe hzero ⊢
  -- Behind the first block the text is there before the MAC is computed.
  have htail : ReadBack m (txt + 16) (txtlen - 16) (fun a => alloc (16 + a))
      fun a => ret (16 + a) := by
    have hcount' : (txtlen - 16 + 15) / 16 = n := by omega
    refine .of_blocks (fun j hj => ?_) ?_ fun a ha => hframe (16 + a) (by omega)
    · have hshift : (padded m txt txtlen).block (16 * (j + 1)) =
          (padded m (txt + 16) (txtlen - 16)).block (16 * j) :=
        Buf.block_congr fun i _ => padded_add (by omega) (by omega)
      rw [← hshift]
      refine Eq.trans (Buf.block_congr fun i _ => ?_) (hterm (j + 1) (by omega))
      rw [Nat.mul_succ, Nat.add_comm _ 16, Nat.add_assoc]
    · rw [hcount', Nat.add_comm, ← Nat.mul_succ]
      exact hzero
  have hlen : ret.strlen 16 (16 * (n + 1) + 1 - 16) = txtlen - 16 := by
    refine strlen_eq (by omega) (fun i hi => ?_) (htail.zeros _ le_rfl (by omega))
    rw [htail.text i hi, Nat.add_assoc]
    exact hne (16 + i) (by omega)
  have hmac : enc.mac ret 16 (txtlen - 16) = enc.mac m (txt + 16) (txtlen - 16) := by
    rw [mac, mac, Buf.bytes_congr fun i hi => htail.text i hi]
  rw [hlen, hmac]
  have hkey : (st.buff.memcpy 0 (enc.mac m (txt + 16) (txtlen - 16)) 0 64).block 0 =
      (enc.mac m (txt + 16) (txtlen - 16)).block 0 := Buf.block_memcpy (j := 0) (by decide)
  generalize st.buff.memcpy 0 (enc.mac m (txt + 16) (txtlen - 16)) 0 64 = key at hkey ⊢
  have hback : ReadBack m txt txtlen alloc (ret.xor16Aligned 0 key 0) := by
    rw [Buf.xor16Aligned_eq]
    refine .of_blocks (fun j hj => ?_) ?_ fun a ha => ?_
    · cases j with
      | zero =>
        rw [← Buf.xor16Aligned_eq, block_xor16Aligned, hkey]
        exact (congrArg (Block.xor · _) (hterm 0 (Nat.succ_pos n))).trans (Block.xor_xor_cancel ..)
      | succ j =>
        exact (Buf.block_xorCnt_of_apart (.inr (by omega))).trans (hterm (j + 1) (by omega))
    · rw [hcount]
      exact (Buf.xorCnt_of_notMem (.inr (by omega))).trans hzero
    · exact (Buf.xorCnt_of_notMem (.inr (by omega))).trans (hframe a (by omega))
  exact ⟨_, checkPadding_eq fun a ha hlt => hback.zeros a (by omega) (by omega), hback⟩

/-- For every key and every text that is not empty and has no zero byte, whatever is on the stack
    and in new memory: decoding what encoding gives, at any address, returns the text with a zero
    behind it, and neither writes a byte outside the output it allocates. -/
theorem decodeText_encodeText (enc : TextCipher) (m : Buf) (txt txtlen : ℕ) (hpos : 0 < txtlen)
    (hnul : 0 ∉ m.bytes txt txtlen) (buff alloc : Buf) :
    (∀ a, (enc.encodeText buff alloc m txt txtlen).outlen ≤ a →
        (enc.encodeText buff alloc m txt txtlen).out a = alloc a) ∧
      ∀ (buff' alloc' m' : Buf) (data : ℕ),
        m'.bytes data (enc.encodeText buff alloc m txt txtlen).outlen =
          (enc.encodeText buff alloc m txt txtlen).out.bytes 0
            (enc.encodeText buff alloc m txt txtlen).outlen →
        ∃ ret, enc.decodeText buff' alloc' m' data (enc.encodeText buff alloc m txt txtlen).outlen =
            some ret ∧
          ret.bytes 0 (txtlen + 1) = m.bytes txt txtlen ++ [0] ∧
          ∀ a, (enc.encodeText buff alloc m txt txtlen).outlen + 1 ≤ a → ret a = alloc' a := by
  obtain ⟨hlen, hwritten⟩ := encodeText_spec enc hpos buff alloc m txt
  generalize enc.encodeText buff alloc m txt txtlen = r at hlen hwritten ⊢
  rw [hlen]
  refine ⟨hwritten.frame, fun buff' alloc' m' data hdata => ?_⟩
  have hne : ∀ i < txtlen, m (txt + i) ≠ 0 := fun i hi hzero =>
    hnul (mem_map.2 ⟨i, mem_range.2 hi, hzero⟩)
  have hholds : Holds enc (enc.start m txt txtlen) (padded m txt txtlen) m' data
      ((txtlen + 15) / 16) := by
    intro j hj
    rw [← hwritten.blocks j hj]
    refine Buf.block_congr fun i hi => ?_
    have hbyte := Buf.eq_of_bytes hdata (show 16 * j + i < _ by omega)
    rwa [Nat.zero_add, ← Nat.add_assoc] at hbyte
  suffices hret : ∃ ret,
      enc.decodeText buff' alloc' m' data (16 * ((txtlen + 15) / 16)) = some ret ∧
        ReadBack m txt txtlen alloc' ret by
    obtain ⟨ret, heq, hback⟩ := hret
    exact ⟨ret, heq, hback.bytes, hback.frame⟩
  rw [start] at hholds
  split at hholds
  · have hcount : (txtlen + 15) / 16 = 1 := by omega
    rw [hcount] at hholds ⊢
    exact decodeText_short hpos ‹_› hne hholds buff' alloc'
  · exact decodeText_long (Nat.not_le.1 ‹_›) hne hholds buff' alloc'

/-- A text of twenty letters. -/
theorem decodeText_encodeText_twenty :
    ∃ ret, (⟨Equiv.refl Block, fun _ => 1, 16, le_rfl, fun _ _ _ => 2⟩ : TextCipher).decodeText
        (fun _ => 3) (fun _ => 4)
        ((⟨Equiv.refl Block, fun _ => 1, 16, le_rfl, fun _ _ _ => 2⟩ : TextCipher).encodeText
          (fun _ => 5) (fun _ => 6) (fun _ => 65) 7 20).out 0 32 = some ret ∧
      ret.bytes 0 21 = replicate 20 65 ++ [0] := by
  obtain ⟨ret, heq, hbytes, -⟩ := (decodeText_encodeText
    ⟨Equiv.refl Block, fun _ => 1, 16, le_rfl, fun _ _ _ => 2⟩ (fun _ => 65) 7 20 (by decide)
    (by decide) (fun _ => 5) (fun _ => 6)).2 (fun _ => 3) (fun _ => 4) _ 0 rfl
  exact ⟨ret, heq, hbytes⟩

end TextCipher

end Pclsync
