import Pclsync.Buffers
import Pclsync.Bytes

/-!
# Encryption in counter mode

`psync_crypto_aes256_ctr_encode_decode_inplace`. AES is a permutation of blocks, the data of the
caller is in one memory `m`, and `buff` is the array on the stack, with `aessrc` at 0 and `aesdst`
at 16. Lengths, offsets and counters have 64 bits, and wrap.

* `CtrCipher.encodeDecodeInplace`: a first block that is entered in the middle, the full blocks, and
  a short last one.
* `CtrCipher.encodeDecodeInplace_eq`: it is one xor with the keystream, of `touched` bytes.
* `CtrCipher.Call.changesOnly_iff`: nothing else changes, if and only if the data does not end
  inside a first block that is entered in the middle.
* `CtrCipher.encodeDecode_iff`: a buffer in one call and in consecutive pieces.
-/

namespace Pclsync

open List

/-- `psync_crypto_aes256_key_struct_t` -/
structure CtrCipher where
  aes : Equiv.Perm Block
  iv : Buf

namespace CtrCipher

variable (enc : CtrCipher)

/-! ## The function -/

/-- `copy_iv_and_xor_with_counter` -/
def copyIvAndXorWithCounter (dest : Buf) (p : ℕ) (iv : Buf) (counter : UInt64) : Buf :=
  (dest.memcpy p iv 0 8).xorCnt p (fun i => (toLE 8 counter.toNat).getD i 0) 0 8

/-- The counter goes to `aessrc`, and its encryption to `aesdst`. -/
def encodeCounter (buff : Buf) (counter : UInt64) : Buf :=
  let buff := copyIvAndXorWithCounter buff 0 enc.iv counter
  buff.putBlock 16 (enc.aes (buff.block 0))

structure CtrState where
  m : Buf
  buff : Buf
  data : ℕ
  datalen : UInt64
  counter : UInt64

/-- The branch `if (dataoffset)`, where `dataoffset` is the place in the first block. -/
def firstBlock (st : CtrState) (dataoffset : UInt64) : CtrState :=
  let buff := enc.encodeCounter st.buff st.counter
  let blocksrem := 16 - dataoffset
  { m := st.m.xorCnt st.data buff (16 + dataoffset.toNat) blocksrem.toNat
    buff := buff
    data := st.data + blocksrem.toNat
    datalen := st.datalen - blocksrem
    counter := st.counter + 1 }

/-- One round of `while (blocksrem)`. -/
def blockStep (xor16 : Buf → ℕ → Buf → ℕ → Buf) (st : CtrState) : CtrState :=
  let buff := enc.encodeCounter st.buff st.counter
  { st with
    m := xor16 st.m st.data buff 16
    buff := buff
    data := st.data + 16
    counter := st.counter + 1 }

/-- The full blocks. -/
def fullBlocks (st : CtrState) : CtrState :=
  let blocksrem := st.datalen / 16
  let st := { st with datalen := st.datalen - blocksrem * 16 }
  if st.data % 8 = 0 then (enc.blockStep Buf.xor16Aligned)^[blocksrem.toNat] st
  else (enc.blockStep Buf.xor16Unaligned)^[blocksrem.toNat] st

/-- The branch `if (datalen)` at the end. -/
def lastBlock (st : CtrState) : Buf :=
  if st.datalen ≠ 0 then
    st.m.xorCnt st.data (enc.encodeCounter st.buff st.counter) 16 st.datalen.toNat
  else st.m

/-- `psync_crypto_aes256_ctr_encode_decode_inplace`: the memory after it. -/
def encodeDecodeInplace (buff m : Buf) (data : ℕ) (datalen dataoffset : UInt64) : Buf :=
  let st : CtrState := ⟨m, buff.memcpy 8 enc.iv 8 8, data, datalen, dataoffset / 16⟩
  let dataoffset := dataoffset % 16
  let st := if dataoffset ≠ 0 then enc.firstBlock st dataoffset else st
  enc.lastBlock (enc.fullBlocks st)

/-! ## The keystream -/

/-- The IV with a counter in its first half. -/
def counterBlock (counter : ℕ) : Block := fun i =>
  if (i : ℕ) < 8 then enc.iv i ^^^ (toLE 8 counter).getD i 0 else enc.iv i

theorem mod_sixteen_lt (i : ℕ) : i % 16 < 16 := Nat.mod_lt i (by decide)

/-- What the byte at an offset is changed by. -/
def keystream : Buf := fun i =>
  enc.aes (enc.counterBlock (i / 16)) ⟨i % 16, mod_sixteen_lt i⟩

variable {enc} {st : CtrState} {m buff : Buf} {data : ℕ} {datalen dataoffset counter : UInt64}

/-- The second half of the IV stays at `aessrc + 8`. -/
def HasIv (enc : CtrCipher) (buff : Buf) : Prop := ∀ i, 8 ≤ i → i < 16 → buff i = enc.iv i

theorem block_copyIv (h : HasIv enc buff) :
    (copyIvAndXorWithCounter buff 0 enc.iv counter).block 0 = enc.counterBlock counter.toNat := by
  funext i
  rw [Buf.block, counterBlock, copyIvAndXorWithCounter]
  split
  · rw [Buf.xorCnt_of_mem ‹_›, Buf.memcpy_of_mem ‹_›, Nat.zero_add]
  · have hi : 8 ≤ (i : ℕ) := Nat.not_lt.1 ‹_›
    rw [Buf.xorCnt_of_notMem (.inr (by omega)), Buf.memcpy_of_notMem (.inr (by omega)),
      Nat.zero_add, h i hi i.isLt]

/-- The bytes at `aesdst` are a block of the keystream. -/
theorem encodeCounter_dst (h : HasIv enc buff) {i : ℕ} (hi : i < 16) :
    enc.encodeCounter buff counter (16 + i) = enc.keystream (16 * counter.toNat + i) := by
  have hdiv : (16 * counter.toNat + i) / 16 = counter.toNat := by omega
  have hmod : (16 * counter.toNat + i) % 16 = i := by omega
  rw [encodeCounter, block_copyIv h, keystream]
  have hput := Buf.putBlock_of_mem (b := copyIvAndXorWithCounter buff 0 enc.iv counter) (p := 16)
    (x := enc.aes (enc.counterBlock counter.toNat)) ⟨i, hi⟩
  simp only [hdiv, hmod]
  exact hput

theorem HasIv.encodeCounter (h : HasIv enc buff) : HasIv enc (enc.encodeCounter buff counter) := by
  intro i hi hlt
  rw [CtrCipher.encodeCounter, Buf.putBlock_of_notMem (.inl hlt), copyIvAndXorWithCounter,
    Buf.xorCnt_of_notMem (.inr (by omega)), Buf.memcpy_of_notMem (.inr (by omega)), h i hi hlt]

theorem hasIv_memcpy : HasIv enc (buff.memcpy 8 enc.iv 8 8) := by
  intro i hi hlt
  obtain ⟨k, rfl⟩ := Nat.exists_eq_add_of_le hi
  rw [Buf.memcpy_of_mem (by omega)]

/-! ## What one call does -/

/-- `n` bytes have been changed, and the next one starts a block. -/
structure Reached (enc : CtrCipher) (m : Buf) (data offset n : ℕ) (st : CtrState) : Prop where
  m_eq : st.m = m.xorCnt data enc.keystream offset n
  data_eq : st.data = data + n
  counter_eq : 16 * st.counter.toNat = offset + n
  hasIv : HasIv enc st.buff

/-- The next bytes, up to a block of them. -/
theorem Reached.xorCnt {offset n k : ℕ} (h : Reached enc m data offset n st) (hk : k ≤ 16) :
    st.m.xorCnt st.data (enc.encodeCounter st.buff st.counter) 16 k =
      m.xorCnt data enc.keystream offset (n + k) := by
  rw [h.m_eq, h.data_eq]
  refine Buf.xorCnt_xorCnt fun i hi => ?_
  rw [encodeCounter_dst h.hasIv (by omega), h.counter_eq]

theorem toNat_succ (h : counter.toNat + 1 < 2 ^ 64) : (counter + 1).toNat = counter.toNat + 1 := by
  rw [UInt64.toNat_add, UInt64.toNat_one, Nat.mod_eq_of_lt h]

theorem Reached.blockStep {offset n : ℕ} (h : Reached enc m data offset n st)
    (hlt : offset + n < 2 ^ 66) :
    Reached enc m data offset (n + 16) (enc.blockStep Buf.xor16Unaligned st) where
  m_eq := h.xorCnt le_rfl
  data_eq := by
    change st.data + 16 = _
    rw [h.data_eq, Nat.add_assoc]
  counter_eq := by
    have hc := h.counter_eq
    change 16 * (st.counter + 1).toNat = _
    rw [toNat_succ (by omega)]
    omega
  hasIv := h.hasIv.encodeCounter

theorem datalen_blockStep (xor16 : Buf → ℕ → Buf → ℕ → Buf) (k : ℕ) :
    ((enc.blockStep xor16)^[k] st).datalen = st.datalen := by
  induction k generalizing st with
  | zero => rfl
  | succ k ih => rw [Function.iterate_succ_apply, ih]; rfl

theorem Reached.blocks {offset n : ℕ} (h : Reached enc m data offset n st) (k : ℕ)
    (hlt : offset + n + 16 * k < 2 ^ 66) :
    Reached enc m data offset (n + 16 * k) ((enc.blockStep Buf.xor16Unaligned)^[k] st) := by
  induction k with
  | zero => exact h
  | succ k ih =>
    rw [Function.iterate_succ_apply']
    exact (ih (by omega)).blockStep (by omega)

theorem toNat_div16 : (datalen / 16).toNat = datalen.toNat / 16 := UInt64.toNat_div ..

theorem toNat_mod16 : (datalen % 16).toNat = datalen.toNat % 16 := UInt64.toNat_mod ..

theorem toNat_rest : (datalen - datalen / 16 * 16).toNat = datalen.toNat % 16 := by
  have hdiv : (datalen / 16 * 16).toNat = datalen.toNat / 16 * 16 := by
    rw [UInt64.toNat_mul, toNat_div16]
    exact Nat.mod_eq_of_lt (Nat.lt_of_le_of_lt (Nat.div_mul_le_self _ 16) datalen.toNat_lt)
  rw [UInt64.toNat_sub_of_le, hdiv]
  · omega
  · rw [UInt64.le_iff_toNat_le, hdiv]
    omega

/-- The full blocks and the last one change the bytes that are left. -/
theorem Reached.lastBlock {offset n : ℕ} (h : Reached enc m data offset n st)
    (hlt : offset + n + st.datalen.toNat < 2 ^ 66) :
    enc.lastBlock (enc.fullBlocks st) =
      m.xorCnt data enc.keystream offset (n + st.datalen.toNat) := by
  have hblocks : Reached enc m data offset (n + 16 * (st.datalen / 16).toNat)
      (enc.fullBlocks st) := by
    have hst : Reached enc m data offset n
        { st with datalen := st.datalen - st.datalen / 16 * 16 } :=
      ⟨h.m_eq, h.data_eq, h.counter_eq, h.hasIv⟩
    rw [fullBlocks, Buf.xor16Aligned_eq, ite_self]
    refine hst.blocks _ ?_
    rw [toNat_div16]
    omega
  have hlen : (enc.fullBlocks st).datalen.toNat = st.datalen.toNat % 16 := by
    rw [fullBlocks, Buf.xor16Aligned_eq, ite_self, datalen_blockStep]
    exact toNat_rest
  have hn : n + 16 * (st.datalen / 16).toNat + st.datalen.toNat % 16 = n + st.datalen.toNat := by
    rw [toNat_div16]
    omega
  rw [CtrCipher.lastBlock]
  split
  · rw [hlen, hblocks.xorCnt (by omega), hn]
  · have hzero : (enc.fullBlocks st).datalen = 0 := not_not.1 ‹_›
    rw [hzero, UInt64.toNat_zero] at hlen
    rw [hblocks.m_eq, ← hn, ← hlen, Nat.add_zero]

theorem toNat_blocksrem (dataoffset : UInt64) :
    (16 - dataoffset % 16).toNat = 16 - dataoffset.toNat % 16 := by
  have hle : dataoffset % 16 ≤ 16 := by
    rw [UInt64.le_iff_toNat_le, toNat_mod16]
    exact (Nat.mod_lt _ (by decide)).le
  rw [UInt64.toNat_sub_of_le _ _ hle, toNat_mod16]
  rfl

/-- How many bytes are changed: the length wraps where the data ends inside the first block. -/
def touched (datalen dataoffset : UInt64) : ℕ :=
  if dataoffset % 16 ≠ 0 then
    (16 - dataoffset % 16).toNat + (datalen - (16 - dataoffset % 16)).toNat
  else datalen.toNat

theorem encodeDecodeInplace_eq (enc : CtrCipher) (buff m : Buf) (data : ℕ)
    (datalen dataoffset : UInt64) :
    enc.encodeDecodeInplace buff m data datalen dataoffset =
      m.xorCnt data enc.keystream dataoffset.toNat (touched datalen dataoffset) := by
  have hlen := datalen.toNat_lt
  have hoff := dataoffset.toNat_lt
  have hdiv : (dataoffset / 16).toNat = dataoffset.toNat / 16 := toNat_div16
  have hmod : (dataoffset % 16).toNat = dataoffset.toNat % 16 := toNat_mod16
  rw [encodeDecodeInplace, touched]
  split
  · -- the rest of the first block
    have hrem := toNat_blocksrem dataoffset
    have hsub := (datalen - (16 - dataoffset % 16)).toNat_lt
    have hfirst : Reached enc m data dataoffset.toNat (16 - dataoffset % 16).toNat
        (enc.firstBlock ⟨m, buff.memcpy 8 enc.iv 8 8, data, datalen, dataoffset / 16⟩
          (dataoffset % 16)) := by
      refine ⟨Buf.xorCnt_congr fun i hi => ?_, rfl, ?_, hasIv_memcpy.encodeCounter⟩
      · rw [Nat.add_assoc, encodeCounter_dst hasIv_memcpy (by omega), hdiv, hmod, ← Nat.add_assoc,
          Nat.div_add_mod]
      · change 16 * (dataoffset / 16 + 1).toNat = _
        rw [toNat_succ (by omega)]
        omega
    refine hfirst.lastBlock ?_
    change _ + (datalen - (16 - dataoffset % 16)).toNat < _
    omega
  · have hzero : dataoffset % 16 = 0 := not_not.1 ‹_›
    rw [hzero, UInt64.toNat_zero] at hmod
    have hnone : Reached enc m data dataoffset.toNat 0
        ⟨m, buff.memcpy 8 enc.iv 8 8, data, datalen, dataoffset / 16⟩ := by
      refine ⟨?_, rfl, ?_, hasIv_memcpy⟩
      · funext a
        exact (Buf.xorCnt_of_notMem (by omega)).symm
      · change 16 * (dataoffset / 16).toNat = _
        omega
    rw [← Nat.zero_add datalen.toNat]
    refine hnone.lastBlock ?_
    change _ + datalen.toNat < _
    omega

/-! ## Calls -/

/-- The arguments of a call but the memory, and what was on its stack. -/
structure Call where
  stack : Buf
  data : ℕ
  datalen : UInt64
  dataoffset : UInt64

namespace Call

/-- The memory after a call. -/
def run (enc : CtrCipher) (m : Buf) (c : Call) : Buf :=
  enc.encodeDecodeInplace c.stack m c.data c.datalen c.dataoffset

/-- Nothing changes but the bytes that were given. -/
def ChangesOnly (enc : CtrCipher) (c : Call) : Prop :=
  ∀ (m : Buf) (a : ℕ), a < c.data ∨ c.data + c.datalen.toNat ≤ a → c.run enc m a = m a

/-- Applied twice, whatever is on the stack the second time, it restores the buffer. -/
def Restores (enc : CtrCipher) (c : Call) : Prop :=
  ∀ (m stack : Buf), { c with stack := stack }.run enc (c.run enc m) = m

/-- The data starts with a block, or does not end inside the first one. -/
def Fits (c : Call) : Prop := c.dataoffset % 16 = 0 ∨ 16 - c.dataoffset % 16 ≤ c.datalen

instance (c : Call) : Decidable c.Fits := inferInstanceAs (Decidable (_ ∨ _))

/-- Consecutive pieces of a buffer, each at its own offset; a piece is its length, and what is on
    the stack at its call. -/
def pieces (data : ℕ) (dataoffset : UInt64) : List (UInt64 × Buf) → List Call
  | [] => []
  | (n, stack) :: ps => ⟨stack, data, n, dataoffset⟩ :: pieces (data + n.toNat) (dataoffset + n) ps

variable {c : Call}

theorem run_eq : c.run enc m =
    m.xorCnt c.data enc.keystream c.dataoffset.toNat (touched c.datalen c.dataoffset) :=
  encodeDecodeInplace_eq ..

theorem Fits.touched_eq (h : c.Fits) : touched c.datalen c.dataoffset = c.datalen.toNat := by
  rw [touched]
  split
  · have hle := h.resolve_left ‹_›
    rw [UInt64.toNat_sub_of_le _ _ hle]
    exact Nat.add_sub_of_le (UInt64.le_iff_toNat_le.1 hle)
  · rfl

theorem touched_of_not_fits (h : ¬c.Fits) :
    touched c.datalen c.dataoffset = 2 ^ 64 + c.datalen.toNat := by
  obtain ⟨hne, hlt⟩ := not_or.1 h
  rw [UInt64.le_iff_toNat_le, toNat_blocksrem] at hlt
  have hmod := Nat.mod_lt c.dataoffset.toNat (by decide : 0 < 16)
  rw [touched, if_pos hne, UInt64.toNat_sub c.datalen, toNat_blocksrem]
  omega

theorem restores (enc : CtrCipher) (c : Call) : c.Restores enc := by
  intro m stack
  rw [run_eq, run_eq]
  exact Buf.xorCnt_self

/-- Two blocks of the keystream are not the same. -/
theorem counterBlock_inj {i j : ℕ} (hi : i < 2 ^ 64) (hj : j < 2 ^ 64)
    (h : enc.counterBlock i = enc.counterBlock j) : i = j := by
  have hbytes : toLE 8 i = toLE 8 j := by
    refine ext_getElem (by simp only [length_toLE]) fun k hk hk' => ?_
    rw [length_toLE] at hk
    have hb := congrFun h ⟨k, by omega⟩
    simp only [counterBlock, hk, if_true, UInt8.xor_right_inj] at hb
    rwa [getD_eq_getElem?_getD, getD_eq_getElem?_getD, getElem?_eq_getElem (by rwa [length_toLE]),
      getElem?_eq_getElem (by rwa [length_toLE])] at hb
  rw [← ofLE_toLE_of_lt (n := 8) hi, hbytes, ofLE_toLE_of_lt (n := 8) hj]

theorem aes_eq_zero {c : ℕ} (h : ∀ i < 16, enc.keystream (16 * c + i) = 0) :
    enc.aes (enc.counterBlock c) = fun _ => 0 := by
  funext i
  have hi := h i i.isLt
  have hdiv : (16 * c + i) / 16 = c := by omega
  have hmod : (16 * c + i) % 16 = (i : ℕ) := by omega
  simp only [keystream, hdiv, hmod] at hi
  exact hi

/-- Nothing else changes exactly where the length does not wrap. -/
theorem changesOnly_iff : c.ChangesOnly enc ↔ c.Fits := by
  refine ⟨fun h => ?_, fun h m a ha => ?_⟩
  · by_contra hfit
    have htouch := touched_of_not_fits hfit
    obtain ⟨hne, hlt⟩ := not_or.1 hfit
    rw [UInt64.le_iff_toNat_le, toNat_blocksrem] at hlt
    have hoff := c.dataoffset.toNat_lt
    -- The two blocks after the first one lie behind the data, and are not both zero.
    have hzero : ∀ i, 16 - c.dataoffset.toNat % 16 ≤ i → i < 64 →
        enc.keystream (c.dataoffset.toNat + i) = 0 := by
      intro i hle hi
      have hsame := h (fun _ => 0) (c.data + i) (.inr (by omega))
      rwa [run_eq, Buf.xorCnt_of_mem (by omega), UInt8.zero_xor] at hsame
    have hblock : ∀ k, k < 2 → ∀ i < 16,
        enc.keystream (16 * (c.dataoffset.toNat / 16 + 1 + k) + i) = 0 := by
      intro k hk i hi
      have hpos : 16 * (c.dataoffset.toNat / 16 + 1 + k) + i =
          c.dataoffset.toNat + (16 - c.dataoffset.toNat % 16 + 16 * k + i) := by omega
      rw [hpos]
      exact hzero _ (by omega) (by omega)
    have heq := (aes_eq_zero (hblock 0 (by decide))).trans (aes_eq_zero (hblock 1 (by decide))).symm
    have := counterBlock_inj (by omega) (by omega) (enc.aes.injective heq)
    omega
  · rw [run_eq, h.touched_eq]
    exact Buf.xorCnt_of_notMem ha

/-- Calls for consecutive pieces that fit are one xor with the keystream. -/
theorem foldl_pieces {ps : List (UInt64 × Buf)} {n : ℕ}
    (hfits : ∀ p ∈ pieces data dataoffset ps, p.Fits)
    (hlen : (ps.map fun p => p.1.toNat).sum = n) (hle : dataoffset.toNat + n ≤ 2 ^ 64) :
    (pieces data dataoffset ps).foldl (run enc) m =
      m.xorCnt data enc.keystream dataoffset.toNat n := by
  induction ps generalizing m data dataoffset n with
  | nil =>
    subst hlen
    funext a
    have hzero : (([] : List (UInt64 × Buf)).map fun p => p.1.toNat).sum = 0 := rfl
    exact (Buf.xorCnt_of_notMem (by omega)).symm
  | cons p ps ih =>
    obtain ⟨k, stack⟩ := p
    rw [map_cons, sum_cons] at hlen
    dsimp only at hlen
    have hfit := hfits _ mem_cons_self
    have hnext : (dataoffset + k).toNat = (dataoffset.toNat + k.toNat) % 2 ^ 64 :=
      UInt64.toNat_add ..
    rw [pieces, foldl_cons,
      ih (fun p hp => hfits p (mem_cons_of_mem _ hp)) rfl (by omega), run_eq, hfit.touched_eq,
      ← hlen]
    refine Buf.xorCnt_xorCnt fun i hi => ?_
    -- Where a byte is left, the offset of the next piece does not wrap.
    rw [hnext, Nat.mod_eq_of_lt (by omega)]

/-- A buffer that is encrypted in one call and in consecutive pieces. -/
structure Streamed (enc : CtrCipher) (c : Call) (ps : List (UInt64 × Buf)) : Prop where
  changesOnly : ∀ p ∈ c :: pieces c.data c.dataoffset ps, p.ChangesOnly enc
  restores : ∀ p ∈ c :: pieces c.data c.dataoffset ps, p.Restores enc
  same : ∀ m, (pieces c.data c.dataoffset ps).foldl (run enc) m = c.run enc m

end Call

/-- For every cipher, every buffer and every split of it: all calls change only their bytes and are
    undone by a second call, and the pieces give what the whole gives, exactly where no call's data
    ends inside a first block that it enters in the middle. -/
theorem encodeDecode_iff (enc : CtrCipher) (c : Call) (ps : List (UInt64 × Buf))
    (hsum : (ps.map fun p => p.1.toNat).sum = c.datalen.toNat)
    (hoffsets : c.dataoffset.toNat + c.datalen.toNat ≤ 2 ^ 64) :
    c.Streamed enc ps ↔ ∀ p ∈ c :: Call.pieces c.data c.dataoffset ps, p.Fits := by
  refine ⟨fun h p hp => Call.changesOnly_iff.1 (h.changesOnly p hp), fun h => ⟨?_, ?_, ?_⟩⟩
  · exact fun p hp => Call.changesOnly_iff.2 (h p hp)
  · exact fun p _ => Call.restores enc p
  · intro m
    have hwhole := h c mem_cons_self
    rw [Call.foldl_pieces (fun p hp => h p (mem_cons_of_mem _ hp)) hsum hoffsets, Call.run_eq,
      hwhole.touched_eq]

theorem encodeDecode_iff_unaligned :
    (⟨fun _ => 0, 3, 20, 5⟩ : Call).Streamed ⟨Equiv.refl Block, fun _ => 0⟩
      [(11, fun _ => 1), (9, fun _ => 2)] :=
  (encodeDecode_iff ⟨Equiv.refl Block, fun _ => 0⟩ ⟨fun _ => 0, 3, 20, 5⟩
    [(11, fun _ => 1), (9, fun _ => 2)] rfl (by decide)).2 (by decide)

/-- Four bytes at offset 1: the first block takes 15, and the length wraps. -/
theorem not_changesOnly : ¬∀ (enc : CtrCipher) (c : Call), c.ChangesOnly enc := by
  intro h
  have hfits : (⟨fun _ => 0, 0, 4, 1⟩ : Call).Fits :=
    Call.changesOnly_iff.1 (h ⟨Equiv.refl Block, fun _ => 0⟩ ⟨fun _ => 0, 0, 4, 1⟩)
  revert hfits
  decide

end CtrCipher

end Pclsync
