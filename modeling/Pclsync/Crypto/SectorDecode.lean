import Mathlib.Tactic.IntervalCases
import Pclsync.Crypto.SectorCipher

/-!
# Decoding sectors

What decoding computes, in terms of the encrypted bytes and the authenticator. The buffers may be
the same or apart.

* `SectorCipher.plain`, `SectorCipher.opened`: the data, and the random bytes with the MAC.
* `SectorCipher.Decoded`: the loop invariant, which both loops keep.
* `SectorCipher.decodeSectorWith_eq`: decoding, and `SectorCipher.decodeSector_eq_decodeLoop`: the
  loop of four blocks computes the same as the loop of one.
-/

namespace Pclsync

/-- The `n` bytes at `p` and at `q` are the same, or apart. -/
def SameOrApart (p q n : ℕ) : Prop := p = q ∨ p + n ≤ q ∨ q + n ≤ p

/-- What has not been overwritten yet can still be read. -/
theorem SameOrApart.memcpy_eq {p q n k i : ℕ} (h : SameOrApart p q n) (hi : k ≤ i) (hn : i < n)
    (m src : Buf) (s : ℕ) : m.memcpy q src s k (p + i) = m (p + i) := by
  rcases h with rfl | h | h
  all_goals exact Buf.memcpy_of_notMem (by omega)

namespace SectorCipher

variable (enc : SectorCipher) {m buff auth c P : Buf} {p q n N j t : ℕ} {iv : Block}
  {st : DecodeState}

/-! ## What is computed -/

/-- The encrypted block before the block `j`. -/
def prevBlock (c : Buf) (iv : Block) : ℕ → Block
  | 0 => iv
  | j + 1 => c.block (16 * j)

/-- The block `j` of the data. -/
def plainBlock (c : Buf) (iv : Block) (j : ℕ) : Block :=
  (enc.aes.symm (c.block (16 * j))).xor (prevBlock c iv j)

/-- The number of blocks that the loops go through. -/
def loopBlocks (n : ℕ) : ℕ := if n % 16 ≠ 0 then n / 16 - 1 else n / 16

/-- The block after the loops, without the bytes that follow it. -/
def stolen (c : Buf) (n : ℕ) : Block :=
  let w := enc.aes.symm (c.block (16 * loopBlocks n))
  fun i => if i < n % 16 then c (16 * loopBlocks n + 16 + i) else w i

/-- The two blocks of the authenticator. -/
def openAuth (auth : Buf) : Buf := enc.decode2Blocks auth 0 0

/-- The data. -/
def plain (auth c : Buf) (n : ℕ) : Buf := fun a =>
  if n < 16 then enc.openAuth auth a ^^^ c a
  else
    let iv := (enc.openAuth auth).block 8
    let N := loopBlocks n
    if a < 16 * N ∨ n % 16 = 0 then enc.plainBlock c iv (a / 16) ⟨a % 16, Nat.mod_lt _ (by decide)⟩
    else if a < 16 * N + 16 then
      (enc.aes.symm (enc.stolen c n)).xor (prevBlock c iv N) ⟨a % 16, Nat.mod_lt _ (by decide)⟩
    else enc.aes.symm (c.block (16 * N)) ⟨a % 16, Nat.mod_lt _ (by decide)⟩ ^^^ c a

/-- The 16 random bytes, and the first 16 bytes of the MAC. -/
def opened (auth c : Buf) (n : ℕ) : Buf := fun a =>
  if n < 16 then if a < n then c a else enc.openAuth auth a
  else if a < 8 then enc.openAuth auth a
  else if a < 16 then enc.openAuth auth (a + 16)
  else enc.openAuth auth (a - 8)

/-! ## The loops -/

/-- After `j` of the `N` blocks at `p` have been decoded to `q`. -/
structure Decoded (m buff : Buf) (p q N : ℕ) (iv : Block) (P : Buf) (j : ℕ) (st : DecodeState) :
    Prop where
  le : j ≤ N
  data : st.data = p + 16 * j
  out : st.out = q + 16 * j
  datalen : st.datalen = 16 * (N - j)
  swap : st.aessrc = 0 ∧ st.aesxor = 128 ∨ st.aessrc = 128 ∧ st.aesxor = 0
  xor : st.buff.block st.aesxor = prevBlock (fun a => m (p + a)) iv j
  hmac : ∀ a, 192 ≤ a → st.buff a = buff a
  mem : st.m = m.memcpy q P 0 (16 * j)

variable {enc}

theorem block_decodeBlock {src dst : ℕ} :
    (enc.decodeBlock buff src dst).block dst = enc.aes.symm (buff.block src) :=
  Buf.block_putBlock

theorem block_decodeBlock_of_apart {src dst p : ℕ} (h : p + 16 ≤ dst ∨ dst + 16 ≤ p) :
    (enc.decodeBlock buff src dst).block p = buff.block p :=
  Buf.block_putBlock_of_apart h

theorem decodeBlock_of_notMem {src dst a : ℕ} (h : a < dst ∨ dst + 16 ≤ a) :
    enc.decodeBlock buff src dst a = buff a :=
  Buf.putBlock_of_notMem h

theorem apply_add (b : Buf) (p : ℕ) {i : ℕ} (hi : i < 16) : b (p + i) = b.block p ⟨i, hi⟩ := rfl

theorem Decoded.decodeStep (h : Decoded m buff p q N iv P j st) (hsep : SameOrApart p q n)
    (hN : 16 * N ≤ n)
    (hP : ∀ j < N, P.block (16 * j) = enc.plainBlock (fun a => m (p + a)) iv j) (hj : j < N) :
    Decoded m buff p q N iv P (j + 1) (enc.decodeStep st) := by
  obtain ⟨b, hb⟩ : ∃ b, b = st.buff.memcpy st.aessrc st.m st.data 16 := ⟨_, rfl⟩
  have hsrc : b.block st.aessrc = Buf.block (fun a => m (p + a)) (16 * j) := by
    have hblock : (st.buff.memcpy st.aessrc st.m st.data 16).block st.aessrc =
        st.m.block st.data := Buf.block_memcpy (j := 0) le_rfl
    rw [hb, hblock, h.mem, h.data]
    refine Buf.block_congr fun i hi => ?_
    rw [Nat.add_assoc]
    exact hsep.memcpy_eq (Nat.le_add_right _ _) (by omega) m P 0
  have hxor : b.block st.aesxor = prevBlock (fun a => m (p + a)) iv j := by
    rw [hb, Buf.block_memcpy_of_apart (by have := h.swap; omega), h.xor]
  have hhmac : ∀ a, 192 ≤ a → b a = buff a := fun a ha => by
    rw [hb, Buf.memcpy_of_notMem (by have := h.swap; omega), h.hmac a ha]
  obtain ⟨d, hd⟩ : ∃ d, d = (enc.decodeBlock b st.aessrc 64).xorCnt 64
    (enc.decodeBlock b st.aessrc 64) st.aesxor 16 := ⟨_, rfl⟩
  have hdst : d.block 64 = enc.plainBlock (fun a => m (p + a)) iv j := by
    have hblock : ((enc.decodeBlock b st.aessrc 64).xorCnt 64
        (enc.decodeBlock b st.aessrc 64) st.aesxor 16).block 64 =
      ((enc.decodeBlock b st.aessrc 64).block 64).xor
        ((enc.decodeBlock b st.aessrc 64).block st.aesxor) := Buf.block_xorCnt (j := 0) le_rfl
    rw [hd, hblock, block_decodeBlock, block_decodeBlock_of_apart (by have := h.swap; omega), hsrc,
      hxor, plainBlock]
  have hd' : ∀ a, a < 64 ∨ 80 ≤ a → d a = b a := fun a ha => by
    rw [hd, Buf.xorCnt_of_notMem (by omega), decodeBlock_of_notMem (by omega)]
  have hstep : enc.decodeStep st = ⟨st.m.memcpy st.out d 64 16, d, st.data + 16, st.out + 16,
      st.datalen - 16, st.aesxor, st.aessrc⟩ := by
    rw [hd, hb]
    rfl
  rw [hstep]
  refine ⟨hj, ?_, ?_, ?_, h.swap.symm.imp And.symm And.symm, ?_, ?_, ?_⟩
  · show st.data + 16 = _
    rw [h.data]
    omega
  · show st.out + 16 = _
    rw [h.out]
    omega
  · show st.datalen - 16 = _
    rw [h.datalen]
    omega
  · show d.block st.aessrc = _
    rw [prevBlock, ← hsrc]
    exact Buf.block_congr fun i hi => hd' _ (by have := h.swap; omega)
  · intro a ha
    show d a = _
    rw [hd' a (.inr (by omega)), hhmac a ha]
  · show st.m.memcpy st.out d 64 16 = _
    rw [h.mem, h.out, Nat.mul_succ]
    refine Buf.memcpy_memcpy fun i hi => ?_
    rw [apply_add d 64 hi, hdst, ← hP j hj, Nat.zero_add]
    rfl

theorem block_decode4BlocksXor (ht : t < 4) :
    (enc.decode4BlocksXor buff 0 64 128).block (64 + 16 * t) =
      (enc.aes.symm (buff.block (16 * t))).xor (buff.block (128 + 16 * t)) := by
  rw [decode4BlocksXor, Buf.block_xorCnt (by omega)]
  congr 1
  · rw [decode2Blocks, decode2Blocks]
    interval_cases t
    · rw [block_decodeBlock_of_apart (by decide), block_decodeBlock_of_apart (by decide),
        block_decodeBlock_of_apart (by decide), block_decodeBlock]
    · rw [block_decodeBlock_of_apart (by decide), block_decodeBlock_of_apart (by decide),
        block_decodeBlock, block_decodeBlock_of_apart (by decide)]
    · rw [block_decodeBlock_of_apart (by decide), block_decodeBlock,
        block_decodeBlock_of_apart (by decide), block_decodeBlock_of_apart (by decide)]
    · rw [block_decodeBlock, block_decodeBlock_of_apart (by decide),
        block_decodeBlock_of_apart (by decide), block_decodeBlock_of_apart (by decide)]
  · rw [decode2Blocks, decode2Blocks, block_decodeBlock_of_apart (by omega),
      block_decodeBlock_of_apart (by omega), block_decodeBlock_of_apart (by omega),
      block_decodeBlock_of_apart (by omega)]

theorem decode4BlocksXor_of_notMem {a : ℕ} (ha : a < 64 ∨ 128 ≤ a) :
    enc.decode4BlocksXor buff 0 64 128 a = buff a := by
  rw [decode4BlocksXor, Buf.xorCnt_of_notMem (by omega), decode2Blocks, decode2Blocks,
    decodeBlock_of_notMem (by omega), decodeBlock_of_notMem (by omega),
    decodeBlock_of_notMem (by omega), decodeBlock_of_notMem (by omega)]

/-- A round of four blocks comes to the same as four rounds. -/
theorem Decoded.decodeStep4 (h : Decoded m buff p q N iv P j st) (hsep : SameOrApart p q n)
    (hN : 16 * N ≤ n)
    (hP : ∀ j < N, P.block (16 * j) = enc.plainBlock (fun a => m (p + a)) iv j) (hj : j + 4 ≤ N)
    (hsrc : st.aessrc = 0) (hxor : st.aesxor = 128) :
    Decoded m buff p q N iv P (j + 4) (enc.decodeStep4 st) := by
  obtain ⟨b, hb⟩ : ∃ b, b = st.buff.memcpy 0 st.m st.data 64 := ⟨_, rfl⟩
  obtain ⟨b', hb'⟩ : ∃ b', b' = b.memcpy 144 b 0 48 := ⟨_, rfl⟩
  obtain ⟨d, hd⟩ : ∃ d, d = enc.decode4BlocksXor b' 0 64 128 := ⟨_, rfl⟩
  have hblock : ∀ t < 4, b.block (16 * t) = Buf.block (fun a => m (p + a)) (16 * (j + t)) := by
    intro t ht
    have hread : (st.buff.memcpy 0 st.m st.data 64).block (0 + 16 * t) =
        st.m.block (st.data + 16 * t) := Buf.block_memcpy (by omega)
    rw [Nat.zero_add] at hread
    rw [hb, hread, h.mem, h.data]
    refine Buf.block_congr fun i hi => ?_
    rw [Nat.mul_add, Nat.add_assoc, Nat.add_assoc, ← Nat.add_assoc (16 * j)]
    exact hsep.memcpy_eq (by omega) (by omega) m P 0
  have hsrc' : ∀ t < 4, b'.block (16 * t) = Buf.block (fun a => m (p + a)) (16 * (j + t)) :=
    fun t ht => by rw [hb', Buf.block_memcpy_of_apart (by omega), hblock t ht]
  have hxor' : ∀ t < 4, b'.block (128 + 16 * t) = prevBlock (fun a => m (p + a)) iv (j + t) := by
    intro t ht
    obtain _ | t := t
    · rw [hb', Buf.block_memcpy_of_apart (by omega), hb, Buf.block_memcpy_of_apart (by omega),
        ← hxor]
      exact h.xor
    · have hcopy : (b.memcpy 144 b 0 48).block (144 + 16 * t) = b.block (0 + 16 * t) :=
        Buf.block_memcpy (by omega)
      rw [Nat.zero_add] at hcopy
      rw [show 128 + 16 * (t + 1) = 144 + 16 * t by omega, hb', hcopy, hblock t (by omega)]
      rfl
  have hdst : ∀ t < 4, d.block (64 + 16 * t) = P.block (16 * (j + t)) := fun t ht => by
    rw [hd, block_decode4BlocksXor ht, hsrc' t ht, hxor' t ht, hP (j + t) (by omega), plainBlock]
  have hd' : ∀ a, a < 64 ∨ 128 ≤ a → d a = b' a := fun a ha => by
    rw [hd, decode4BlocksXor_of_notMem ha]
  have hstep : enc.decodeStep4 st = ⟨st.m.memcpy st.out d 64 64, d.memcpy 128 d 48 16,
      st.data + 64, st.out + 64, st.datalen - 64, st.aessrc, st.aesxor⟩ := by
    rw [SectorCipher.decodeStep4, hsrc, hxor, hd, hb', hb]
  rw [hstep]
  refine ⟨hj, ?_, ?_, ?_, .inl ⟨hsrc, hxor⟩, ?_, ?_, ?_⟩
  · show st.data + 64 = _
    rw [h.data]
    omega
  · show st.out + 64 = _
    rw [h.out]
    omega
  · show st.datalen - 64 = _
    rw [h.datalen]
    omega
  · show (d.memcpy 128 d 48 16).block st.aesxor = _
    have hcopy : (d.memcpy 128 d 48 16).block 128 = d.block 48 := Buf.block_memcpy (j := 0) le_rfl
    rw [hxor, hcopy, prevBlock, ← hsrc' 3 (by decide)]
    exact Buf.block_congr fun i hi => hd' _ (by omega)
  · intro a ha
    show d.memcpy 128 d 48 16 a = _
    rw [Buf.memcpy_of_notMem (by omega), hd' a (by omega), hb', Buf.memcpy_of_notMem (by omega), hb,
      Buf.memcpy_of_notMem (by omega), h.hmac a ha]
  · show st.m.memcpy st.out d 64 64 = _
    rw [h.mem, h.out, Nat.mul_add]
    refine Buf.memcpy_memcpy fun i hi => ?_
    -- the byte `i` is in the block `i / 16`
    have hbyte := congrFun (hdst (i / 16) (by omega)) ⟨i % 16, Nat.mod_lt _ (by decide)⟩
    rw [Buf.block, Buf.block] at hbyte
    dsimp only at hbyte
    rw [show 64 + 16 * (i / 16) + i % 16 = 64 + i by omega,
      show 16 * (j + i / 16) + i % 16 = 0 + 16 * j + i by omega] at hbyte
    exact hbyte

theorem Decoded.decodeLoop (h : Decoded m buff p q N iv P j st) (hsep : SameOrApart p q n)
    (hN : 16 * N ≤ n)
    (hP : ∀ j < N, P.block (16 * j) = enc.plainBlock (fun a => m (p + a)) iv j) :
    Decoded m buff p q N iv P N (enc.decodeLoop st) := by
  obtain ⟨k, hk⟩ := Nat.exists_eq_add_of_le h.le
  induction k generalizing j st with
  | zero =>
    rw [SectorCipher.decodeLoop, if_pos (by rw [h.datalen]; omega)]
    obtain rfl : N = j := hk
    exact h
  | succ k ih =>
    rw [SectorCipher.decodeLoop, if_neg (by rw [h.datalen]; omega)]
    exact ih (h.decodeStep hsep hN hP (by omega)) (by omega)

theorem Decoded.decodeLoop4 (h : Decoded m buff p q N iv P j st) (hsep : SameOrApart p q n)
    (hN : 16 * N ≤ n)
    (hP : ∀ j < N, P.block (16 * j) = enc.plainBlock (fun a => m (p + a)) iv j)
    (hsrc : st.aessrc = 0) (hxor : st.aesxor = 128) :
    ∃ j', Decoded m buff p q N iv P j' (enc.decodeLoop4 st) := by
  obtain ⟨k, hk⟩ := Nat.exists_eq_add_of_le h.le
  induction k using Nat.strong_induction_on generalizing j st with
  | _ k ih =>
    rw [SectorCipher.decodeLoop4]
    split_ifs with hlen
    · rw [h.datalen] at hlen
      exact ih (k - 4) (by omega) (h.decodeStep4 hsep hN hP (by omega) hsrc hxor) hsrc hxor
        (by omega)
    · exact ⟨j, h⟩

/-! ## The branches on the length -/

theorem openAuth_block_zero : (enc.openAuth auth).block 0 = enc.aes.symm (auth.block 0) := by
  rw [openAuth, decode2Blocks, block_decodeBlock_of_apart (by decide), block_decodeBlock]

theorem openAuth_block : (enc.openAuth auth).block 16 = enc.aes.symm (auth.block 16) := by
  rw [openAuth, decode2Blocks, block_decodeBlock, block_decodeBlock_of_apart (by decide)]

theorem block_plain (hn : ¬n < 16) (hj : j < loopBlocks n) : (enc.plain auth c n).block (16 * j) =
      enc.plainBlock c ((enc.openAuth auth).block 8) j := by
  funext i
  have hi := i.isLt
  rw [Buf.block, plain, if_neg hn]
  dsimp only
  rw [if_pos (.inl (by omega))]
  congr 1
  · rw [show (16 * j + i) / 16 = j by omega]
  · exact Fin.ext (show (16 * j + i) % 16 = i by omega)

theorem decodeData_short (loops : DecodeState → DecodeState) (hn : n < 16)
    (hA : ∀ a < 32, buff (192 + a) = enc.openAuth auth a) :
    (enc.decodeData loops buff m p n q).1 = m.memcpy q (enc.plain auth (fun a => m (p + a)) n) 0 n ∧
      ∀ a < 32, (enc.decodeData loops buff m p n q).2 (192 + a) =
        enc.opened auth (fun a => m (p + a)) n a := by
  rw [decodeData, if_pos hn]
  dsimp only
  constructor
  · funext a
    by_cases ha : q ≤ a ∧ a < q + n
    · obtain ⟨i, rfl⟩ := Nat.exists_eq_add_of_le ha.1
      rw [Buf.memcpy_of_mem (by omega), Buf.memcpy_of_mem (by omega), Nat.zero_add, plain,
        if_pos hn, Buf.memcpy_of_notMem (by omega), Buf.xorCnt_of_mem (by omega), hA i (by omega)]
    · rw [Buf.memcpy_of_notMem (by omega), Buf.memcpy_of_notMem (by omega)]
  · intro a ha
    rw [opened, if_pos hn]
    split_ifs with hlt
    · rw [Buf.memcpy_of_mem hlt, Buf.memcpy_of_mem hlt]
    · rw [Buf.memcpy_of_notMem (by omega), Buf.memcpy_of_notMem (by omega),
        Buf.xorCnt_of_notMem (by omega), hA a ha]

theorem sixteen_mul_loopBlocks (hn : ¬n < 16) (hk : n % 16 ≠ 0) :
    16 * loopBlocks n + 16 + n % 16 = n := by
  rw [loopBlocks, if_pos hk]
  omega

theorem plain_stolen (hn : ¬n < 16) (hk : n % 16 ≠ 0) {i : ℕ} (hi : i < 16) :
    enc.plain auth c n (16 * loopBlocks n + i) = (enc.aes.symm (enc.stolen c n)).xor
      (prevBlock c ((enc.openAuth auth).block 8) (loopBlocks n)) ⟨i, hi⟩ := by
  rw [plain, if_neg hn]
  dsimp only
  rw [if_neg (by omega), if_pos (by omega)]
  congr 1
  exact Fin.ext (show (16 * loopBlocks n + i) % 16 = i by omega)

theorem plain_rest (hn : ¬n < 16) (hk : n % 16 ≠ 0) {i : ℕ} (hi : i < 16) :
    enc.plain auth c n (16 * loopBlocks n + 16 + i) =
      enc.aes.symm (c.block (16 * loopBlocks n)) ⟨i, hi⟩ ^^^ c (16 * loopBlocks n + 16 + i) := by
  rw [plain, if_neg hn]
  dsimp only
  rw [if_neg (by omega), if_neg (by omega)]
  congr 1
  exact congrArg _ (Fin.ext (show (16 * loopBlocks n + 16 + i) % 16 = i by omega))

/-- The last full block, whose place is taken by what was encrypted after the bytes that follow. -/
theorem Decoded.decodeSteal (h : Decoded m buff p q N iv P N st) (hsep : SameOrApart p q n)
    (hn : ¬n < 16) (hk : n % 16 ≠ 0) (hN : N = loopBlocks n)
    (hP : P = enc.plain auth (fun a => m (p + a)) n) (hiv : iv = (enc.openAuth auth).block 8) :
    (enc.decodeSteal st (n % 16)).1 = m.memcpy q P 0 n ∧
      ∀ a, 192 ≤ a → (enc.decodeSteal st (n % 16)).2 a = buff a := by
  have hlen := sixteen_mul_loopBlocks hn hk
  have hlt : n % 16 < 16 := Nat.mod_lt _ (by decide)
  have hswap := h.swap
  rw [← hN] at hlen
  -- what follows the loops has not been overwritten
  have hread : ∀ i < 16 + n % 16, st.m (st.data + i) = m (p + (16 * N + i)) := by
    intro i hi
    rw [h.mem, h.data, Nat.add_assoc]
    exact hsep.memcpy_eq (by omega) (by omega) m P 0
  obtain ⟨b₂, hb2⟩ : ∃ b, b = enc.decodeBlock (st.buff.memcpy st.aessrc st.m st.data 16)
    st.aessrc 64 := ⟨_, rfl⟩
  obtain ⟨b₄, hb4⟩ : ∃ b, b = (b₂.xorCnt 64 st.m (st.data + 16) (n % 16)).memcpy st.aessrc st.m
    (st.data + 16) (n % 16) := ⟨_, rfl⟩
  obtain ⟨b₆, hb6⟩ : ∃ b, b = enc.decodeBlock (b₄.memcpy 64 b₄ st.aessrc (n % 16)) 64 st.aessrc :=
    ⟨_, rfl⟩
  have hsteal : enc.decodeSteal st (n % 16) =
      ((st.m.memcpy (st.out + 16) b₄ 64 (n % 16)).memcpy st.out
        (b₆.xorCnt st.aessrc b₆ st.aesxor 16) st.aessrc 16,
      b₆.xorCnt st.aessrc b₆ st.aesxor 16) := by
    rw [SectorCipher.decodeSteal, hb6, hb4, hb2]
  -- the block after the loops, decrypted
  have hW : b₂.block 64 = enc.aes.symm (Buf.block (fun a => m (p + a)) (16 * N)) := by
    have hcopy : (st.buff.memcpy st.aessrc st.m st.data 16).block st.aessrc = st.m.block st.data :=
      Buf.block_memcpy (j := 0) le_rfl
    rw [hb2, block_decodeBlock, hcopy]
    exact congrArg enc.aes.symm (Buf.block_congr fun i hi => hread i (by omega))
  have hx2 : b₂.block st.aesxor = prevBlock (fun a => m (p + a)) iv N := by
    rw [hb2, block_decodeBlock_of_apart (by omega), Buf.block_memcpy_of_apart (by omega), h.xor]
  have hrest : ∀ i < n % 16, b₄ (64 + i) = b₂ (64 + i) ^^^ m (p + (16 * N + 16 + i)) := by
    intro i hi
    rw [hb4, Buf.memcpy_of_notMem (by omega), Buf.xorCnt_of_mem hi, Nat.add_assoc,
      hread _ (by omega), Nat.add_assoc (16 * N)]
  have hstolen : (b₄.memcpy 64 b₄ st.aessrc (n % 16)).block 64 =
      enc.stolen (fun a => m (p + a)) n := by
    funext i
    rw [stolen, ← hN, Buf.block]
    dsimp only
    split_ifs with hi
    · rw [Buf.memcpy_of_mem hi, hb4, Buf.memcpy_of_mem hi, Nat.add_assoc, hread _ (by omega),
        Nat.add_assoc (16 * N)]
    · rw [Buf.memcpy_of_notMem (by omega), hb4, Buf.memcpy_of_notMem (by omega),
        Buf.xorCnt_of_notMem (by omega), ← hW]
      rfl
  have hlast : (b₆.xorCnt st.aessrc b₆ st.aesxor 16).block st.aessrc =
      (enc.aes.symm (enc.stolen (fun a => m (p + a)) n)).xor
        (prevBlock (fun a => m (p + a)) iv N) := by
    have hxor : (b₆.xorCnt st.aessrc b₆ st.aesxor 16).block st.aessrc =
      (b₆.block st.aessrc).xor (b₆.block st.aesxor) := Buf.block_xorCnt (j := 0) le_rfl
    rw [hxor, ← hx2, ← hstolen]
    congr 1
    · rw [hb6, block_decodeBlock]
    · rw [hb6, block_decodeBlock_of_apart (by omega), Buf.block_memcpy_of_apart (by omega), hb4,
        Buf.block_memcpy_of_apart (by omega), Buf.block_xorCnt_of_apart (by omega)]
  rw [hsteal]
  constructor
  · show (st.m.memcpy (st.out + 16) b₄ 64 (n % 16)).memcpy st.out _ st.aessrc 16 = _
    have hblock : (m.memcpy q P 0 (16 * N)).memcpy (q + 16 * N)
        (b₆.xorCnt st.aessrc b₆ st.aesxor 16) st.aessrc 16 = m.memcpy q P 0 (16 * N + 16) := by
      refine Buf.memcpy_memcpy fun i hi => ?_
      refine (congrFun hlast ⟨i, hi⟩).trans ?_
      rw [Nat.zero_add, hP, hN, plain_stolen hn hk hi, ← hN, ← hiv]
    rw [Buf.memcpy_comm (by omega), h.mem, h.out, hblock, Nat.add_assoc q, Buf.memcpy_memcpy, hlen]
    intro i hi
    rw [hrest i hi, Nat.zero_add, hP, hN, plain_rest hn hk (by omega), ← hN, ← hW]
    rfl
  · intro a ha
    show b₆.xorCnt st.aessrc b₆ st.aesxor 16 a = _
    rw [Buf.xorCnt_of_notMem (by omega), hb6, decodeBlock_of_notMem (by omega),
      Buf.memcpy_of_notMem (by omega), hb4, Buf.memcpy_of_notMem (by omega),
      Buf.xorCnt_of_notMem (by omega), hb2, decodeBlock_of_notMem (by omega),
      Buf.memcpy_of_notMem (by omega), h.hmac a ha]

/-- Loops that decode all blocks. -/
def Decodes (enc : SectorCipher) (loops : DecodeState → DecodeState) : Prop :=
  ∀ {m buff P : Buf} {p q n N : ℕ} {iv : Block} {st : DecodeState}, SameOrApart p q n →
    16 * N ≤ n → (∀ j < N, P.block (16 * j) = enc.plainBlock (fun a => m (p + a)) iv j) →
    st.aessrc = 0 → st.aesxor = 128 → Decoded m buff p q N iv P 0 st →
    Decoded m buff p q N iv P N (loops st)

theorem decodes_decodeLoop : enc.Decodes enc.decodeLoop :=
  fun hsep hN hP _ _ h => h.decodeLoop hsep hN hP

theorem decodes_decodeLoop4 : enc.Decodes fun st => enc.decodeLoop (enc.decodeLoop4 st) := by
  intro m buff P p q n N iv st hsep hN hP hsrc hxor h
  obtain ⟨j, hj⟩ := h.decodeLoop4 hsep hN hP hsrc hxor
  exact hj.decodeLoop hsep hN hP

theorem decodeData_long {loops : DecodeState → DecodeState} (hloops : enc.Decodes loops)
    (hsep : SameOrApart p q n) (hn : ¬n < 16)
    (hA : ∀ a < 32, buff (192 + a) = enc.openAuth auth a) :
    (enc.decodeData loops buff m p n q).1 = m.memcpy q (enc.plain auth (fun a => m (p + a)) n) 0 n ∧
      ∀ a < 32, (enc.decodeData loops buff m p n q).2 (192 + a) =
        enc.opened auth (fun a => m (p + a)) n a := by
  obtain ⟨b₁, hb1⟩ : ∃ b, b = buff.memcpy 128 buff 200 16 := ⟨_, rfl⟩
  obtain ⟨b₂, hb2⟩ : ∃ b, b = b₁.memcpy 200 b₁ 216 8 := ⟨_, rfl⟩
  obtain ⟨b₃, hb3⟩ : ∃ b, b = b₂.memcpy 208 b₂ 128 16 := ⟨_, rfl⟩
  have hmid : ∀ i < 16, b₁ (128 + i) = enc.openAuth auth (8 + i) := fun i hi => by
    rw [hb1, Buf.memcpy_of_mem hi, ← hA _ (by omega), ← Nat.add_assoc]
  have hopened : ∀ a < 32, b₃ (192 + a) = enc.opened auth (fun a => m (p + a)) n a := by
    intro a ha
    rw [opened, if_neg hn, hb3]
    split_ifs with h8 h16
    · rw [Buf.memcpy_of_notMem (by omega), hb2, Buf.memcpy_of_notMem (by omega), hb1,
        Buf.memcpy_of_notMem (by omega), hA a ha]
    · obtain ⟨i, rfl⟩ := Nat.exists_eq_add_of_le (Nat.not_lt.1 h8)
      rw [Buf.memcpy_of_notMem (by omega), hb2, ← Nat.add_assoc, Buf.memcpy_of_mem (by omega), hb1,
        Buf.memcpy_of_notMem (by omega), ← hA _ (by omega)]
      congr 1
      omega
    · obtain ⟨i, rfl⟩ := Nat.exists_eq_add_of_le (Nat.not_lt.1 h16)
      rw [← Nat.add_assoc, Buf.memcpy_of_mem (by omega), hb2, Buf.memcpy_of_notMem (by omega),
        hmid i (by omega)]
      congr 1
      omega
  have hiv : b₃.block 128 = (enc.openAuth auth).block 8 := by
    refine Buf.block_congr fun i hi => ?_
    rw [hb3, Buf.memcpy_of_notMem (by omega), hb2, Buf.memcpy_of_notMem (by omega), hmid i hi]
  -- the length that is left for the loops is that of `loopBlocks n` blocks
  have hlen : (if n % 16 ≠ 0 then n - (n % 16 + 16) else n) = 16 * (loopBlocks n - 0) := by
    rw [loopBlocks]
    split_ifs
    all_goals omega
  have hN : 16 * loopBlocks n ≤ n := by
    rw [loopBlocks]
    split_ifs
    all_goals omega
  have hP : ∀ j < loopBlocks n, (enc.plain auth (fun a => m (p + a)) n).block (16 * j) =
      enc.plainBlock (fun a => m (p + a)) ((enc.openAuth auth).block 8) j :=
    fun j hj => block_plain hn hj
  have hloop : Decoded m b₃ p q (loopBlocks n) ((enc.openAuth auth).block 8)
      (enc.plain auth (fun a => m (p + a)) n) (loopBlocks n)
      (loops ⟨m, b₃, p, q, if n % 16 ≠ 0 then n - (n % 16 + 16) else n, 0, 128⟩) :=
    hloops hsep hN hP rfl rfl
      ⟨Nat.zero_le _, rfl, rfl, hlen, .inl ⟨rfl, rfl⟩, hiv, fun _ _ => rfl, Buf.memcpy_zero.symm⟩
  have hdata : enc.decodeData loops buff m p n q = if n % 16 ≠ 0 then enc.decodeSteal
        (loops ⟨m, b₃, p, q, if n % 16 ≠ 0 then n - (n % 16 + 16) else n, 0, 128⟩) (n % 16)
      else ((loops ⟨m, b₃, p, q, if n % 16 ≠ 0 then n - (n % 16 + 16) else n, 0, 128⟩).m,
        (loops ⟨m, b₃, p, q, if n % 16 ≠ 0 then n - (n % 16 + 16) else n, 0, 128⟩).buff) := by
    rw [decodeData, if_neg hn, hb3, hb2, hb1]
  rw [hdata]
  by_cases hk : n % 16 ≠ 0
  · rw [if_pos hk]
    obtain ⟨hm, hb⟩ := hloop.decodeSteal hsep hn hk rfl rfl rfl
    exact ⟨hm, fun a ha => (hb _ (Nat.le_add_right _ _)).trans (hopened a ha)⟩
  · have hfull : 16 * loopBlocks n = n := by
      rw [loopBlocks, if_neg hk]
      omega
    rw [if_neg hk]
    refine ⟨?_, fun a ha => (hloop.hmac _ (Nat.le_add_right _ _)).trans (hopened a ha)⟩
    rw [hloop.mem, hfull]

/-! ## Decoding a sector -/

theorem memcmpConst_congr {s₁ s₂ s₂' : Buf} {q q' : ℕ} (h : ∀ i < n, s₂ (q + i) = s₂' (q' + i)) :
    memcmpConst s₁ p s₂ q n = memcmpConst s₁ p s₂' q' n := by
  have hfold : ∀ l : List ℕ, (∀ i ∈ l, i < n) → ∀ r : UInt32,
      l.foldl (fun r i => r ||| (s₁ (p + i) ^^^ s₂ (q + i)).toUInt32) r =
        l.foldl (fun r i => r ||| (s₁ (p + i) ^^^ s₂' (q' + i)).toUInt32) r := by
    intro l hl r
    exact List.foldl_ext _ _ r fun r i hi => by rw [h i (hl i hi)]
  rw [memcmpConst, memcmpConst, hfold _ (fun i hi => List.mem_range.1 hi)]

theorem decodeSectorWith_eq {loops : DecodeState → DecodeState} (hloops : enc.Decodes loops)
    (hsep : SameOrApart p q n) (sectorid : UInt64) :
    enc.decodeSectorWith loops buff m p n q auth sectorid = (-((memcmpConst
          (enc.mac (m.memcpy q (enc.plain auth (fun a => m (p + a)) n) 0 n) q n sectorid
            (enc.opened auth (fun a => m (p + a)) n) 0) 0
          (enc.opened auth (fun a => m (p + a)) n) 16 16).toNat : ℤ),
        m.memcpy q (enc.plain auth (fun a => m (p + a)) n) 0 n) := by
  obtain ⟨b, hb⟩ : ∃ b, b = enc.decode2Blocks (buff.memcpy 0 auth 0 32) 0 192 := ⟨_, rfl⟩
  have hA : ∀ a < 32, b (192 + a) = enc.openAuth auth a := by
    have h0 : b.block 192 = (enc.openAuth auth).block 0 := by
      have hcopy : (buff.memcpy 0 auth 0 32).block 0 = auth.block 0 :=
        Buf.block_memcpy (p := 0) (j := 0) (by decide)
      rw [openAuth_block_zero, hb, decode2Blocks, block_decodeBlock_of_apart (by decide),
        block_decodeBlock, hcopy]
    have h16 : b.block 208 = (enc.openAuth auth).block 16 := by
      have hcopy : (buff.memcpy 0 auth 0 32).block 16 = auth.block 16 :=
        Buf.block_memcpy (p := 0) (j := 16) (by decide)
      rw [openAuth_block, hb, decode2Blocks, block_decodeBlock,
        block_decodeBlock_of_apart (by decide), hcopy]
    intro a ha
    rcases Nat.lt_or_ge a 16 with h | h
    · rw [Buf.eq_of_block h0 h, Nat.zero_add]
    · obtain ⟨i, rfl⟩ := Nat.exists_eq_add_of_le h
      rw [← Nat.add_assoc, Buf.eq_of_block h16 (by omega)]
  obtain ⟨hm, ho⟩ : (enc.decodeData loops b m p n q).1 =
        m.memcpy q (enc.plain auth (fun a => m (p + a)) n) 0 n ∧
      ∀ a < 32, (enc.decodeData loops b m p n q).2 (192 + a) =
        enc.opened auth (fun a => m (p + a)) n a := by
    by_cases hn : n < 16
    · exact decodeData_short loops hn hA
    · exact decodeData_long hloops hsep hn hA
  obtain ⟨o, hodef⟩ : ∃ o, o = enc.opened auth (fun a => m (p + a)) n := ⟨_, rfl⟩
  rw [← hodef] at ho ⊢
  have hrnd : (enc.decodeData loops b m p n q).2.bytes 192 16 = o.bytes 0 16 :=
    Buf.bytes_congr fun i hi => by rw [ho i (by omega), Nat.zero_add]
  have hcmp : ∀ s : Buf, memcmpConst s 0 (enc.decodeData loops b m p n q).2 208 16 =
      memcmpConst s 0 o 16 16 :=
    fun s => memcmpConst_congr fun i hi => by rw [← ho _ (by omega), ← Nat.add_assoc]
  rw [decodeSectorWith, ← hb, hcmp, mac, mac, hm, hrnd]

/-- The loop of four blocks can be left out. -/
theorem decodeSector_eq_decodeLoop (hsep : SameOrApart p q n) (sectorid : UInt64) :
    enc.decodeSector buff m p n q auth sectorid =
      enc.decodeSectorWith enc.decodeLoop buff m p n q auth sectorid := by
  rw [decodeSector, decodeSectorWith_eq decodes_decodeLoop4 hsep,
    decodeSectorWith_eq decodes_decodeLoop hsep]

end SectorCipher

end Pclsync
