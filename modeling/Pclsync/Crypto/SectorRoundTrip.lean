import Pclsync.Crypto.SectorDecode

/-!
# Round trip of sectors

What encoding leaves for decoding: the blocks are chained from the MAC on, and the authenticator
holds the MAC and the random bytes. Decoding undoes this.

* `SectorCipher.Enciphered`: the encrypted bytes of at least one block.
* `SectorCipher.Encoded`: the loop invariant.
* `SectorCipher.decodeSector_encodeSector`: the round trip.
-/

namespace Pclsync

namespace SectorCipher

variable (enc : SectorCipher) {m buff auth rnd authout c d o H : Buf} {p q n N j : ℕ} {h : Block}
  {st : EncodeState} {sectorid : UInt64}

/-! ## What is encrypted -/

/-- Each block of `d` is changed by xor with the encrypted block before it. -/
def chain (h : Block) (d : Buf) : ℕ → Block
  | 0 => h
  | j + 1 => enc.aes ((chain h d j).xor (d.block (16 * j)))

/-- What is encrypted after the bytes that follow the last full block. -/
def stealBlock (h : Block) (d : Buf) (n : ℕ) : Block := fun i =>
  let y := enc.chain h d (loopBlocks n + 1)
  if i < n % 16 then y i ^^^ d (16 * loopBlocks n + 16 + i) else y i

/-- `c` is the encrypted form of the `n` bytes at `d`. -/
structure Enciphered (h : Block) (d c : Buf) (n : ℕ) : Prop where
  loop : ∀ j < loopBlocks n, c.block (16 * j) = enc.chain h d (j + 1)
  steal : n % 16 ≠ 0 → c.block (16 * loopBlocks n) = enc.aes (enc.stealBlock h d n)
  rest : n % 16 ≠ 0 → ∀ i : Fin 16, i < n % 16 →
    c (16 * loopBlocks n + 16 + i) = enc.chain h d (loopBlocks n + 1) i

variable {enc}

/-! ## Decoding what was encrypted -/

section

variable (hc : enc.Enciphered h d c n)
include hc

theorem Enciphered.prevBlock (hj : j ≤ loopBlocks n) : prevBlock c h j = enc.chain h d j := by
  cases j with
  | zero => rfl
  | succ j => exact hc.loop j hj

theorem Enciphered.plainBlock (hj : j < loopBlocks n) :
    enc.plainBlock c h j = d.block (16 * j) := by
  rw [SectorCipher.plainBlock, hc.loop j hj, hc.prevBlock hj.le, chain, Equiv.symm_apply_apply,
    Block.xor_xor_self]

theorem Enciphered.symm_block (hk : n % 16 ≠ 0) :
    enc.aes.symm (c.block (16 * loopBlocks n)) = enc.stealBlock h d n := by
  rw [hc.steal hk, Equiv.symm_apply_apply]

/-- The bytes that were stolen complete the block again. -/
theorem Enciphered.stolen (hk : n % 16 ≠ 0) :
    enc.stolen c n = enc.chain h d (loopBlocks n + 1) := by
  funext i
  rw [SectorCipher.stolen, hc.symm_block hk]
  dsimp only
  by_cases hi : i < n % 16
  · rw [if_pos hi, hc.rest hk i hi]
  · rw [if_neg hi, stealBlock]
    exact if_neg hi

theorem Enciphered.plain (hn : ¬n < 16)
    (hh : (enc.openAuth auth).block 8 = h) {a : ℕ} (ha : a < n) :
    enc.plain auth c n a = d a := by
  subst hh
  rcases Nat.lt_or_ge a (16 * loopBlocks n) with hlt | hge
  · -- the byte is in a block of the loops
    have hblock : (enc.plain auth c n).block (16 * (a / 16)) = d.block (16 * (a / 16)) := by
      rw [block_plain hn (by omega), hc.plainBlock (by omega)]
    have hbyte := congrFun hblock ⟨a % 16, Nat.mod_lt _ (by decide)⟩
    rw [Buf.block, Buf.block] at hbyte
    dsimp only at hbyte
    rwa [Nat.div_add_mod] at hbyte
  have hk : n % 16 ≠ 0 := by
    intro hk
    rw [loopBlocks, if_neg (not_not.2 hk)] at hge
    omega
  have hlen := sixteen_mul_loopBlocks hn hk
  have hmod : n % 16 < 16 := Nat.mod_lt _ (by decide)
  obtain ⟨i, rfl⟩ := Nat.exists_eq_add_of_le hge
  rcases Nat.lt_or_ge i 16 with hi | hi
  · -- the block after the loops
    rw [plain_stolen hn hk hi, hc.stolen hk, hc.prevBlock le_rfl, chain, Equiv.symm_apply_apply,
      Block.xor_xor_self]
    rfl
  · obtain ⟨i, rfl⟩ := Nat.exists_eq_add_of_le hi
    have hi' : i < n % 16 := by omega
    have hrest := hc.rest hk ⟨i, by omega⟩ hi'
    dsimp only at hrest
    rw [← Nat.add_assoc, plain_rest hn hk (by omega), hc.symm_block hk, hrest, stealBlock]
    dsimp only
    rw [if_pos hi', UInt8.xor_comm, ← UInt8.xor_assoc, UInt8.xor_self, UInt8.zero_xor]

end

/-! ## The loop of encoding -/

/-- After `j` of the `N` blocks at `p` have been encoded to `q`. -/
structure Encoded (enc : SectorCipher) (m : Buf) (p q n N : ℕ) (h : Block) (j : ℕ)
    (st : EncodeState) : Prop where
  le : j ≤ N
  data : st.data = p + 16 * j
  out : st.out = q + 16 * j
  datalen : st.datalen = 16 * (N - j)
  swap : st.aessrc = 0 ∧ st.aesdst = 16 ∨ st.aessrc = 16 ∧ st.aesdst = 0
  src : st.buff.block st.aessrc = enc.chain h (fun a => m (p + a)) j
  blocks : ∀ t < j, st.m.block (q + 16 * t) = enc.chain h (fun a => m (p + a)) (t + 1)
  frame : ∀ a, a < q ∨ q + n ≤ a → st.m a = m a

/-- The block of the data that comes next is encrypted, and its place in `buff` is `aesdst`. -/
theorem Encoded.block_aesdst (he : Encoded enc m p q n N h j st) (hsep : p + n ≤ q ∨ q + n ≤ p)
    (hj : 16 * j + 16 ≤ n) :
    (enc.encodeBlock (st.buff.xorCnt st.aessrc st.m st.data 16) st.aessrc st.aesdst).block
      st.aesdst = enc.chain h (fun a => m (p + a)) (j + 1) := by
  have hxor : (st.buff.xorCnt st.aessrc st.m st.data 16).block st.aessrc =
      (st.buff.block st.aessrc).xor (st.m.block st.data) := Buf.block_xorCnt (j := 0) le_rfl
  have hdata : st.m.block st.data = Buf.block (fun a => m (p + a)) (16 * j) := by
    rw [he.data]
    refine Buf.block_congr fun i hi => ?_
    rw [he.frame _ (by omega), Nat.add_assoc]
  rw [encodeBlock, Buf.block_putBlock, hxor, he.src, hdata, chain]

theorem Encoded.encodeStep (he : Encoded enc m p q n N h j st) (hsep : p + n ≤ q ∨ q + n ≤ p)
    (hN : 16 * N ≤ n) (hj : j < N) :
    Encoded enc m p q n N h (j + 1) (enc.encodeStep st) := by
  have hdst := he.block_aesdst hsep (by omega)
  obtain ⟨b, hb⟩ : ∃ b, b = enc.encodeBlock (st.buff.xorCnt st.aessrc st.m st.data 16)
    st.aessrc st.aesdst := ⟨_, rfl⟩
  have hstep : enc.encodeStep st = ⟨st.m.memcpy st.out b st.aesdst 16, b, st.data + 16,
      st.out + 16, st.datalen - 16, st.aesdst, st.aessrc⟩ := by
    rw [hb]
    rfl
  rw [← hb] at hdst
  rw [hstep]
  refine ⟨hj, ?_, ?_, ?_, he.swap.symm.imp And.symm And.symm, hdst, ?_, ?_⟩
  · show st.data + 16 = _
    rw [he.data]
    omega
  · show st.out + 16 = _
    rw [he.out]
    omega
  · show st.datalen - 16 = _
    rw [he.datalen]
    omega
  · intro t ht
    show (st.m.memcpy st.out b st.aesdst 16).block (q + 16 * t) = _
    rcases Nat.lt_succ_iff_lt_or_eq.1 ht with ht | rfl
    · rw [Buf.block_memcpy_of_apart (by rw [he.out]; omega), he.blocks t ht]
    · have hcopy : (st.m.memcpy st.out b st.aesdst 16).block st.out = b.block st.aesdst :=
        Buf.block_memcpy (j := 0) le_rfl
      rw [← he.out, hcopy, hdst]
  · intro a ha
    show st.m.memcpy st.out b st.aesdst 16 a = _
    rw [Buf.memcpy_of_notMem (by rw [he.out]; omega), he.frame a ha]

theorem Encoded.encodeLoop (he : Encoded enc m p q n N h j st) (hsep : p + n ≤ q ∨ q + n ≤ p)
    (hN : 16 * N ≤ n) : Encoded enc m p q n N h N (enc.encodeLoop st) := by
  obtain ⟨k, hk⟩ := Nat.exists_eq_add_of_le he.le
  induction k generalizing j st with
  | zero =>
    rw [SectorCipher.encodeLoop, if_pos (by rw [he.datalen]; omega)]
    obtain rfl : N = j := hk
    exact he
  | succ k ih =>
    rw [SectorCipher.encodeLoop, if_neg (by rw [he.datalen]; omega)]
    exact ih (he.encodeStep hsep hN (by omega)) (by omega)

/-- The bytes after the last full block are taken from what it was encrypted to. -/
theorem Encoded.encodeSteal (he : Encoded enc m p q n (loopBlocks n) h (loopBlocks n) st)
    (hsep : p + n ≤ q ∨ q + n ≤ p) (hn : ¬n < 16) (hk : n % 16 ≠ 0) :
    enc.Enciphered h (fun a => m (p + a))
      (fun a => enc.encodeSteal st (n % 16) (q + a)) n := by
  have hlen := sixteen_mul_loopBlocks hn hk
  have hmod : n % 16 < 16 := Nat.mod_lt _ (by decide)
  have hswap := he.swap
  have hout := he.out
  have hdst := he.block_aesdst hsep (by omega)
  obtain ⟨b, hb⟩ : ∃ b, b = enc.encodeBlock (st.buff.xorCnt st.aessrc st.m st.data 16)
    st.aessrc st.aesdst := ⟨_, rfl⟩
  obtain ⟨m', hm'⟩ : ∃ m', m' = st.m.memcpy (st.out + 16) b st.aesdst (n % 16) := ⟨_, rfl⟩
  obtain ⟨b', hb'⟩ : ∃ b', b' = b.xorCnt st.aesdst m' (st.data + 16) (n % 16) := ⟨_, rfl⟩
  have hsteal : enc.encodeSteal st (n % 16) = m'.memcpy st.out
      (enc.encodeBlock b' st.aesdst st.aessrc) st.aessrc 16 := by
    rw [hb', hm', hb]
    rfl
  rw [← hb] at hdst
  have hframe : ∀ a, a < q ∨ q + n ≤ a → m' a = m a := fun a ha => by
    rw [hm', Buf.memcpy_of_notMem (by omega), he.frame a ha]
  have hblock : b'.block st.aesdst = enc.stealBlock h (fun a => m (p + a)) n := by
    funext i
    have hi := i.isLt
    rw [stealBlock, ← hdst, Buf.block, hb']
    split_ifs with hlt
    · rw [Buf.xorCnt_of_mem hlt, hframe _ (by rw [he.data]; omega), he.data, Nat.add_assoc p,
        Nat.add_assoc p]
      rfl
    · rw [Buf.xorCnt_of_notMem (by omega)]
      rfl
  constructor
  · intro t ht
    refine Eq.trans ?_ (he.blocks t ht)
    refine Buf.block_congr fun i hi => ?_
    rw [hsteal, ← Nat.add_assoc, Buf.memcpy_of_notMem (by omega), hm',
      Buf.memcpy_of_notMem (by omega)]
  · intro _
    have hcopy : (m'.memcpy st.out (enc.encodeBlock b' st.aesdst st.aessrc) st.aessrc 16).block
        st.out = (enc.encodeBlock b' st.aesdst st.aessrc).block st.aessrc :=
      Buf.block_memcpy (j := 0) le_rfl
    have hlast : (enc.encodeBlock b' st.aesdst st.aessrc).block st.aessrc =
        enc.aes (enc.stealBlock h (fun a => m (p + a)) n) := by
      rw [encodeBlock, Buf.block_putBlock, hblock]
    rw [← hlast, ← hcopy, hsteal]
    refine Buf.block_congr fun i hi => ?_
    rw [← Nat.add_assoc, hout]
  · intro _ i hi
    have hi' := i.isLt
    rw [hsteal, Buf.memcpy_of_notMem (by omega), hm', ← Nat.add_assoc, ← Nat.add_assoc, ← hout,
      Buf.memcpy_of_mem hi, ← hdst]
    rfl

/-! ## What encoding leaves -/

/-- The authenticator opens to what was encrypted. -/
theorem openAuth_encode2Blocks {b : Buf} {a : ℕ} (ha : a < 32) :
    enc.openAuth (authout.memcpy 0 (enc.encode2Blocks b 0 0) 0 32) a = b a := by
  have h0 : (authout.memcpy 0 (enc.encode2Blocks b 0 0) 0 32).block 0 =
      (enc.encode2Blocks b 0 0).block 0 := Buf.block_memcpy (p := 0) (j := 0) (by decide)
  have h16 : (authout.memcpy 0 (enc.encode2Blocks b 0 0) 0 32).block 16 =
      (enc.encode2Blocks b 0 0).block 16 := Buf.block_memcpy (p := 0) (j := 16) (by decide)
  have hb0 : (enc.encode2Blocks b 0 0).block 0 = enc.aes (b.block 0) := by
    rw [encode2Blocks, encodeBlock, encodeBlock, Buf.block_putBlock_of_apart (by decide),
      Buf.block_putBlock]
  have hb16 : (enc.encode2Blocks b 0 0).block 16 = enc.aes (b.block 16) := by
    rw [encode2Blocks, encodeBlock, Buf.block_putBlock, encodeBlock,
      Buf.block_putBlock_of_apart (by decide)]
  have ho0 : (enc.openAuth (authout.memcpy 0 (enc.encode2Blocks b 0 0) 0 32)).block 0 =
      b.block 0 := by
    rw [openAuth_block_zero, h0, hb0, Equiv.symm_apply_apply]
  have ho16 : (enc.openAuth (authout.memcpy 0 (enc.encode2Blocks b 0 0) 0 32)).block 16 =
      b.block 16 := by
    rw [openAuth_block, h16, hb16, Equiv.symm_apply_apply]
  rcases Nat.lt_or_ge a 16 with h | h
  · rw [← Nat.zero_add a]
    exact Buf.eq_of_block ho0 h
  · obtain ⟨i, rfl⟩ := Nat.exists_eq_add_of_le h
    exact Buf.eq_of_block ho16 (by omega)

/-- Less than a block: the random bytes take the place of the data. -/
theorem encodeSector_short (enc : SectorCipher) (buff rnd m authout : Buf) (sectorid : UInt64)
    (hn : n < 16) :
    (∀ i < n, (enc.encodeSector buff rnd m p n q authout sectorid).1 (q + i) = rnd i) ∧
      ∀ a < 32, enc.openAuth (enc.encodeSector buff rnd m p n q authout sectorid).2 a =
        if a < n then rnd a ^^^ m (p + a) else if a < 16 then rnd a
        else enc.mac m p n sectorid rnd 0 (a - 16) := by
  rw [encodeSector, if_pos hn]
  dsimp only
  constructor
  · intro i hi
    rw [Buf.memcpy_of_mem hi, Nat.zero_add]
  · intro a ha
    rw [openAuth_encode2Blocks ha]
    split_ifs with hlt h16
    · have hxor : ((buff.memcpy 0 rnd 0 16).xorCnt 0 m p n) (0 + a) =
          (buff.memcpy 0 rnd 0 16) (0 + a) ^^^ m (p + a) := Buf.xorCnt_of_mem hlt
      have hcopy : (buff.memcpy 0 rnd 0 16) (0 + a) = rnd (0 + a) := Buf.memcpy_of_mem (by omega)
      rw [hcopy, Nat.zero_add] at hxor
      rw [Buf.memcpy_of_notMem (by omega), hxor]
    · have hcopy : (buff.memcpy 0 rnd 0 16) (0 + a) = rnd (0 + a) := Buf.memcpy_of_mem (by omega)
      rw [Nat.zero_add] at hcopy
      rw [Buf.memcpy_of_notMem (by omega), Buf.xorCnt_of_notMem (by omega), hcopy]
    · obtain ⟨i, rfl⟩ := Nat.exists_eq_add_of_le (Nat.not_lt.1 h16)
      rw [Buf.memcpy_of_mem (by omega), Nat.zero_add, Nat.add_sub_cancel_left]

theorem encodeSector_long (enc : SectorCipher) (buff rnd m authout : Buf) (sectorid : UInt64)
    (hn : ¬n < 16) (hsep : p + n ≤ q ∨ q + n ≤ p) :
    enc.Enciphered ((enc.mac m p n sectorid rnd 0).block 0) (fun a => m (p + a))
        (fun a => (enc.encodeSector buff rnd m p n q authout sectorid).1 (q + a)) n ∧
      ∀ a < 32, enc.openAuth (enc.encodeSector buff rnd m p n q authout sectorid).2 a =
        if a < 8 then rnd a else if a < 24 then enc.mac m p n sectorid rnd 0 (a - 8)
        else rnd (a - 16) := by
  obtain ⟨H, hH⟩ : ∃ H, H = enc.mac m p n sectorid rnd 0 := ⟨_, rfl⟩
  obtain ⟨b, hb⟩ : ∃ b, b = ((buff.memcpy 0 rnd 0 8).memcpy 8 H 0 16).memcpy 24 rnd 8 8 := ⟨_, rfl⟩
  obtain ⟨b', hb'⟩ : ∃ b', b' = (enc.encode2Blocks b 0 0).memcpy 0 H 0 16 := ⟨_, rfl⟩
  have hlen : (if n % 16 ≠ 0 then n - (n % 16 + 16) else n) = 16 * (loopBlocks n - 0) := by
    rw [loopBlocks]
    split_ifs
    all_goals omega
  have hN : 16 * loopBlocks n ≤ n := by
    rw [loopBlocks]
    split_ifs
    all_goals omega
  have hblock : b'.block 0 = H.block 0 := by
    rw [hb']
    exact Buf.block_memcpy (p := 0) (j := 0) le_rfl
  have hinit : Encoded enc m p q n (loopBlocks n) (H.block 0) 0
      ⟨m, b', p, q, if n % 16 ≠ 0 then n - (n % 16 + 16) else n, 0, 16⟩ :=
    ⟨Nat.zero_le _, rfl, rfl, hlen, .inl ⟨rfl, rfl⟩, hblock, fun t ht => absurd ht t.not_lt_zero,
      fun _ _ => rfl⟩
  have hloop := hinit.encodeLoop hsep hN
  have hencode : enc.encodeSector buff rnd m p n q authout sectorid =
      (if n % 16 ≠ 0 then enc.encodeSteal (enc.encodeLoop
          ⟨m, b', p, q, if n % 16 ≠ 0 then n - (n % 16 + 16) else n, 0, 16⟩) (n % 16)
        else (enc.encodeLoop
          ⟨m, b', p, q, if n % 16 ≠ 0 then n - (n % 16 + 16) else n, 0, 16⟩).m,
        authout.memcpy 0 (enc.encode2Blocks b 0 0) 0 32) := by
    rw [encodeSector, if_neg hn, hb', hb, hH]
  rw [hencode, ← hH]
  constructor
  · by_cases hk : n % 16 ≠ 0
    · rw [if_pos hk]
      exact hloop.encodeSteal hsep hn hk
    · rw [if_neg hk]
      refine ⟨fun j hj => ?_, fun h => absurd h hk, fun h => absurd h hk⟩
      rw [← hloop.blocks j hj]
      exact Buf.block_congr fun i _ => by rw [← Nat.add_assoc]
  · intro a ha
    show enc.openAuth (authout.memcpy 0 (enc.encode2Blocks b 0 0) 0 32) a = _
    rw [openAuth_encode2Blocks ha, hb]
    split_ifs with h8 h24
    · have hcopy : (buff.memcpy 0 rnd 0 8) (0 + a) = rnd (0 + a) := Buf.memcpy_of_mem h8
      rw [Nat.zero_add] at hcopy
      rw [Buf.memcpy_of_notMem (by omega), Buf.memcpy_of_notMem (by omega), hcopy]
    · obtain ⟨i, rfl⟩ := Nat.exists_eq_add_of_le (Nat.not_lt.1 h8)
      rw [Buf.memcpy_of_notMem (by omega), Buf.memcpy_of_mem (by omega), Nat.zero_add,
        Nat.add_sub_cancel_left]
    · obtain ⟨i, rfl⟩ := Nat.exists_eq_add_of_le (Nat.not_lt.1 h24)
      rw [Buf.memcpy_of_mem (by omega)]
      congr 1
      omega

/-! ## The round trip -/

theorem Enciphered.congr (hc : enc.Enciphered h d c n) (hn : ¬n < 16)
    (heq : ∀ i < n, o i = c i) : enc.Enciphered h d o n := by
  have hblock : ∀ a, a + 16 ≤ n → o.block a = c.block a :=
    fun a ha => Buf.block_congr fun i hi => heq _ (by omega)
  have hlt : ∀ j < loopBlocks n, 16 * j + 16 ≤ n := by
    intro j hj
    rw [loopBlocks] at hj
    split_ifs at hj
    all_goals omega
  constructor
  · intro j hj
    rw [hblock _ (hlt j hj), hc.loop j hj]
  · intro hk
    have hlen := sixteen_mul_loopBlocks hn hk
    rw [hblock _ (by omega), hc.steal hk]
  · intro hk i hi
    have hlen := sixteen_mul_loopBlocks hn hk
    rw [heq _ (by omega), hc.rest hk i hi]

/-- The encrypted bytes and the authenticator give the data, the random bytes and the MAC. -/
theorem open_encodeSector (hsep : p + n ≤ q ∨ q + n ≤ p)
    (hc : ∀ i < n, c i = (enc.encodeSector buff rnd m p n q authout sectorid).1 (q + i)) :
    (∀ a < n, enc.plain (enc.encodeSector buff rnd m p n q authout sectorid).2 c n a = m (p + a)) ∧
      ∀ a < 32, enc.opened (enc.encodeSector buff rnd m p n q authout sectorid).2 c n a =
        if a < 16 then rnd a else enc.mac m p n sectorid rnd 0 (a - 16) := by
  by_cases hn : n < 16
  · obtain ⟨hout, hauth⟩ := encodeSector_short enc buff rnd m authout sectorid hn
    constructor
    · intro a ha
      rw [plain, if_pos hn, hauth a (by omega), if_pos ha, hc a ha, hout a ha, UInt8.xor_comm,
        ← UInt8.xor_assoc, UInt8.xor_self, UInt8.zero_xor]
    · intro a ha
      rw [opened, if_pos hn]
      split_ifs with hlt h16 h16
      · rw [hc a hlt, hout a hlt]
      · omega
      · rw [hauth a ha, if_neg hlt, if_pos h16]
      · rw [hauth a ha, if_neg hlt, if_neg h16]
  · obtain ⟨hout, hauth⟩ := encodeSector_long enc buff rnd m authout sectorid hn hsep
    constructor
    · intro a ha
      refine (hout.congr hn hc).plain hn (Buf.block_congr fun i hi => ?_) ha
      rw [hauth _ (by omega), if_neg (by omega), if_pos (by omega), Nat.add_sub_cancel_left,
        Nat.zero_add]
    · intro a ha
      rw [opened, if_neg hn]
      split_ifs with h8 h16 h16
      · rw [hauth a ha, if_pos h8]
      · omega
      · rw [hauth _ (by omega), if_neg (by omega), if_neg (by omega), Nat.add_sub_cancel]
      · rw [hauth _ (by omega), if_neg (by omega), if_pos (by omega)]
        congr 1

theorem memcmpConst_self (s : Buf) (k : ℕ) : memcmpConst s p s p k = 0 := by
  have hfold : ∀ l : List ℕ,
      l.foldl (fun (r : UInt32) i => r ||| (s (p + i) ^^^ s (p + i)).toUInt32) 0 = 0 := by
    intro l
    induction l with
    | nil => rfl
    | cons i l ih =>
      rw [List.foldl_cons, UInt8.xor_self]
      exact ih
  rw [memcmpConst, hfold]
  decide

/-- Decoding what `encodeSector` left at `out`, from anywhere and also in place, gives back the data
and no error. The loop of four blocks makes no difference. -/
theorem decodeSector_encodeSector (enc : SectorCipher) (n : ℕ) (sectorid : UInt64) :
    (∀ (buff rnd m authout buff' m' : Buf) (data out p q : ℕ),
      data + n ≤ out ∨ out + n ≤ data → SameOrApart p q n →
      (∀ i < n, m' (p + i) =
        (enc.encodeSector buff rnd m data n out authout sectorid).1 (out + i)) →
      enc.decodeSector buff' m' p n q
        (enc.encodeSector buff rnd m data n out authout sectorid).2 sectorid =
          (0, m'.memcpy q m data n)) ∧
    ∀ (buff m auth : Buf) (p q : ℕ), SameOrApart p q n →
      enc.decodeSector buff m p n q auth sectorid =
        enc.decodeSectorWith enc.decodeLoop buff m p n q auth sectorid := by
  refine ⟨fun buff rnd m authout buff' m' data out p q hapart hsep hm' => ?_,
    fun buff m auth p q hsep => decodeSector_eq_decodeLoop hsep sectorid⟩
  obtain ⟨hplain, hopened⟩ := open_encodeSector (c := fun a => m' (p + a)) hapart hm'
  obtain ⟨auth, hauth⟩ : ∃ auth,
    auth = (enc.encodeSector buff rnd m data n out authout sectorid).2 := ⟨_, rfl⟩
  rw [← hauth] at hplain hopened ⊢
  obtain ⟨o, ho⟩ : ∃ o, o = enc.opened auth (fun a => m' (p + a)) n := ⟨_, rfl⟩
  rw [← ho] at hopened
  have hmem : m'.memcpy q (enc.plain auth (fun a => m' (p + a)) n) 0 n =
      m'.memcpy q m data n := by
    funext a
    by_cases ha : q ≤ a ∧ a < q + n
    · obtain ⟨i, rfl⟩ := Nat.exists_eq_add_of_le ha.1
      rw [Buf.memcpy_of_mem (by omega), Buf.memcpy_of_mem (by omega), Nat.zero_add,
        hplain i (by omega)]
    · rw [Buf.memcpy_of_notMem (by omega), Buf.memcpy_of_notMem (by omega)]
  have hmac : enc.mac (m'.memcpy q m data n) q n sectorid o 0 =
      enc.mac m data n sectorid rnd 0 := by
    have hdata : (m'.memcpy q m data n).bytes q n = m.bytes data n :=
      Buf.bytes_congr fun i hi => Buf.memcpy_of_mem hi
    have hrnd : o.bytes 0 16 = rnd.bytes 0 16 :=
      Buf.bytes_congr fun i hi => by rw [hopened _ (by omega), if_pos (by omega)]
    rw [mac, mac, hdata, hrnd]
  have hcmp : memcmpConst (enc.mac m data n sectorid rnd 0) 0 o 16 16 =
      memcmpConst (enc.mac m data n sectorid rnd 0) 0 (enc.mac m data n sectorid rnd 0) 0 16 := by
    refine memcmpConst_congr fun i hi => ?_
    rw [hopened _ (by omega), if_neg (by omega), Nat.add_sub_cancel_left, Nat.zero_add]
  rw [decodeSector, decodeSectorWith_eq decodes_decodeLoop4 hsep, hmem, ← ho, hmac, hcmp,
    memcmpConst_self]
  rfl

/-- A cipher that reverses blocks. -/
def reversing : SectorCipher where
  aes := ⟨fun x i => x i.rev, fun x i => x i.rev, fun x => by simp [Fin.rev_rev],
    fun x => by simp [Fin.rev_rev]⟩
  hmac l a := l.getD a 0 + 1

/-- 37 bytes at 100 are encoded to 200 and decoded in place. -/
theorem decodeSector_encodeSector_inPlace : reversing.decodeSector (fun _ => 0)
        (reversing.encodeSector (fun _ => 0) UInt8.ofNat UInt8.ofNat 100 37 200 (fun _ => 0) 5).1
        200 37 200
        (reversing.encodeSector (fun _ => 0) UInt8.ofNat UInt8.ofNat 100 37 200
          (fun _ => 0) 5).2 5 =
      (0, (reversing.encodeSector (fun _ => 0) UInt8.ofNat UInt8.ofNat 100 37 200
        (fun _ => 0) 5).1.memcpy 200 UInt8.ofNat 100 37) :=
  (decodeSector_encodeSector reversing 37 5).1 _ _ _ _ _ _ 100 200 200 200 (by decide) (.inl rfl)
    fun _ _ => rfl

end SectorCipher

end Pclsync
