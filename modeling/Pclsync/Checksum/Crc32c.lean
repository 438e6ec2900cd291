import Pclsync.Checksum.Tables

/-!
# CRC-32C of a buffer

`psync_crc32c` (`pcrc32c.c`): the check value of a buffer from an initial value, without inversion.
There are two ways to compute it, each with a head up to an aligned address, a bulk and a tail:

* `psyncCrc32cSw`: eight bytes at a time with a table for each of them;
* `psyncCrc32cHw`: with the `crc32` instruction, on words of 8 bytes (of 4 where there are no
  others), and for long buffers on three chunks of 1360 bytes side by side, whose values
  `shiftChunk` puts together.

A loop takes bytes off the buffer with a body that is right for so many bytes (`Takes`); all the
loops are two functions of their bodies, and each keeps what the value will be (`SameCrc`).
-/

namespace Pclsync.Crc32c

open List

/-! ## The code -/

/-- The entry `i` of the table `k`. -/
def entry (tables : List (List ℕ)) (k i : ℕ) : ℕ := (tables.getD k []).getD i 0

/-- A byte of the data. -/
def byteAt (data : List UInt8) (i : ℕ) : ℕ := (data.getD i 0).toNat

/-- A word of the data, of `n` bytes. -/
def word (n : ℕ) (data : List UInt8) : ℕ := Crc.ofBytes (data.take n)

/-- `CRC32C_8BIT`. -/
def crc32c8Bit (crc : ℕ) (data : List UInt8) : ℕ :=
  entry crc32cTable 0 ((crc ^^^ byteAt data 0) &&& 0xff) ^^^ crc >>> 8

/-- `CRC32C_64BIT`. -/
def crc32c64Bit (crc : ℕ) (data : List UInt8) : ℕ :=
  let crc := crc ^^^ word 4 data
  entry crc32cTable 7 (crc &&& 0xff) ^^^
    entry crc32cTable 6 ((crc >>> 8) &&& 0xff) ^^^
    entry crc32cTable 5 ((crc >>> 16) &&& 0xff) ^^^
    entry crc32cTable 4 ((crc >>> 24) &&& 0xff) ^^^
    entry crc32cTable 3 (byteAt data 4) ^^^
    entry crc32cTable 2 (byteAt data 5) ^^^
    entry crc32cTable 1 (byteAt data 6) ^^^
    entry crc32cTable 0 (byteAt data 7)

/-- `while (addr%word && len)`, with the address of the data. -/
def untilAligned (word : ℕ) (body : ℕ → List UInt8 → ℕ) : ℕ → ℕ → List UInt8 → ℕ × List UInt8
  | _, crc, [] => (crc, [])
  | addr, crc, b :: data =>
    if addr % word ≠ 0 then untilAligned word body (addr + 1) (body crc (b :: data)) data
    else (crc, b :: data)

/-- `while (len>=n)`, at most `fuel` times. -/
def whileAtLeast (n : ℕ) (body : ℕ → List UInt8 → ℕ) : ℕ → ℕ → List UInt8 → ℕ × List UInt8
  | 0, crc, data => (crc, data)
  | fuel + 1, crc, data =>
    if n ≤ data.length then whileAtLeast n body fuel (body crc data) (data.drop n) else (crc, data)

/-- The body `count` times, on words of `n` bytes. -/
def unrolled (count n : ℕ) (body : ℕ → List UInt8 → ℕ) (crc : ℕ) (data : List UInt8) : ℕ :=
  (range count).foldl (fun crc k => body crc (data.drop (n * k))) crc

/-- `psync_crc32c_sw`. -/
def psyncCrc32cSw (addr crc : ℕ) (data : List UInt8) : ℕ :=
  let r := untilAligned 4 crc32c8Bit addr crc data
  let r := whileAtLeast 64 (unrolled 8 8 crc32c64Bit) r.2.length r.1 r.2
  let r := whileAtLeast 8 crc32c64Bit r.2.length r.1 r.2
  (whileAtLeast 1 crc32c8Bit r.2.length r.1 r.2).1

/-- `CRC32_PARALLEL_CHUNK`. -/
def parallelChunk : ℕ := 1360

/-- The instruction `crc32` with an operand of `n` bytes at the data: `CRC32C_8BIT_HW` and
    `CRC32_WORD_HW`. -/
def crc32Hw (n crc : ℕ) (data : List UInt8) : ℕ := Crc.bitSteps poly (8 * n) (crc ^^^ word n data)

/-- `crc32c_shift_chunk`. -/
def shiftChunk (crc : ℕ) : ℕ :=
  entry crc32cShiftChunkTable1360 0 (crc &&& 0xff) ^^^
    entry crc32cShiftChunkTable1360 1 ((crc >>> 8) &&& 0xff) ^^^
    entry crc32cShiftChunkTable1360 2 ((crc >>> 16) &&& 0xff) ^^^
    entry crc32cShiftChunkTable1360 3 (crc >>> 24)

/-- Three chunks side by side, in words of `n` bytes. -/
def lanes (n crc : ℕ) (data : List UInt8) : ℕ × ℕ × ℕ :=
  (range (parallelChunk / n)).foldl
    (fun c k => (crc32Hw n c.1 (data.drop (n * k)),
      crc32Hw n c.2.1 (data.drop (parallelChunk + n * k)),
      crc32Hw n c.2.2 (data.drop (parallelChunk * 2 + n * k))))
    (crc, 0, 0)

/-- Three chunks, and their values put together. -/
def threeChunks (n crc : ℕ) (data : List UInt8) : ℕ :=
  let c := lanes n crc data
  let crc := shiftChunk c.1 ^^^ c.2.1
  shiftChunk crc ^^^ c.2.2

/-- `psync_crc32c_hw` with words of `n` bytes. -/
def psyncCrc32cHw (n addr crc : ℕ) (data : List UInt8) : ℕ :=
  let r := untilAligned n (crc32Hw 1) addr crc data
  let r := whileAtLeast (parallelChunk * 3) (threeChunks n) r.2.length r.1 r.2
  let r := whileAtLeast (n * 4) (unrolled 4 n (crc32Hw n)) r.2.length r.1 r.2
  let r := whileAtLeast n (crc32Hw n) r.2.length r.1 r.2
  (whileAtLeast 1 (crc32Hw 1) r.2.length r.1 r.2).1

/-- `psync_crc32c`, which finds out at the first call whether there is the instruction; gives
    `crc_hashw` too. -/
def psyncCrc32c (hasHwCrc : Bool) (n crcHashw addr crc : ℕ) (data : List UInt8) : ℕ × ℕ :=
  if crcHashw = 2 then (psyncCrc32cHw n addr crc data, crcHashw)
  else if crcHashw = 1 then (psyncCrc32cSw addr crc data, crcHashw)
  else
    let crcHashw := (if hasHwCrc then 1 else 0) + 1
    if crcHashw = 2 then (psyncCrc32cHw n addr crc data, crcHashw)
    else (psyncCrc32cSw addr crc data, crcHashw)

/-! ## Tables -/

variable {k n c crc x addr fuel count : ℕ} {data a b : List UInt8} {body : ℕ → List UInt8 → ℕ}
  {r : ℕ × List UInt8}

theorem entry_map_range {f : ℕ → List ℕ} {i : ℕ} (hk : k < n) :
    entry ((range n).map f) k i = (f k).getD i 0 := by
  have hrow : ((range n).map f).getD k [] = f k := by
    rw [getD_eq_getElem?_getD, getElem?_map, getElem?_range hk]
    rfl
  rw [entry, hrow]

/-- The table `k` has the values of bytes with `k` more behind them. -/
theorem entry_crc32cTable (hk : k < 8) {i : ℕ} (hi : i < 2 ^ 8) :
    entry crc32cTable k i = Crc.bitSteps poly (8 * (k + 1)) i := by
  rw [crc32cTable_eq, entry_map_range hk, Crc.getD_byteTable _ hi]
  rfl

/-- The table `k` has the values of the byte `k` of a check value before a chunk. -/
theorem entry_shiftTable (hk : k < 4) {i : ℕ} (hi : i < 2 ^ 8) :
    entry crc32cShiftChunkTable1360 k i =
      Crc.bitSteps poly (8 * parallelChunk) (i <<< (8 * k)) := by
  have hsum : 8 * parallelChunk = 8 * k + (10849 + 8 * (3 - k) + 7) := by
    have hchunk : parallelChunk = 1360 := rfl
    omega
  rw [crc32cShiftChunkTable1360_eq, entry_map_range hk, ← Crc.bitSteps_add,
    Crc.getD_byteTable _ hi, hsum, Crc.bitSteps_add_shiftLeft]

theorem and_ff (x : ℕ) : x &&& 0xff = x % 2 ^ 8 := Nat.and_two_pow_sub_one_eq_mod x 8

theorem poly_lt : poly < 2 ^ 32 := by decide

/-! ## Bodies -/

/-- A body takes in `n` bytes. -/
def Takes (n : ℕ) (body : ℕ → List UInt8 → ℕ) : Prop :=
  ∀ crc data, crc < 2 ^ 32 → n ≤ data.length → body crc data = Crc.crc poly crc (data.take n)

theorem crc_lt (h : c < 2 ^ 32) : Crc.crc poly c a < 2 ^ 32 :=
  Crc.crc_lt poly_lt (by decide) h

theorem crc_eq_xor (c : ℕ) (a : List UInt8) :
    Crc.crc poly c a = Crc.bitSteps poly (8 * a.length) c ^^^ Crc.crc poly 0 a :=
  Crc.crc_eq_xor c a

theorem takes_crc32Hw (n : ℕ) : Takes n (crc32Hw n) := fun crc data _ hn => by
  rw [crc32Hw, word, Crc.crc_eq, length_take, Nat.min_eq_left hn]

theorem takes_8Bit : Takes 1 crc32c8Bit := by
  intro crc data _ hn
  match data, hn with
  | b :: data, _ =>
    have hb : b.toNat >>> 8 = 0 := Nat.shiftRight_eq_zero _ _ b.toNat_lt
    have hshift : (crc ^^^ b.toNat) >>> 8 = crc >>> 8 := by
      rw [Nat.shiftRight_xor_distrib, hb, Nat.xor_zero]
    change entry crc32cTable 0 ((crc ^^^ b.toNat) &&& 0xff) ^^^ crc >>> 8 =
      Crc.bitSteps poly (8 + 0) (crc ^^^ b.toNat)
    rw [Crc.bitSteps_split, hshift, and_ff,
      entry_crc32cTable (by decide) (Nat.mod_lt _ (by decide))]
    rfl

theorem bitSteps_64 (x : ℕ) : Crc.bitSteps poly 64 x = Crc.byBytes (entry crc32cTable) 8 x :=
  Crc.bitSteps_eq_byBytes (fun _ hk _ hi => entry_crc32cTable hk hi) x

theorem takes_64Bit : Takes 8 crc32c64Bit := by
  intro crc data hcrc hn
  match data, hn with
  | b₀ :: b₁ :: b₂ :: b₃ :: b₄ :: b₅ :: b₆ :: b₇ :: data, _ =>
    have hword : word 4 (b₀ :: b₁ :: b₂ :: b₃ :: b₄ :: b₅ :: b₆ :: b₇ :: data) =
      Crc.ofBytes [b₀, b₁, b₂, b₃] := rfl
    have htake : take 8 (b₀ :: b₁ :: b₂ :: b₃ :: b₄ :: b₅ :: b₆ :: b₇ :: data) =
      [b₀, b₁, b₂, b₃] ++ [b₄, b₅, b₆, b₇] := rfl
    have hlow : crc ^^^ Crc.ofBytes [b₀, b₁, b₂, b₃] < 2 ^ 32 :=
      Nat.xor_lt_two_pow hcrc (Crc.ofBytes_lt [b₀, b₁, b₂, b₃])
    rw [Crc.crc_eq, htake, Crc.ofBytes_append, ← Nat.xor_assoc, crc32c64Bit, hword]
    generalize crc ^^^ Crc.ofBytes [b₀, b₁, b₂, b₃] = x at hlow ⊢
    -- the four lower bytes are those of the value and the first word, the others are the data
    have hhigh : x >>> 8 >>> 8 >>> 8 >>> 8 = 0 := by
      rw [← Nat.shiftRight_add, ← Nat.shiftRight_add, ← Nat.shiftRight_add]
      exact Nat.shiftRight_eq_zero _ _ hlow
    change _ = Crc.bitSteps poly 64 (x ^^^ Crc.ofBytes [b₄, b₅, b₆, b₇] <<< (24 + 8))
    rw [bitSteps_64, Crc.byBytes_xor_shift, Crc.byBytes_xor_shift _ _ _ _ 16,
      Crc.byBytes_xor_shift _ _ _ _ 8, Crc.byBytes_xor_shift _ _ _ _ 0, hhigh, Nat.shiftLeft_zero,
      Nat.zero_xor, Crc.byBytes_cons, Crc.byBytes_cons, Crc.byBytes_cons, Crc.byBytes_cons]
    have h16 : x >>> 16 = x >>> 8 >>> 8 := Nat.shiftRight_add x 8 8
    have h24 : x >>> 24 = x >>> 8 >>> 8 >>> 8 := by rw [← h16, ← Nat.shiftRight_add]
    have hend : Crc.byBytes (entry crc32cTable) 0 (Crc.ofBytes []) = 0 := rfl
    simp only [and_ff, Nat.xor_assoc, h16, h24, hend, Nat.xor_zero]
    rfl

theorem Takes.unrolled (h : Takes n body) (count : ℕ) :
    Takes (n * count) (unrolled count n body) := by
  intro crc data hcrc hn
  induction count with
  | zero => simp [Crc32c.unrolled]
  | succ count ih =>
    rw [Nat.mul_succ] at hn
    have hprev := ih (by omega)
    rw [Crc32c.unrolled] at hprev ⊢
    rw [range_succ, foldl_append, hprev, foldl_cons, foldl_nil,
      h _ _ (crc_lt hcrc) (by rw [length_drop]; omega), ← Crc.crc_append, Nat.mul_succ,
      ← take_add]

/-! ## Three chunks -/

/-- The table `k` takes the lowest byte of what is left of a check value. -/
theorem bitSteps_chunk (hk : k < 4) (x : ℕ) :
    Crc.bitSteps poly (8 * parallelChunk) (x <<< (8 * k)) =
      entry crc32cShiftChunkTable1360 k (x &&& 0xff) ^^^
        Crc.bitSteps poly (8 * parallelChunk) (x >>> 8 <<< (8 * (k + 1))) := by
  have hsplit : x <<< (8 * k) = (x % 2 ^ 8) <<< (8 * k) ^^^ x >>> 8 <<< (8 * (k + 1)) := by
    have hsum : 8 * (k + 1) = 8 + 8 * k := by omega
    rw [hsum, Nat.shiftLeft_add, ← Nat.shiftLeft_xor_distrib, Crc.mod_xor_shift]
  rw [hsplit, Crc.bitSteps_xor, and_ff, entry_shiftTable hk (Nat.mod_lt _ (by decide))]

/-- The tables of the chunk do the steps of its bits. -/
theorem shiftChunk_eq (hc : c < 2 ^ 32) :
    shiftChunk c = Crc.bitSteps poly (8 * parallelChunk) c := by
  have h16 : c >>> 16 = c >>> 8 >>> 8 := Nat.shiftRight_add c 8 8
  have h24 : c >>> 24 = c >>> 8 >>> 8 >>> 8 := by rw [← h16, ← Nat.shiftRight_add]
  have htop : c >>> 24 < 2 ^ 8 := by
    rw [Nat.shiftRight_eq_div_pow]
    omega
  have hshift0 : c <<< (8 * 0) = c := rfl
  rw [← hshift0, bitSteps_chunk (by decide), bitSteps_chunk (by decide), bitSteps_chunk (by decide),
    ← h24, ← entry_shiftTable (by decide) htop, shiftChunk, hshift0, h16, Nat.xor_assoc,
    Nat.xor_assoc]

theorem lanes_eq (n crc : ℕ) (data : List UInt8) : lanes n crc data =
      (unrolled (parallelChunk / n) n (crc32Hw n) crc data,
        unrolled (parallelChunk / n) n (crc32Hw n) 0 (data.drop parallelChunk),
        unrolled (parallelChunk / n) n (crc32Hw n) 0 (data.drop (parallelChunk * 2))) := by
  rw [lanes, unrolled, unrolled, unrolled]
  induction parallelChunk / n with
  | zero => rfl
  | succ count ih =>
    simp only [range_succ, foldl_append, ih, foldl_cons, foldl_nil, drop_drop]

theorem takes_threeChunks (hn : n ∣ parallelChunk) : Takes (parallelChunk * 3) (threeChunks n) := by
  intro crc data hcrc hlen
  have hchunk : n * (parallelChunk / n) = parallelChunk := Nat.mul_div_cancel' hn
  have htakes := (takes_crc32Hw n).unrolled (parallelChunk / n)
  rw [hchunk] at htakes
  have h1 := htakes crc data hcrc (by omega)
  have h₂ := htakes 0 (data.drop parallelChunk) (by decide) (by rw [length_drop]; omega)
  have h₃ := htakes 0 (data.drop (parallelChunk * 2)) (by decide)
    (by rw [length_drop]; omega)
  have hcut : data.take (parallelChunk * 3) = data.take parallelChunk ++
      ((data.drop parallelChunk).take parallelChunk ++
        (data.drop (parallelChunk * 2)).take parallelChunk) := by
    have h2 : parallelChunk * 2 = parallelChunk + parallelChunk := Nat.mul_two _
    have h3 : parallelChunk * 3 = parallelChunk + (parallelChunk + parallelChunk) := by omega
    rw [h2, h3, take_add, take_add, drop_drop]
  have hlen2 : ((data.drop parallelChunk).take parallelChunk).length = parallelChunk := by
    rw [length_take, length_drop]
    omega
  have hlen3 : ((data.drop (parallelChunk * 2)).take parallelChunk).length = parallelChunk := by
    rw [length_take, length_drop]
    omega
  have hc : Crc.crc poly crc (data.take parallelChunk) < 2 ^ 32 := crc_lt hcrc
  have hfirst := crc_eq_xor (Crc.crc poly crc (data.take parallelChunk))
    ((data.drop parallelChunk).take parallelChunk)
  rw [hlen2, ← shiftChunk_eq hc] at hfirst
  have hsecond := crc_eq_xor (Crc.crc poly (Crc.crc poly crc (data.take parallelChunk))
    ((data.drop parallelChunk).take parallelChunk))
    ((data.drop (parallelChunk * 2)).take parallelChunk)
  rw [hlen3, ← shiftChunk_eq (crc_lt hc), hfirst] at hsecond
  rw [threeChunks, lanes_eq, h1, h₂, h₃, hcut, Crc.crc_append, Crc.crc_append, hfirst, hsecond]

/-! ## Loops -/

/-- What is left gives the same value as all of the data. -/
structure SameCrc (crc : ℕ) (data : List UInt8) (r : ℕ × List UInt8) : Prop where
  lt : r.1 < 2 ^ 32
  crc_eq : Crc.crc poly r.1 r.2 = Crc.crc poly crc data

theorem SameCrc.refl (h : crc < 2 ^ 32) : SameCrc crc data (crc, data) := ⟨h, rfl⟩

theorem SameCrc.step (h : SameCrc crc data (c, a)) (hbody : Takes n body) (hn : n ≤ a.length) :
    SameCrc crc data (body c a, a.drop n) := by
  have hc := hbody c a h.lt hn
  refine ⟨?_, ?_⟩
  · change body c a < 2 ^ 32
    rw [hc]
    exact crc_lt h.lt
  · change Crc.crc poly (body c a) (a.drop n) = _
    rw [hc, ← Crc.crc_append, take_append_drop]
    exact h.crc_eq

theorem SameCrc.untilAligned (hbody : Takes 1 body) (h : SameCrc crc data (c, a)) :
    SameCrc crc data (untilAligned n body addr c a) := by
  induction a generalizing addr c with
  | nil => exact h
  | cons x a ih =>
    rw [Crc32c.untilAligned]
    split
    · exact ih (h.step hbody (Nat.succ_le_succ (Nat.zero_le _)))
    · exact h

theorem SameCrc.whileAtLeast (hbody : Takes n body) (h : SameCrc crc data r) :
    SameCrc crc data (whileAtLeast n body fuel r.1 r.2) := by
  induction fuel generalizing r with
  | zero => exact h
  | succ fuel ih =>
    rw [Crc32c.whileAtLeast]
    split
    · next hn => exact ih (h.step hbody hn)
    · exact h

/-- The fuel is enough: a loop ends with less than it takes. -/
theorem length_whileAtLeast (hn : 0 < n) (hfuel : a.length ≤ fuel) :
    (whileAtLeast n body fuel c a).2.length < n := by
  induction fuel generalizing c a with
  | zero => exact Nat.lt_of_le_of_lt hfuel hn
  | succ fuel ih =>
    rw [whileAtLeast]
    split
    · exact ih (by rw [length_drop]; omega)
    · next hlt => exact Nat.lt_of_not_le hlt

/-- The last loop has the value of the data. -/
theorem SameCrc.finish (hbody : Takes 1 body) (h : SameCrc crc data r) :
    (Crc32c.whileAtLeast 1 body r.2.length r.1 r.2).1 = Crc.crc poly crc data := by
  have hrest : (Crc32c.whileAtLeast 1 body r.2.length r.1 r.2).2 = [] :=
    length_eq_zero_iff.1 (Nat.lt_one_iff.1 (length_whileAtLeast Nat.one_pos (Nat.le_refl _)))
  have hend : Crc.crc poly _ (Crc32c.whileAtLeast 1 body r.2.length r.1 r.2).2 = _ :=
    (h.whileAtLeast hbody).crc_eq
  rwa [hrest] at hend

/-! ## The value -/

theorem psyncCrc32cSw_eq (h : crc < 2 ^ 32) : psyncCrc32cSw addr crc data = Crc.crc poly crc data :=
  (((SameCrc.refl h).untilAligned takes_8Bit).whileAtLeast
    (takes_64Bit.unrolled 8)).whileAtLeast takes_64Bit |>.finish takes_8Bit

/-- The instruction does, with words that fill a chunk. -/
theorem psyncCrc32cHw_eq (hn : n ∣ parallelChunk) (h : crc < 2 ^ 32) :
    psyncCrc32cHw n addr crc data = Crc.crc poly crc data :=
  ((((SameCrc.refl h).untilAligned (takes_crc32Hw 1)).whileAtLeast
    (takes_threeChunks hn)).whileAtLeast ((takes_crc32Hw n).unrolled 4)).whileAtLeast
      (takes_crc32Hw n) |>.finish (takes_crc32Hw 1)

/-- Which of the two it is does not matter. -/
theorem psyncCrc32c_eq (hn : n ∣ parallelChunk) (h : crc < 2 ^ 32) (hasHwCrc : Bool)
    (crcHashw : ℕ) :
    (psyncCrc32c hasHwCrc n crcHashw addr crc data).1 = Crc.crc poly crc data := by
  have hsw : psyncCrc32cSw addr crc data = Crc.crc poly crc data := psyncCrc32cSw_eq h
  have hhw : psyncCrc32cHw n addr crc data = Crc.crc poly crc data := psyncCrc32cHw_eq hn h
  simp only [psyncCrc32c, hsw, hhw, apply_ite Prod.fst, ite_self]

theorem dvd_parallelChunk (hn : n = 4 ∨ n = 8) : n ∣ parallelChunk := by
  rcases hn with rfl | rfl <;> decide

/-- For every buffer, address and initial value, the tables and the instruction, on words of 4 and
    of 8 bytes, give the check value bit by bit; so do three chunks side by side, with the tables
    that put them together. The value of two parts is that of the second one from that of the first
    one, at whatever addresses and in whichever way each of them is computed. -/
theorem psyncCrc32c_spec (hn : n = 4 ∨ n = 8) (crc : UInt32) :
    (∀ addr data, psyncCrc32cSw addr crc.toNat data = Crc.crc poly crc.toNat data) ∧
      (∀ addr data, psyncCrc32cHw n addr crc.toNat data = Crc.crc poly crc.toNat data) ∧
      (∀ data, parallelChunk * 3 ≤ data.length →
        threeChunks n crc.toNat data = Crc.crc poly crc.toNat (data.take (parallelChunk * 3))) ∧
      (∀ hasHwCrc crcHashw addr data, (psyncCrc32c hasHwCrc n crcHashw addr crc.toNat data).1 =
          Crc.crc poly crc.toNat data ∧ Crc.crc poly crc.toNat data < 2 ^ 32) ∧
      ∀ hasHwCrc crcHashw₁ crcHashw₂ crcHashw₃ addr₁ addr₂ addr₃ a b,
        (psyncCrc32c hasHwCrc n crcHashw₁ addr₁ crc.toNat (a ++ b)).1 =
          (psyncCrc32c hasHwCrc n crcHashw₂ addr₂
            (psyncCrc32c hasHwCrc n crcHashw₃ addr₃ crc.toNat a).1 b).1 := by
  have hdvd := dvd_parallelChunk hn
  have hcrc := crc.toNat_lt
  refine ⟨fun addr data => psyncCrc32cSw_eq hcrc, fun addr data => psyncCrc32cHw_eq hdvd hcrc,
    fun data => takes_threeChunks hdvd _ data hcrc,
    fun hasHwCrc crcHashw addr data => ⟨psyncCrc32c_eq hdvd hcrc _ _, crc_lt hcrc⟩, ?_⟩
  intro hasHwCrc crcHashw₁ crcHashw₂ crcHashw₃ addr₁ addr₂ addr₃ a b
  rw [psyncCrc32c_eq hdvd hcrc, psyncCrc32c_eq hdvd hcrc, psyncCrc32c_eq hdvd (crc_lt hcrc),
    Crc.crc_append]

/-- Nine bytes at an address that is not aligned, from an initial value of zero. -/
theorem psyncCrc32c_123456789 : psyncCrc32cSw 3 0 [49, 50, 51, 52, 53, 54, 55, 56, 57] =
        Crc.crc poly 0 [49, 50, 51, 52, 53, 54, 55, 56, 57] ∧
      psyncCrc32cHw 8 3 0 [49, 50, 51, 52, 53, 54, 55, 56, 57] =
        psyncCrc32cSw 3 0 [49, 50, 51, 52, 53, 54, 55, 56, 57] := by
  have h := psyncCrc32c_spec (n := 8) (Or.inr rfl) 0
  exact ⟨h.1 3 _, (h.2.1 3 _).trans (h.1 3 _).symm⟩

end Pclsync.Crc32c
