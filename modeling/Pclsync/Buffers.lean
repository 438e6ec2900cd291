import Mathlib.Data.List.Basic
import Mathlib.Algebra.Order.Group.Nat

/-!
# Buffers of bytes

Memory by addresses, and what copying and xor do to it. Blocks are 16 bytes.

* `Buf.memcpy`, `Buf.xorCnt`, `Buf.putBlock`: a range is overwritten.
* `Buf.block_memcpy`, `Buf.block_xorCnt`, `Buf.block_putBlock`: the blocks in that range, and
  `Buf.block_congr` for those outside.
* `Buf.memcpy_memcpy`, `Buf.xorCnt_xorCnt`: two copies, two xors that follow each other.
-/

namespace Pclsync

open List

/-- The bytes at the addresses of a buffer. -/
abbrev Buf := ℕ → UInt8

abbrev Block := Fin 16 → UInt8

def Block.xor (x y : Block) : Block := fun i => x i ^^^ y i

theorem Block.xor_xor_self (x y : Block) : (x.xor y).xor x = y := by
  funext i
  rw [xor, xor, UInt8.xor_comm (x i), UInt8.xor_assoc, UInt8.xor_self, UInt8.xor_zero]

theorem Block.xor_xor_cancel (x y : Block) : (x.xor y).xor y = x := by
  funext i
  rw [xor, xor, UInt8.xor_assoc, UInt8.xor_self, UInt8.xor_zero]

namespace Buf

/-- `memcpy(b+p, src+s, n)` -/
def memcpy (b : Buf) (p : ℕ) (src : Buf) (s n : ℕ) : Buf :=
  fun a => if p ≤ a ∧ a < p + n then src (s + (a - p)) else b a

/-- The `n` bytes at `p` are changed by xor with those at `src+s`. -/
def xorCnt (b : Buf) (p : ℕ) (src : Buf) (s n : ℕ) : Buf :=
  fun a => if p ≤ a ∧ a < p + n then b a ^^^ src (s + (a - p)) else b a

/-- The 16 bytes at `p`. -/
def block (b : Buf) (p : ℕ) : Block := fun i => b (p + i)

def putBlock (b : Buf) (p : ℕ) (x : Block) : Buf :=
  fun a => if h : p ≤ a ∧ a < p + 16 then x ⟨a - p, by omega⟩ else b a

/-- The `n` bytes at `p`. -/
def bytes (b : Buf) (p n : ℕ) : List UInt8 := (range n).map fun i => b (p + i)

variable {b c src : Buf} {p q s n i j a : ℕ} {x : Block}

/-! ## Bytes -/

theorem memcpy_of_mem (h : i < n) : b.memcpy p src s n (p + i) = src (s + i) := by
  rw [memcpy, if_pos ⟨Nat.le_add_right p i, Nat.add_lt_add_left h p⟩, Nat.add_sub_cancel_left]

theorem memcpy_of_notMem (h : a < p ∨ p + n ≤ a) : b.memcpy p src s n a = b a :=
  if_neg (by omega)

theorem xorCnt_of_mem (h : i < n) : b.xorCnt p src s n (p + i) = b (p + i) ^^^ src (s + i) := by
  rw [xorCnt, if_pos ⟨Nat.le_add_right p i, Nat.add_lt_add_left h p⟩, Nat.add_sub_cancel_left]

theorem xorCnt_of_notMem (h : a < p ∨ p + n ≤ a) : b.xorCnt p src s n a = b a :=
  if_neg (by omega)

theorem putBlock_of_mem (i : Fin 16) : b.putBlock p x (p + i) = x i := by
  rw [putBlock, dif_pos ⟨Nat.le_add_right p i, Nat.add_lt_add_left i.isLt p⟩]
  congr 1
  exact Fin.ext (Nat.add_sub_cancel_left p i)

theorem putBlock_of_notMem (h : a < p ∨ p + 16 ≤ a) : b.putBlock p x a = b a :=
  dif_neg (by omega)

theorem bytes_congr (h : ∀ i < n, b (p + i) = c (q + i)) : b.bytes p n = c.bytes q n :=
  map_congr_left fun i hi => h i (mem_range.1 hi)

theorem eq_of_bytes (h : b.bytes p n = c.bytes q n) (hi : i < n) : b (p + i) = c (q + i) :=
  map_inj_left.1 h i (mem_range.2 hi)

/-! ## Blocks -/

theorem block_congr (h : ∀ i < 16, b (p + i) = c (q + i)) : b.block p = c.block q := by
  funext i
  exact h i i.isLt

theorem eq_of_block (h : b.block p = c.block q) (hi : i < 16) : b (p + i) = c (q + i) :=
  congrFun h ⟨i, hi⟩

theorem block_memcpy (h : j + 16 ≤ n) : (b.memcpy p src s n).block (p + j) = src.block (s + j) := by
  funext i
  have hi := i.isLt
  rw [block, block, Nat.add_assoc, memcpy_of_mem (by omega), Nat.add_assoc]

theorem block_memcpy_of_apart (h : q + 16 ≤ p ∨ p + n ≤ q) :
    (b.memcpy p src s n).block q = b.block q :=
  block_congr fun i hi => memcpy_of_notMem (by omega)

theorem block_xorCnt (h : j + 16 ≤ n) : (b.xorCnt p src s n).block (p + j) =
    (b.block (p + j)).xor (src.block (s + j)) := by
  funext i
  have hi := i.isLt
  rw [Block.xor, block, block, block, Nat.add_assoc, xorCnt_of_mem (by omega), Nat.add_assoc]

theorem block_xorCnt_of_apart (h : q + 16 ≤ p ∨ p + n ≤ q) :
    (b.xorCnt p src s n).block q = b.block q :=
  block_congr fun i hi => xorCnt_of_notMem (by omega)

theorem block_putBlock : (b.putBlock p x).block p = x := by
  funext i
  exact putBlock_of_mem i

theorem block_putBlock_of_apart (h : q + 16 ≤ p ∨ p + 16 ≤ q) :
    (b.putBlock p x).block q = b.block q :=
  block_congr fun i hi => putBlock_of_notMem (by omega)

/-! ## Copies that follow each other -/

theorem memcpy_zero : b.memcpy p src s 0 = b := by
  funext a
  exact memcpy_of_notMem (by omega)

/-- The second copy continues the first one. -/
theorem memcpy_memcpy {m : ℕ} (h : ∀ i < m, c (j + i) = src (s + n + i)) :
    (b.memcpy p src s n).memcpy (p + n) c j m = b.memcpy p src s (n + m) := by
  funext a
  rcases Nat.lt_or_ge a p with ha | ha
  · rw [memcpy_of_notMem (.inl (by omega)), memcpy_of_notMem (.inl ha), memcpy_of_notMem (.inl ha)]
  obtain ⟨i, rfl⟩ := Nat.exists_eq_add_of_le ha
  rcases Nat.lt_or_ge i n with hi | hi
  · rw [memcpy_of_notMem (.inl (by omega)), memcpy_of_mem hi, memcpy_of_mem (by omega)]
  obtain ⟨k, rfl⟩ := Nat.exists_eq_add_of_le hi
  rcases Nat.lt_or_ge k m with hk | hk
  · rw [← Nat.add_assoc p, memcpy_of_mem hk, h k hk, Nat.add_assoc p, memcpy_of_mem (by omega),
      Nat.add_assoc]
  · rw [memcpy_of_notMem (.inr (by omega)), memcpy_of_notMem (.inr (by omega)),
      memcpy_of_notMem (.inr (by omega))]

/-- The second xor continues the first one. -/
theorem xorCnt_xorCnt {m : ℕ} (h : ∀ i < m, c (j + i) = src (s + n + i)) :
    (b.xorCnt p src s n).xorCnt (p + n) c j m = b.xorCnt p src s (n + m) := by
  funext a
  rcases Nat.lt_or_ge a p with ha | ha
  · rw [xorCnt_of_notMem (.inl (by omega)), xorCnt_of_notMem (.inl ha), xorCnt_of_notMem (.inl ha)]
  obtain ⟨i, rfl⟩ := Nat.exists_eq_add_of_le ha
  rcases Nat.lt_or_ge i n with hi | hi
  · rw [xorCnt_of_notMem (.inl (by omega)), xorCnt_of_mem hi, xorCnt_of_mem (by omega)]
  obtain ⟨k, rfl⟩ := Nat.exists_eq_add_of_le hi
  rcases Nat.lt_or_ge k m with hk | hk
  · rw [← Nat.add_assoc p, xorCnt_of_mem hk, h k hk, Nat.add_assoc p,
      xorCnt_of_notMem (.inr (by omega)), xorCnt_of_mem (by omega), Nat.add_assoc s]
  · rw [xorCnt_of_notMem (.inr (by omega)), xorCnt_of_notMem (.inr (by omega)),
      xorCnt_of_notMem (.inr (by omega))]

theorem xorCnt_self : (b.xorCnt p src s n).xorCnt p src s n = b := by
  funext a
  by_cases h : p ≤ a ∧ a < p + n
  · obtain ⟨i, rfl⟩ := Nat.exists_eq_add_of_le h.1
    rw [xorCnt_of_mem (by omega), xorCnt_of_mem (by omega), UInt8.xor_assoc, UInt8.xor_self,
      UInt8.xor_zero]
  · rw [xorCnt_of_notMem (by omega), xorCnt_of_notMem (by omega)]

theorem xorCnt_congr (h : ∀ i < n, c (j + i) = src (s + i)) :
    b.xorCnt p c j n = b.xorCnt p src s n := by
  funext a
  by_cases ha : p ≤ a ∧ a < p + n
  · rw [xorCnt, xorCnt, if_pos ha, if_pos ha, h (a - p) (by omega)]
  · rw [xorCnt_of_notMem (by omega), xorCnt_of_notMem (by omega)]

/-- Copies to ranges that are apart can change places. -/
theorem memcpy_comm {k : ℕ} (h : p + n ≤ q ∨ q + k ≤ p) :
    (b.memcpy p src s n).memcpy q c j k = (b.memcpy q c j k).memcpy p src s n := by
  funext a
  by_cases hp : p ≤ a ∧ a < p + n
  · have hq : ¬(q ≤ a ∧ a < q + k) := by omega
    rw [memcpy, if_neg hq, memcpy, if_pos hp, memcpy, if_pos hp]
  · rw [memcpy, memcpy, if_neg hp, memcpy, if_neg hp, memcpy]

/-! ## Copies and xors of one block, bytewise and by words of 8 bytes -/

/-- `copy_unaligned` -/
def copyUnaligned (dst : Buf) (p : ℕ) (src : Buf) (s : ℕ) : Buf := dst.memcpy p src s 16

/-- `copy_aligned` -/
def copyAligned (dst : Buf) (p : ℕ) (src : Buf) (s : ℕ) : Buf :=
  (dst.memcpy p src s 8).memcpy (p + 8) src (s + 8) 8

/-- `xor16_unaligned_inplace` -/
def xor16Unaligned (data : Buf) (p : ℕ) (key : Buf) (k : ℕ) : Buf := data.xorCnt p key k 16

/-- `xor16_aligned_inplace` -/
def xor16Aligned (data : Buf) (p : ℕ) (key : Buf) (k : ℕ) : Buf :=
  (data.xorCnt p key k 8).xorCnt (p + 8) key (k + 8) 8

theorem copyAligned_eq : copyAligned = copyUnaligned := by
  funext dst p src s
  exact memcpy_memcpy fun i _ => rfl

theorem xor16Aligned_eq : xor16Aligned = xor16Unaligned := by
  funext data p key k
  exact xorCnt_xorCnt fun i _ => rfl

end Buf

end Pclsync
