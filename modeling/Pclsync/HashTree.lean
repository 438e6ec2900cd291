import Mathlib.Tactic.Ring
import Mathlib.Tactic.Linarith

/-!
# Sizes of hash trees stored next to their data

A hash tree over `N` blocks: the nodes of a level are grouped by `k`, and every group has one node
in the level above, the last group of a level being possibly short. Each node is a digest of `d`
bytes, so that a full group takes `k * d` bytes, which is the size of a block.

* `nodes k N l`: the number of nodes of the level `l` (level `0` is that of the blocks), and
  `nodes_sub_one`, the index of the last of them.
* `total k d n N l`: the bytes of `n` bytes of data and the digests of the levels below `l`.
* `full k N l m`: the full groups of the level `l` and of those above it, up to `m` levels.
* `capacity k d l`: the bytes of a full subtree of height `l`; `total_le` and `lt_total` are the
  bounds that recover the number of nodes from the total.
* `IsHeight k N L`: `L` is the number of levels of digests.
-/

namespace Pclsync.HashTree

variable {k d n N l L B : ℕ}

/-- The number of nodes of the level `l` of the tree over `N` blocks. -/
def nodes (k N : ℕ) : ℕ → ℕ
  | 0 => N
  | l + 1 => (nodes k N l + k - 1) / k

/-- The bytes of the data and of the digests of the levels below `l`. -/
def total (k d n N : ℕ) : ℕ → ℕ
  | 0 => n
  | l + 1 => total k d n N l + nodes k N l * d

/-- The bytes of a full subtree of height `l`, with all digests below its root. -/
def capacity (k d : ℕ) : ℕ → ℕ
  | 0 => k * d
  | l + 1 => k * capacity k d l + k * d

/-- The nodes but the last one of the `m` levels above `l`, which are the full groups of the level
    `l` and the following ones. -/
def full (k N l : ℕ) : ℕ → ℕ
  | 0 => 0
  | m + 1 => nodes k N (l + 1) - 1 + full k N (l + 1) m

/-- The levels of digests: as many as lead to a single node, but at least one. -/
structure IsHeight (k N L : ℕ) : Prop where
  pos : 1 ≤ L
  top : nodes k N L = 1
  below : ∀ l, 1 ≤ l → l < L → 1 < nodes k N l

@[simp] theorem nodes_zero : nodes k N 0 = N := rfl

@[simp] theorem total_zero : total k d n N 0 = n := rfl

theorem nodes_succ : nodes k N (l + 1) = (nodes k N l + k - 1) / k := rfl

theorem total_succ : total k d n N (l + 1) = total k d n N l + nodes k N l * d := rfl

theorem total_mono {m : ℕ} (h : l ≤ m) : total k d n N l ≤ total k d n N m :=
  monotone_nat_of_le_succ (fun _ => Nat.le_add_right ..) h

theorem ceilDiv_eq (hk : 0 < k) {p : ℕ} (hp : 0 < p) : (p + k - 1) / k = (p - 1) / k + 1 := by
  rw [show p + k - 1 = p - 1 + k by omega, Nat.add_div_right _ hk]

theorem nodes_pos (hk : 0 < k) (hN : 0 < N) : ∀ l, 0 < nodes k N l
  | 0 => hN
  | l + 1 => by
    rw [nodes_succ, ceilDiv_eq hk (nodes_pos hk hN l)]
    exact Nat.succ_pos _

/-- The last node of a level is above the last block. -/
theorem nodes_sub_one (hk : 0 < k) (hN : 0 < N) (l : ℕ) : nodes k N l - 1 = (N - 1) / k ^ l := by
  induction l with
  | zero => simp
  | succ l ih =>
    rw [nodes_succ, ceilDiv_eq hk (nodes_pos hk hN l), ih, Nat.add_sub_cancel,
      Nat.div_div_eq_div_mul, pow_succ]

/-- The group of the last node of a level is the last node of the next one. -/
theorem nodes_succ_sub_one (hk : 0 < k) (hN : 0 < N) :
    nodes k N (l + 1) - 1 = (nodes k N l - 1) / k := by
  rw [nodes_succ, ceilDiv_eq hk (nodes_pos hk hN l), Nat.add_sub_cancel]

/-- The height is logarithmic in the number of blocks. -/
theorem exists_isHeight (hk : 0 < k) (hN : 0 < N) (hB : 1 ≤ B) (h : N ≤ k ^ B) :
    ∃ L ≤ B, IsHeight k N L := by
  have hex : ∃ L, 1 ≤ L ∧ nodes k N L ≤ 1 := by
    refine ⟨B, hB, ?_⟩
    have := nodes_sub_one hk hN B
    rw [Nat.div_eq_of_lt (by omega)] at this
    omega
  obtain ⟨h1, h2⟩ := Nat.find_spec hex
  refine ⟨Nat.find hex, ?_, h1, ?_, fun l hl hlt => ?_⟩
  · refine Nat.find_min' hex ⟨hB, ?_⟩
    have := nodes_sub_one hk hN B
    rw [Nat.div_eq_of_lt (by omega)] at this
    omega
  · exact le_antisymm h2 (nodes_pos hk hN _)
  · have := Nat.find_min hex hlt
    omega

section Bounds

variable (hk : 0 < k) (hd : 0 < d) (hN : 0 < N)

include hk hN

/-- The nodes of a level, grouped: all groups but the last are full. -/
theorem nodes_group : k * (nodes k N (l + 1) - 1) + 1 ≤ nodes k N l ∧
    nodes k N l ≤ k * nodes k N (l + 1) := by
  have h := nodes_succ_sub_one (l := l) hk hN
  have hp := nodes_pos hk hN l
  have hq := nodes_pos hk hN (l + 1)
  have hmod := Nat.div_add_mod (nodes k N l - 1) k
  have hlt := Nat.mod_lt (nodes k N l - 1) hk
  rw [← h] at hmod
  have hmul : k * nodes k N (l + 1) = k * (nodes k N (l + 1) - 1) + k := by
    rw [← Nat.mul_succ, Nat.succ_eq_add_one, Nat.sub_add_cancel hq]
  omega

/-- As many full subtrees as there are nodes hold the data and its digests. -/
theorem total_le (hn : n ≤ N * (k * d)) : total k d n N l ≤ nodes k N l * capacity k d l := by
  induction l with
  | zero => exact hn
  | succ l ih =>
    have h := (nodes_group (l := l) hk hN).2
    calc total k d n N (l + 1) ≤ nodes k N l * capacity k d l + nodes k N l * d :=
          Nat.add_le_add_right ih _
      _ = nodes k N l * (capacity k d l + d) := by ring
      _ ≤ k * nodes k N (l + 1) * (capacity k d l + d) := Nat.mul_le_mul_right _ h
      _ = nodes k N (l + 1) * capacity k d (l + 1) := by rw [capacity]; ring

/-- All subtrees of a level but the last are full. -/
theorem lt_total (hn : (N - 1) * (k * d) < n) :
    (nodes k N l - 1) * capacity k d l < total k d n N l := by
  induction l with
  | zero => exact hn
  | succ l ih =>
    have h := (nodes_group (l := l) hk hN).1
    have hp : nodes k N l - 1 + 1 = nodes k N l := Nat.sub_add_cancel (nodes_pos hk hN l)
    have hle : k * (nodes k N (l + 1) - 1) ≤ nodes k N l - 1 := by omega
    calc (nodes k N (l + 1) - 1) * capacity k d (l + 1)
        = k * (nodes k N (l + 1) - 1) * (capacity k d l + d) := by rw [capacity]; ring
      _ ≤ (nodes k N l - 1) * (capacity k d l + d) := Nat.mul_le_mul_right _ hle
      _ = (nodes k N l - 1) * capacity k d l + (nodes k N l - 1) * d := by ring
      _ < total k d n N l + (nodes k N l - 1) * d := Nat.add_lt_add_right ih _
      _ ≤ total k d n N l + nodes k N l * d :=
          Nat.add_le_add_left (Nat.mul_le_mul_right _ (Nat.sub_le ..)) _

include hd in
/-- The number of nodes of a level is recovered from the total of the level above by a rounded up
    division. -/
theorem nodes_eq_ceilDiv (hn : (N - 1) * (k * d) < n) (hn' : n ≤ N * (k * d)) :
    (total k d n N (l + 1) + capacity k d l + d - 1) / (capacity k d l + d) = nodes k N l := by
  have hlo := lt_total (l := l) hk hN hn
  have hhi := total_le (l := l) hk hN hn'
  obtain ⟨p, hp⟩ : ∃ p, nodes k N l = p + 1 :=
    ⟨_, (Nat.sub_add_cancel (nodes_pos hk hN l)).symm⟩
  rw [hp] at hlo hhi
  rw [Nat.add_sub_cancel] at hlo
  rw [total_succ, hp]
  refine Nat.div_eq_of_lt_le ?_ ?_
  · have : (p + 1) * (capacity k d l + d) = p * capacity k d l + (p + 1) * d + capacity k d l := by
      ring
    omega
  · have : (p + 1 + 1) * (capacity k d l + d) =
        (p + 1) * capacity k d l + (p + 1) * d + (capacity k d l + d) := by ring
    omega

end Bounds

end Pclsync.HashTree
