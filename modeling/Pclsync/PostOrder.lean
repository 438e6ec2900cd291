import Mathlib.Tactic.Ring
import Pclsync.Tiling

/-!
# Post-order positions

The infinite tree of groups of `k`: the node `(h, j)` is the `j`-th one of the height `h`, its
children are the nodes `(h - 1, j * k), …, (h - 1, j * k + k - 1)`, and the nodes of height `0` are
the leaves. The nodes are stored one after the other, each one after its children.

* `span k h`: the number of nodes of a subtree of height `h`.
* `before k j`: the number of nodes that end with one of the leaves before the leaf `j`, besides
  these leaves.
* `position k h j`: the place of the node `(h, j)`.
* `prefixTo k t`: the nodes which end before the leaf `t`, in their order; they tile what is before
  that leaf (`tiles_prefixTo`), and `mem_prefixTo` says which ones they are.
-/

namespace Pclsync.PostOrder

open List

variable {k h j t : ℕ}

/-- The number of nodes of a subtree of height `h`. -/
def span (k : ℕ) : ℕ → ℕ
  | 0 => 1
  | h + 1 => k * span k h + 1

/-- The number of groups that are full before `j`, of all heights. -/
def before (k j : ℕ) : ℕ :=
  if 2 ≤ k ∧ k ≤ j then j / k + before k (j / k) else 0
termination_by j
decreasing_by
  rename_i h
  exact Nat.div_lt_self (by omega) h.1

/-- The place of a node: that of the end of its subtree. -/
def position (k h j : ℕ) : ℕ := span k h * (j + 1) + before k j - 1

/-- The nodes that end with the leaf below `(h, j)`, from that node upwards; the fuel bounds their
    number. -/
def ending (k : ℕ) : (fuel h j : ℕ) → List (ℕ × ℕ)
  | 0, h, j => [(h, j)]
  | f + 1, h, j => (h, j) :: if k ∣ j + 1 then ending k f (h + 1) ((j + 1) / k - 1) else []

/-- The nodes that end before the leaf `t`. -/
def prefixTo (k : ℕ) : ℕ → List (ℕ × ℕ)
  | 0 => []
  | t + 1 => prefixTo k t ++ ending k (t + 1) 0 t

theorem span_pos (k : ℕ) : ∀ h, 0 < span k h
  | 0 => Nat.one_pos
  | _ + 1 => Nat.succ_pos _

/-- A subtree has at most twice as many nodes as leaves. -/
theorem span_le (hk : 2 ≤ k) (h : ℕ) : span k h + 1 ≤ 2 * k ^ h := by
  induction h with
  | zero =>
    rw [span, pow_zero]
    omega
  | succ h ih =>
    have hmul : k * (span k h + 1) ≤ k * (2 * k ^ h) := Nat.mul_le_mul_left k ih
    calc span k (h + 1) + 1 = k * span k h + 2 := rfl
      _ ≤ k * (span k h + 1) := by rw [Nat.mul_succ]; omega
      _ ≤ k * (2 * k ^ h) := hmul
      _ = 2 * k ^ (h + 1) := by ring

theorem position_zero (t : ℕ) : position k 0 t = t + before k t := by
  rw [position, span]
  omega

section

variable (hk : 2 ≤ k)

include hk

theorem before_zero : before k 0 = 0 := by
  rw [before, if_neg]
  omega

theorem before_eq (j : ℕ) : before k j = j / k + before k (j / k) := by
  rcases lt_or_ge j k with hj | hj
  · rw [Nat.div_eq_of_lt hj, before_zero hk, before, if_neg fun h => absurd h.2 (not_le.2 hj)]
  · rw [before, if_pos ⟨hk, hj⟩]

theorem before_le (j : ℕ) : before k j ≤ j := by
  induction j using Nat.strong_induction_on with
  | _ j ih =>
    rcases Nat.eq_zero_or_pos j with rfl | hj
    · rw [before_zero hk]
    · have hle := ih (j / k) (Nat.div_lt_self hj (by omega))
      have htwo : j / k ≤ j / 2 := Nat.div_le_div_left hk (by omega)
      rw [before_eq hk]
      omega

/-- A number that is not a multiple closes no group. -/
theorem before_succ (hj : ¬ k ∣ j + 1) : before k (j + 1) = before k j := by
  rw [before_eq hk, before_eq hk j, Nat.succ_div_of_not_dvd hj]

theorem before_mono {i : ℕ} (h : i ≤ j) : before k i ≤ before k j := by
  induction j using Nat.strong_induction_on generalizing i with
  | _ j ih =>
    rcases Nat.eq_zero_or_pos j with rfl | hj
    · rw [Nat.le_zero.1 h]
    · have hdiv := Nat.div_le_div_right (c := k) h
      rw [before_eq hk i, before_eq hk j]
      exact Nat.add_le_add hdiv (ih _ (Nat.div_lt_self hj (by omega)) hdiv)

theorem before_mul (j : ℕ) : before k (j * k) = j + before k j := by
  rw [before_eq hk, Nat.mul_div_cancel j (by omega)]

/-- The start of a subtree is that of its first leaf. -/
theorem start_eq (h j : ℕ) : span k h * j + before k j = j * k ^ h + before k (j * k ^ h) := by
  induction h generalizing j with
  | zero => rw [span, pow_zero, Nat.one_mul, Nat.mul_one]
  | succ h ih =>
    have hpow : j * k ^ (h + 1) = j * k * k ^ h := by ring
    rw [hpow, ← ih, before_mul hk, span]
    ring

/-- The first node of a group is after the last node of its last child. -/
theorem position_succ (h j : ℕ) : position k (h + 1) j = position k h ((j + 1) * k - 1) + 1 := by
  have hpos : 0 < (j + 1) * k := Nat.mul_pos (Nat.succ_pos j) (by omega)
  have hdiv : ((j + 1) * k - 1) / k = j := by
    rw [Nat.div_eq_of_lt_le]
    · rw [Nat.succ_mul]
      omega
    · omega
  have hone : 1 ≤ span k h * ((j + 1) * k) := Nat.mul_pos (span_pos k h) hpos
  rw [position, position, Nat.sub_add_cancel hpos, before_eq hk ((j + 1) * k - 1), hdiv, span]
  have hring : (k * span k h + 1) * (j + 1) = span k h * ((j + 1) * k) + (j + 1) := by ring
  omega

/-- What is after a node that is not the last child of its parent. -/
theorem position_next (h : ℕ) (hj : ¬ k ∣ j + 1) :
    position k h j + 1 = position k 0 ((j + 1) * k ^ h) := by
  have hone : 1 ≤ span k h * (j + 1) := Nat.mul_pos (span_pos k h) (Nat.succ_pos j)
  have hstart := start_eq hk h (j + 1)
  rw [before_succ hk hj] at hstart
  rw [position, position, span]
  omega

/-! ## The order of the nodes -/

theorem group_eq (hd : k ∣ j + 1) : ((j + 1) / k - 1 + 1) * k = j + 1 := by
  have hpos : 0 < (j + 1) / k := Nat.div_pos (Nat.le_of_dvd (Nat.succ_pos j) hd) (by omega)
  rw [Nat.sub_add_cancel hpos, Nat.div_mul_cancel hd]

theorem not_dvd_group {f : ℕ} (hd : k ∣ j + 1) (hf : ¬ k ^ (f + 1 + 1) ∣ j + 1) :
    ¬ k ^ (f + 1) ∣ (j + 1) / k - 1 + 1 := by
  intro hdvd
  rw [← group_eq hk hd, pow_succ k (f + 1)] at hf
  exact hf (Nat.mul_dvd_mul_right hdvd k)

/-- There is enough fuel for all nodes that end with a leaf. -/
theorem not_dvd_succ (t : ℕ) : ¬ k ^ (t + 1 + 1) ∣ t + 1 := by
  intro hd
  have hlt : t + 1 + 1 < k ^ (t + 1 + 1) := Nat.lt_pow_self (by omega)
  have hle := Nat.le_of_dvd (Nat.succ_pos t) hd
  omega

/-- The nodes that end with a leaf follow each other. -/
theorem tiles_ending {size : ℕ} (hsize : 0 < size) {f : ℕ} (hf : ¬ k ^ (f + 1) ∣ j + 1) :
    Tiles (fun x => position k x.1 x.2 * size) (fun _ => size) (ending k f h j)
      (position k h j * size) (position k 0 ((j + 1) * k ^ h) * size) := by
  induction f generalizing h j with
  | zero =>
    rw [pow_one] at hf
    rw [ending, ← position_next hk h hf]
    exact ⟨rfl, hsize, (Nat.succ_mul _ _).symm⟩
  | succ f ih =>
    rw [ending]
    refine ⟨rfl, hsize, ?_⟩
    rw [← Nat.succ_mul]
    split_ifs with hd
    · have hgroup := group_eq hk hd
      have hend : ((j + 1) / k - 1 + 1) * k ^ (h + 1) = (j + 1) * k ^ h := by
        rw [pow_succ', ← Nat.mul_assoc, hgroup]
      have htiles := ih (h := h + 1) (not_dvd_group hk hd hf)
      rw [position_succ hk, hgroup, Nat.add_sub_cancel, hend] at htiles
      exact htiles
    · rw [tiles_nil, Nat.succ_eq_add_one, position_next hk h hd]

/-- The nodes before a leaf tile what is before it. -/
theorem tiles_prefixTo {size : ℕ} (hsize : 0 < size) (t : ℕ) :
    Tiles (fun x => position k x.1 x.2 * size) (fun _ => size) (prefixTo k t) 0
      (position k 0 t * size) := by
  induction t with
  | zero => rw [prefixTo, tiles_nil, position_zero, before_zero hk, Nat.zero_mul]
  | succ t ih =>
    have htiles := tiles_ending (h := 0) hk hsize (not_dvd_succ hk t)
    rw [pow_zero, Nat.mul_one] at htiles
    exact tiles_append.2 ⟨_, ih, htiles⟩

theorem mem_ending {f i l : ℕ} (hf : ¬ k ^ (f + 1) ∣ j + 1) :
    (l, i) ∈ ending k f h j ↔ h ≤ l ∧ (i + 1) * k ^ (l - h) = j + 1 := by
  have hk0 : 0 < k := by omega
  induction f generalizing h j with
  | zero =>
    rw [pow_one] at hf
    rw [ending, mem_singleton, Prod.mk.injEq]
    constructor
    · rintro ⟨rfl, rfl⟩
      simp
    · rintro ⟨hl, heq⟩
      obtain ⟨d, rfl⟩ := Nat.exists_eq_add_of_le hl
      rw [Nat.add_sub_cancel_left] at heq
      cases d with
      | zero => simpa using heq
      | succ d =>
        refine absurd (heq ▸ ?_) hf
        exact Dvd.dvd.mul_left (dvd_pow_self k (Nat.succ_ne_zero d)) _
  | succ f ih =>
    rw [ending, mem_cons, Prod.mk.injEq]
    have hnode : (l = h ∧ i = j) ↔ l = h ∧ (i + 1) * k ^ (l - h) = j + 1 := by
      constructor <;> rintro ⟨rfl, heq⟩ <;> refine ⟨rfl, ?_⟩
      · simp [heq]
      · simpa using heq
    rw [hnode]
    split_ifs with hd
    · have hih : (l, i) ∈ ending k f (h + 1) ((j + 1) / k - 1) ↔
          h + 1 ≤ l ∧ (i + 1) * k ^ (l - (h + 1)) = (j + 1) / k - 1 + 1 :=
        ih (not_dvd_group hk hd hf)
      rw [hih]
      -- A node above the first one is above the last child of its group.
      have hup (d : ℕ) : (i + 1) * k ^ (d + 1) = j + 1 ↔ (i + 1) * k ^ d = (j + 1) / k - 1 + 1 := by
        rw [pow_succ, ← Nat.mul_assoc, ← group_eq hk hd, Nat.mul_left_inj (by omega)]
        rw [group_eq hk hd]
      constructor
      · rintro (⟨rfl, heq⟩ | ⟨hl, heq⟩)
        · exact ⟨le_rfl, heq⟩
        · obtain ⟨d, rfl⟩ := Nat.exists_eq_add_of_le hl
          refine ⟨by omega, ?_⟩
          rw [Nat.add_sub_cancel_left] at heq
          rw [show h + 1 + d - h = d + 1 by omega, hup]
          exact heq
      · rintro ⟨hl, heq⟩
        rcases Nat.eq_or_lt_of_le hl with rfl | hlt
        · exact .inl ⟨rfl, heq⟩
        · obtain ⟨d, rfl⟩ := Nat.exists_eq_add_of_le (Nat.succ_le_of_lt hlt)
          refine .inr ⟨Nat.succ_le_of_lt hlt, ?_⟩
          rw [show h.succ + d - h = d + 1 by omega, hup] at heq
          rw [show h.succ + d - (h + 1) = d by omega]
          exact heq
    · simp only [not_mem_nil, or_false]
      constructor
      · rintro ⟨rfl, heq⟩
        exact ⟨le_rfl, heq⟩
      · rintro ⟨hl, heq⟩
        refine ⟨?_, heq⟩
        obtain ⟨d, rfl⟩ := Nat.exists_eq_add_of_le hl
        rw [Nat.add_sub_cancel_left] at heq
        cases d with
        | zero => rfl
        | succ d =>
          refine absurd (heq ▸ ?_) hd
          exact Dvd.dvd.mul_left (dvd_pow_self k (Nat.succ_ne_zero d)) _

theorem mem_prefixTo {l i : ℕ} : (l, i) ∈ prefixTo k t ↔ (i + 1) * k ^ l ≤ t := by
  induction t with
  | zero =>
    have hpos : 0 < (i + 1) * k ^ l := Nat.mul_pos (Nat.succ_pos i) (Nat.pow_pos (by omega))
    simp only [prefixTo, not_mem_nil, false_iff]
    omega
  | succ t ih =>
    rw [prefixTo, mem_append, ih, mem_ending hk (not_dvd_succ hk t), Nat.sub_zero]
    omega

end

end Pclsync.PostOrder
