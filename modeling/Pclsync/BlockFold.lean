import Mathlib.Data.List.Basic
import Mathlib.Order.Lattice

/-!
# Folding a list in blocks

A step takes in a list block by block (`foldBlocks`) and leaves what is shorter than a block.
Nothing depends on how the list is cut: what is left of a part goes in front of the next one
(`foldBlocks_append`).
-/

namespace Pclsync

open List

variable {σ α : Type} {n : ℕ} {step : σ → List α → σ} {s : σ} {m d : List α}

/-- The state after the whole blocks of a list, of `n` elements each, and what is left of it. -/
def foldBlocks (n : ℕ) (step : σ → List α → σ) (s : σ) (m : List α) : σ × List α :=
  if 0 < n ∧ n ≤ m.length then foldBlocks n step (step s (m.take n)) (m.drop n) else (s, m)
  termination_by m.length
  decreasing_by
    rw [length_drop]
    omega

theorem foldBlocks_of_lt (h : m.length < n) : foldBlocks n step s m = (s, m) := by
  rw [foldBlocks, if_neg fun hn => absurd hn.2 (Nat.not_le_of_lt h)]

theorem foldBlocks_of_le (hn : 0 < n) (h : n ≤ m.length) :
    foldBlocks n step s m = foldBlocks n step (step s (m.take n)) (m.drop n) := by
  rw [foldBlocks, if_pos ⟨hn, h⟩]

theorem foldBlocks_block (hn : 0 < n) (h : m.length = n) :
    foldBlocks n step s (m ++ d) = foldBlocks n step (step s m) d := by
  rw [foldBlocks_of_le hn (by rw [length_append]; omega), take_left' h, drop_left' h]

theorem length_foldBlocks_lt (hn : 0 < n) (m : List α) : (foldBlocks n step s m).2.length < n := by
  induction hm : m.length using Nat.strong_induction_on generalizing s m with
  | _ k ih =>
    rcases Nat.lt_or_ge m.length n with hlt | hge
    · rw [foldBlocks_of_lt hlt]
      exact hlt
    · rw [foldBlocks_of_le hn hge]
      exact ih _ (by rw [length_drop]; omega) _ rfl

/-- What is left of a part is taken in with the next one. -/
theorem foldBlocks_append (hn : 0 < n) (m d : List α) : foldBlocks n step s (m ++ d) =
      foldBlocks n step (foldBlocks n step s m).1 ((foldBlocks n step s m).2 ++ d) := by
  induction hm : m.length using Nat.strong_induction_on generalizing s m with
  | _ k ih =>
    rcases Nat.lt_or_ge m.length n with hlt | hge
    · rw [foldBlocks_of_lt hlt]
    · have hle : n ≤ (m ++ d).length := by
        rw [length_append]
        omega
      rw [foldBlocks_of_le hn hle, foldBlocks_of_le hn hge, take_append_of_le_length hge,
        drop_append_of_le_length hge]
      exact ih _ (by rw [length_drop]; omega) _ rfl

end Pclsync
