import Mathlib.Algebra.Order.Group.Nat
import Mathlib.Data.List.GetD
import Mathlib.Tactic.Common

/-!
# Ring buffers

The contents of a ring of `size` cells, `len` cells from `start` on: the cell after the last one is
the first one.

* `Ring.put`: a range of cells, which does not reach over the end, is overwritten.
* `Ring.contents_put`: what is put behind the contents is appended to them.
* `Ring.contents_add`, `Ring.contents_wrap`: contents in two parts, the first of which may be
  taken out.
-/

namespace Pclsync

open List

namespace Ring

variable {α : Type*} {b : ℕ → α} {size start len n : ℕ} {out : List α}

/-- The `n` cells from `p` on. -/
def cells (b : ℕ → α) (p n : ℕ) : List α := (range n).map fun i => b (p + i)

/-- The `len` cells of a ring from `start` on. -/
def contents (b : ℕ → α) (size start len : ℕ) : List α :=
  (range len).map fun i => b ((start + i) % size)

/-- Cells from `p` on are overwritten. -/
def put (b : ℕ → α) (p : ℕ) (out : List α) : ℕ → α :=
  fun a => if a < p then b a else out.getD (a - p) (b a)

@[simp] theorem length_contents : (contents b size start len).length = len := by
  rw [contents, length_map, length_range]

@[simp] theorem contents_zero : contents b size start 0 = [] := rfl

theorem contents_congr {c : ℕ → α} {s : ℕ}
    (h : ∀ i < len, b ((start + i) % size) = c ((s + i) % size)) :
    contents b size start len = contents c size s len :=
  map_congr_left fun i hi => h i (mem_range.1 hi)

theorem contents_add : contents b size start (len + n) =
    contents b size start len ++ contents b size (start + len) n := by
  rw [contents, range_add, map_append, map_map]
  refine congrArg _ (map_congr_left fun i _ => ?_)
  rw [Function.comp_apply, ← Nat.add_assoc]

/-- The ring may be walked once more before the contents. -/
theorem contents_add_size : contents b size (start + size) len = contents b size start len := by
  refine contents_congr fun i _ => ?_
  rw [Nat.add_right_comm, Nat.add_mod_right]

theorem contents_eq_cells (h : start + len ≤ size) :
    contents b size start len = cells b start len := by
  refine map_congr_left fun i hi => ?_
  rw [Nat.mod_eq_of_lt ((Nat.add_lt_add_left (mem_range.1 hi) start).trans_le h)]

/-- Contents that reach over the end of the ring. -/
theorem contents_wrap (hs : start ≤ size) (hl : size ≤ start + len) (h : len ≤ size) :
    contents b size start len =
      cells b start (size - start) ++ cells b 0 (len - (size - start)) := by
  obtain ⟨n, rfl⟩ : ∃ n, len = size - start + n := ⟨len - (size - start), by omega⟩
  have hsize : contents b size size n = contents b size 0 n := by
    have hadd := @contents_add_size α b size 0 n
    rwa [Nat.zero_add] at hadd
  rw [contents_add, contents_eq_cells (by omega), Nat.add_sub_cancel_left,
    Nat.add_sub_cancel' hs, hsize, contents_eq_cells (by omega)]

theorem put_of_lt {p a : ℕ} (h : a < p) : put b p out a = b a := if_pos h

theorem put_of_mem {p i : ℕ} (h : i < out.length) : put b p out (p + i) = out[i] := by
  rw [put, if_neg (by omega), Nat.add_sub_cancel_left, getD_eq_getElem _ _ h]

theorem put_of_le {p a : ℕ} (h : p + out.length ≤ a) : put b p out a = b a := by
  rw [put, if_neg (by omega), getD_eq_default _ _ (by omega)]

/-- What is put behind the contents, without reaching over the end, is appended to them. -/
theorem contents_put (hroom : len + out.length ≤ size)
    (hend : (start + len) % size + out.length ≤ size) :
    contents (put b ((start + len) % size) out) size start (len + out.length) =
      contents b size start len ++ out := by
  rw [contents_add]
  congr 1
  · refine contents_congr fun i hi => ?_
    -- the cell before is another one than those that are overwritten
    have hdiv := Nat.div_add_mod (start + len) size
    have hdiv' := Nat.div_add_mod (start + i) size
    have hlt := Nat.mod_lt (start + i) (show 0 < size by omega)
    rcases Nat.lt_or_ge ((start + i) % size) ((start + len) % size) with hcell | hcell
    · exact put_of_lt hcell
    · refine put_of_le ?_
      by_contra hc
      have hq : (start + i) / size = (start + len) / size := by
        refine le_antisymm (Nat.div_le_div_right (by omega)) ?_
        by_contra hq
        have hmul : size * ((start + i) / size + 1) ≤ size * ((start + len) / size) :=
          Nat.mul_le_mul_left _ (by omega)
        rw [Nat.mul_add, Nat.mul_one] at hmul
        omega
      rw [hq] at hdiv'
      omega
  · refine ext_getElem (by simp) fun i hi _ => ?_
    have hi' : i < out.length := by simpa using hi
    have hmod : (start + len + i) % size = (start + len) % size + i := by
      rw [Nat.add_mod, Nat.mod_eq_of_lt (show i < size by omega), Nat.mod_eq_of_lt (by omega)]
    simp only [contents, getElem_map, getElem_range]
    rw [hmod, put_of_mem hi']

end Ring

end Pclsync
