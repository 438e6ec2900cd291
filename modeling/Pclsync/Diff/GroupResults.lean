import Mathlib.Algebra.Order.Ring.Nat
import Mathlib.Data.Finset.Card

/-!
# Grouping the rows of two results

`group_results_by_col` (`pdiff.c`) looks for the rows of two results that have the same value in a
column, and swaps them to the fronts of the two. After a match the loop over the second result goes
on with the row that was swapped away from the front of the first.

* `FullResult`: a result, with its cells in one array.
* `Grouped`: what is in front after some rows of the first result, and `Grouped.inner`, what the
  loop over the second result does with a row.
* `groupResultsByCol_spec`: the rows with a common value are in front, in the same order.
-/

namespace Pclsync.Diff

open List

/-- `psync_full_result_int`. The numbers of rows and columns have 32 bits, and so have the places of
    the cells. -/
structure FullResult where
  rows : ℕ
  cols : ℕ
  data : ℕ → UInt64
  fits : rows * cols < 2 ^ 32

namespace FullResult

variable (r : FullResult)

/-- The place of a cell in the array. -/
def place (row col : ℕ) : ℕ := (row * r.cols + col) % 2 ^ 32

/-- `psync_get_result_cell`. -/
def cell (row col : ℕ) : UInt64 := r.data (r.place row col)

/-- `memcpy` of `n` cells. -/
def memcpy (dest : ℕ → UInt64) (dst : ℕ) (source : ℕ → UInt64) (src n : ℕ) : ℕ → UInt64 := fun a =>
  if dst ≤ a ∧ a < dst + n then source (src + (a - dst)) else dest a

/-- Exchange two rows through a buffer. -/
def swapRows (i l : ℕ) : FullResult :=
  let buff := memcpy (fun _ => 0) 0 r.data (r.place i 0) r.cols
  let data := memcpy r.data (r.place i 0) r.data (r.place l 0) r.cols
  { r with data := memcpy data (r.place l 0) buff 0 r.cols }

end FullResult

/-- What the loops change: the two results, and the number of rows in front. -/
structure Grouping where
  r1 : FullResult
  r2 : FullResult
  l : ℕ

/-- Compare the `i`-th row of the first result with the `j`-th of the second. -/
def Grouping.compareRows (col i : ℕ) (s : Grouping) (j : ℕ) : Grouping :=
  if s.r1.cell i col = s.r2.cell j col then
    { r1 := if i ≠ s.l then s.r1.swapRows i s.l else s.r1
      r2 := if j ≠ s.l then s.r2.swapRows j s.l else s.r2
      l := s.l + 1 }
  else s

/-- `group_results_by_col`. -/
def groupResultsByCol (r1 r2 : FullResult) (col : ℕ) : Grouping :=
  (range r1.rows).foldl
    (fun s i => (range r2.rows).foldl (Grouping.compareRows col i) s) ⟨r1, r2, 0⟩

/-! ## Exchanges of rows -/

namespace FullResult

variable {r r' r'' : FullResult} {i j l row col c : ℕ}

theorem place_eq (hrow : row < r.rows) (hcol : col < r.cols) : r.place row col =
    row * r.cols + col := by
  have h : (row + 1) * r.cols ≤ r.rows * r.cols := Nat.mul_le_mul_right _ hrow
  rw [Nat.add_mul] at h
  have hfits := r.fits
  exact Nat.mod_eq_of_lt (by omega)

/-- A cell is among those of a row only when it is in the row. -/
theorem between_iff {n : ℕ} (hcol : col < n) : (i * n ≤ row * n + col ∧ row * n + col < i * n + n) ↔
    row = i := by
  constructor
  · rintro ⟨h1, h2⟩
    rcases lt_trichotomy row i with h | h | h
    · have := Nat.mul_le_mul_right n (Nat.succ_le_of_lt h)
      rw [Nat.succ_mul] at this
      omega
    · exact h
    · have := Nat.mul_le_mul_right n (Nat.succ_le_of_lt h)
      rw [Nat.succ_mul] at this
      omega
  · rintro rfl
    omega

theorem cell_swapRows (hi : i < r.rows) (hl : l < r.rows) (hrow : row < r.rows) (hc : c < r.cols) :
    (r.swapRows i l).cell row c = r.cell (Equiv.swap i l row) c := by
  have hpos : 0 < r.cols := by omega
  have hplace : (r.swapRows i l).place row c = row * r.cols + c := r.place_eq hrow hc
  have hpi : r.place i 0 = i * r.cols := r.place_eq hi hpos
  have hpl : r.place l 0 = l * r.cols := r.place_eq hl hpos
  unfold cell
  rw [hplace]
  unfold swapRows memcpy
  dsimp only
  rw [hpi, hpl]
  simp only [between_iff hc]
  rcases eq_or_ne row l with rfl | hrl
  · rw [if_pos rfl, if_pos (by omega), Equiv.swap_apply_right, place_eq hi hc]
    congr 1
    omega
  · rw [if_neg hrl]
    rcases eq_or_ne row i with rfl | hri
    · rw [if_pos rfl, Equiv.swap_apply_left, place_eq hl hc]
      congr 1
      omega
    · rw [if_neg hri, Equiv.swap_apply_of_ne_of_ne hri hrl, place_eq hrow hc]

/-- A result has the rows of another one, in some order. -/
def Permutes (r r' : FullResult) : Prop :=
  r'.rows = r.rows ∧ r'.cols = r.cols ∧ ∃ σ : Equiv.Perm ℕ, (∀ i, σ i < r.rows ↔ i < r.rows) ∧
    ∀ i < r.rows, ∀ c < r.cols, r'.cell i c = r.cell (σ i) c

/-- The values in a column are different. -/
def Distinct (r : FullResult) (col : ℕ) : Prop :=
  ∀ i < r.rows, ∀ j < r.rows, r.cell i col = r.cell j col → i = j

theorem Permutes.refl (r : FullResult) : Permutes r r :=
  ⟨rfl, rfl, Equiv.refl ℕ, fun _ => Iff.rfl, fun _ _ _ _ => rfl⟩

theorem Permutes.swapRows (h : Permutes r r') (hi : i < r.rows) (hl : l < r.rows) :
    Permutes r (r'.swapRows i l) := by
  obtain ⟨hrows, hcols, σ, hσ, hcell⟩ := h
  have hswap : ∀ x, Equiv.swap i l x < r.rows ↔ x < r.rows := fun x => by
    rw [Equiv.swap_apply_def]
    split_ifs with h1 h2
    · rw [h1]; exact iff_of_true hl hi
    · rw [h2]; exact iff_of_true hi hl
    · rfl
  refine ⟨hrows, hcols, (Equiv.swap i l).trans σ, fun x => (hσ _).trans (hswap x),
    fun x hx c hc => ?_⟩
  rw [cell_swapRows (hrows ▸ hi) (hrows ▸ hl) (hrows ▸ hx) (hcols ▸ hc),
    hcell _ ((hswap x).2 hx) c hc]
  rfl

theorem Permutes.swapIf (h : Permutes r r') (hi : i < r.rows) (hl : l < r.rows) :
    Permutes r (if i ≠ l then r'.swapRows i l else r') := by
  split_ifs
  · exact h.swapRows hi hl
  · exact h

theorem cell_swapIf (hi : i < r.rows) (hl : l < r.rows) (hrow : row < r.rows) (hc : c < r.cols) :
    (if i ≠ l then r.swapRows i l else r).cell row c = r.cell (Equiv.swap i l row) c := by
  split_ifs with h
  · exact cell_swapRows hi hl hrow hc
  · rw [not_not.1 h, Equiv.swap_self, Equiv.refl_apply]

theorem Permutes.distinct (h : Permutes r r') (hcol : col < r.cols) (hd : r.Distinct col) :
    r'.Distinct col := by
  obtain ⟨hrows, -, σ, hσ, hcell⟩ := h
  intro i hi j hj heq
  rw [hrows] at hi hj
  rw [hcell i hi col hcol, hcell j hj col hcol] at heq
  exact σ.injective (hd _ ((hσ i).2 hi) _ ((hσ j).2 hj) heq)

/-- The values in a column. -/
def values (r : FullResult) (col : ℕ) : Finset UInt64 := (Finset.range r.rows).image (r.cell · col)

theorem Permutes.values (h : Permutes r r') (hcol : col < r.cols) :
    r'.values col = r.values col := by
  obtain ⟨hrows, -, σ, hσ, hcell⟩ := h
  ext v
  simp only [FullResult.values, Finset.mem_image, Finset.mem_range, hrows]
  constructor
  · rintro ⟨i, hi, rfl⟩
    exact ⟨σ i, (hσ i).2 hi, (hcell i hi col hcol).symm⟩
  · rintro ⟨i, hi, rfl⟩
    have hi' : σ.symm i < r.rows := (hσ _).1 (by rwa [Equiv.apply_symm_apply])
    exact ⟨σ.symm i, hi', by rw [hcell _ hi' col hcol, Equiv.apply_symm_apply]⟩

end FullResult

/-! ## The loops -/

open FullResult

variable {r1 r2 : FullResult} {col i j : ℕ} {s : Grouping}

/-- After the first `i` rows of the first result: the rows in front agree, and the others of the
    first `i` agree with no row. -/
structure Grouped (r1 r2 : FullResult) (col i : ℕ) (s : Grouping) : Prop where
  perm1 : Permutes r1 s.r1
  perm2 : Permutes r2 s.r2
  le1 : s.l ≤ i
  le2 : s.l ≤ r2.rows
  same : ∀ x < s.l, s.r1.cell x col = s.r2.cell x col
  apart : ∀ x, s.l ≤ x → x < i → ∀ y < r2.rows, s.r1.cell x col ≠ s.r2.cell y col

/-- The results are grouped: their first `l` rows agree, one by one, in what they have in common. -/
structure IsGrouping (r1 r2 : FullResult) (col : ℕ) (s : Grouping) : Prop where
  perm1 : Permutes r1 s.r1
  perm2 : Permutes r2 s.r2
  count : s.l = (r1.values col ∩ r2.values col).card
  le1 : s.l ≤ r1.rows
  le2 : s.l ≤ r2.rows
  same : ∀ x < r1.rows, x < r2.rows → (s.r1.cell x col = s.r2.cell x col ↔ x < s.l)

section

variable (hc1 : col < r1.cols) (hc2 : col < r2.cols) (hd1 : r1.Distinct col) (hd2 : r2.Distinct col)

include hc1 hc2 hd1 hd2

omit hd2 in
/-- A match of the row that is looked for. -/
theorem Grouped.found (h : Grouped r1 r2 col i s) (hi : i < r1.rows) (hj : j < r2.rows)
    (heq : s.r1.cell i col = s.r2.cell j col) :
    Grouped r1 r2 col (i + 1) (s.compareRows col i j) ∧ (s.compareRows col i j).l ≤ j + 1 := by
  have hrows1 := h.perm1.1
  have hrows2 := h.perm2.1
  have hl1 : s.l < r1.rows := lt_of_le_of_lt h.le1 hi
  -- The rows in front of the second result agree with others of the first.
  have hlj : s.l ≤ j := by
    by_contra hlt
    push Not at hlt
    have := h.perm1.distinct hc1 hd1 i (hrows1 ▸ hi) j (by omega)
      (heq.trans (h.same j hlt).symm)
    have := h.le1
    omega
  have hcell1 : ∀ x < r1.rows, (if i ≠ s.l then s.r1.swapRows i s.l else s.r1).cell x col =
      s.r1.cell (Equiv.swap i s.l x) col := fun x hx =>
    cell_swapIf (hrows1 ▸ hi) (hrows1 ▸ hl1) (hrows1 ▸ hx) (h.perm1.2.1 ▸ hc1)
  have hcell2 : ∀ x < r2.rows, (if j ≠ s.l then s.r2.swapRows j s.l else s.r2).cell x col =
      s.r2.cell (Equiv.swap j s.l x) col := fun x hx =>
    cell_swapIf (hrows2 ▸ hj) (by omega) (hrows2 ▸ hx) (h.perm2.2.1 ▸ hc2)
  rw [Grouping.compareRows, if_pos heq]
  have hle1 := h.le1
  refine ⟨⟨h.perm1.swapIf hi hl1, h.perm2.swapIf hj (by omega), Nat.succ_le_succ h.le1,
    by dsimp only; omega, fun x hx => ?_, fun x hlx hxi y hy => ?_⟩, Nat.succ_le_succ hlj⟩
  · dsimp only at hx ⊢
    rw [hcell1 x (by omega), hcell2 x (by omega)]
    rcases Nat.lt_succ_iff_lt_or_eq.1 hx with hlt | rfl
    · rw [Equiv.swap_apply_of_ne_of_ne (by omega) (by omega),
        Equiv.swap_apply_of_ne_of_ne (by omega) (by omega)]
      exact h.same x hlt
    · rw [Equiv.swap_apply_right, Equiv.swap_apply_right]
      exact heq
  · dsimp only at hlx ⊢
    have hy' : Equiv.swap j s.l y < r2.rows := by
      rw [Equiv.swap_apply_def]
      split_ifs <;> omega
    rw [hcell1 x (by omega), hcell2 y hy]
    rcases eq_or_ne x i with rfl | hxi'
    · -- The row that came from the front of the first result.
      rw [Equiv.swap_apply_left]
      exact h.apart s.l le_rfl (by omega) _ hy'
    · rw [Equiv.swap_apply_of_ne_of_ne hxi' (by omega)]
      exact h.apart x (by omega) (by omega) _ hy'

/-- The loop over the second result, for a row of the first. -/
theorem Grouped.inner (h : Grouped r1 r2 col i s) (hi : i < r1.rows) :
    Grouped r1 r2 col (i + 1) ((range r2.rows).foldl (Grouping.compareRows col i) s) := by
  suffices hloop : ∀ n ≤ r2.rows, ∀ s', s' = (range n).foldl (Grouping.compareRows col i) s →
      (Grouped r1 r2 col i s' ∧ ∀ y < n, s'.r1.cell i col ≠ s'.r2.cell y col) ∨
        Grouped r1 r2 col (i + 1) s' ∧ s'.l ≤ n by
    rcases hloop _ le_rfl _ rfl with ⟨hg, hno⟩ | ⟨hg, -⟩
    · refine { hg with le1 := hg.le1.trans (Nat.le_succ i), apart := fun x hlx hxi y hy => ?_ }
      rcases Nat.lt_succ_iff_lt_or_eq.1 hxi with hlt | rfl
      · exact hg.apart x hlx hlt y hy
      · exact hno y hy
    · exact hg
  intro n
  induction n with
  | zero => exact fun _ s' hs' => .inl ⟨hs' ▸ h, fun y hy => absurd hy (Nat.not_lt_zero y)⟩
  | succ n ih =>
    intro hn s' hs'
    rw [range_succ, foldl_concat] at hs'
    rcases ih (by omega) _ rfl with ⟨hg, hno⟩ | ⟨hg, hl⟩
    · by_cases heq : ((range n).foldl (Grouping.compareRows col i) s).r1.cell i col =
          ((range n).foldl (Grouping.compareRows col i) s).r2.cell n col
      · exact hs' ▸ .inr (hg.found hc1 hc2 hd1 hi (by omega) heq)
      · rw [Grouping.compareRows, if_neg heq] at hs'
        refine .inl ⟨hs' ▸ hg, fun y hy => ?_⟩
        rw [hs']
        rcases Nat.lt_succ_iff_lt_or_eq.1 hy with hlt | rfl
        · exact hno y hlt
        · exact heq
    · generalize (range n).foldl (Grouping.compareRows col i) s = t at hg hl hs'
      -- The row was found before, and no other one agrees with what is in its place.
      have hne : t.r1.cell i col ≠ t.r2.cell n col := fun heq => by
        rcases Nat.lt_or_ge i t.l with hlt | hge
        · have hin := hg.perm2.distinct hc2 hd2 i (by rw [hg.perm2.1]; omega) n
            (by rw [hg.perm2.1]; omega) ((hg.same i hlt).symm.trans heq)
          omega
        · exact hg.apart i hge (Nat.lt_succ_self i) n (by omega) heq
      rw [Grouping.compareRows, if_neg hne] at hs'
      exact .inr ⟨hs' ▸ hg, by rw [hs']; omega⟩

/-- The two results have the same rows as before, in an order in which those with a common value are
    in front. -/
theorem groupResultsByCol_spec : IsGrouping r1 r2 col (groupResultsByCol r1 r2 col) := by
  have hloop : ∀ n ≤ r1.rows, Grouped r1 r2 col n ((range n).foldl
      (fun s i => (range r2.rows).foldl (Grouping.compareRows col i) s) ⟨r1, r2, 0⟩) := by
    intro n
    induction n with
    | zero =>
      exact fun _ => ⟨.refl r1, .refl r2, le_rfl, Nat.zero_le _,
        fun x hx => absurd hx (Nat.not_lt_zero x), fun x _ hx => absurd hx (Nat.not_lt_zero x)⟩
    | succ n ih =>
      intro hn
      rw [range_succ, foldl_concat]
      exact (ih (by omega)).inner hc1 hc2 hd1 hd2 (by omega)
  have h := hloop r1.rows le_rfl
  change Grouped r1 r2 col r1.rows (groupResultsByCol r1 r2 col) at h
  generalize groupResultsByCol r1 r2 col = s at h
  refine ⟨h.perm1, h.perm2, ?_, h.le1, h.le2, fun x hx hx' => ⟨fun heq => ?_, h.same x⟩⟩
  · have hle1 := h.le1
    have hle2 := h.le2
    have hcommon : r1.values col ∩ r2.values col = (Finset.range s.l).image (s.r1.cell · col) := by
      rw [← h.perm1.values hc1, ← h.perm2.values hc2]
      ext v
      simp only [values, Finset.mem_inter, Finset.mem_image, Finset.mem_range, h.perm1.1, h.perm2.1]
      constructor
      · rintro ⟨⟨x, hx, rfl⟩, y, hy, heq⟩
        refine ⟨x, ?_, rfl⟩
        by_contra hge
        exact h.apart x (by omega) hx y hy heq.symm
      · rintro ⟨x, hx, rfl⟩
        exact ⟨⟨x, by omega, rfl⟩, x, by omega, (h.same x hx).symm⟩
    rw [hcommon, Finset.card_image_of_injOn, Finset.card_range]
    intro x hx y hy heq
    rw [Finset.coe_range, Set.mem_Iio] at hx hy
    have hrows := h.perm1.1
    exact h.perm1.distinct hc1 hd1 x (by omega) y (by omega) heq
  · by_contra hge
    exact h.apart x (by omega) hx x hx' heq

end

theorem pair_fits : 2 * 1 < 2 ^ 32 := by decide

/-- A result of two rows and one column. -/
def FullResult.pair (x y : UInt64) : FullResult :=
    ⟨2, 1, fun a => if a = 0 then x else y, pair_fits⟩

/-- The second row of one result agrees with the first of the other. -/
theorem groupResultsByCol_spec_pairs : (groupResultsByCol (.pair 5 7) (.pair 7 9) 0).l = 1 ∧
      (groupResultsByCol (.pair 5 7) (.pair 7 9) 0).r1.cell 0 0 = 7 := by
  have hd1 : (FullResult.pair 5 7).Distinct 0 := by unfold Distinct; decide
  have hd2 : (FullResult.pair 7 9).Distinct 0 := by unfold Distinct; decide
  refine ⟨?_, by decide⟩
  rw [(groupResultsByCol_spec (by decide) (by decide) hd1 hd2).count]
  decide

end Pclsync.Diff
