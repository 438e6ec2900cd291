import Pclsync.PageCache.PartialSort

/-!
# Partitioning at an index

`psync_qpartition` (`plibs.c`) for an array of any length and a comparison that is a total preorder.

* `psyncQpartition_spec`: the first `sortFirst` elements are not greater than the others, when
  `sortFirst` is an index of the array. As the number of its elements it is right up to `QSORT_MTR`
  of them behind the first.
* `qpartition_leaves_array`: beyond that, `lo` can come to stand behind the last element, namely
  when the pivot is the greatest one: `hi-lo` is then below zero, and is used as a `size_t`.

`pq_rnd` gives the pivot in the example.
-/

namespace Pclsync.PageCache.PartialSort

open Partitioning Option List

/-! ## Random numbers -/

/-- The static variables of `pq_rnd`. -/
structure PqRnd where
  a : UInt32 := 0x95ae3d25
  b : UInt32 := 0xe225d755
  c : UInt32 := 0xc63a2ae7
  d : UInt32 := 0xe4556265

/-- `rot`. -/
def rot (x k : UInt32) : UInt32 := (x <<< k) ||| (x >>> (32 - k))

/-- `pq_rnd`; it returns `d`. -/
def PqRnd.next (s : PqRnd) : PqRnd :=
  let e := s.a - rot s.b 27
  let a := s.b ^^^ rot s.c 17
  let b := s.c + s.d
  let c := s.d + e
  { a := a, b := b, c := c, d := e + a }

/-- What the `n`-th call of `pq_rnd` returns, counted from 0. -/
def pqRnd (n : ℕ) : ℕ := ((Nat.iterate PqRnd.next (n + 1) {}).d).toNat

/-! ## An index behind the array -/

variable {α : Type*} {lt : α → α → Bool} {a : List α} {rank : α → ℕ} {rnd : List ℕ → ℕ}
  {lo hi sf n : ℕ}

/-- The ends of a short segment are left out, and the pivot is not one of them. -/
theorem exists_shortSegment (h : Ranks lt rank a) (hlo : lo + 3 ≤ hi) (hhi : hi < a.length)
    (hshort : hi - lo ≤ qsortMtr) (path : List ℕ) :
    ∃ b m, partitionSegment lt rnd path a lo hi = some (b, m) ∧ Rearranged lo hi a b ∧ lo < m ∧
      m < hi := by
  rw [partitionSegment, if_pos hshort]
  obtain ⟨b, x, y, z, hb, hre, hx, hy, hz, hxy, hyz⟩ :=
    exists_orderThree lo (lo + (hi - lo) / 2) hi h (by omega) (by omega) (by omega) hhi
  obtain ⟨c, m, hc, hre', hlom, hmhi, -⟩ := exists_hoare (lo + 1) (hi - 1) (l := lo + 1) (r := hi)
    (n := hi - lo + 2) (h.perm hre.perm) hy (by omega) (by omega) (by omega) (by omega)
    (by rw [hre.length]; omega) (by omega) (fun i v hil hilt _ => by omega)
    fun i v hri hih _ => by omega
  have hwide : Rearranged lo hi b c :=
    { perm := hre'.perm
      outside := fun i hi' => hre'.outside i (by omega)
      inside := fun i hil hih => by
        by_cases hin : lo + 1 ≤ i ∧ i ≤ hi - 1
        · obtain ⟨j, hjlo, hjhi, hj⟩ := hre'.inside i hin.1 hin.2
          exact ⟨j, by omega, by omega, hj⟩
        · exact ⟨i, hil, hih, hre'.outside i (by omega)⟩ }
  rw [hb, bind_some]
  exact ⟨c, m, hc, hre.trans hwide, by omega, by omega⟩

/-- In a short segment, going on behind the pivot comes to an end before the segment does. -/
theorem exists_qpartitionLoop_behind (h : Ranks lt rank a) (hlo : lo ≤ hi) (hsf : hi < sf)
    (hlen : hi < a.length) (hshort : hi - lo ≤ qsortMtr) (hn : hi < lo + n) :
    ∃ b, qpartitionLoop lt rnd sf n a lo hi = some b ∧ b.Perm a := by
  induction n generalizing a lo with
  | zero => omega
  | succ n ih =>
    rw [qpartitionLoop, if_neg (Nat.not_lt_of_le hlo)]
    by_cases hthree : hi - lo ≤ 2
    · rw [if_pos hthree]
      obtain ⟨b, x, y, z, hb, hre, -⟩ :=
        exists_orderThree lo (lo + (hi - lo) / 2) hi h (by omega) (by omega) (by omega) hlen
      exact ⟨b, hb, hre.perm⟩
    · rw [if_neg hthree]
      obtain ⟨b, m, hb, hre, hlom, hmhi⟩ :=
        @exists_shortSegment _ lt a _ rnd lo hi h (by omega) hlen hshort [n]
      obtain ⟨c, hc, hperm⟩ := ih (h.perm hre.perm) (by omega : m + 1 ≤ hi)
        (by rw [hre.length]; exact hlen) (by omega) (by omega)
      rw [hb, bind_some, if_pos (by omega)]
      exact ⟨c, hc, hperm.trans hre.perm⟩

/-! ## The result -/

/-- The first elements are not greater than those behind them. -/
def FirstSmallest (lt : α → α → Bool) (b : List α) (sortFirst : ℕ) : Prop :=
  ∀ x ∈ b.take sortFirst, ∀ y ∈ b.drop sortFirst, lt y x = false

theorem FirstSmallest.of_split {b : List α} (h : Ranks lt rank b) (hs : Split rank b sf) :
    FirstSmallest lt b sf := by
  intro x hx y hy
  obtain ⟨i, hi⟩ := getElem?_of_mem hx
  obtain ⟨j, hj⟩ := getElem?_of_mem hy
  have hisf : i < sf := by
    obtain ⟨hlt, -⟩ := List.getElem?_eq_some_iff.1 hi
    exact Nat.lt_of_lt_of_le hlt (length_take_le sf b)
  rw [getElem?_take_of_lt hisf] at hi
  rw [getElem?_drop] at hj
  have hle := hs i (sf + j) x y hisf (Nat.le_add_right sf j) hi hj
  refine eq_false_of_ne_true fun hlt => ?_
  have hyx := (h y (mem_of_getElem? hj) x (mem_of_getElem? hi)).1 hlt
  exact Nat.not_lt_of_le hle hyx

/-- An array is permuted so that its first elements are the smallest ones, whatever the pivots. -/
theorem psyncQpartition_spec (hlt : TotalPreorder lt) (rnd : List ℕ → ℕ) (a : List α)
    (sortFirst : ℕ)
    (hsf : sortFirst < a.length ∨ sortFirst = a.length ∧ a.length ≤ qsortMtr + 1) :
    ∃ b, psyncQpartition lt rnd a sortFirst = some b ∧ b.Perm a ∧
      FirstSmallest lt b sortFirst := by
  have hranks := hlt.ranks a
  by_cases hone : a.length ≤ 1
  · obtain ⟨b, hb, hperm, hsplit⟩ := exists_psyncQpartition sortFirst rnd hranks (.inr hone)
    refine ⟨b, hb, hperm, ?_⟩
    rcases hsf with hsf | ⟨rfl, -⟩
    · exact .of_split (hranks.perm hperm) (hsplit hsf)
    · intro x _ y hy
      rw [drop_eq_nil_of_le (Nat.le_of_eq hperm.length_eq)] at hy
      cases hy
  · rcases hsf with hsf | ⟨rfl, hshort⟩
    · obtain ⟨b, hb, hperm, hsplit⟩ := exists_psyncQpartition sortFirst rnd hranks (.inl hsf)
      exact ⟨b, hb, hperm, .of_split (hranks.perm hperm) (hsplit hsf)⟩
    · -- no element is behind the first ones
      obtain ⟨b, hb, hperm⟩ := @exists_qpartitionLoop_behind _ lt a _ rnd 0 (a.length - 1)
        a.length a.length hranks (Nat.zero_le _) (by omega) (by omega) (by omega) (by omega)
      refine ⟨b, ?_, hperm, fun x _ y hy => ?_⟩
      · rw [psyncQpartition, if_neg hone]
        exact hb
      · rw [drop_eq_nil_of_le (Nat.le_of_eq hperm.length_eq)] at hy
        cases hy

theorem totalPreorder_nat : TotalPreorder fun x y : ℕ => decide (x < y) where
  asymm x y h := by
    rw [decide_eq_true_eq] at h
    exact decide_eq_false (Nat.not_lt_of_lt h)
  trans x y z h h' := by
    rw [decide_eq_false_iff_not, Nat.not_lt] at h h'
    exact decide_eq_false (Nat.not_lt_of_le (Nat.le_trans h h'))

/-- Three of four elements are the smallest. -/
theorem psyncQpartition_four :
    ∃ b, psyncQpartition (fun x y : ℕ => decide (x < y)) (fun _ => 0) [4, 1, 3, 2] 3 = some b ∧
      b.Perm [4, 1, 3, 2] ∧ FirstSmallest (fun x y : ℕ => decide (x < y)) b 3 :=
  psyncQpartition_spec totalPreorder_nat _ _ _ (.inl (by decide))

/-- Zeros, and a one at index 66. -/
def oneAt66 : List ℕ := replicate 66 0 ++ 1 :: replicate 46 0

/-- The pivots of a call after 80 calls of `pq_rnd`. -/
def lateRnd (path : List ℕ) : ℕ := pqRnd (80 + path.headD 0)

/-- All 113 elements are to be the first ones: three of the five numbers choose the one, which gets
    to the end, and the next segment begins behind the array. -/
theorem qpartition_leaves_array : ¬ ∀ (lt : ℕ → ℕ → Bool) (rnd : List ℕ → ℕ) (a : List ℕ)
    (sortFirst : ℕ), TotalPreorder lt → sortFirst ≤ a.length →
      ∃ b, psyncQpartition lt rnd a sortFirst = some b ∧ b.Perm a ∧
        FirstSmallest lt b sortFirst := by
  intro h
  obtain ⟨b, hb, -⟩ := h (fun x y => decide (x < y)) lateRnd oneAt66 113 totalPreorder_nat
    (by decide)
  have hpivot : pqChoosePart (fun x y => decide (x < y)) lateRnd oneAt66 [112] 0 112 = some 66 := by
    rw [pqChoosePart, dif_neg (by decide)]
    decide +kernel
  have hmeet :
      (hoare (fun x y => decide (x < y)) 114 oneAt66 66 0 113).map Prod.snd = some 112 := by
    decide +kernel
  obtain ⟨⟨c, m⟩, hc, hm⟩ := map_eq_some_iff.1 hmeet
  have hm : m = 112 := hm
  subst hm
  have hsegment : partitionSegment (fun x y => decide (x < y)) lateRnd [112] oneAt66 0 112 =
      some (c, 112) := by
    rw [partitionSegment, if_neg (by decide)]
    exact (congrArg (Option.bind · _) hpivot).trans hc
  have hnone : psyncQpartition (fun x y => decide (x < y)) lateRnd oneAt66 113 = none := by
    rw [psyncQpartition, if_neg (by decide)]
    change qpartitionLoop _ _ _ (112 + 1) oneAt66 0 112 = none
    rw [qpartitionLoop, if_neg (by decide), if_neg (by decide), hsegment, bind_some,
      if_pos (show 112 < 113 by decide), qpartitionLoop, if_pos (show 112 < 112 + 1 by decide)]
  rw [hnone] at hb
  cases hb

end Pclsync.PageCache.PartialSort
