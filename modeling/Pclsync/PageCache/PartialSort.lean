import Mathlib.Algebra.Order.Ring.Nat
import Pclsync.Partitioning

/-!
# Partial sorting

`psync_qpartition` and `psync_pqsort` (`plibs.c`), on an array of elements which are compared by
`lt`, that is by `compar(..)<0`. Both partition segments of the array around a pivot, the middle one
of three for short segments and one chosen by random numbers for others. A read outside of the array
is `none`.

* `exists_psyncQpartition`: the first elements of the result are the smallest ones.
* `Pending.next`: what a partition in `psync_pqsort` leaves to be partitioned.
-/

namespace Pclsync.PageCache.PartialSort

open Partitioning Option List

variable {α : Type*} (lt : α → α → Bool)

/-! ## The code -/

/-- `QSORT_TRESH`. -/
def qsortTresh : ℕ := 8

/-- `QSORT_MTR`. -/
def qsortMtr : ℕ := 64

/-- `QSORT_REC_M`. -/
def qsortRecM : ℕ := 16 * 1024

/-- `compar(i, j)<0`. -/
def less (a : List α) (i j : ℕ) : Option Bool := a[i]?.bind fun x => a[j]?.map fun y => lt x y

/-- `i` and `j`, the other way round if `compar(j, i)<0`. -/
def ordered (a : List α) (i j : ℕ) : Option (ℕ × ℕ) :=
  (less lt a j i).map fun b => if b then (j, i) else (i, j)

/-- `med5`. -/
def med5 (a : List α) (i j k l m : ℕ) : Option ℕ :=
  (ordered lt a i j).bind fun p => (ordered lt a k l).bind fun q =>
    (less lt a p.1 q.1).bind fun b =>
      (if b then (ordered lt a m p.2).map fun p => (p, q)
        else (ordered lt a m q.2).map fun q => (p, q)).bind fun s =>
        (less lt a s.1.1 s.2.1).bind fun b =>
          let u := if b then s.1.2 else s.1.1
          let v := if b then s.2.1 else s.2.2
          (less lt a u v).map fun b => if b then u else v

/-- `pq_choose_part`; `rnd` are the values of `pq_rnd` in the calls of one run, named by `path`. -/
def pqChoosePart (rnd : List ℕ → ℕ) (a : List α) (path : List ℕ) (base cnt : ℕ) : Option ℕ :=
  if _ : qsortRecM ≤ cnt then
    (pqChoosePart rnd a (0 :: path) base (cnt / 5)).bind fun i =>
      (pqChoosePart rnd a (1 :: path) (base + cnt / 5) (cnt / 5)).bind fun j =>
        (pqChoosePart rnd a (2 :: path) (base + cnt / 5 * 2) (cnt / 5)).bind fun k =>
          (pqChoosePart rnd a (3 :: path) (base + cnt / 5 * 3) (cnt / 5)).bind fun l =>
            (pqChoosePart rnd a (4 :: path) (base + cnt / 5 * 4) (cnt / 5)).bind fun m =>
              med5 lt a i j k l m
  else
    med5 lt a (base + rnd (0 :: path) % cnt) (base + rnd (1 :: path) % cnt)
      (base + rnd (2 :: path) % cnt) (base + rnd (3 :: path) % cnt) (base + rnd (4 :: path) % cnt)
termination_by cnt
decreasing_by all_goals (unfold qsortRecM at *; omega)

/-- `if (compar(i, j)<0) pqsswap(i, j, size)`. -/
def swapIfLess (a : List α) (i j : ℕ) : Option (List α) :=
  (less lt a i j).map fun b => if b then Partitioning.swap a i j else a

/-- The elements at `lo`, `mid` and `hi` put in order. -/
def orderThree (a : List α) (lo mid hi : ℕ) : Option (List α) :=
  (swapIfLess lt a mid lo).bind fun a => (less lt a hi mid).bind fun b =>
    if b then swapIfLess lt (Partitioning.swap a mid hi) mid lo else some a

/-- The segment from `lo` to `hi` partitioned, and where the pivot is. -/
def partitionSegment (rnd : List ℕ → ℕ) (path : List ℕ) (a : List α) (lo hi : ℕ) :
    Option (List α × ℕ) :=
  if hi - lo ≤ qsortMtr then
    (orderThree lt a lo (lo + (hi - lo) / 2) hi).bind fun a =>
      hoare lt (hi - lo + 2) a (lo + (hi - lo) / 2) (lo + 1) hi
  else
    (pqChoosePart lt rnd a path lo (hi - lo)).bind fun mid =>
      hoare lt (hi - lo + 2) a mid lo (hi + 1)

/-- The loop of `psync_qpartition`, at most `n` times. -/
def qpartitionLoop (rnd : List ℕ → ℕ) (sf : ℕ) : ℕ → List α → ℕ → ℕ → Option (List α)
  | 0, _, _, _ => none
  | n + 1, a, lo, hi =>
    if hi < lo then none
    else if hi - lo ≤ 2 then orderThree lt a lo (lo + (hi - lo) / 2) hi
    else
      (partitionSegment lt rnd [n] a lo hi).bind fun p =>
        if p.2 < sf then qpartitionLoop rnd sf n p.1 (p.2 + 1) hi
        else if sf < p.2 then qpartitionLoop rnd sf n p.1 lo (p.2 - 1)
        else some p.1

/-- `psync_qpartition`. -/
def psyncQpartition (rnd : List ℕ → ℕ) (a : List α) (sortFirst : ℕ) : Option (List α) :=
  if a.length ≤ 1 then some a
  else qpartitionLoop lt rnd sortFirst a.length a 0 (a.length - 1)

/-- The loop of `psync_pqsort` over segments which are longer than `QSORT_TRESH`, at most `n`
    times. -/
def pqsortLoop (rnd : List ℕ → ℕ) (sf : ℕ) : ℕ → List α → ℕ → ℕ → List (ℕ × ℕ) → Option (List α)
  | 0, _, _, _, _ => none
  | n + 1, a, lo, hi, stack =>
    (partitionSegment lt rnd [n] a lo hi).bind fun p =>
      if hi - p.2 ≤ qsortTresh ∨ sf ≤ p.2 then
        if p.2 - lo ≤ qsortTresh then
          match stack with
          | [] => some p.1
          | s :: stack => pqsortLoop rnd sf n p.1 s.1 s.2 stack
        else pqsortLoop rnd sf n p.1 lo (p.2 - 1) stack
      else if p.2 - lo ≤ qsortTresh then pqsortLoop rnd sf n p.1 (p.2 + 1) hi stack
      else if hi - p.2 < p.2 - lo then
        pqsortLoop rnd sf n p.1 (p.2 + 1) hi ((lo, p.2 - 1) :: stack)
      else pqsortLoop rnd sf n p.1 lo (p.2 - 1) ((p.2 + 1, hi) :: stack)

/-- The index of the smallest element, of `lo` and the `n` indices from `l` on. -/
def minIndex (a : List α) : ℕ → ℕ → ℕ → Option ℕ
  | 0, _, lo => some lo
  | n + 1, l, lo => (less lt a l lo).bind fun b => minIndex a n (l + 1) (if b then l else lo)

/-- The element at index `l` moved to `lo`. -/
def moveTo (a : List α) (lo l : ℕ) : List α :=
  match a[l]? with
  | some x => (a.eraseIdx l).insertIdx lo x
  | none => a

/-- The insertion of the `n` elements from index `l` on. -/
def insertionLoop : ℕ → List α → ℕ → Option (List α)
  | 0, a, _ => some a
  | n + 1, a, l =>
    a[l]?.bind fun p => (scanDown lt a p l).bind fun lo =>
      insertionLoop n (if lo + 1 ≠ l then moveTo a (lo + 1) l else a) (l + 1)

/-- `psync_pqsort`. -/
def psyncPqsort (rnd : List ℕ → ℕ) (a : List α) (sortFirst : ℕ) : Option (List α) :=
  if a.length ≤ 1 then some a
  else
    (if qsortTresh < a.length then
      pqsortLoop lt rnd sortFirst a.length a 0 (a.length - 1) []
    else some a).bind fun a =>
      let hi := min (a.length - 1) (sortFirst + qsortTresh)
      (minIndex lt a (min qsortTresh hi) 1 0).bind fun lo =>
        insertionLoop lt (hi - 1) (Partitioning.swap a 0 lo) 2

/-! ## Choosing a pivot -/

variable {lt} {a b : List α} {i j k l m lo mid hi sf n : ℕ} {x y z : α} {rank : α → ℕ}
  {rnd : List ℕ → ℕ}

theorem less_eq (hx : a[i]? = some x) (hy : a[j]? = some y) : less lt a i j = some (lt x y) := by
  rw [less, hx, bind_some, hy, map_some]

section Median

variable {P : ℕ → Prop} (hP : ∀ i, P i → i < a.length)

include hP

variable (lt) in
theorem exists_less (hi : P i) (hj : P j) : ∃ b, less lt a i j = some b :=
  ⟨_, less_eq (getElem?_eq_getElem (hP i hi)) (getElem?_eq_getElem (hP j hj))⟩

variable (lt) in
theorem exists_ordered (hi : P i) (hj : P j) :
    ∃ p : ℕ × ℕ, ordered lt a i j = some p ∧ P p.1 ∧ P p.2 := by
  obtain ⟨b, hb⟩ := exists_less lt hP hj hi
  rw [ordered, hb, map_some]
  cases b
  · exact ⟨_, rfl, hi, hj⟩
  · exact ⟨_, rfl, hj, hi⟩

/-- The median of five indices is one of them. -/
theorem exists_med5 (hi : P i) (hj : P j) (hk : P k) (hl : P l) (hm : P m) :
    ∃ r, med5 lt a i j k l m = some r ∧ P r := by
  obtain ⟨p, hp, hp1, hp2⟩ := exists_ordered lt hP hi hj
  obtain ⟨q, hq, hq1, hq2⟩ := exists_ordered lt hP hk hl
  obtain ⟨b, hb⟩ := exists_less lt hP hp1 hq1
  obtain ⟨p', hp', hp'₁, hp'₂⟩ := exists_ordered lt hP hm hp2
  obtain ⟨q', hq', hq'₁, hq'₂⟩ := exists_ordered lt hP hm hq2
  have hfour : ∃ s : (ℕ × ℕ) × ℕ × ℕ, (if b then (ordered lt a m p.2).map fun p => (p, q)
        else (ordered lt a m q.2).map fun q => (p, q)) = some s ∧
        (P s.1.1 ∧ P s.1.2) ∧ P s.2.1 ∧ P s.2.2 := by
    cases b
    · exact ⟨(p, q'), by rw [if_neg Bool.false_ne_true, hq', map_some], ⟨hp1, hp2⟩,
        hq'₁, hq'₂⟩
    · exact ⟨(p', q), by rw [if_pos rfl, hp', map_some], ⟨hp'₁, hp'₂⟩, hq1, hq2⟩
  obtain ⟨s, hs, ⟨hs1, hs2⟩, hs3, hs4⟩ := hfour
  obtain ⟨c, hc⟩ := exists_less lt hP hs1 hs3
  rw [med5, hp, bind_some, hq, bind_some, hb, bind_some, hs, bind_some, hc, bind_some]
  cases c
  · obtain ⟨d, hd⟩ := exists_less lt hP hs1 hs4
    cases d
    · exact ⟨_, congrArg (Option.map _) hd, hs4⟩
    · exact ⟨_, congrArg (Option.map _) hd, hs1⟩
  · obtain ⟨d, hd⟩ := exists_less lt hP hs2 hs3
    cases d
    · exact ⟨_, congrArg (Option.map _) hd, hs3⟩
    · exact ⟨_, congrArg (Option.map _) hd, hs2⟩

end Median

/-- A pivot is chosen within the segment. -/
theorem exists_pqChoosePart (path : List ℕ) (base cnt : ℕ) (hcnt : 0 < cnt)
    (hlen : base + cnt ≤ a.length) :
    ∃ r, pqChoosePart lt rnd a path base cnt = some r ∧ base ≤ r ∧ r < base + cnt := by
  induction cnt using Nat.strongRecOn generalizing path base with
  | ind cnt ih =>
    have hP : ∀ i, base ≤ i ∧ i < base + cnt → i < a.length := fun i hi =>
      Nat.lt_of_lt_of_le hi.2 hlen
    rw [pqChoosePart]
    split
    · rename_i hbig
      have hbig : 16384 ≤ cnt := hbig
      have hpart : ∀ c path, c ≤ 4 → ∃ r,
          pqChoosePart lt rnd a path (base + cnt / 5 * c) (cnt / 5) = some r ∧
            base ≤ r ∧ r < base + cnt := by
        rintro c path hc
        have hmul : cnt / 5 * c ≤ cnt / 5 * 4 := Nat.mul_le_mul_left _ hc
        obtain ⟨r, hr, hle, hlt⟩ := ih (cnt / 5) (by omega) path (base + cnt / 5 * c) (by omega)
          (by omega)
        exact ⟨r, hr, by omega, by omega⟩
      obtain ⟨i, hi, hi'⟩ := hpart 0 (0 :: path) (by omega)
      obtain ⟨j, hj, hj'⟩ := hpart 1 (1 :: path) (by omega)
      obtain ⟨k, hk, hk'⟩ := hpart 2 (2 :: path) (by omega)
      obtain ⟨l, hl, hl'⟩ := hpart 3 (3 :: path) (by omega)
      obtain ⟨m, hm, hm'⟩ := hpart 4 (4 :: path) (by omega)
      rw [Nat.mul_zero, Nat.add_zero] at hi
      rw [Nat.mul_one] at hj
      rw [hi, bind_some, hj, bind_some, hk, bind_some, hl, bind_some, hm, bind_some]
      exact exists_med5 hP hi' hj' hk' hl' hm'
    · have hleaf : ∀ v, base ≤ base + v % cnt ∧ base + v % cnt < base + cnt := fun v =>
        ⟨Nat.le_add_right _ _, Nat.add_lt_add_left (Nat.mod_lt v hcnt) base⟩
      exact exists_med5 hP (hleaf _) (hleaf _) (hleaf _) (hleaf _) (hleaf _)

/-! ## One segment -/

/-- Three elements, at the ends of a segment and between them, in order. -/
structure InOrder (rank : α → ℕ) (a : List α) (lo mid hi : ℕ) (x y z : α) : Prop where
  first : a[lo]? = some x
  second : a[mid]? = some y
  third : a[hi]? = some z
  low : rank x ≤ rank y
  high : rank y ≤ rank z

theorem swapIfLess_eq (hx : a[i]? = some x) (hy : a[j]? = some y) :
    swapIfLess lt a i j = some (if lt x y then Partitioning.swap a i j else a) := by
  rw [swapIfLess, less_eq hx hy, map_some]

theorem exists_swapIfLess (h : Ranks lt rank a) (hilt : i < a.length) (hjlt : j < a.length)
    (hlo : lo ≤ j) (hji : j ≤ i) (hhi : i ≤ hi) :
    ∃ b x y, swapIfLess lt a i j = some b ∧ Rearranged lo hi a b ∧ b[j]? = some x ∧
      b[i]? = some y ∧ rank x ≤ rank y ∧ (∀ k, k ≠ i → k ≠ j → b[k]? = a[k]?) ∧
      ∀ w, rank a[i] ≤ w → rank a[j] ≤ w → rank x ≤ w ∧ rank y ≤ w := by
  have hx : a[i]? = some a[i] := getElem?_eq_getElem hilt
  have hy : a[j]? = some a[j] := getElem?_eq_getElem hjlt
  rw [swapIfLess_eq hx hy]
  by_cases hlt : lt a[i] a[j] = true
  · have hij : i ≠ j := by
      rintro rfl
      rw [h.irrefl (getElem_mem hilt)] at hlt
      cases hlt
    have hle := (h _ (getElem_mem hilt) _ (getElem_mem hjlt)).1 hlt
    have hget := getElem?_swap hx hy
    rw [if_pos hlt]
    refine ⟨_, a[i], a[j], rfl, .of_swap hx hy (by omega) hhi hlo (by omega), ?_, ?_,
      Nat.le_of_lt hle, fun k hki hkj => ?_, fun w hw hw' => ⟨hw, hw'⟩⟩
    · rw [hget, if_pos rfl]
    · rw [hget, if_neg hij, if_pos rfl]
    · rw [hget, if_neg hkj, if_neg hki]
  · rw [if_neg hlt]
    exact ⟨a, a[j], a[i], rfl, .refl _ _ _, hy, hx,
      h.le (getElem_mem hilt) (getElem_mem hjlt) (eq_false_of_ne_true hlt),
      fun _ _ _ => rfl, fun w hw hw' => ⟨hw', hw⟩⟩

theorem exists_orderThree (lo mid hi : ℕ) (h : Ranks lt rank a) (hlo : lo ≤ mid) (hmid : mid ≤ hi)
    (hmh : mid = hi → lo = hi) (hhi : hi < a.length) :
    ∃ b x y z, orderThree lt a lo mid hi = some b ∧ Rearranged lo hi a b ∧
      InOrder rank b lo mid hi x y z := by
  obtain ⟨b, x, y, hb, hre, hx, hy, hxy, hother, _⟩ :=
    exists_swapIfLess (i := mid) (j := lo) h (by omega) (by omega) (Nat.le_refl lo) hlo hmid
  obtain ⟨z, hz⟩ : ∃ z, b[hi]? = some z :=
    ⟨_, getElem?_eq_getElem (by rw [hre.length]; exact hhi)⟩
  rw [orderThree, hb, bind_some, less_eq hz hy, bind_some]
  by_cases hlt : lt z y = true
  · -- the middle one is the largest: it goes to the end, and the other two are compared again
    have hb' := h.perm hre.perm
    have hne : mid ≠ hi := by
      rintro rfl
      obtain rfl := some.inj (hz.symm.trans hy)
      rw [hb'.irrefl (mem_of_getElem? hz)] at hlt
      cases hlt
    have hzy := (hb' z (mem_of_getElem? hz) y (mem_of_getElem? hy)).1 hlt
    have hget := getElem?_swap hy hz
    have hre' : Rearranged lo hi b (Partitioning.swap b mid hi) :=
      .of_swap hy hz hlo hmid (by omega) (by omega)
    have hlen : (Partitioning.swap b mid hi).length = a.length := by rw [hre'.length, hre.length]
    have hmid' : (Partitioning.swap b mid hi)[mid]? = some z := by rw [hget, if_neg hne, if_pos rfl]
    have hlo' : ∃ v, (Partitioning.swap b mid hi)[lo]? = some v ∧ rank v ≤ rank y := by
      by_cases hlm : lo = mid
      · exact ⟨z, hlm ▸ hmid', Nat.le_of_lt hzy⟩
      · exact ⟨x, by rw [hget, if_neg (by omega), if_neg hlm, hx], hxy⟩
    obtain ⟨v, hv, hvy⟩ := hlo'
    obtain ⟨c, u, w, hc, hre'', hu, hw, huw, hother', hbound⟩ :=
      exists_swapIfLess (i := mid) (j := lo) (hb'.perm hre'.perm) (by omega) (by omega)
        (Nat.le_refl lo) hlo hmid
    rw [if_pos hlt]
    refine ⟨c, u, w, y, hc, (hre.trans hre').trans hre'', hu, hw, ?_, huw, ?_⟩
    · rw [hother' hi (by omega) (by omega), hget, if_pos rfl]
    · obtain ⟨hmlt, hme⟩ := List.getElem?_eq_some_iff.1 hmid'
      obtain ⟨hllt, hle⟩ := List.getElem?_eq_some_iff.1 hv
      exact (hbound (rank y) (by rw [hme]; exact Nat.le_of_lt hzy) (by rw [hle]; exact hvy)).2
  · rw [if_neg hlt]
    exact ⟨b, x, y, z, rfl, hre, hx, hy, hz, hxy,
      (h.perm hre.perm).le (mem_of_getElem? hz) (mem_of_getElem? hy)
        (eq_false_of_ne_true hlt)⟩

theorem exists_partitionSegment (h : Ranks lt rank a) (hlo : lo + 3 ≤ hi) (hhi : hi < a.length)
    (path : List ℕ) :
    ∃ b m p, partitionSegment lt rnd path a lo hi = some (b, m) ∧ Rearranged lo hi a b ∧ lo ≤ m ∧
      m ≤ hi ∧ b[m]? = some p ∧ (∀ i x, lo ≤ i → i ≤ m → b[i]? = some x → rank x ≤ rank p) ∧
      ∀ i x, m ≤ i → i ≤ hi → b[i]? = some x → rank p ≤ rank x := by
  rw [partitionSegment]
  split
  · obtain ⟨b, x, y, z, hb, hre, hx, hy, hz, hxy, hyz⟩ :=
      exists_orderThree lo (lo + (hi - lo) / 2) hi h (by omega) (by omega)
        (by omega) hhi
    obtain ⟨c, m, hc, hre', hrest⟩ := exists_hoare lo hi (l := lo + 1) (r := hi)
      (n := hi - lo + 2) (h.perm hre.perm) hy (by omega) (by omega) (by omega) (by omega)
      (by rw [hre.length]; exact hhi) (by omega)
      (fun i v hil hilt hv => by
        obtain rfl : i = lo := by omega
        obtain rfl := some.inj (hv.symm.trans hx)
        exact hxy)
      fun i v hri hih hv => by
        obtain rfl : i = hi := by omega
        obtain rfl := some.inj (hv.symm.trans hz)
        exact hyz
    rw [hb, bind_some]
    exact ⟨c, m, y, hc, hre.trans hre', hrest⟩
  · obtain ⟨mid, hmid, hle, hlt⟩ := @exists_pqChoosePart _ lt a rnd path lo
      (hi - lo) (by omega) (by omega)
    obtain ⟨b, m, hb, hre, hrest⟩ := exists_hoare lo hi (l := lo) (r := hi + 1)
      (n := hi - lo + 2) h (getElem?_eq_getElem (by omega : mid < a.length)) (Nat.le_refl lo)
      hle (by omega) (Nat.le_refl _) hhi (by omega) (fun i x hil hilt => by omega)
      fun i x hri hih => by omega
    rw [hmid, bind_some]
    exact ⟨b, m, _, hb, hre, hrest⟩

/-- An array is split before and behind the pivot. -/
theorem split_at_pivot (hs : Split rank a lo) (hs' : Split rank a (hi + 1)) (hk : k = m ∨ k = m + 1)
    (hlo : lo ≤ m) (hhi : m ≤ hi)
    (hlow : ∀ i x, lo ≤ i → i ≤ m → a[i]? = some x → rank x ≤ rank y)
    (hhigh : ∀ i x, m ≤ i → i ≤ hi → a[i]? = some x → rank y ≤ rank x) : Split rank a k := by
  rintro i j x z hik hkj hx hz
  rcases Nat.lt_or_ge i lo with hil | hil
  · exact hs i j x z hil (by omega) hx hz
  · rcases Nat.lt_or_ge hi j with hjh | hjh
    · exact hs' i j x z (by omega) hjh hx hz
    · exact Nat.le_trans (hlow i x hil (by omega) hx) (hhigh j z (by omega) hjh hz)

/-- A segment is partitioned, in an array which is split at its ends. -/
theorem exists_pivot (h : Ranks lt rank a) (hlo : lo + 3 ≤ hi) (hhi : hi < a.length)
    (hs : Split rank a lo) (hs' : Split rank a (hi + 1)) (path : List ℕ) :
    ∃ b m, partitionSegment lt rnd path a lo hi = some (b, m) ∧ Rearranged lo hi a b ∧ lo ≤ m ∧
      m ≤ hi ∧ Split rank b m ∧ Split rank b (m + 1) ∧ Split rank b lo ∧ Split rank b (hi + 1) := by
  obtain ⟨b, m, p, hb, hre, hlom, hmhi, _, hlow, hhigh⟩ :=
    @exists_partitionSegment _ lt a _ _ _ rnd h hlo hhi path
  have hsb := hs.rearranged hre (.inl (Nat.le_refl lo))
  have hsb' := hs'.rearranged hre (.inr (Nat.lt_succ_self hi))
  exact ⟨b, m, hb, hre, hlom, hmhi, split_at_pivot hsb hsb' (.inl rfl) hlom hmhi hlow hhigh,
    split_at_pivot hsb hsb' (.inr rfl) hlom hmhi hlow hhigh, hsb, hsb'⟩

/-! ## The smallest elements -/

/-- Nothing stands before the first index. -/
theorem split_zero : Split rank a 0 := fun i _ _ _ hi => absurd hi (Nat.not_lt_zero i)

theorem split_of_length_le (hk : a.length ≤ k) : Split rank a k := fun _ j _ _ _ hj _ hy => by
  rw [getElem?_eq_none (Nat.le_trans hk hj)] at hy
  cases hy

theorem split_of_inOrder (hs : Split rank a lo) (hs' : Split rank a (hi + 1)) (hlo : lo ≤ k)
    (hhi : k ≤ hi) (hn : hi - lo ≤ 2) (ho : InOrder rank a lo (lo + (hi - lo) / 2) hi x y z) :
    Split rank a k := by
  have hrank : ∀ i u, lo ≤ i → i ≤ hi → a[i]? = some u →
      (i = lo ∧ u = x) ∨ (i = lo + (hi - lo) / 2 ∧ u = y) ∨ (i = hi ∧ u = z) := by
    rintro i u hil hih hu
    rcases (by omega : i = lo ∨ i = lo + (hi - lo) / 2 ∨ i = hi) with hi' | hi' | hi'
    · exact .inl ⟨hi', some.inj ((hi' ▸ hu).symm.trans ho.first)⟩
    · exact .inr (.inl ⟨hi', some.inj ((hi' ▸ hu).symm.trans ho.second)⟩)
    · exact .inr (.inr ⟨hi', some.inj ((hi' ▸ hu).symm.trans ho.third)⟩)
  have hxy := ho.low
  have hyz := ho.high
  rintro i j u v hik hkj hu hv
  rcases Nat.lt_or_ge i lo with hil | hil
  · exact hs i j u v hil (by omega) hu hv
  · rcases Nat.lt_or_ge hi j with hjh | hjh
    · exact hs' i j u v (by omega) hjh hu hv
    · rcases hrank i u hil (by omega) hu with ⟨hi1, rfl⟩ | ⟨hi1, rfl⟩ | ⟨hi1, rfl⟩ <;>
        rcases hrank j v (by omega) hjh hv with ⟨hj1, rfl⟩ | ⟨hj1, rfl⟩ | ⟨hj1, rfl⟩ <;> omega

theorem exists_qpartitionLoop (h : Ranks lt rank a) (hlo : lo ≤ sf) (hhi : sf ≤ hi)
    (hlen : hi < a.length) (hs : Split rank a lo) (hs' : Split rank a (hi + 1))
    (hn : hi < lo + n) :
    ∃ b, qpartitionLoop lt rnd sf n a lo hi = some b ∧ b.Perm a ∧ Split rank b sf := by
  induction n generalizing a lo hi with
  | zero => omega
  | succ n ih =>
    rw [qpartitionLoop, if_neg (by omega)]
    split
    · rename_i hn
      obtain ⟨b, x, y, z, hb, hre, ho⟩ := exists_orderThree lo (lo + (hi - lo) / 2) hi h (by omega)
        (by omega) (by omega) hlen
      exact ⟨b, hb, hre.perm, split_of_inOrder (hs.rearranged hre (.inl (Nat.le_refl lo)))
        (hs'.rearranged hre (.inr (Nat.lt_succ_self hi))) hlo hhi hn ho⟩
    · rename_i hn
      obtain ⟨b, m, hb, hre, hlom, hmhi, hm, hm', hsb, hsb'⟩ :=
        @exists_pivot _ lt a lo hi _ rnd h (by omega) hlen hs hs' [n]
      have hblen := hre.length
      rw [hb, bind_some]
      split
      · rename_i hmsf
        obtain ⟨c, hc, hperm, hsplit⟩ := ih (h.perm hre.perm) (hmsf : m + 1 ≤ sf) hhi
          (by rw [hblen]; exact hlen) hm' hsb' (by omega)
        exact ⟨c, hc, hperm.trans hre.perm, hsplit⟩
      · rename_i hmsf
        split
        · rename_i hsfm
          have hm1 : m - 1 + 1 = m := by omega
          obtain ⟨c, hc, hperm, hsplit⟩ := ih (h.perm hre.perm) hlo (by omega : sf ≤ m - 1)
            (by omega) hsb (by rwa [hm1]) (by omega)
          exact ⟨c, hc, hperm.trans hre.perm, hsplit⟩
        · rename_i hsfm
          obtain rfl : m = sf := by omega
          exact ⟨b, rfl, hre.perm, hm⟩

variable (rnd sf) in
/-- The first elements of the result are the smallest ones. -/
theorem exists_psyncQpartition (h : Ranks lt rank a) (hsf : sf < a.length ∨ a.length ≤ 1) :
    ∃ b, psyncQpartition lt rnd a sf = some b ∧ b.Perm a ∧ (sf < a.length → Split rank b sf) := by
  rw [psyncQpartition]
  split
  · rename_i hlen
    refine ⟨a, rfl, .refl a, fun hlt => ?_⟩
    obtain rfl : sf = 0 := by omega
    exact split_zero
  · rename_i hlen
    obtain ⟨b, hb, hperm, hsplit⟩ := @exists_qpartitionLoop _ lt a 0 (a.length - 1) sf a.length _
      rnd h (Nat.zero_le sf) (by omega) (by omega) split_zero (split_of_length_le (by omega))
      (by omega)
    exact ⟨b, hb, hperm, fun _ => hsplit⟩

/-! ## Sorting -/

/-- The segments which are still to be partitioned; the first one begins the array, unless a pivot
    is among its first elements. -/
structure Pending (rank : α → ℕ) (a : List α) (segments : List (ℕ × ℕ)) : Prop where
  long : ∀ s ∈ segments, s.1 + qsortTresh ≤ s.2 ∧ s.2 < a.length
  split : ∀ s ∈ segments, Split rank a s.1 ∧ Split rank a (s.2 + 1)
  disjoint : segments.Pairwise fun s t => s.2 < t.1 ∨ t.2 < s.1
  first : (∃ m ≤ qsortTresh, Split rank a (m + 1) ∧ ∀ s ∈ segments, m < s.1) ∨
    ∃ s ∈ segments, s.1 = 0

/-- How many elements the segments have. -/
def total (segments : List (ℕ × ℕ)) : ℕ := (segments.map fun s => s.2 + 1 - s.1).sum

variable {stack : List (ℕ × ℕ)}

theorem total_cons (s : ℕ × ℕ) : total (s :: stack) = s.2 + 1 - s.1 + total stack := rfl

/-- A segment is replaced by the long ones of the two next to its pivot, of which the right one may
    be left out. -/
theorem Pending.next (front : List (ℕ × ℕ)) (hp : Pending rank a ((lo, hi) :: stack))
    (hre : Rearranged lo hi a b) (hlom : lo ≤ m) (hmhi : m ≤ hi) (hm : Split rank b m)
    (hm' : Split rank b (m + 1))
    (hfront : ∀ s ∈ front, (s = (lo, m - 1) ∧ qsortTresh < m - lo) ∨
      (s = (m + 1, hi) ∧ qsortTresh < hi - m))
    (hdis : front.Pairwise fun s t => s.2 < t.1 ∨ t.2 < s.1)
    (hleft : qsortTresh < m - lo → (lo, m - 1) ∈ front) : Pending rank b (front ++ stack) := by
  have htresh : qsortTresh = 8 := rfl
  obtain ⟨hlong, hhi⟩ := hp.long (lo, hi) mem_cons_self
  have hrange : ∀ s ∈ front, lo ≤ s.1 ∧ s.2 ≤ hi := by
    rintro s hs
    rcases hfront s hs with ⟨rfl, hlt⟩ | ⟨rfl, hlt⟩
    · exact ⟨Nat.le_refl lo, (by omega : m - 1 ≤ hi)⟩
    · exact ⟨(by omega : lo ≤ m + 1), Nat.le_refl hi⟩
  have hstack : ∀ s ∈ stack, (hi < s.1 ∨ s.2 < lo) ∧ s.1 + qsortTresh ≤ s.2 := fun s hs =>
    ⟨rel_of_pairwise_cons hp.disjoint hs, (hp.long s (mem_cons_of_mem _ hs)).1⟩
  constructor
  · rintro s hs
    rw [hre.length]
    rcases mem_append.1 hs with hs | hs
    · rcases hfront s hs with ⟨rfl, hlt⟩ | ⟨rfl, hlt⟩
      · exact ⟨(by omega : lo + qsortTresh ≤ m - 1), (by omega : m - 1 < a.length)⟩
      · exact ⟨(by omega : m + 1 + qsortTresh ≤ hi), hhi⟩
    · exact hp.long s (mem_cons_of_mem _ hs)
  · rintro s hs
    rcases mem_append.1 hs with hs | hs
    · obtain ⟨hs1, hs2⟩ := hp.split (lo, hi) mem_cons_self
      rcases hfront s hs with ⟨rfl, hlt⟩ | ⟨rfl, hlt⟩
      · have hpos : m - 1 + 1 = m := by omega
        exact ⟨hs1.rearranged hre (.inl (Nat.le_refl lo)), hpos.symm ▸ hm⟩
      · exact ⟨hm', hs2.rearranged hre (.inr (Nat.lt_succ_self hi))⟩
    · obtain ⟨hs1, hs2⟩ := hp.split s (mem_cons_of_mem _ hs)
      obtain ⟨hside, hlen⟩ := hstack s hs
      exact ⟨hs1.rearranged hre (by omega), hs2.rearranged hre (by omega)⟩
  · refine pairwise_append.2 ⟨hdis, (pairwise_cons.1 hp.disjoint).2, fun s hs t ht => ?_⟩
    obtain ⟨hs1, hs2⟩ := hrange s hs
    obtain ⟨hside, _⟩ := hstack t ht
    omega
  · rcases hp.first with ⟨v, hv, hsplit, hbefore⟩ | ⟨s, hs, hzero⟩
    · have hvlo : v < lo := hbefore (lo, hi) mem_cons_self
      refine .inl ⟨v, hv, hsplit.rearranged hre (.inl hvlo), fun s hs => ?_⟩
      rcases mem_append.1 hs with hs | hs
      · exact Nat.lt_of_lt_of_le hvlo (hrange s hs).1
      · exact hbefore s (mem_cons_of_mem _ hs)
    · rcases mem_cons.1 hs with rfl | hs
      · -- the segment at the beginning of the array
        have hzero : lo = 0 := hzero
        by_cases hlt : qsortTresh < m - lo
        · exact .inr ⟨_, mem_append_left _ (hleft hlt), hzero⟩
        · refine .inl ⟨m, by omega, hm', fun t ht => ?_⟩
          rcases mem_append.1 ht with ht | ht
          · rcases hfront t ht with ⟨rfl, hlt'⟩ | ⟨rfl, _⟩
            · exact absurd hlt' hlt
            · exact Nat.lt_succ_self m
          · have hside := (hstack t ht).1
            omega
      · exact .inr ⟨s, mem_append_right _ hs, hzero⟩

/-- The smallest of the elements looked at. -/
theorem exists_minIndex (h : Ranks lt rank a) (hlo : a[lo]? = some x) (hl : l + n ≤ a.length) :
    ∃ m y, minIndex lt a n l lo = some m ∧ a[m]? = some y ∧ rank y ≤ rank x ∧
      ∀ i z, l ≤ i → i < l + n → a[i]? = some z → rank y ≤ rank z := by
  induction n generalizing l lo x with
  | zero => exact ⟨lo, x, rfl, hlo, Nat.le_refl _, fun i z hli hil => absurd hil (by omega)⟩
  | succ n ih =>
    have hx : x ∈ a := mem_of_getElem? hlo
    have hget : a[l]? = some a[l] := getElem?_eq_getElem (by omega)
    have hmem : a[l] ∈ a := getElem_mem (by omega)
    have hstep : ∃ v, a[if lt a[l] x then l else lo]? = some v ∧ rank v ≤ rank x ∧
        rank v ≤ rank a[l] := by
      by_cases hlt : lt a[l] x = true
      · rw [if_pos hlt]
        exact ⟨_, hget, Nat.le_of_lt ((h _ hmem x hx).1 hlt), Nat.le_refl _⟩
      · rw [if_neg hlt]
        exact ⟨x, hlo, Nat.le_refl _, h.le hmem hx (eq_false_of_ne_true hlt)⟩
    obtain ⟨v, hv, hvx, hvl⟩ := hstep
    obtain ⟨m, y, hm, hy, hyv, hall⟩ := ih (l := l + 1) hv (by omega)
    rw [minIndex, less_eq hget hlo, bind_some]
    refine ⟨m, y, hm, hy, Nat.le_trans hyv hvx, fun i z hli hil hz => ?_⟩
    rcases Nat.eq_or_lt_of_le hli with rfl | hli
    · rw [← some.inj (hget.symm.trans hz)]
      exact Nat.le_trans hyv hvl
    · exact hall i z hli (by omega) hz

theorem moveTo_perm (hx : a[l]? = some x) (hlo : lo ≤ l) : (moveTo a lo l).Perm a := by
  obtain ⟨hlt, rfl⟩ := List.getElem?_eq_some_iff.1 hx
  rw [moveTo, hx]
  have hlen : lo ≤ (a.eraseIdx l).length := by
    rw [length_eraseIdx_of_lt hlt]
    omega
  exact (perm_insertIdx _ _ hlen).trans (getElem_cons_eraseIdx_perm hlt)

end Pclsync.PageCache.PartialSort
