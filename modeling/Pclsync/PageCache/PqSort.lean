import Pclsync.PageCache.Selection

/-!
# Sorting the first elements

`psync_pqsort` (`plibs.c`) for an array at any address, of any length, with elements of any size and
a comparison that is a total preorder. Pointers are 64-bit numbers, and the partitions that are
postponed are kept in an array of 64 of them.

The loop is followed with three invariants on the segments which are still to be partitioned:

* `Pending`: the array is split at their ends, and its least element is found among the first ones;
* `Halving`: of `k` segments which are postponed at most a part of `2 ^ k` of the array is ahead,
  because the larger half is the one that is postponed;
* `Cut`: the place of `sort_first` is in one of them, or the array is split close behind it.

The insertion sort then puts the elements up to this cut in order (`exists_insertionLoop_sorted`).
`psyncPqsort_spec` is the result, when no pointer wraps; `pqsort_wraps` shows one that does.
-/

namespace Pclsync.PageCache.PqSort

open Partitioning PartialSort Option List

/-! ## The code -/

/-- Where an array is. -/
structure Place where
  base : ℕ
  size : ℕ
  size_pos : 0 < size

/-- The address of an element. -/
def Place.addr (p : Place) (i : ℕ) : ℕ := p.base + i * p.size

/-- The value of a pointer. -/
def pointer (address : ℕ) : ℕ := address % 2 ^ 64

/-- `sizeof(size_t)*8`. -/
def stackSize : ℕ := 64

variable {α : Type*} (lt : α → α → Bool) (p : Place) (rnd : List ℕ → ℕ)

/-- `top->lo=..; top->hi=..; top++`, where `top` is one behind the segments that are postponed. -/
def push (stack : List (ℕ × ℕ)) (s : ℕ × ℕ) : Option (List (ℕ × ℕ)) :=
  if stack.length + 1 < stackSize then some (s :: stack) else none

/-- The loop of `psync_pqsort` over segments, at most `n` times; `sf` is a pointer. -/
def sortLoop (sf : ℕ) : ℕ → List α → ℕ → ℕ → List (ℕ × ℕ) → Option (List α)
  | 0, _, _, _, _ => none
  | n + 1, a, lo, hi, stack =>
    (partitionSegment lt rnd [n] a lo hi).bind fun q =>
      if hi - q.2 ≤ qsortTresh ∨ sf ≤ p.addr q.2 then
        if q.2 - lo ≤ qsortTresh then
          match stack with
          | [] => some q.1
          | s :: stack => sortLoop sf n q.1 s.1 s.2 stack
        else sortLoop sf n q.1 lo (q.2 - 1) stack
      else if q.2 - lo ≤ qsortTresh then sortLoop sf n q.1 (q.2 + 1) hi stack
      else if hi - q.2 < q.2 - lo then
        (push stack (lo, q.2 - 1)).bind fun stack => sortLoop sf n q.1 (q.2 + 1) hi stack
      else
        (push stack (q.2 + 1, hi)).bind fun stack => sortLoop sf n q.1 lo (q.2 - 1) stack

/-- The number of elements behind the first one, up to a pointer. -/
def Place.upTo (p : Place) (address : ℕ) : ℕ := (address - p.base) / p.size

/-- `psync_pqsort`. -/
def psyncPqsort (a : List α) (sortFirst : ℕ) : Option (List α) :=
  let sf := pointer (p.base + sortFirst * p.size)
  if a.length ≤ 1 then some a
  else
    (if qsortTresh < a.length then sortLoop lt p rnd sf a.length a 0 (a.length - 1) []
    else some a).bind fun a =>
      let sf := pointer (sf + p.size * qsortTresh)
      let hi := min (p.addr (a.length - 1)) sf
      let r := min (pointer (p.base + qsortTresh * p.size + 4)) hi
      (minIndex lt a (p.upTo r) 1 0).bind fun lo =>
        -- from here on, one element less than up to `hi` is behind the one that is looked at
        insertionLoop lt (p.upTo (pointer (hi + (2 ^ 64 - p.size)))) (Partitioning.swap a 0 lo) 2

/-! ## One partition -/

/-- The segments which a partition leaves, those that are partitioned first before the others. -/
def front (sf lo hi m : ℕ) : List (ℕ × ℕ) :=
  if hi - m ≤ qsortTresh ∨ sf ≤ m then
    if m - lo ≤ qsortTresh then [] else [(lo, m - 1)]
  else if m - lo ≤ qsortTresh then [(m + 1, hi)]
  else if hi - m < m - lo then [(m + 1, hi), (lo, m - 1)]
  else [(lo, m - 1), (m + 1, hi)]

/-- The loop goes on with the first one of the segments. -/
def goOn (loop : List α → ℕ → ℕ → List (ℕ × ℕ) → Option (List α)) (a : List α) :
    List (ℕ × ℕ) → Option (List α)
  | [] => some a
  | s :: stack => loop a s.1 s.2 stack

variable {lt p rnd} {a b : List α} {rank : α → ℕ} {i j k l lo hi m n sf cnt : ℕ} {x y : α}
  {stack segments : List (ℕ × ℕ)}

theorem addr_le_addr : p.addr i ≤ p.addr j ↔ i ≤ j := by
  rw [Place.addr, Place.addr, Nat.add_le_add_iff_left]
  exact Nat.mul_le_mul_right_iff p.size_pos

theorem push_eq (h : stack.length + 1 < stackSize) (s : ℕ × ℕ) : push stack s = some (s :: stack) :=
  if_pos h

theorem sortLoop_succ (h : stack.length + 1 < stackSize) :
    sortLoop lt p rnd (p.addr sf) (n + 1) a lo hi stack =
      (partitionSegment lt rnd [n] a lo hi).bind fun q =>
        goOn (sortLoop lt p rnd (p.addr sf) n) q.1 (front sf lo hi q.2 ++ stack) := by
  rw [sortLoop]
  congr 1
  funext q
  simp only [addr_le_addr, front, push_eq h, bind_some]
  split_ifs
  · cases stack <;> rfl
  all_goals rfl

/-- The loop without the bound on the stack goes on with the same segments. -/
theorem pqsortLoop_succ : pqsortLoop lt rnd sf (n + 1) a lo hi stack =
    (partitionSegment lt rnd [n] a lo hi).bind fun q =>
      goOn (pqsortLoop lt rnd sf n) q.1 (front sf lo hi q.2 ++ stack) := by
  rw [pqsortLoop]
  congr 1
  funext q
  simp only [front]
  split_ifs
  · cases stack <;> rfl
  all_goals rfl

theorem mem_front {s : ℕ × ℕ} (hs : s ∈ front sf lo hi m) :
    (s = (lo, m - 1) ∧ qsortTresh < m - lo) ∨ (s = (m + 1, hi) ∧ qsortTresh < hi - m ∧ m < sf) := by
  rw [front] at hs
  split_ifs at hs with hright hleft hleft hhalf
  · cases hs
  · exact .inl ⟨mem_singleton.1 hs, by omega⟩
  · exact .inr ⟨mem_singleton.1 hs, by omega, by omega⟩
  · rcases mem_pair.1 hs with hs | hs
    · exact .inr ⟨hs, by omega, by omega⟩
    · exact .inl ⟨hs, by omega⟩
  · rcases mem_pair.1 hs with hs | hs
    · exact .inl ⟨hs, by omega⟩
    · exact .inr ⟨hs, by omega, by omega⟩

theorem left_mem_front (h : qsortTresh < m - lo) : (lo, m - 1) ∈ front sf lo hi m := by
  rw [front]
  split_ifs <;> first | omega | simp

theorem right_mem_front (h : qsortTresh < hi - m) (hsf : m < sf) :
    (m + 1, hi) ∈ front sf lo hi m := by
  rw [front]
  split_ifs <;> first | omega | simp

theorem pairwise_front : (front sf lo hi m).Pairwise fun s t => s.2 < t.1 ∨ t.2 < s.1 := by
  rw [front]
  split_ifs with hright hleft
  · exact .nil
  · exact pairwise_singleton _ _
  · exact pairwise_singleton _ _
  · refine pairwise_pair.2 (.inr ?_)
    change m - 1 < m + 1
    omega
  · refine pairwise_pair.2 (.inl ?_)
    change m - 1 < m + 1
    omega

theorem total_front (hlo : lo ≤ m) (hhi : m ≤ hi) :
    total (front sf lo hi m ++ stack) < hi + 1 - lo + total stack := by
  have hsum : total (front sf lo hi m) ≤ hi - lo := by
    rw [front]
    split_ifs <;> simp only [total, map_cons, map_nil, sum_cons, sum_nil] <;>
      omega
  have happ : total (front sf lo hi m ++ stack) = total (front sf lo hi m) + total stack := by
    rw [total, map_append, sum_append]
    rfl
  omega

/-! ## Segments that are postponed -/

/-- Of `k` segments behind one, it has at most a part of `2 ^ k` of the array. -/
def Halving (cnt : ℕ) : List (ℕ × ℕ) → Prop
  | [] => True
  | s :: stack => (s.2 + 1 - s.1) * 2 ^ stack.length ≤ cnt ∧ Halving cnt stack

theorem Halving.front (h : Halving cnt ((lo, hi) :: stack)) (hlo : lo ≤ m) (hhi : m ≤ hi) :
    Halving cnt (front sf lo hi m ++ stack) := by
  obtain ⟨hsize, hstack⟩ := h
  have hpow : 0 < 2 ^ stack.length := Nat.two_pow_pos _
  have hpart : ∀ c, c ≤ hi + 1 - lo → c * 2 ^ stack.length ≤ cnt := fun c hc =>
    Nat.le_trans (Nat.mul_le_mul_right _ hc) hsize
  -- the smaller half is ahead of the one that is postponed
  have hhalf : ∀ c, 2 * c ≤ hi + 1 - lo → c * 2 ^ (stack.length + 1) ≤ cnt := fun c hc => by
    rw [Nat.pow_succ, Nat.mul_comm _ 2, ← Nat.mul_assoc, Nat.mul_comm c 2]
    exact hpart _ hc
  rw [PqSort.front]
  split_ifs
  · exact hstack
  · exact ⟨hpart (m - 1 + 1 - lo) (by omega), hstack⟩
  · exact ⟨hpart (hi + 1 - (m + 1)) (by omega), hstack⟩
  · exact ⟨hhalf (hi + 1 - (m + 1)) (by omega), hpart (m - 1 + 1 - lo) (by omega), hstack⟩
  · exact ⟨hhalf (m - 1 + 1 - lo) (by omega), hpart (hi + 1 - (m + 1)) (by omega), hstack⟩

theorem Halving.room (h : Halving cnt ((lo, hi) :: stack)) (hlong : lo + qsortTresh ≤ hi)
    (hcnt : cnt < 2 ^ 64) : stack.length + 1 < stackSize := by
  obtain ⟨hsize, -⟩ := h
  have htresh : qsortTresh = 8 := rfl
  have height : 2 ^ 3 ≤ hi + 1 - lo := by omega
  have hpow : 2 ^ (3 + stack.length) < 2 ^ 64 := by
    rw [Nat.pow_add]
    exact Nat.lt_of_le_of_lt (Nat.mul_le_mul_right _ height) (Nat.lt_of_le_of_lt hsize hcnt)
  have hlt := (Nat.pow_lt_pow_iff_right (by decide : 1 < 2)).1 hpow
  have hstack : stackSize = 64 := rfl
  omega

/-! ## The cut -/

/-- The place `sf` is in a segment which is still to be partitioned, or behind the array, or there
    is a cut close behind it. -/
def Cut (rank : α → ℕ) (a : List α) (sf : ℕ) (segments : List (ℕ × ℕ)) : Prop :=
  a.length ≤ sf ∨
    (∃ k, sf ≤ k ∧ k ≤ sf + qsortTresh + 1 ∧ Split rank a k ∧ ∀ s ∈ segments, k ≤ s.1 ∨ s.2 < k) ∨
    ∃ s ∈ segments, s.1 ≤ sf ∧ sf ≤ s.2

theorem Cut.front (h : Cut rank a sf ((lo, hi) :: stack)) (hre : Rearranged lo hi a b)
    (hlo : lo ≤ m) (hhi : m ≤ hi) (hm : Split rank b m) (hm' : Split rank b (m + 1))
    (hend : Split rank b (hi + 1)) (hstack : ∀ s ∈ stack, hi < s.1 ∨ s.2 < lo) :
    Cut rank b sf (front sf lo hi m ++ stack) := by
  have hmem : ∀ k, k ≤ lo ∨ k = m ∨ k = m + 1 ∨ hi < k → ∀ s ∈ PqSort.front sf lo hi m,
      k ≤ s.1 ∨ s.2 < k := by
    rintro k hk s hs
    rcases mem_front hs with ⟨rfl, hlt⟩ | ⟨rfl, hlt, -⟩ <;> dsimp only <;> omega
  -- a cut at the pivot or behind the segment
  have hnew : ∀ k, k = m ∨ k = m + 1 ∨ k = hi + 1 → sf ≤ k → k ≤ sf + qsortTresh + 1 →
      Cut rank b sf (PqSort.front sf lo hi m ++ stack) := by
    rintro k hk hle hle'
    refine .inr (.inl ⟨k, hle, hle', ?_, fun s hs => ?_⟩)
    · rcases hk with rfl | rfl | rfl
      · exact hm
      · exact hm'
      · exact hend
    · rcases mem_append.1 hs with hs | hs
      · exact hmem k (by omega) s hs
      · have hside := hstack s hs
        omega
  have htresh : qsortTresh = 8 := rfl
  rcases h with h | ⟨k, hle, hle', hsplit, hk⟩ | ⟨s, hs, hs1, hs2⟩
  · exact .inl (hre.length.symm ▸ h)
  · have hside : k ≤ lo ∨ hi < k := hk (lo, hi) mem_cons_self
    refine .inr (.inl ⟨k, hle, hle', hsplit.rearranged hre hside, fun s hs => ?_⟩)
    rcases mem_append.1 hs with hs | hs
    · exact hmem k (by omega) s hs
    · exact hk s (mem_cons_of_mem _ hs)
  · rcases mem_cons.1 hs with rfl | hs
    · dsimp only at hs1 hs2
      by_cases hsfm : sf ≤ m
      · by_cases hleft : sf < m ∧ qsortTresh < m - lo
        · refine .inr (.inr ⟨(lo, m - 1), mem_append_left _ (left_mem_front hleft.2), hs1, ?_⟩)
          change sf ≤ m - 1
          omega
        · exact hnew m (.inl rfl) hsfm (by omega)
      · by_cases hright : qsortTresh < hi - m
        · refine .inr (.inr ⟨(m + 1, hi),
            mem_append_left _ (right_mem_front hright (by omega)), ?_, hs2⟩)
          change m + 1 ≤ sf
          omega
        · exact hnew (hi + 1) (.inr (.inr rfl)) (by omega) (by omega)
    · exact .inr (.inr ⟨s, mem_append_right _ hs, hs1, hs2⟩)

/-! ## All partitions -/

/-- The loop comes to its end, with room on its stack, and leaves the array split behind one of its
    first elements and at a cut. -/
theorem exists_sortLoop (h : Ranks lt rank a) (hp : Pending rank a ((lo, hi) :: stack))
    (hhalf : Halving cnt ((lo, hi) :: stack)) (hcnt : cnt < 2 ^ 64)
    (hcut : Cut rank a sf ((lo, hi) :: stack)) (hn : total ((lo, hi) :: stack) ≤ n) :
    ∃ b, sortLoop lt p rnd (p.addr sf) n a lo hi stack = some b ∧
      pqsortLoop lt rnd sf n a lo hi stack = some b ∧ b.Perm a ∧
      (∃ m ≤ qsortTresh, Split rank b (m + 1)) ∧ Cut rank b sf [] := by
  induction n generalizing a lo hi stack with
  | zero =>
    obtain ⟨hlong, -⟩ := hp.long (lo, hi) mem_cons_self
    rw [total_cons] at hn
    dsimp only at hlong hn
    omega
  | succ n ih =>
    obtain ⟨hlong, hhi⟩ := hp.long (lo, hi) mem_cons_self
    obtain ⟨hs, hs'⟩ := hp.split (lo, hi) mem_cons_self
    have htresh : qsortTresh = 8 := rfl
    dsimp only at hlong hhi hs hs'
    obtain ⟨b, m, hb, hre, hlom, hmhi, hm, hm', -, hend⟩ :=
      @exists_pivot _ lt a lo hi _ rnd h (by omega) hhi hs hs' [n]
    have hstack : ∀ s ∈ stack, hi < s.1 ∨ s.2 < lo := fun s hs =>
      rel_of_pairwise_cons hp.disjoint hs
    have hpend := hp.next (front sf lo hi m) hre hlom hmhi hm hm'
      (fun s hs => (mem_front hs).imp_right fun ⟨he, hlt, _⟩ => ⟨he, hlt⟩) pairwise_front
      left_mem_front
    have hhalf' : Halving cnt (front sf lo hi m ++ stack) := hhalf.front hlom hmhi
    have hcut' := hcut.front hre hlom hmhi hm hm' hend hstack
    have hless : total (front sf lo hi m ++ stack) < hi + 1 - lo + total stack :=
      total_front hlom hmhi
    rw [total_cons] at hn
    dsimp only at hn
    rw [sortLoop_succ (hhalf.room hlong hcnt), pqsortLoop_succ, hb, bind_some,
      bind_some]
    cases hrest : front sf lo hi m ++ stack with
    | nil =>
      rw [hrest] at hpend hcut'
      refine ⟨b, rfl, rfl, hre.perm, ?_, hcut'⟩
      rcases hpend.first with ⟨v, hv, hsplit, -⟩ | ⟨s, hs, -⟩
      · exact ⟨v, hv, hsplit⟩
      · exact absurd hs not_mem_nil
    | cons s rest =>
      rw [hrest] at hpend hcut' hhalf' hless
      have hsize : total (s :: rest) ≤ n := by omega
      obtain ⟨c, hc, hc', hperm, hfirst, hcut''⟩ := ih (h.perm hre.perm) hpend hhalf' hcut' hsize
      exact ⟨c, hc, hc', hperm.trans hre.perm, hfirst, hcut''⟩

/-! ## Insertion -/

/-- The elements before an index are in order. -/
def SortedTo (rank : α → ℕ) (a : List α) (k : ℕ) : Prop :=
  ∀ i j x y, i < j → j < k → a[i]? = some x → a[j]? = some y → rank x ≤ rank y

theorem getElem?_moveTo (hy : a[l]? = some y) (hlo : lo ≤ l) (i : ℕ) : (moveTo a lo l)[i]? =
      if i < lo then a[i]? else if i = lo then some y else if i ≤ l then a[i - 1]? else a[i]? := by
  obtain ⟨hlt, -⟩ := List.getElem?_eq_some_iff.1 hy
  have hmove : moveTo a lo l = (a.eraseIdx l).insertIdx lo y := by
    rw [moveTo, hy]
  have hlen : (a.eraseIdx l).length = a.length - 1 := length_eraseIdx_of_lt hlt
  rw [hmove]
  by_cases h1 : i < lo
  · rw [if_pos h1, getElem?_insertIdx_of_lt h1, getElem?_eraseIdx_of_lt (by omega)]
  · rw [if_neg h1]
    by_cases h2 : i = lo
    · rw [if_pos h2, h2, getElem?_insertIdx_self, if_pos (by omega)]
    · rw [if_neg h2, getElem?_insertIdx_of_gt (by omega)]
      by_cases h3 : i ≤ l
      · rw [if_pos h3, getElem?_eraseIdx_of_lt (by omega)]
      · rw [if_neg h3, getElem?_eraseIdx_of_ge (by omega), Nat.sub_add_cancel (by omega)]

/-- Moving an element permutes the segment it is moved in. -/
theorem Rearranged.of_moveTo (hy : a[l]? = some y) (hlo : lo ≤ l) :
    Rearranged lo l a (moveTo a lo l) where
  perm := moveTo_perm hy hlo
  outside := fun i hi => by
    rw [getElem?_moveTo hy hlo]
    split_ifs <;> first | rfl | omega
  inside := fun i hlo' hhi => by
    rw [getElem?_moveTo hy hlo, if_neg (by omega)]
    by_cases hi : i = lo
    · rw [if_pos hi]
      exact ⟨l, hlo, Nat.le_refl l, hy.symm⟩
    · rw [if_neg hi, if_pos hhi]
      exact ⟨i - 1, by omega, by omega, rfl⟩

/-- An element is moved behind the last one that is not greater, to which the elements up to it are
    in order. -/
theorem SortedTo.moveTo (hs : SortedTo rank a l) (hy : a[l]? = some y) (hk : k < l)
    (hx : a[k]? = some x) (hle : rank x ≤ rank y)
    (hgt : ∀ i z, k < i → i < l → a[i]? = some z → rank y ≤ rank z) :
    SortedTo rank (moveTo a (k + 1) l) (l + 1) := by
  intro i j u v hij hj hu hv
  rw [getElem?_moveTo hy (by omega)] at hu hv
  by_cases hik : i < k + 1
  · rw [if_pos hik] at hu
    have hux : rank u ≤ rank x := by
      rcases Nat.eq_or_lt_of_le (Nat.le_of_lt_succ hik) with rfl | hik
      · exact Nat.le_of_eq (congrArg rank (some.inj (hu.symm.trans hx)))
      · exact hs i k u x hik hk hu hx
    split_ifs at hv with h1 h2 h3
    · exact hs i j u v hij (by omega) hu hv
    · obtain ⟨⟩ := hv
      exact Nat.le_trans hux hle
    · have hkj : k ≤ j - 1 := by omega
      rcases Nat.eq_or_lt_of_le hkj with hkj | hkj
      · obtain rfl := some.inj (hx.symm.trans (hkj ▸ hv))
        exact hux
      · exact Nat.le_trans hux (hs k (j - 1) x v hkj (by omega) hx hv)
    · omega
  · rw [if_neg hik] at hu
    rw [if_neg (by omega), if_neg (by omega), if_pos (by omega)] at hv
    split_ifs at hu with h2 h3
    · obtain ⟨⟩ := hu
      exact hgt (j - 1) v (by omega) (by omega) hv
    · exact hs (i - 1) (j - 1) u v (by omega) (by omega) hu hv
    · omega

/-- The elements up to an index are put in order, and the array stays split where it is. -/
theorem exists_insertionLoop_sorted (h : Ranks lt rank a) (hx : a[0]? = some x)
    (hmin : ∀ y ∈ a, rank x ≤ rank y) (hl : 0 < l) (hn : l + n ≤ a.length)
    (hs : SortedTo rank a l) :
    ∃ b, insertionLoop lt n a l = some b ∧ b.Perm a ∧ SortedTo rank b (l + n) ∧
      ∀ k, Split rank a k → Split rank b k := by
  induction n generalizing a l with
  | zero => exact ⟨a, rfl, .refl a, hs, fun _ hk => hk⟩
  | succ n ih =>
    have hget : a[l]? = some a[l] := getElem?_eq_getElem (by omega)
    have hmem : a[l] ∈ a := getElem_mem (by omega)
    have hbound : lt a[l] x = false := by
      refine eq_false_of_ne_true fun hlt => ?_
      exact Nat.not_lt_of_le (hmin a[l] hmem) ((h _ hmem x (mem_of_getElem? hx)).1 hlt)
    obtain ⟨lo, hlo, -, hlol, ⟨z, hz, hpz⟩, hbehind⟩ := exists_scanDown hx hbound hl (by omega)
    have hzle : rank z ≤ rank a[l] := h.le hmem (mem_of_getElem? hz) hpz
    have hgt : ∀ i w, lo < i → i < l → a[i]? = some w → rank a[l] < rank w := fun i w hlow hil hw =>
      (h _ hmem w (mem_of_getElem? hw)).1 (hbehind i w hlow hil hw)
    have hsorted := hs.moveTo hget hlol hz hzle fun i w hlow hil hw =>
      Nat.le_of_lt (hgt i w hlow hil hw)
    have hre : Rearranged (lo + 1) l a (moveTo a (lo + 1) l) := Rearranged.of_moveTo hget (by omega)
    -- a cut is not crossed: nothing behind it is moved before something smaller
    have hsplit : ∀ k, Split rank a k → Split rank (moveTo a (lo + 1) l) k := by
      intro k hk
      refine hk.rearranged hre ?_
      by_contra hcross
      have hkl : k - 1 < a.length := by omega
      have hle : rank a[k - 1] ≤ rank a[l] := hk (k - 1) l _ _ (by omega) (by omega)
        (getElem?_eq_getElem hkl) hget
      have hlt := hgt (k - 1) _ (by omega) (by omega) (getElem?_eq_getElem hkl)
      omega
    have hend : l + 1 + n = l + (n + 1) := by omega
    rw [insertionLoop, hget, bind_some, hlo, bind_some]
    by_cases hstay : lo + 1 = l
    · rw [if_neg (not_not.2 hstay)]
      have hsame : moveTo a (lo + 1) l = a := by
        refine ext_getElem? fun i => ?_
        rw [getElem?_moveTo hget (by omega)]
        split_ifs with h1 h2 h3
        · rfl
        · rw [h2, hstay, hget]
        · omega
        · rfl
      rw [hsame] at hsorted
      obtain ⟨b, hb, hperm, hsb, hkeep⟩ := ih h hx hmin (Nat.succ_pos l) (by omega) hsorted
      exact ⟨b, hb, hperm, hend ▸ hsb, hkeep⟩
    · rw [if_pos hstay]
      have hx' : (moveTo a (lo + 1) l)[0]? = some x := by
        rw [getElem?_moveTo hget (by omega), if_pos (Nat.succ_pos lo), hx]
      obtain ⟨b, hb, hperm, hsb, hkeep⟩ := ih (h.perm hre.perm) hx'
        (fun y hy => hmin y (hre.mem.1 hy)) (Nat.succ_pos l) (by rw [hre.length]; omega) hsorted
      exact ⟨b, hb, hperm.trans hre.perm, hend ▸ hsb, fun k hk => hkeep k (hsplit k hk)⟩

/-! ## The result -/

theorem upTo_addr (i : ℕ) : p.upTo (p.addr i) = i := by
  rw [Place.upTo, Place.addr, Nat.add_sub_cancel_left, Nat.mul_div_cancel i p.size_pos]

theorem upTo_mono (h : i ≤ j) : p.upTo i ≤ p.upTo j :=
  Nat.div_le_div_right (Nat.sub_le_sub_right h p.base)

theorem pointer_addr (h : p.addr i < 2 ^ 64) : pointer (p.addr i) = p.addr i := Nat.mod_eq_of_lt h

theorem min_addr : min (p.addr i) (p.addr j) = p.addr (min i j) := by
  rcases Nat.le_total i j with h | h
  · rw [Nat.min_eq_left h, Nat.min_eq_left (addr_le_addr.2 h)]
  · rw [Nat.min_eq_right h, Nat.min_eq_right (addr_le_addr.2 h)]

theorem addr_add : p.addr i + p.size * j = p.addr (i + j) := by
  rw [Place.addr, Place.addr, Nat.add_mul, Nat.add_assoc, Nat.mul_comm p.size]

/-- The pointer before an element which is not the first one. -/
theorem pointer_pred (h : p.addr (i + 1) < 2 ^ 64) :
    pointer (p.addr (i + 1) + (2 ^ 64 - p.size)) = p.addr i := by
  have hsucc : p.addr (i + 1) = p.addr i + p.size := by
    rw [Place.addr, Place.addr, Nat.add_mul, Nat.one_mul, Nat.add_assoc]
  have hle : p.size ≤ 2 ^ 64 := by omega
  have hsum : p.addr (i + 1) + (2 ^ 64 - p.size) = p.addr i + 2 ^ 64 := by omega
  rw [pointer, hsum, Nat.add_mod_right]
  exact Nat.mod_eq_of_lt (by omega)

/-- The first elements are in order and not greater than the others. -/
structure FirstSorted (lt : α → α → Bool) (b : List α) (sortFirst : ℕ) : Prop where
  sorted : (b.take sortFirst).Pairwise fun x y => lt y x = false
  smallest : FirstSmallest lt b sortFirst

theorem FirstSorted.of_split (h : Ranks lt rank b) (hs : SortedTo rank b l)
    (hk : Split rank b k) (hsf : min sf b.length ≤ k) (hkl : k ≤ l) : FirstSorted lt b sf where
  sorted := by
    refine pairwise_iff_getElem.2 fun i j hi hj hij => ?_
    rw [length_take] at hi hj
    rw [getElem_take, getElem_take]
    have hle := hs i j b[i] b[j] hij (by omega) (getElem?_eq_getElem _)
      (getElem?_eq_getElem _)
    refine eq_false_of_ne_true fun hlt => ?_
    exact Nat.not_lt_of_le hle ((h _ (getElem_mem _) _ (getElem_mem _)).1 hlt)
  smallest := by
    refine .of_split h fun i j x y hi hj hx hy => ?_
    obtain ⟨hilt, -⟩ := List.getElem?_eq_some_iff.1 hx
    obtain ⟨hjlt, -⟩ := List.getElem?_eq_some_iff.1 hy
    by_cases hjk : j < l
    · exact hs i j x y (by omega) hjk hx hy
    · exact hk i j x y (by omega) (by omega) hx hy

/-- The cut which the partitions leave is among the elements that are put in order. -/
theorem exists_cut (hcut : Cut rank b sf []) :
    ∃ k, Split rank b k ∧ min sf b.length ≤ k ∧ k ≤ min b.length (sf + qsortTresh + 1) := by
  rcases hcut with h | ⟨k, hle, hle', hsplit, -⟩ | ⟨s, hs, -⟩
  · exact ⟨b.length, split_of_length_le (Nat.le_refl _), by omega, by omega⟩
  · by_cases hk : k ≤ b.length
    · exact ⟨k, hsplit, by omega, by omega⟩
    · exact ⟨b.length, split_of_length_le (Nat.le_refl _), by omega, by omega⟩
  · cases hs

/-- What the partitions leave to the insertion sort. -/
theorem exists_partitioned (h : Ranks lt rank a) (hlen : 1 < a.length) (hcnt : a.length < 2 ^ 64) :
    ∃ b, (if qsortTresh < a.length then
        sortLoop lt p rnd (p.addr sf) a.length a 0 (a.length - 1) [] else some a) = some b ∧
      (if qsortTresh < a.length then
        pqsortLoop lt rnd sf a.length a 0 (a.length - 1) [] else some a) = some b ∧
      b.Perm a ∧ (qsortTresh < a.length → ∃ m ≤ qsortTresh, Split rank b (m + 1)) ∧
      ∃ k, Split rank b k ∧ min sf b.length ≤ k ∧ k ≤ min b.length (sf + qsortTresh + 1) := by
  have htresh : qsortTresh = 8 := rfl
  by_cases hlong : qsortTresh < a.length
  · have hp : Pending rank a [(0, a.length - 1)] :=
      { long := fun s hs => by
          obtain rfl := mem_singleton.1 hs
          exact ⟨(by omega : 0 + qsortTresh ≤ a.length - 1), (by omega : a.length - 1 < a.length)⟩
        split := fun s hs => by
          obtain rfl := mem_singleton.1 hs
          exact ⟨split_zero, split_of_length_le (by omega : a.length ≤ a.length - 1 + 1)⟩
        disjoint := pairwise_singleton _ _
        first := .inr ⟨_, mem_singleton_self _, rfl⟩ }
    have hhalf : Halving a.length [(0, a.length - 1)] :=
      ⟨(by omega : (a.length - 1 + 1 - 0) * 1 ≤ a.length), trivial⟩
    have hcut : Cut rank a sf [(0, a.length - 1)] := by
      by_cases hsf : a.length ≤ sf
      · exact .inl hsf
      · exact .inr (.inr ⟨_, mem_singleton_self _, Nat.zero_le sf,
          (by omega : sf ≤ a.length - 1)⟩)
    have htotal : total [(0, a.length - 1)] ≤ a.length := by
      rw [total_cons]
      change a.length - 1 + 1 - 0 + 0 ≤ a.length
      omega
    obtain ⟨b, hb, hb', hperm, hfirst, hcut'⟩ :=
      @exists_sortLoop _ lt p rnd a rank 0 (a.length - 1) a.length sf a.length [] h hp hhalf hcnt
        hcut htotal
    rw [if_pos hlong, if_pos hlong]
    exact ⟨b, hb, hb', hperm, fun _ => hfirst, exists_cut hcut'⟩
  · rw [if_neg hlong, if_neg hlong]
    exact ⟨a, rfl, rfl, .refl a, fun h => absurd h hlong, a.length,
      split_of_length_le (Nat.le_refl _), by omega, by omega⟩

/-- The least one of the first elements is the least of all. -/
theorem exists_least (h : Ranks lt rank b) (hlen : 1 < b.length)
    (hfirst : qsortTresh < b.length → ∃ m ≤ qsortTresh, Split rank b (m + 1))
    (hn : n < b.length) (hn' : min qsortTresh (b.length - 1) ≤ n) :
    ∃ m y, minIndex lt b n 1 0 = some m ∧ b[m]? = some y ∧ ∀ z ∈ b, rank y ≤ rank z := by
  have hget : b[0]? = some b[0] := getElem?_eq_getElem (by omega)
  obtain ⟨m, y, hm, hy, hyx, hall⟩ := exists_minIndex (l := 1) (n := n) h hget (by omega)
  refine ⟨m, y, hm, hy, fun z hz => ?_⟩
  obtain ⟨i, hi, rfl⟩ := getElem_of_mem hz
  have hzi : b[i]? = some b[i] := getElem?_eq_getElem hi
  rcases Nat.eq_zero_or_pos i with rfl | hpos
  · exact hyx
  · by_cases hlt : i < 1 + n
    · exact hall i _ hpos hlt hzi
    · obtain ⟨v, hv, hs⟩ := hfirst (by omega)
      exact Nat.le_trans hyx (hs 0 i _ _ (Nat.succ_pos v) (by omega) hget hzi)

/-- The least element takes the first place, and the array stays split where it is. -/
theorem Split.swap_least (hk : Split rank b k) (hx : b[0]? = some x) (hy : b[m]? = some y)
    (hmin : ∀ z ∈ b, rank y ≤ rank z) : Split rank (Partitioning.swap b 0 m) k := by
  by_cases hm : m < k
  · refine hk.rearranged (Rearranged.of_swap hx hy (Nat.le_refl 0) (Nat.zero_le (k - 1))
      (Nat.zero_le m) (by omega)) (.inr (by omega))
  · -- with an element behind the cut, only the ranks of equals are exchanged
    rcases Nat.eq_zero_or_pos k with rfl | hpos
    · exact split_zero
    have hxy : rank x = rank y :=
      Nat.le_antisymm (hk 0 m x y hpos (by omega) hx hy) (hmin x (mem_of_getElem? hx))
    have hrank : ∀ (i : ℕ) (u : α), (Partitioning.swap b 0 m)[i]? = some u →
        ∃ v, b[i]? = some v ∧ rank v = rank u := by
      intro i u hu
      rw [getElem?_swap hx hy] at hu
      split_ifs at hu with him hi
      · exact ⟨y, him ▸ hy, hxy ▸ congrArg rank (some.inj hu)⟩
      · exact ⟨x, hi ▸ hx, hxy ▸ congrArg rank (some.inj hu)⟩
      · exact ⟨u, hu, rfl⟩
    intro i j u v hi hj hu hv
    obtain ⟨u', hu', hru⟩ := hrank i u hu
    obtain ⟨v', hv', hrv⟩ := hrank j v hv
    exact hru ▸ hrv ▸ hk i j u' v' hi hj hu' hv'

theorem length_lt (hmem : p.addr (max sf a.length + qsortTresh) + 4 < 2 ^ 64) :
    a.length < 2 ^ 64 := by
  have hle : a.length * 1 ≤ a.length * p.size := Nat.mul_le_mul_left _ p.size_pos
  have hlast : p.addr a.length ≤ p.addr (max sf a.length + qsortTresh) := addr_le_addr.2 (by omega)
  have haddr : p.addr a.length = p.base + a.length * p.size := rfl
  omega

/-- The last part, in terms of indices: `H + 1` is the last one that is put in order. -/
theorem psyncPqsort_eq {H : ℕ} (hmem : p.addr (max sf a.length + qsortTresh) + 4 < 2 ^ 64)
    (hlen : 1 < a.length)
    (hb : (if qsortTresh < a.length then
      sortLoop lt p rnd (p.addr sf) a.length a 0 (a.length - 1) [] else some a) = some b)
    (hblen : b.length = a.length) (hH : min (b.length - 1) (sf + qsortTresh) = H + 1) :
    psyncPqsort lt p rnd a sf =
      (minIndex lt b (p.upTo (min (p.addr qsortTresh + 4) (p.addr (H + 1)))) 1 0).bind fun lo =>
        insertionLoop lt H (Partitioning.swap b 0 lo) 2 := by
  have haddr : ∀ i, i ≤ max sf a.length + qsortTresh → p.addr i < 2 ^ 64 := fun i hi =>
    Nat.lt_of_le_of_lt (addr_le_addr.2 hi) (by omega)
  have hsf : pointer (p.base + sf * p.size) = p.addr sf := pointer_addr (haddr sf (by omega))
  have hsf' : pointer (p.addr sf + p.size * qsortTresh) = p.addr (sf + qsortTresh) := by
    rw [addr_add]
    exact pointer_addr (haddr _ (by omega))
  have hhi : min (p.addr (b.length - 1)) (p.addr (sf + qsortTresh)) = p.addr (H + 1) := by
    rw [min_addr, hH]
  have hr : pointer (p.base + qsortTresh * p.size + 4) = p.addr qsortTresh + 4 :=
    Nat.mod_eq_of_lt (Nat.lt_of_le_of_lt (Nat.add_le_add_right (addr_le_addr.2 (by omega)) 4) hmem)
  simp only [psyncPqsort, hsf, if_neg (Nat.not_le_of_lt hlen), hb, bind_some, hsf', hhi, hr,
    pointer_pred (haddr (H + 1) (by omega)), upTo_addr]

/-- The first elements are sorted, whatever the pivots; no segment is postponed beyond the stack. -/
theorem exists_psyncPqsort (hranks : Ranks lt rank a)
    (hmem : p.addr (max sf a.length + qsortTresh) + 4 < 2 ^ 64) :
    ∃ b, psyncPqsort lt p rnd a sf = some b ∧ b.Perm a ∧ FirstSorted lt b sf := by
  have htresh : qsortTresh = 8 := rfl
  by_cases hone : a.length ≤ 1
  · refine ⟨a, if_pos hone, .refl a, .of_split (k := a.length) (l := a.length) hranks ?_
      (split_of_length_le (Nat.le_refl _)) (by omega) (Nat.le_refl _)⟩
    intro i j x y hij hj
    omega
  obtain ⟨b, hb, -, hperm, hfirst, k, hsplit, hk, hk'⟩ :=
    @exists_partitioned _ lt p rnd a _ sf hranks (by omega) (length_lt hmem)
  have hblen := hperm.length_eq
  have hb' := hranks.perm hperm
  obtain ⟨H, hH⟩ : ∃ H, min (b.length - 1) (sf + qsortTresh) = H + 1 :=
    ⟨_, (Nat.sub_add_cancel (by omega)).symm⟩
  have hupTo : p.upTo (min (p.addr qsortTresh + 4) (p.addr (H + 1))) ≤ H + 1 := by
    calc p.upTo (min (p.addr qsortTresh + 4) (p.addr (H + 1)))
      _ ≤ p.upTo (p.addr (H + 1)) := upTo_mono (Nat.min_le_right _ _)
      _ = H + 1 := upTo_addr (H + 1)
  have hupTo' : min qsortTresh (H + 1) ≤ p.upTo (min (p.addr qsortTresh + 4) (p.addr (H + 1))) := by
    calc min qsortTresh (H + 1)
      _ = p.upTo (min (p.addr qsortTresh) (p.addr (H + 1))) := by rw [min_addr, upTo_addr]
      _ ≤ p.upTo (min (p.addr qsortTresh + 4) (p.addr (H + 1))) :=
        upTo_mono (min_le_min_right _ (Nat.le_add_right _ 4))
  obtain ⟨m, y, hm, hy, hmin⟩ := exists_least hb' (by omega) (by rwa [hblen])
    (Nat.lt_of_le_of_lt hupTo (by omega)) (Nat.le_trans (by omega) hupTo')
  -- the least element stands first, and the next one begins what is put in order
  have hget : b[0]? = some b[0] := getElem?_eq_getElem (by omega)
  have hre : Rearranged 0 b.length b (Partitioning.swap b 0 m) := by
    obtain ⟨hmlt, -⟩ := List.getElem?_eq_some_iff.1 hy
    exact .of_swap hget hy (Nat.zero_le _) (Nat.zero_le _) (Nat.zero_le _) (Nat.le_of_lt hmlt)
  have hzero : (Partitioning.swap b 0 m)[0]? = some y := by
    rw [getElem?_swap hget hy]
    by_cases h0 : 0 = m
    · rw [if_pos h0, hget.symm.trans (h0 ▸ hy)]
    · rw [if_neg h0, if_pos rfl]
  have hmin' : ∀ z ∈ Partitioning.swap b 0 m, rank y ≤ rank z := fun z hz => hmin z (hre.mem.1 hz)
  have hstart : SortedTo rank (Partitioning.swap b 0 m) 2 := by
    intro i j u v hij hj hu hv
    obtain rfl : i = 0 := by omega
    obtain rfl := some.inj (hzero.symm.trans hu)
    exact hmin' v (mem_of_getElem? hv)
  obtain ⟨c, hc, hcperm, hsorted, hkeep⟩ := exists_insertionLoop_sorted (l := 2) (n := H)
    (hb'.perm hre.perm) hzero hmin' (by omega) (by rw [hre.length]; omega) hstart
  have hclen : c.length = b.length := by rw [hcperm.length_eq, hre.length]
  have hall := hcperm.trans (hre.perm.trans hperm)
  refine ⟨c, ?_, hall, .of_split (hranks.perm hall) hsorted
    (hkeep k (Split.swap_least hsplit hget hy hmin)) (by omega) (by omega)⟩
  rw [psyncPqsort_eq hmem (by omega) hb hblen hH, hm, bind_some, hc]

variable (p rnd) in
/-- An array is permuted so that its first elements are the smallest ones in order. -/
theorem psyncPqsort_spec (hlt : TotalPreorder lt) (a : List α) (sortFirst : ℕ)
    (hmem : p.addr (max sortFirst a.length + qsortTresh) + 4 < 2 ^ 64) :
    ∃ b, psyncPqsort lt p rnd a sortFirst = some b ∧ b.Perm a ∧ FirstSorted lt b sortFirst :=
  exists_psyncPqsort (hlt.ranks a) hmem

/-- For elements of more than four bytes, the function does what it does without pointers and
    without a bound on the stack. -/
theorem psyncPqsort_eq_partialSort (hsize : 4 < p.size) (h : Ranks lt rank a)
    (hmem : p.addr (max sf a.length + qsortTresh) + 4 < 2 ^ 64) :
    psyncPqsort lt p rnd a sf = PartialSort.psyncPqsort lt rnd a sf := by
  have htresh : qsortTresh = 8 := rfl
  by_cases hone : a.length ≤ 1
  · rw [psyncPqsort, PartialSort.psyncPqsort, if_pos hone, if_pos hone]
  obtain ⟨b, hb, hb', hperm, -⟩ :=
    @exists_partitioned _ lt p rnd a _ sf h (by omega) (length_lt hmem)
  have hblen := hperm.length_eq
  obtain ⟨H, hH⟩ : ∃ H, min (b.length - 1) (sf + qsortTresh) = H + 1 :=
    ⟨_, (Nat.sub_add_cancel (by omega)).symm⟩
  have hupTo : p.upTo (min (p.addr qsortTresh + 4) (p.addr (H + 1))) = min qsortTresh (H + 1) := by
    refine Nat.le_antisymm (Nat.le_min.2 ⟨?_, ?_⟩) ?_
    · have hsub : p.addr qsortTresh + 4 - p.base = 4 + qsortTresh * p.size := by
        rw [Place.addr]
        omega
      calc p.upTo (min (p.addr qsortTresh + 4) (p.addr (H + 1)))
        _ ≤ p.upTo (p.addr qsortTresh + 4) := upTo_mono (Nat.min_le_left _ _)
        _ = qsortTresh := by
          rw [Place.upTo, hsub, Nat.add_mul_div_right _ _ p.size_pos, Nat.div_eq_of_lt hsize,
            Nat.zero_add]
    · exact (upTo_mono (Nat.min_le_right _ _)).trans_eq (upTo_addr (H + 1))
    · rw [← @upTo_addr p (min qsortTresh (H + 1)), ← min_addr]
      exact upTo_mono (min_le_min_right _ (Nat.le_add_right _ 4))
  rw [psyncPqsort_eq hmem (by omega) hb hblen hH, PartialSort.psyncPqsort, if_neg hone, hb',
    bind_some, hupTo]
  simp only [hH, Nat.add_sub_cancel]

variable (rnd) in
/-- Without pointers, the function permutes an array which fits into memory. -/
theorem exists_partialSort (h : Ranks lt rank a) (hlen : a.length < 2 ^ 59) :
    ∃ b, PartialSort.psyncPqsort lt rnd a a.length = some b ∧ b.Perm a := by
  let p : Place := ⟨0, 5, Nat.succ_pos 4⟩
  have hmem : p.addr (max a.length a.length + qsortTresh) + 4 < 2 ^ 64 := by
    simp only [p, Place.addr, qsortTresh, Nat.max_self]
    omega
  obtain ⟨b, hb, hperm, -⟩ := exists_psyncPqsort h hmem
  exact ⟨b, (psyncPqsort_eq_partialSort (Nat.lt_succ_self 4) h hmem).symm.trans hb, hperm⟩

/-- Five numbers of four bytes. -/
def samplePlace : Place := ⟨4096, 4, by decide⟩

/-- The three smallest ones of five elements. -/
theorem psyncPqsort_five :
    ∃ b, psyncPqsort (fun x y : ℕ => decide (x < y)) samplePlace (fun _ => 0) [5, 3, 4, 1, 2] 3 =
      some b ∧ b.Perm [5, 3, 4, 1, 2] ∧ FirstSorted (fun x y : ℕ => decide (x < y)) b 3 :=
  psyncPqsort_spec samplePlace _ totalPreorder_nat _ _ (by decide)

/-- Ten numbers in order, and ten larger ones. -/
def twentyNumbers : List ℕ :=
  [0, 1, 2, 3, 4, 5, 6, 7, 8, 9, 19, 18, 17, 16, 15, 14, 13, 12, 11, 10]

/-- With the largest `sort_first`, `sf` wraps and comes to stand before the array: no segment behind
    a pivot is partitioned, and only eight elements are put in order at the end. -/
theorem pqsort_wraps : ¬ ∀ (lt : ℕ → ℕ → Bool) (p : Place) (rnd : List ℕ → ℕ) (a : List ℕ)
    (sortFirst : ℕ), TotalPreorder lt → sortFirst < 2 ^ 64 →
      ∃ b, psyncPqsort lt p rnd a sortFirst = some b ∧ b.Perm a ∧ FirstSorted lt b sortFirst := by
  intro h
  obtain ⟨b, hb, -, hsorted, -⟩ := h (fun x y => decide (x < y)) samplePlace (fun _ => 0)
    twentyNumbers (2 ^ 64 - 1) totalPreorder_nat (by decide)
  have hrun : psyncPqsort (fun x y => decide (x < y)) samplePlace (fun _ => 0) twentyNumbers
      (2 ^ 64 - 1) = some twentyNumbers := by
    decide +kernel
  obtain rfl := some.inj (hb.symm.trans hrun)
  rw [take_of_length_le (by decide)] at hsorted
  revert hsorted
  decide

end Pclsync.PageCache.PqSort
