import Mathlib.Data.List.Perm.Basic

/-!
# Sorting linked lists, and pairing two sorted lists

A bottom-up merge sort: every element is a run, and in each round neighbouring runs are merged,
until one run is left (`sort`). `extractRepeating` sorts two lists and walks them in step, taking
out the pairs which compare equal.

* `sort_perm`, `pairwise_sort`: the result is a sorted permutation of the list.
* `filter_sort`: elements which compare equal stay in their order.
* `left_perm`, `right_perm`: every element is either taken out, in a pair, or left over.
-/

namespace Pclsync.SortedLists

open List

variable {α : Type}

/-! ## The sort -/

section Sorting

variable (le : α → α → Bool)

/-- A round of the sort: each run is merged with its neighbour, the last one may have none. -/
def mergeNeighbours : List (List α) → List (List α)
  | r₁ :: r₂ :: rs => merge r₁ r₂ le :: mergeNeighbours rs
  | rs => rs

/-- The rounds, until at most one run is left; the number bounds the rounds. -/
def mergeRuns : ℕ → List (List α) → List α
  | _, [] => []
  | _, [r] => r
  | 0, rs => rs.flatten
  | n + 1, rs => mergeRuns n (mergeNeighbours le rs)

/-- The bottom-up merge sort. -/
def sort (l : List α) : List α := mergeRuns le l.length (l.map fun x => [x])

variable {le} {p : α → Bool}

theorem length_mergeNeighbours :
    ∀ rs : List (List α), (mergeNeighbours le rs).length = (rs.length + 1) / 2
  | [] => by simp [mergeNeighbours]
  | [_] => by simp [mergeNeighbours]
  | _ :: _ :: rs => by
    have ih := length_mergeNeighbours rs
    simp only [mergeNeighbours, length_cons]
    omega

theorem mergeNeighbours_perm : ∀ rs : List (List α), (mergeNeighbours le rs).flatten.Perm rs.flatten
  | [] => .refl _
  | [_] => .refl _
  | r₁ :: r₂ :: rs => by
    have ih := mergeNeighbours_perm rs
    simp only [mergeNeighbours, flatten_cons, ← append_assoc]
    exact (merge_perm_append le).append ih

theorem mergeRuns_perm (n : ℕ) (rs : List (List α)) : (mergeRuns le n rs).Perm rs.flatten := by
  induction n generalizing rs with
  | zero =>
    match rs with
    | [] => exact .refl _
    | [r] => simp [mergeRuns]
    | _ :: _ :: _ => exact .refl _
  | succ n ih =>
    match rs with
    | [] => exact .refl _
    | [r] => simp [mergeRuns]
    | r₁ :: r₂ :: rs => exact (ih _).trans (mergeNeighbours_perm _)

theorem flatten_singletons (l : List α) : (l.map fun x => [x]).flatten = l := by
  induction l with
  | nil => rfl
  | cons x l ih => rw [map_cons, flatten_cons, ih, singleton_append]

theorem sort_perm (l : List α) : (sort le l).Perm l := by
  have h : (sort le l).Perm (l.map fun x => [x]).flatten := mergeRuns_perm _ _
  rwa [flatten_singletons] at h

theorem mem_sort {l : List α} {x : α} : x ∈ sort le l ↔ x ∈ l := (sort_perm l).mem_iff

/-! ### Sortedness and stability -/

section Order

variable (htrans : ∀ a b c, le a b → le b c → le a c) (htotal : ∀ a b, le a b || le b a)
include htrans htotal

theorem pairwise_mergeNeighbours : ∀ rs : List (List α), (∀ r ∈ rs, r.Pairwise (le · ·)) →
      ∀ r ∈ mergeNeighbours le rs, r.Pairwise (le · ·)
  | [], h => h
  | [_], h => h
  | r₁ :: r₂ :: rs, h => by
    have ih := pairwise_mergeNeighbours rs fun r hr =>
      h r (mem_cons_of_mem _ (mem_cons_of_mem _ hr))
    intro r hr
    rcases mem_cons.1 hr with rfl | hr
    · exact pairwise_merge htrans htotal r₁ r₂ (h _ mem_cons_self)
        (h _ (mem_cons_of_mem _ mem_cons_self))
    · exact ih r hr

theorem pairwise_mergeRuns {n : ℕ} {rs : List (List α)} (hn : rs.length ≤ n + 1)
    (h : ∀ r ∈ rs, r.Pairwise (le · ·)) : (mergeRuns le n rs).Pairwise (le · ·) := by
  induction n generalizing rs with
  | zero =>
    match rs with
    | [] => exact .nil
    | [r] => exact h r mem_cons_self
    | _ :: _ :: _ => simp at hn
  | succ n ih =>
    match rs with
    | [] => exact .nil
    | [r] => exact h r mem_cons_self
    | r₁ :: r₂ :: rs =>
      refine ih ?_ (pairwise_mergeNeighbours htrans htotal _ h)
      rw [length_mergeNeighbours]
      omega

theorem pairwise_sort (l : List α) : (sort le l).Pairwise (le · ·) := by
  refine pairwise_mergeRuns htrans htotal (by simp) fun r hr => ?_
  obtain ⟨x, -, rfl⟩ := mem_map.1 hr
  exact pairwise_singleton _ _

variable (hp : ∀ a b, p a → p b → le a b)
include hp

omit htotal in
/-- Merging takes equal elements from the first list before those of the second. -/
theorem filter_merge {xs ys : List α} (hxs : xs.Pairwise (le · ·)) :
    (merge xs ys le).filter p = xs.filter p ++ ys.filter p := by
  induction xs generalizing ys with
  | nil => simp
  | cons x xs ih =>
    obtain ⟨hx, hxs'⟩ := pairwise_cons.1 hxs
    induction ys with
    | nil => simp
    | cons y ys ihy =>
      rw [cons_merge_cons]
      by_cases hxy : le x y
      · rw [if_pos hxy]
        by_cases hpx : p x
        · rw [filter_cons_of_pos hpx, ih hxs', filter_cons_of_pos hpx, cons_append]
        · rw [filter_cons_of_neg hpx, ih hxs', filter_cons_of_neg hpx]
      · rw [if_neg hxy]
        by_cases hy : p y
        · -- nothing equal to `y` is left in the first list, whose elements are all above it
          have hnil : (x :: xs).filter p = [] := by
            rw [filter_eq_nil_iff]
            intro z hz hpz
            have hzy := hp z y hpz hy
            rcases mem_cons.1 hz with rfl | hz
            · exact hxy hzy
            · exact hxy (htrans x z y (hx z hz) hzy)
          rw [filter_cons_of_pos hy, filter_cons_of_pos hy, ihy, hnil, nil_append, nil_append]
        · rw [filter_cons_of_neg hy, filter_cons_of_neg hy, ihy]

omit htotal in
theorem filter_mergeNeighbours : ∀ rs : List (List α), (∀ r ∈ rs, r.Pairwise (le · ·)) →
      (mergeNeighbours le rs).flatten.filter p = rs.flatten.filter p
  | [], _ => rfl
  | [_], _ => rfl
  | r₁ :: r₂ :: rs, h => by
    have ih := filter_mergeNeighbours rs fun r hr =>
      h r (mem_cons_of_mem _ (mem_cons_of_mem _ hr))
    simp only [mergeNeighbours, flatten_cons, filter_append, ih,
      filter_merge htrans hp (h r₁ mem_cons_self), append_assoc]

theorem filter_mergeRuns (n : ℕ) {rs : List (List α)} (h : ∀ r ∈ rs, r.Pairwise (le · ·)) :
    (mergeRuns le n rs).filter p = rs.flatten.filter p := by
  induction n generalizing rs with
  | zero =>
    match rs with
    | [] => rfl
    | [r] => simp [mergeRuns]
    | _ :: _ :: _ => rfl
  | succ n ih =>
    match rs with
    | [] => rfl
    | [r] => simp [mergeRuns]
    | r₁ :: r₂ :: rs =>
      exact (ih (pairwise_mergeNeighbours htrans htotal _ h)).trans
        (filter_mergeNeighbours htrans hp _ h)

theorem filter_sort (l : List α) : (sort le l).filter p = l.filter p := by
  refine (filter_mergeRuns htrans htotal hp _ fun r hr => ?_).trans ?_
  · obtain ⟨x, -, rfl⟩ := mem_map.1 hr
    exact pairwise_singleton _ _
  · rw [flatten_singletons]

end Order

end Sorting

/-! ## Pairs of equal elements -/

/-- What pairing two lists gives: what is left of them, and the pairs taken out. -/
structure Extracted (α : Type) where
  left : List α
  right : List α
  pairs : List (α × α)

/-- The walk at the element `x` of the first list; `rest` is the walk behind it. -/
def extractFrom (cmp : α → α → Ordering) (x : α) (rest : List α → Extracted α) :
    List α → Extracted α
  | [] => { rest [] with left := x :: (rest []).left }
  | y :: ys =>
    match cmp x y with
    | .lt => { rest (y :: ys) with left := x :: (rest (y :: ys)).left }
    | .gt => { extractFrom cmp x rest ys with right := y :: (extractFrom cmp x rest ys).right }
    | .eq => { rest ys with pairs := (x, y) :: (rest ys).pairs }

/-- The walk along two lists. -/
def extract (cmp : α → α → Ordering) : List α → List α → Extracted α
  | [], ys => ⟨[], ys, []⟩
  | x :: xs, ys => extractFrom cmp x (extract cmp xs) ys

/-- Two lists are sorted, and the pairs of equal elements are taken out of them. -/
def extractRepeating (cmp : α → α → Ordering) (l₁ l₂ : List α) : Extracted α :=
  extract cmp (sort (fun a b => (cmp a b).isLE) l₁) (sort (fun a b => (cmp a b).isLE) l₂)

variable {cmp : α → α → Ordering}

theorem extract_perm (xs ys : List α) :
    ((extract cmp xs ys).left ++ (extract cmp xs ys).pairs.map Prod.fst).Perm xs ∧
      ((extract cmp xs ys).right ++ (extract cmp xs ys).pairs.map Prod.snd).Perm ys := by
  induction xs generalizing ys with
  | nil => simp [extract]
  | cons x xs ih =>
    unfold extract
    induction ys with
    | nil => exact ⟨(ih []).1.cons x, (ih []).2⟩
    | cons y ys ihy =>
      unfold extractFrom
      split
      · exact ⟨(ih (y :: ys)).1.cons x, (ih (y :: ys)).2⟩
      · exact ⟨ihy.1, ihy.2.cons y⟩
      · exact ⟨perm_middle.trans ((ih ys).1.cons x), perm_middle.trans ((ih ys).2.cons y)⟩

theorem left_perm (l₁ l₂ : List α) :
    ((extractRepeating cmp l₁ l₂).left ++ (extractRepeating cmp l₁ l₂).pairs.map Prod.fst).Perm
      l₁ :=
  (extract_perm _ _).1.trans (sort_perm l₁)

theorem right_perm (l₁ l₂ : List α) :
    ((extractRepeating cmp l₁ l₂).right ++ (extractRepeating cmp l₁ l₂).pairs.map Prod.snd).Perm
      l₂ :=
  (extract_perm _ _).2.trans (sort_perm l₂)

end Pclsync.SortedLists
