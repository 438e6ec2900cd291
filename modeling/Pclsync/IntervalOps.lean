import Mathlib.Data.Set.Basic
import Pclsync.BalancedTree
import Pclsync.IntervalTree

/-!
# Runs of an interval tree

The other operations of `pintervaltree.c`, and any sequence of them.

* `removeTree`: `psync_interval_tree_remove`. Its walk acts on the intervals from the first one that
  it reaches on as `subtract` does.
* `cutEndTree`: `psync_interval_tree_cut_end`, and `cutEnd` on the sequence.
* `IntervalOp.run`: a sequence of calls, starting from the empty tree, and `IntervalOp.denote`: the
  set of points that it stands for. `IntervalOp.run_spec`: after any run the intervals are
  canonical, they cover these points, and the tree is balanced.
-/

namespace Pclsync

open List

variable {l as bs : List Interval} {e : Interval} {start stop i : ℕ}

/-! ## Removing an interval -/

/-- The loop of `psync_interval_tree_remove` at the node at position `k`; each round goes to the
    next node, so that `fuel` rounds are enough when that many nodes follow. -/
def removeLoop (start stop : ℕ) : ℕ → Tree Interval → ℕ → Tree Interval
  | 0, t, _ => t
  | fuel + 1, t, k =>
    match t.toList[k]? with
    | none => t
    | some e =>
      if e.start < start ∧ stop < e.stop then
        (t.insertAt (k + 1) ⟨stop, e.stop⟩).modifyAt k fun e => { e with stop := start }
      else if start ≤ e.start ∧ e.start < stop then
        let t' := t.modifyAt k fun e => { e with start := stop }
        -- the next node has taken the place of one that is deleted
        if e.stop ≤ stop then removeLoop start stop fuel (t'.removeAt k) k
        else removeLoop start stop fuel t' (k + 1)
      else if e.start < start then
        removeLoop start stop fuel (t.modifyAt k fun e => { e with stop := start }) (k + 1)
      else t

/-- `psync_interval_tree_remove` -/
def removeTree (start stop : ℕ) (t : Tree Interval) : Tree Interval :=
  removeLoop start stop t.size t (firstPlace start t 0)

/-- What the loop makes of the intervals that it goes over. -/
def subtract (start stop : ℕ) : List Interval → List Interval
  | [] => []
  | e :: l =>
    if e.start < start ∧ stop < e.stop then { e with stop := start } :: ⟨stop, e.stop⟩ :: l
    else if start ≤ e.start ∧ e.start < stop then
      if e.stop ≤ stop then subtract start stop l
      else { e with start := stop } :: subtract start stop l
    else if e.start < start then { e with stop := start } :: subtract start stop l
    else e :: l

theorem toList_removeLoop {t : Tree Interval} {fuel : ℕ} (hf : bs.length ≤ fuel)
    (h : t.toList = as ++ bs) :
    (removeLoop start stop fuel t as.length).toList = as ++ subtract start stop bs := by
  induction fuel generalizing t as bs with
  | zero =>
    obtain rfl := length_eq_zero_iff.1 (Nat.le_zero.1 hf)
    exact h
  | succ fuel ih =>
    cases bs with
    | nil =>
      have hk : t.toList[as.length]? = none := by simp [h]
      rw [removeLoop, hk]
      exact h
    | cons e bs =>
      have hk : t.toList[as.length]? = some e := by simp [h]
      have hf' : bs.length ≤ fuel := Nat.le_of_succ_le_succ hf
      have hnext : ∀ (f : Interval → Interval),
          (removeLoop start stop fuel (t.modifyAt as.length f) (as.length + 1)).toList =
            as ++ f e :: subtract start stop bs := by
        intro f
        have hmod : (t.modifyAt as.length f).toList = (as ++ [f e]) ++ bs := by
          rw [Tree.toList_modifyAt f h, append_cons]
        have hrun := ih hf' hmod
        rwa [length_append, length_singleton, ← append_cons] at hrun
      rw [removeLoop, hk, subtract]
      dsimp only
      split_ifs with h1 h2 h3 h4
      · have hins : (t.insertAt (as.length + 1) ⟨stop, e.stop⟩).toList =
            as ++ e :: ⟨stop, e.stop⟩ :: bs := by
          have hadd : t.toList = (as ++ [e]) ++ bs := by rw [h, append_cons]
          have hins := Tree.toList_insertAt ⟨stop, e.stop⟩ hadd
          rwa [length_append, length_singleton, ← append_cons] at hins
        exact Tree.toList_modifyAt _ hins
      · exact ih hf' (Tree.toList_removeAt (Tree.toList_modifyAt _ h))
      · exact hnext _
      · exact hnext _
      · exact h

/-- The sequence `l'` covers the points of `l` that are not in `[start, stop)`. -/
def Subtracts (start stop : ℕ) (l l' : List Interval) : Prop :=
  Canonical l' ∧ ∀ i, Covered l' i ↔ Covered l i ∧ ¬(start ≤ i ∧ i < stop)

theorem start_le_of_mem_subtract {k : ℕ} (hl : ∀ b ∈ l, k ≤ b.start) (hk : k ≤ stop) :
    ∀ a ∈ subtract start stop l, k ≤ a.start := by
  induction l with
  | nil => exact forall_mem_nil _
  | cons e l ih =>
    have he := hl e mem_cons_self
    have ih := ih fun b m => hl b (mem_cons_of_mem _ m)
    rw [subtract]
    split_ifs
    · rintro a m
      rcases mem_cons.1 m with rfl | m
      · exact he
      rcases mem_cons.1 m with rfl | m
      · exact hk
      · exact hl a (mem_cons_of_mem _ m)
    · exact ih
    · exact forall_mem_cons.2 ⟨hk, ih⟩
    · exact forall_mem_cons.2 ⟨he, ih⟩
    · exact hl

/-- The intervals after one that starts from `start` on or ends after `stop` are not touched. -/
theorem subtract_of_le (h : ∀ b ∈ l, stop ≤ b.start) (hlt : start < stop) :
    subtract start stop l = l := by
  cases l with
  | nil => rfl
  | cons e l =>
    have he := h e mem_cons_self
    rw [subtract, if_neg (by omega), if_neg (by omega), if_neg (by omega)]

theorem not_covered_of_lt {k : ℕ} (h : ∀ b ∈ l, k ≤ b.start) (hi : i < k) : ¬ Covered l i := by
  rintro ⟨b, m, hb, -⟩
  have := h b m
  omega

theorem subtracts_subtract (h : Canonical l) (hend : ∀ b ∈ l, start < b.stop)
    (hlt : start < stop) : Subtracts start stop l (subtract start stop l) := by
  induction l with
  | nil => exact ⟨canonical_nil, fun i => ⟨fun hi => absurd hi not_covered_nil, And.left⟩⟩
  | cons e l ih =>
    obtain ⟨he, hl, hel⟩ := canonical_cons.1 h
    have hstart := hend e mem_cons_self
    obtain ⟨hcan, hcov⟩ := ih hl fun b m => hend b (mem_cons_of_mem _ m)
    have hlow : ∀ i, Covered l i → e.stop < i := fun i hi => by
      by_contra hle
      exact not_covered_of_lt (k := e.stop + 1) hel (by omega) hi
    rw [subtract]
    split_ifs with h1 h2 h3 h4
    · -- the interval is split
      refine ⟨canonical_cons.2 ⟨h1.1, canonical_cons.2 ⟨h1.2, hl, hel⟩, ?_⟩, fun i => ?_⟩
      · refine forall_mem_cons.2 ⟨hlt, fun b m => ?_⟩
        exact hstart.trans (hel b m)
      · have := hlow i
        simp only [covered_cons]
        generalize Covered l i = c at this
        constructor
        · rintro (hi | hi | hi)
          · exact ⟨.inl ⟨hi.1, by omega⟩, by omega⟩
          · exact ⟨.inl ⟨by omega, hi.2⟩, by omega⟩
          · exact ⟨.inr hi, by have := this hi; omega⟩
        · rintro ⟨hi | hi, hout⟩
          · rcases Nat.lt_or_ge i start with hlt' | hge
            · exact .inl ⟨hi.1, hlt'⟩
            · exact .inr (.inl ⟨by omega, hi.2⟩)
          · exact .inr (.inr hi)
    · -- the interval is deleted
      refine ⟨hcan, fun i => ?_⟩
      rw [hcov, covered_cons]
      refine and_congr_left fun hout => (or_iff_right ?_).symm
      omega
    · -- its beginning is cut off, and nothing after it is touched
      rw [subtract_of_le (fun b m => (by have := hel b m; omega)) hlt]
      refine ⟨canonical_cons.2 ⟨by dsimp only; omega, hl, hel⟩, fun i => ?_⟩
      have := hlow i
      rw [covered_cons, covered_cons]
      constructor
      · rintro (hi | hi)
        · exact ⟨.inl ⟨by dsimp only at hi; omega, hi.2⟩, by dsimp only at hi; omega⟩
        · exact ⟨.inr hi, by have := this hi; omega⟩
      · rintro ⟨hi | hi, hout⟩
        · exact .inl ⟨by dsimp only; omega, hi.2⟩
        · exact .inr hi
    · -- its end is cut off
      have hrest : ∀ b ∈ l, start + 1 ≤ b.start := fun b m => by
        have := hel b m
        omega
      refine ⟨canonical_cons.2 ⟨h4, hcan, start_le_of_mem_subtract hrest hlt⟩, fun i => ?_⟩
      rw [covered_cons, covered_cons, hcov]
      constructor
      · rintro (hi | hi)
        · exact ⟨.inl ⟨hi.1, by dsimp only at hi; omega⟩, by dsimp only at hi; omega⟩
        · exact ⟨.inr hi.1, hi.2⟩
      · rintro ⟨hi | hi, hout⟩
        · exact .inl ⟨hi.1, by dsimp only; omega⟩
        · exact .inr ⟨hi, hout⟩
    · refine ⟨h, fun i => ?_⟩
      have := hlow i
      rw [covered_cons]
      refine (and_iff_left_of_imp ?_).symm
      rintro (hi | hi)
      · omega
      · have := this hi
        omega

theorem subtracts_append (h : Canonical (as ++ bs)) (ha : ∀ a ∈ as, a.stop ≤ start)
    (hb : ∀ b ∈ bs, start < b.stop) (hlt : start < stop) :
    Subtracts start stop (as ++ bs) (as ++ subtract start stop bs) := by
  obtain ⟨has, hbs, hab⟩ := canonical_append.1 h
  obtain ⟨hcan, hcov⟩ := subtracts_subtract hbs hb hlt
  refine ⟨canonical_append.2 ⟨has, hcan, fun a m => ?_⟩, fun i => ?_⟩
  · rcases Nat.lt_or_ge a.stop stop with hstop | hstop
    · exact start_le_of_mem_subtract (k := a.stop + 1) (hab a m) hstop
    · have := ha a m
      omega
  · rw [covered_append, covered_append, hcov]
    constructor
    · rintro (⟨a, m, hi⟩ | hi)
      · have := ha a m
        exact ⟨.inl ⟨a, m, hi⟩, by omega⟩
      · exact ⟨.inr hi.1, hi.2⟩
    · rintro ⟨hi | hi, hout⟩
      · exact .inl hi
      · exact .inr ⟨hi, hout⟩

theorem subtracts_removeTree {t : Tree Interval} (h : Canonical t.toList) (hlt : start < stop) :
    Subtracts start stop t.toList (removeTree start stop t).toList := by
  obtain ⟨as, bs, htl, hplace, ha, hb⟩ := @firstPlace_spec t start 0 h
  have hlen : bs.length ≤ t.size := by
    rw [← t.length_toList, htl, length_append]
    omega
  rw [removeTree, hplace, Nat.zero_add, toList_removeLoop hlen htl, htl]
  exact subtracts_append (htl ▸ h) ha hb hlt

/-! ## Cutting off the end -/

/-- The loop of `psync_interval_tree_get_cut_end`, at the last node. -/
def cutEndLoop (stop : ℕ) : ℕ → Tree Interval → Tree Interval
  | 0, t => t
  | fuel + 1, t =>
    match t.toList[t.size - 1]? with
    | none => t
    | some last =>
      if last.stop ≤ stop then t
      else if last.start < stop then t.modifyAt (t.size - 1) fun e => { e with stop }
      else cutEndLoop stop fuel (t.removeAt (t.size - 1))

/-- `psync_interval_tree_cut_end` -/
def cutEndTree (stop : ℕ) (t : Tree Interval) : Tree Interval := cutEndLoop stop t.size t

/-- The sequence `l'` covers the points of `l` before `stop`. -/
def CutsEnd (stop : ℕ) (l l' : List Interval) : Prop :=
  Canonical l' ∧ ∀ i, Covered l' i ↔ Covered l i ∧ i < stop

theorem cutsEnd_cutEndLoop {t : Tree Interval} {fuel : ℕ} (hf : t.size ≤ fuel)
    (h : Canonical t.toList) : CutsEnd stop t.toList (cutEndLoop stop fuel t).toList := by
  induction fuel generalizing t with
  | zero =>
    have ht := Tree.size_eq_zero.1 (Nat.le_zero.1 hf)
    subst ht
    exact ⟨h, fun i => ⟨fun hi => absurd hi not_covered_nil, And.left⟩⟩
  | succ fuel ih =>
    rcases eq_nil_or_concat t.toList with hnil | ⟨as, last, hlast⟩
    · have hsize : t.size = 0 := by rw [← t.length_toList, hnil, length_nil]
      have ht := Tree.size_eq_zero.1 hsize
      subst ht
      exact ⟨h, fun i => ⟨fun hi => absurd hi not_covered_nil, And.left⟩⟩
    · rw [concat_eq_append] at hlast
      have hsize : t.size = as.length + 1 := by rw [← t.length_toList, hlast]; simp
      have hk : t.toList[as.length]? = some last := by simp [hlast]
      obtain ⟨has, hl, hsep⟩ := canonical_append.1 (hlast ▸ h)
      have hle : ∀ i, Covered as i → i < last.start := by
        rintro i ⟨a, m, -, hi⟩
        exact hi.trans (hsep a m last (mem_singleton_self _))
      have hlt := hl.lt last (mem_singleton_self _)
      rw [cutEndLoop, hsize, Nat.add_sub_cancel, hk]
      dsimp only
      split_ifs with h1 h2
      · refine ⟨h, fun i => (and_iff_left_of_imp ?_).symm⟩
        rw [hlast, covered_append, covered_cons]
        rintro (hi | hi | hi)
        · have := hle i hi
          omega
        · omega
        · exact absurd hi not_covered_nil
      · rw [Tree.toList_modifyAt _ hlast, hlast]
        refine ⟨canonical_append.2 ⟨has, canonical_cons.2 ⟨h2, canonical_nil, ?_⟩, ?_⟩, fun i => ?_⟩
        · exact forall_mem_nil _
        · exact fun a m b mb => mem_singleton.1 mb ▸ hsep a m last (mem_singleton_self _)
        · have := hle i
          simp only [covered_append, covered_cons, not_covered_nil, or_false]
          constructor
          · rintro (hi | hi)
            · exact ⟨.inl hi, (this hi).trans h2⟩
            · exact ⟨.inr ⟨hi.1, by omega⟩, hi.2⟩
          · rintro ⟨hi | hi, hlt'⟩
            · exact .inl hi
            · exact .inr ⟨hi.1, hlt'⟩
      · have hrem : (t.removeAt as.length).toList = as := by
          rw [Tree.toList_removeAt hlast, append_nil]
        have hsize' : (t.removeAt as.length).size ≤ fuel := by
          rw [← Tree.length_toList, hrem]
          omega
        obtain ⟨hcan, hcov⟩ := ih hsize' (hrem.symm ▸ has)
        refine ⟨hcan, fun i => ?_⟩
        rw [hcov, hrem, hlast, covered_append, covered_cons]
        refine and_congr_left fun hi => (or_iff_left ?_).symm
        rintro (hi' | hi')
        · omega
        · exact not_covered_nil hi'

theorem cutsEnd_cutEndTree {t : Tree Interval} (h : Canonical t.toList) :
    CutsEnd stop t.toList (cutEndTree stop t).toList :=
  cutsEnd_cutEndLoop le_rfl h

/-! ## Balance -/

theorem avl_consumeIntervals {t : Tree Interval} (h : t.Avl) (fuel k : ℕ) :
    (consumeIntervals fuel t k).Avl := by
  induction fuel generalizing t with
  | zero => exact h
  | succ fuel ih =>
    rw [consumeIntervals]
    split
    · have hrem := (Tree.avl_removeAt h (k + 1)).1
      split_ifs
      · exact h
      · exact Tree.avl_modifyAt hrem _ _
      · exact ih hrem
    · exact h

theorem avl_addTree {t : Tree Interval} (h : t.Avl) : (addTree start stop t).Avl := by
  rw [addTree]
  split
  · split
    · exact h
    · split_ifs
      · exact h
      · exact avl_consumeIntervals (Tree.avl_modifyAt h _ _) _ _
  · exact Tree.avl_modifyAt h _ _
  · exact avl_consumeIntervals (Tree.avl_insertAt h _ _).1 _ _

theorem avl_removeLoop {t : Tree Interval} (h : t.Avl) (fuel k : ℕ) :
    (removeLoop start stop fuel t k).Avl := by
  induction fuel generalizing t k with
  | zero => exact h
  | succ fuel ih =>
    rw [removeLoop]
    split
    · exact h
    · split_ifs
      · exact Tree.avl_modifyAt (Tree.avl_insertAt h _ _).1 _ _
      · exact ih (Tree.avl_removeAt (Tree.avl_modifyAt h _ _) _).1 _
      · exact ih (Tree.avl_modifyAt h _ _) _
      · exact ih (Tree.avl_modifyAt h _ _) _
      · exact h

theorem avl_cutEndLoop {t : Tree Interval} (h : t.Avl) (fuel : ℕ) :
    (cutEndLoop stop fuel t).Avl := by
  induction fuel generalizing t with
  | zero => exact h
  | succ fuel ih =>
    rw [cutEndLoop]
    split
    · exact h
    · split_ifs
      · exact h
      · exact Tree.avl_modifyAt h _ _
      · exact ih (Tree.avl_removeAt h _).1

/-! ## Runs -/

/-- A call with a nonempty interval, or one that cuts off the end. -/
inductive IntervalOp
  | add (start stop : ℕ) (h : start < stop)
  | remove (start stop : ℕ) (h : start < stop)
  | cutEnd (stop : ℕ)

namespace IntervalOp

def apply (t : Tree Interval) : IntervalOp → Tree Interval
  | add start stop _ => addTree start stop t
  | remove start stop _ => removeTree start stop t
  | cutEnd stop => cutEndTree stop t

/-- The calls, one after another, on an empty tree. -/
def run (ops : List IntervalOp) : Tree Interval := ops.foldl apply .nil

/-- The points that are added, removed or cut off. -/
def denoteOp (s : Set ℕ) : IntervalOp → Set ℕ
  | add start stop _ => s ∪ Set.Ico start stop
  | remove start stop _ => s \ Set.Ico start stop
  | cutEnd stop => s \ Set.Ici stop

/-- The set of points that a sequence of calls stands for. -/
def denote (ops : List IntervalOp) : Set ℕ := ops.foldl denoteOp ∅

/-- What holds of the tree between two calls. -/
structure Inv (t : Tree Interval) (s : Set ℕ) : Prop where
  canonical : Canonical t.toList
  covered : ∀ i, Covered t.toList i ↔ i ∈ s
  avl : t.Avl

theorem Inv.apply {t : Tree Interval} {s : Set ℕ} (h : Inv t s) (op : IntervalOp) :
    Inv (op.apply t) (op.denoteOp s) := by
  cases op with
  | add start stop hlt =>
    obtain ⟨hcan, hcov⟩ := adds_addTree h.canonical hlt
    exact ⟨hcan, fun i => (hcov i).trans (or_congr (h.covered i) Iff.rfl), avl_addTree h.avl⟩
  | remove start stop hlt =>
    obtain ⟨hcan, hcov⟩ := subtracts_removeTree h.canonical hlt
    exact ⟨hcan, fun i => (hcov i).trans (and_congr (h.covered i) Iff.rfl),
      avl_removeLoop h.avl _ _⟩
  | cutEnd stop =>
    have hcut : CutsEnd stop _ (cutEndTree stop t).toList := cutsEnd_cutEndTree h.canonical
    obtain ⟨hcan, hcov⟩ := hcut
    exact ⟨hcan, fun i => (hcov i).trans (and_congr (h.covered i) not_le.symm),
      avl_cutEndLoop h.avl _⟩

theorem Inv.foldl {t : Tree Interval} {s : Set ℕ} (h : Inv t s) (ops : List IntervalOp) :
    Inv (ops.foldl IntervalOp.apply t) (ops.foldl denoteOp s) := by
  induction ops generalizing t s with
  | nil => exact h
  | cons op ops ih => exact ih (h.apply op)

theorem inv_nil : Inv .nil ∅ :=
  ⟨canonical_nil, fun _ => ⟨fun hi => absurd hi not_covered_nil, False.elim⟩, trivial⟩

/-- `psync_interval_tree_first_interval_containing_or_after` -/
def firstContainingOrAfter (point : ℕ) (t : Tree Interval) : Option Interval :=
  t.toList[firstPlace point t 0]?

/-- The lookup gives the interval that contains the point, and if there is none, the first one after
    it. -/
theorem firstContainingOrAfter_spec {t : Tree Interval} (h : Canonical t.toList) (point : ℕ) :
    (∀ e ∈ t.toList, e.start ≤ point → point < e.stop → firstContainingOrAfter point t = some e) ∧
      (¬ Covered t.toList point →
        firstContainingOrAfter point t = t.toList.find? fun e => point < e.start) := by
  obtain ⟨as, bs, htl, hplace, ha, hb⟩ := @firstPlace_spec t point 0 h
  have hres : firstContainingOrAfter point t = bs.head? := by
    rw [firstContainingOrAfter, hplace, Nat.zero_add, htl, getElem?_append_right le_rfl,
      Nat.sub_self, head?_eq_getElem?]
  obtain ⟨has, hbs, -⟩ := canonical_append.1 (htl ▸ h)
  rw [hres, htl]
  constructor
  · intro e m hle hlt
    rcases mem_append.1 m with m | m
    · have := ha e m
      omega
    · obtain _ | ⟨b, bs⟩ := bs
      · exact absurd m not_mem_nil
      · rcases mem_cons.1 m with rfl | m
        · rfl
        · have hlt' := (canonical_cons.1 hbs).2.2 e m
          have hpoint := hb b mem_cons_self
          omega
  · intro hnot
    have hbefore : as.find? (fun e => decide (point < e.start)) = none := by
      refine find?_eq_none.2 fun a m => ?_
      have hlt := has.lt a m
      have hle := ha a m
      rw [decide_eq_true_eq]
      omega
    rw [find?_append, hbefore, Option.none_or]
    obtain _ | ⟨b, bs⟩ := bs
    · rfl
    · have hpoint := hb b mem_cons_self
      have hstart : point < b.start := by
        by_contra hle
        exact hnot ⟨b, by simp, by omega, hpoint⟩
      rw [find?_cons_of_pos, head?_cons]
      exact decide_eq_true hstart

/-- After any calls the intervals are sorted, disjoint and not adjacent, they cover the points that
    the calls stand for, the tree is balanced, and lookups in it are right. -/
theorem run_spec (ops : List IntervalOp) :
    Canonical (run ops).toList ∧ (∀ i, Covered (run ops).toList i ↔ i ∈ denote ops) ∧
      (run ops).Avl ∧ ∀ point, (∀ e ∈ (run ops).toList, e.start ≤ point → point < e.stop →
          firstContainingOrAfter point (run ops) = some e) ∧
        (point ∉ denote ops → firstContainingOrAfter point (run ops) =
          (run ops).toList.find? fun e => point < e.start) := by
  have h := inv_nil.foldl ops
  refine ⟨h.canonical, h.covered, h.avl, fun point => ?_⟩
  obtain ⟨hin, hafter⟩ := firstContainingOrAfter_spec h.canonical point
  exact ⟨hin, fun hnot => hafter fun hc => hnot ((h.covered point).1 hc)⟩

end IntervalOp

end Pclsync
