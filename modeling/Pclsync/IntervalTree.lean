import Mathlib.Data.List.Pairwise
import Pclsync.Tree

/-!
# Interval trees

The trees of `pintervaltree.c`: nodes `[start, stop)` (`from` and `to` in the source), sorted, with
gaps between them (`Canonical`). `IntervalTree` carries this invariant, and is used as the set of
the points it covers.

* `IntervalTree.add`: `psync_interval_tree_add`. The descent of `psync_interval_tree_get_add` is
  `place`, and `psync_interval_tree_consume_intervals` is `consumeIntervals`.
  `IntervalTree.mem_add`: the points covered are those covered before and those of the interval
added. * `IntervalTree.firstContainingOrAfter`: the first interval ending after a point, and
  `IntervalTree.containingOrAfter` the intervals from there on.
  `IntervalTree.covered_containingOrAfter`: they cover the points of the tree from that point on.
-/

namespace Pclsync

open List

/-- An interval `[start, stop)`, `psync_interval_tree_t` without its links. -/
structure Interval where
  start : ℕ
  stop : ℕ
  deriving DecidableEq

/-- Nonempty intervals, in order, each ending before the next one starts. -/
structure Canonical (l : List Interval) : Prop where
  lt : ∀ a ∈ l, a.start < a.stop
  sep : l.Pairwise fun a b => a.stop < b.start

/-- The point `i` lies in one of the intervals. -/
def Covered (l : List Interval) (i : ℕ) : Prop := ∃ a ∈ l, a.start ≤ i ∧ i < a.stop

instance (l : List Interval) (i : ℕ) : Decidable (Covered l i) :=
  inferInstanceAs (Decidable (∃ a ∈ l, a.start ≤ i ∧ i < a.stop))

variable {l as bs : List Interval} {e : Interval} {start stop i k : ℕ}

theorem canonical_nil : Canonical [] := ⟨by simp, .nil⟩

theorem canonical_append : Canonical (as ++ bs) ↔
    Canonical as ∧ Canonical bs ∧ ∀ a ∈ as, ∀ b ∈ bs, a.stop < b.start := by
  refine ⟨fun h => ?_, fun ⟨ha, hb, hab⟩ => ⟨?_, pairwise_append.2 ⟨ha.sep, hb.sep, hab⟩⟩⟩
  · obtain ⟨ha, hb, hab⟩ := pairwise_append.1 h.sep
    exact ⟨⟨fun a m => h.lt a (mem_append_left _ m), ha⟩,
      ⟨fun b m => h.lt b (mem_append_right _ m), hb⟩, hab⟩
  · intro a m
    rcases mem_append.1 m with m | m
    exacts [ha.lt a m, hb.lt a m]

theorem canonical_cons : Canonical (e :: l) ↔
    e.start < e.stop ∧ Canonical l ∧ ∀ b ∈ l, e.stop < b.start := by
  refine ⟨fun h => ?_, fun ⟨he, hl, hel⟩ => ⟨?_, pairwise_cons.2 ⟨hel, hl.sep⟩⟩⟩
  · obtain ⟨hel, hl⟩ := pairwise_cons.1 h.sep
    exact ⟨h.lt e (mem_cons_self ..), ⟨fun a m => h.lt a (mem_cons_of_mem _ m), hl⟩, hel⟩
  · intro a m
    rcases mem_cons.1 m with rfl | m
    exacts [he, hl.lt a m]

@[simp] theorem not_covered_nil : ¬Covered [] i := by simp [Covered]

@[simp] theorem covered_cons : Covered (e :: l) i ↔ (e.start ≤ i ∧ i < e.stop) ∨ Covered l i := by
  simp [Covered]

@[simp] theorem covered_append : Covered (as ++ bs) i ↔ Covered as i ∨ Covered bs i := by
  simp [Covered, or_and_right, exists_or]

theorem Canonical.suffix (h : Canonical l) (hs : as <:+ l) : Canonical as :=
  ⟨fun a m => h.lt a (hs.mem m), h.sep.sublist hs.sublist⟩

/-- Intervals which end before a point do not matter from there on. -/
theorem covered_dropWhile (h : k ≤ i) : Covered (l.dropWhile (·.stop ≤ k)) i ↔ Covered l i := by
  induction l with
  | nil => rfl
  | cons e l ih =>
    rw [dropWhile_cons]
    split_ifs with he
    · rw [decide_eq_true_eq] at he
      rw [ih, covered_cons]
      exact ⟨.inr, fun h => h.elim (fun h => absurd h.2 (by omega)) id⟩
    · rfl

/-- No point before the first interval is covered. -/
theorem Canonical.not_covered (h : Canonical l) (hk : l.head?.all (k ≤ ·.start) = true)
    (hi : i < k) : ¬Covered l i := by
  rintro ⟨e, m, he, -⟩
  rcases l with _ | ⟨a, l⟩
  · exact not_mem_nil m
  · rw [head?_cons, Option.all_some, decide_eq_true_eq] at hk
    rcases mem_cons.1 m with rfl | m
    · omega
    · have := h.lt a (mem_cons_self ..)
      have := (canonical_cons.1 h).2.2 e m
      omega

/-! ## Consuming the intervals an interval has grown over -/

/-- `psync_interval_tree_consume_intervals` on the sequence of the intervals following `e`. -/
def consume (e : Interval) : List Interval → List Interval
  | [] => [e]
  | next :: rest =>
    if e.stop < next.start then e :: next :: rest
    else if e.stop ≤ next.stop then { e with stop := next.stop } :: rest
    else consume e rest

theorem start_le_of_mem_consume (hl : ∀ b ∈ l, e.start ≤ b.start) :
    ∀ a ∈ consume e l, e.start ≤ a.start := by
  induction l with
  | nil => simp [consume]
  | cons n l ih =>
    have hn := hl n (mem_cons_self ..)
    have hl' : ∀ b ∈ l, e.start ≤ b.start := fun b m => hl b (mem_cons_of_mem _ m)
    rw [consume]
    split_ifs
    · simpa [hn] using hl'
    · simpa using hl'
    · exact ih hl'

theorem canonical_consume (he : e.start < e.stop) (hl : Canonical l) : Canonical (consume e l) := by
  induction l with
  | nil => exact canonical_cons.2 ⟨he, hl, by simp⟩
  | cons n l ih =>
    obtain ⟨hn, hl', hnl⟩ := canonical_cons.1 hl
    rw [consume]
    split_ifs with h1 h2
    · refine canonical_cons.2 ⟨he, hl, fun b m => ?_⟩
      rcases mem_cons.1 m with rfl | m
      · exact h1
      · exact h1.trans (hn.trans (hnl b m))
    · exact canonical_cons.2 ⟨he.trans_le h2, hl', hnl⟩
    · exact ih hl'

theorem covered_consume (hl : Canonical l) (hs : ∀ b ∈ l, e.start ≤ b.start) :
    Covered (consume e l) i ↔ (e.start ≤ i ∧ i < e.stop) ∨ Covered l i := by
  induction l with
  | nil => simp [consume]
  | cons n l ih =>
    obtain ⟨hn, hl', -⟩ := canonical_cons.1 hl
    have hen := hs n (mem_cons_self ..)
    rw [consume]
    split_ifs with h1 h2
    · rw [covered_cons]
    · rw [covered_cons, covered_cons, ← or_assoc]
      refine or_congr ?_ Iff.rfl
      dsimp only
      omega
    · rw [ih hl' fun b m => hs b (mem_cons_of_mem _ m), covered_cons, ← or_assoc]
      refine or_congr ?_ Iff.rfl
      omega

/-- `psync_interval_tree_consume_intervals` for the node at position `k`; each round of the loop
    takes out one node, so that `fuel` rounds are enough when that many nodes follow. -/
def consumeIntervals : ℕ → Tree Interval → ℕ → Tree Interval
  | 0, t, _ => t
  | fuel + 1, t, k =>
    match t.toList[k]?, t.toList[k + 1]? with
    | some e, some next =>
      if e.stop < next.start then t
      else
        let t' := t.removeAt (k + 1)
        if e.stop ≤ next.stop then t'.modifyAt k fun e => { e with stop := next.stop }
        else consumeIntervals fuel t' k
    | _, _ => t

theorem toList_consumeIntervals {t : Tree Interval} {fuel : ℕ} (hf : bs.length ≤ fuel)
    (h : t.toList = as ++ e :: bs) :
    (consumeIntervals fuel t as.length).toList = as ++ consume e bs := by
  induction fuel generalizing t bs with
  | zero =>
    obtain rfl : bs = [] := by simpa using hf
    exact h
  | succ fuel ih =>
    have he : t.toList[as.length]? = some e := by simp [h]
    cases bs with
    | nil =>
      have hn : t.toList[as.length + 1]? = none := by simp [h]
      rw [consumeIntervals, he, hn]
      exact h
    | cons n bs =>
      have hn : t.toList[as.length + 1]? = some n := by simp [h]
      have h' : t.toList = (as ++ [e]) ++ n :: bs := by simp [h]
      have hrem : (t.removeAt (as.length + 1)).toList = as ++ e :: bs := by
        simpa using Tree.toList_removeAt h'
      rw [consumeIntervals, he, hn, consume]
      dsimp only
      split_ifs
      · exact h
      · exact Tree.toList_modifyAt _ hrem
      · exact ih (Nat.le_of_succ_le_succ hf) hrem

/-! ## Adding an interval -/

/-- Where the descent of `psync_interval_tree_get_add` ends. -/
inductive Place
  /-- at a node which contains the start of the interval -/
  | grow (k : ℕ)
  /-- at a node which the interval extends to the left -/
  | prepend (k : ℕ)
  /-- between two nodes -/
  | insert (k : ℕ)

/-- The descent of `psync_interval_tree_get_add`, in a subtree with `base` nodes on its left. -/
def place (start stop : ℕ) : Tree Interval → ℕ → Place
  | .nil, base => .insert base
  | .node l e r _, base =>
    if e.start ≤ start ∧ start ≤ e.stop then .grow (base + l.size)
    else if start < e.start then
      if l.size ≠ 0 then place start stop l base
      else if e.start ≤ stop ∧ stop ≤ e.stop then .prepend base
      else .insert base
    else place start stop r (base + l.size + 1)

/-- What the place of an interval says about the intervals on both sides of it. -/
inductive PlaceSpec (start stop : ℕ) (l : List Interval) (base : ℕ) : Place → Prop
  | grow {as bs : List Interval} {e : Interval} : l = as ++ e :: bs →
      e.start ≤ start → start ≤ e.stop → PlaceSpec start stop l base (.grow (base + as.length))
  | prepend {as bs : List Interval} {e : Interval} : l = as ++ e :: bs →
      (∀ a ∈ as, a.stop < start) → start < e.start → e.start ≤ stop → stop ≤ e.stop →
      PlaceSpec start stop l base (.prepend (base + as.length))
  | insert {as bs : List Interval} : l = as ++ bs →
      (∀ a ∈ as, a.stop < start) → (∀ b ∈ bs, start < b.start) →
      PlaceSpec start stop l base (.insert (base + as.length))

theorem PlaceSpec.append_right {base : ℕ} {p : Place} (h : PlaceSpec start stop as base p)
    (hb : ∀ b ∈ bs, start < b.start) : PlaceSpec start stop (as ++ bs) base p := by
  cases h with
  | grow h h1 h2 => exact .grow (by rw [h, append_assoc, cons_append]) h1 h2
  | prepend h h1 h2 h3 h4 =>
    exact .prepend (by rw [h, append_assoc, cons_append]) h1 h2 h3 h4
  | insert h h1 h2 =>
    refine .insert (by rw [h, append_assoc]) h1 fun b m => ?_
    rcases mem_append.1 m with m | m
    exacts [h2 b m, hb b m]

theorem PlaceSpec.append_left {base : ℕ} {p : Place}
    (h : PlaceSpec start stop bs (base + as.length) p) (ha : ∀ a ∈ as, a.stop < start) :
    PlaceSpec start stop (as ++ bs) base p := by
  have hmem : ∀ {cs : List Interval}, (∀ c ∈ cs, c.stop < start) → ∀ a ∈ as ++ cs, a.stop < start :=
    fun hc a m => (mem_append.1 m).elim (ha a) (hc a)
  cases h with
  | @grow cs ds e h h1 h2 =>
    rw [Nat.add_assoc, ← length_append]
    exact .grow (by rw [h, append_assoc]) h1 h2
  | @prepend cs ds e h h1 h2 h3 h4 =>
    rw [Nat.add_assoc, ← length_append]
    exact .prepend (by rw [h, append_assoc]) (hmem h1) h2 h3 h4
  | @insert cs ds h h1 h2 =>
    rw [Nat.add_assoc, ← length_append]
    exact .insert (by rw [h, append_assoc]) (hmem h1) h2

theorem placeSpec_place (t : Tree Interval) (base : ℕ) (h : Canonical t.toList) :
    PlaceSpec start stop t.toList base (place start stop t base) := by
  induction t generalizing base with
  | nil => exact @PlaceSpec.insert start stop [] base [] [] rfl (by simp) (by simp)
  | node l e r _ ihl ihr =>
    obtain ⟨hl, her, hle⟩ := canonical_append.1 h
    obtain ⟨he, hr, her⟩ := canonical_cons.1 her
    have hright : start < e.start → ∀ b ∈ e :: r.toList, start < b.start := by
      intro hlt b m
      rcases mem_cons.1 m with rfl | m
      · exact hlt
      · exact hlt.trans (he.trans (her b m))
    rw [place]
    split_ifs with h1 h2 h3 h4
    · rw [← l.length_toList]
      exact .grow rfl h1.1 h1.2
    · exact (ihl base hl).append_right (hright h2)
    · obtain rfl := Tree.size_eq_zero.1 (not_not.1 h3)
      exact @PlaceSpec.prepend start stop _ base [] r.toList e rfl (by simp) h2 h4.1 h4.2
    · obtain rfl := Tree.size_eq_zero.1 (not_not.1 h3)
      exact @PlaceSpec.insert start stop _ base [] (e :: r.toList) rfl (by simp) (hright h2)
    · have hlt : e.stop < start := by omega
      have hleft : ∀ a ∈ l.toList ++ [e], a.stop < start := by
        intro a m
        rcases mem_append.1 m with m | m
        · exact (hle a m e (mem_cons_self ..)).trans (he.trans hlt)
        · exact mem_singleton.1 m ▸ hlt
      rw [Tree.toList_node, append_cons]
      exact PlaceSpec.append_left (by simpa [Nat.add_assoc] using ihr (base + l.size + 1) hr) hleft

/-- `psync_interval_tree_get_add` on a tree. -/
def addTree (start stop : ℕ) (t : Tree Interval) : Tree Interval :=
  match place start stop t 0 with
  | .grow k =>
    match t.toList[k]? with
    | none => t
    | some e =>
      if stop ≤ e.stop then t
      else consumeIntervals t.size (t.modifyAt k fun e => { e with stop }) k
  | .prepend k => t.modifyAt k fun e => { e with start }
  | .insert k => consumeIntervals t.size (t.insertAt k ⟨start, stop⟩) k

/-- The sequence `l'` covers the points of `l` and those of `[start, stop)`. -/
def Adds (start stop : ℕ) (l l' : List Interval) : Prop :=
  Canonical l' ∧ ∀ i, Covered l' i ↔ Covered l i ∨ (start ≤ i ∧ i < stop)

theorem adds_inside (h : Canonical (as ++ e :: bs)) (h1 : e.start ≤ start) (h2 : stop ≤ e.stop) :
    Adds start stop (as ++ e :: bs) (as ++ e :: bs) :=
  ⟨h, fun _ => (or_iff_left_of_imp fun hi =>
    ⟨e, by simp, h1.trans hi.1, hi.2.trans_le h2⟩).symm⟩

theorem adds_grow (h : Canonical (as ++ e :: bs)) (h1 : e.start ≤ start) (h2 : start ≤ e.stop)
    (h3 : e.stop < stop) :
    Adds start stop (as ++ e :: bs) (as ++ consume { e with stop } bs) := by
  obtain ⟨ha, heb, hae⟩ := canonical_append.1 h
  obtain ⟨he, hb, hebs⟩ := canonical_cons.1 heb
  have hbe : ∀ b ∈ bs, e.start ≤ b.start := fun b m => (he.trans (hebs b m)).le
  refine ⟨canonical_append.2 ⟨ha, canonical_consume (he.trans h3) hb, ?_⟩, fun i => ?_⟩
  · intro a m c mc
    have hec := start_le_of_mem_consume (e := { e with stop }) hbe c mc
    exact (hae a m e (mem_cons_self ..)).trans_le hec
  · rw [covered_append, covered_consume (e := { e with stop }) hb hbe, covered_append, covered_cons]
    have hi : (e.start ≤ i ∧ i < stop) ↔ (e.start ≤ i ∧ i < e.stop) ∨ (start ≤ i ∧ i < stop) := by
      omega
    rw [hi]
    tauto

theorem adds_prepend (h : Canonical (as ++ e :: bs)) (ha : ∀ a ∈ as, a.stop < start)
    (h1 : start < e.start) (h2 : e.start ≤ stop) (h3 : stop ≤ e.stop) :
    Adds start stop (as ++ e :: bs) (as ++ { e with start } :: bs) := by
  obtain ⟨has, heb, hae⟩ := canonical_append.1 h
  obtain ⟨he, hb, hebs⟩ := canonical_cons.1 heb
  refine ⟨canonical_append.2 ⟨has, canonical_cons.2 ⟨h1.trans he, hb, hebs⟩, ?_⟩, fun i => ?_⟩
  · intro a m c mc
    rcases mem_cons.1 mc with rfl | mc
    · exact ha a m
    · exact hae a m c (mem_cons_of_mem _ mc)
  · simp only [covered_append, covered_cons]
    have hi : (start ≤ i ∧ i < e.stop) ↔ (e.start ≤ i ∧ i < e.stop) ∨ (start ≤ i ∧ i < stop) := by
      omega
    rw [hi]
    tauto

theorem adds_insert (h : Canonical (as ++ bs)) (ha : ∀ a ∈ as, a.stop < start)
    (hb : ∀ b ∈ bs, start < b.start) (hlt : start < stop) :
    Adds start stop (as ++ bs) (as ++ consume ⟨start, stop⟩ bs) := by
  obtain ⟨has, hbs, -⟩ := canonical_append.1 h
  have hbe : ∀ b ∈ bs, start ≤ b.start := fun b m => (hb b m).le
  refine ⟨canonical_append.2 ⟨has, canonical_consume hlt hbs, ?_⟩, fun i => ?_⟩
  · intro a m c mc
    exact (ha a m).trans_le (start_le_of_mem_consume (e := ⟨start, stop⟩) hbe c mc)
  · rw [covered_append, covered_consume hbs hbe, covered_append]
    tauto

theorem adds_addTree {t : Tree Interval} (h : Canonical t.toList) (hlt : start < stop) :
    Adds start stop t.toList (addTree start stop t).toList := by
  have hp : PlaceSpec start stop t.toList 0 (place start stop t 0) := placeSpec_place t 0 h
  rw [addTree]
  generalize place start stop t 0 = p at hp
  cases hp with
  | @grow as bs e htl h1 h2 =>
    have hk : t.toList[0 + as.length]? = some e := by simp [htl]
    have hlen : bs.length ≤ t.size := by rw [← t.length_toList, htl]; simp; omega
    dsimp only
    rw [hk]
    dsimp only
    split_ifs with h3
    · rw [htl]
      exact adds_inside (htl ▸ h) h1 h3
    · rw [Nat.zero_add, toList_consumeIntervals hlen (Tree.toList_modifyAt _ htl), htl]
      exact adds_grow (htl ▸ h) h1 h2 (not_le.1 h3)
  | @prepend as bs e htl h1 h2 h3 h4 =>
    dsimp only
    rw [Nat.zero_add, Tree.toList_modifyAt _ htl, htl]
    exact adds_prepend (htl ▸ h) h1 h2 h3 h4
  | @insert as bs htl h1 h2 =>
    have hlen : bs.length ≤ t.size := by rw [← t.length_toList, htl]; simp
    dsimp only
    rw [Nat.zero_add, toList_consumeIntervals hlen (Tree.toList_insertAt _ htl), htl]
    exact adds_insert (htl ▸ h) h1 h2 hlt

/-! ## Looking up an interval -/

/-- The position at which the descent of
    `psync_interval_tree_first_interval_containing_or_after` ends, in a subtree with `base` nodes
    on its left; it is the number of nodes when there is no such interval. -/
def firstPlace (point : ℕ) : Tree Interval → ℕ → ℕ
  | .nil, base => base
  | .node l e r _, base =>
    if e.stop ≤ point then firstPlace point r (base + l.size + 1)
    else if e.start ≤ point then base + l.size
    else firstPlace point l base

theorem firstPlace_spec {t : Tree Interval} {point : ℕ} (base : ℕ) (h : Canonical t.toList) :
    ∃ as bs, t.toList = as ++ bs ∧ firstPlace point t base = base + as.length ∧
      (∀ a ∈ as, a.stop ≤ point) ∧ ∀ b ∈ bs, point < b.stop := by
  induction t generalizing base with
  | nil => exact ⟨[], [], rfl, rfl, by simp, by simp⟩
  | node l e r _ ihl ihr =>
    obtain ⟨hl, her, hle⟩ := canonical_append.1 h
    obtain ⟨he, hr, her⟩ := canonical_cons.1 her
    have hleft : ∀ a ∈ l.toList, a.stop < e.start := fun a m => hle a m e (mem_cons_self ..)
    have hright : point < e.stop → ∀ b ∈ e :: r.toList, point < b.stop := by
      intro hlt b m
      rcases mem_cons.1 m with rfl | m
      · exact hlt
      · exact hlt.trans ((her b m).trans (hr.lt b m))
    rw [firstPlace]
    split_ifs with h1 h2
    · obtain ⟨as, bs, hab, hf, ha, hb⟩ := ihr (base + l.size + 1) hr
      refine ⟨l.toList ++ e :: as, bs, by simp [hab], by rw [hf]; simp; omega, ?_, hb⟩
      intro a m
      rcases mem_append.1 m with m | m
      · exact (hleft a m).le.trans (he.le.trans h1)
      · rcases mem_cons.1 m with rfl | m
        exacts [h1, ha a m]
    · refine ⟨l.toList, e :: r.toList, rfl, by simp, ?_, hright (not_le.1 h1)⟩
      exact fun a m => (hleft a m).le.trans h2
    · obtain ⟨as, bs, hab, hf, ha, hb⟩ := ihl base hl
      refine ⟨as, bs ++ e :: r.toList, by simp [hab], hf, ha, fun b m => ?_⟩
      rcases mem_append.1 m with m | m
      exacts [hb b m, hright (not_le.1 h1) b m]

/-! ## Interval trees as sets of points -/

/-- A tree whose intervals are canonical. -/
structure IntervalTree where
  tree : Tree Interval
  canonical : Canonical tree.toList

namespace IntervalTree

/-- The intervals, in order. -/
def toList (t : IntervalTree) : List Interval := t.tree.toList

theorem canonical_toList (t : IntervalTree) : Canonical t.toList := t.canonical

instance : EmptyCollection IntervalTree := ⟨⟨.nil, canonical_nil⟩⟩

instance : Membership ℕ IntervalTree := ⟨fun t i => Covered t.toList i⟩

theorem mem_def {t : IntervalTree} : i ∈ t ↔ ∃ a ∈ t.toList, a.start ≤ i ∧ i < a.stop := Iff.rfl

@[simp] theorem notMem_empty : i ∉ (∅ : IntervalTree) := not_covered_nil

theorem notMem_of_toList_eq_nil {t : IntervalTree} (h : t.toList = []) : i ∉ t := by
  simp [mem_def, h]

@[simp] theorem toList_empty : (∅ : IntervalTree).toList = [] := rfl

/-- `psync_interval_tree_add`, whose assertion is the hypothesis. -/
def add (t : IntervalTree) (start stop : ℕ) (h : start < stop) : IntervalTree :=
  ⟨addTree start stop t.tree, (adds_addTree t.canonical h).1⟩

@[simp] theorem mem_add {t : IntervalTree} {h : start < stop} :
    i ∈ t.add start stop h ↔ i ∈ t ∨ (start ≤ i ∧ i < stop) :=
  (adds_addTree t.canonical h).2 i

/-- The intervals at which a walk starting from
    `psync_interval_tree_first_interval_containing_or_after` and going on with
    `psync_interval_tree_get_next` passes. -/
def containingOrAfter (t : IntervalTree) (point : ℕ) : List Interval :=
  t.toList.drop (firstPlace point t.tree 0)

/-- `psync_interval_tree_first_interval_containing_or_after`. -/
def firstContainingOrAfter (t : IntervalTree) (point : ℕ) : Option Interval :=
  (t.containingOrAfter point).head?

instance (t : IntervalTree) (i : ℕ) : Decidable (i ∈ t) :=
  inferInstanceAs (Decidable (Covered t.toList i))

variable {t : IntervalTree} {point : ℕ}

theorem containingOrAfter_spec (t : IntervalTree) (point : ℕ) :
    ∃ as, t.toList = as ++ t.containingOrAfter point ∧ (∀ a ∈ as, a.stop ≤ point) ∧
      ∀ b ∈ t.containingOrAfter point, point < b.stop := by
  obtain ⟨as, bs, hab, hf, ha, hb⟩ := @firstPlace_spec _ point 0 t.canonical
  have hbs : t.containingOrAfter point = bs := by
    rw [containingOrAfter, hf, Nat.zero_add, toList, hab, drop_left]
  exact ⟨as, by rw [hbs]; exact hab, ha, by rwa [hbs]⟩

theorem canonical_containingOrAfter : Canonical (t.containingOrAfter point) := by
  obtain ⟨as, has, -⟩ := t.containingOrAfter_spec point
  exact (canonical_append.1 (has ▸ t.canonical_toList)).2.1

/-- From the point of the lookup on, the points covered are those of the intervals walked. -/
theorem covered_containingOrAfter (hi : point ≤ i) :
    Covered (t.containingOrAfter point) i ↔ i ∈ t := by
  obtain ⟨as, has, ha, -⟩ := t.containingOrAfter_spec point
  have hmem : i ∈ t ↔ Covered (as ++ t.containingOrAfter point) i := by rw [← has]; exact Iff.rfl
  refine hmem.trans (covered_append.trans (or_iff_right ?_)) |>.symm
  rintro ⟨a, m, -, hia⟩
  have := ha a m
  omega

theorem mem_toList_of_mem_containingOrAfter (h : e ∈ t.containingOrAfter point) : e ∈ t.toList :=
  mem_of_mem_drop h

/-- The point before an interval is not covered. -/
theorem notMem_of_lt_start (h : e ∈ t.toList) (hi : i + 1 = e.start) : i ∉ t := by
  rintro ⟨a, m, hai, hia⟩
  rcases mem_iff_append.1 h with ⟨as, bs, hl⟩
  obtain ⟨-, heb, hae⟩ := canonical_append.1 (hl ▸ t.canonical_toList)
  obtain ⟨he, -, hebs⟩ := canonical_cons.1 heb
  rw [hl] at m
  rcases mem_append.1 m with m | m
  · have := hae a m e (mem_cons_self ..)
    omega
  · rcases mem_cons.1 m with rfl | m
    · omega
    · have := hebs a m
      omega

end IntervalTree

end Pclsync
