import Pclsync.LinkedTree.Walks

/-!
# Trees after any calls

* `TreeOp`: the calls, and `TreeOp.Legal`: what their callers provide.
* `TreeOp.Edits`: the list operations that they stand for.
* `Reached.spec`: after any calls on a tree that starts empty, the tree is balanced and holds the
  list obtained by these operations, the walks through it are right, and the next call ends.
-/

namespace Pclsync

open List

variable {α : Type*} [DecidableEq α]

/-- The calls of `ptree.h` that change a tree. -/
inductive TreeOp (α : Type*)
  | addBefore (node : Option α) (newnode : α)
  | addAfter (node : Option α) (newnode : α)
  | addedAt (parent : Option α) (s : Side) (newnode : α)
  | add (comp : α → α → ℤ) (newnode : α)
  | del (node : α)

/-- The nodes in order, read from the left and right pointers. -/
inductive Heap.InOrder (H : Heap α) : Option α → List α → Prop
  | nil : H.InOrder none []
  | node {x : α} {as bs : List α} : H.InOrder (H x).left as → H.InOrder (H x).right bs →
      H.InOrder (some x) (as ++ x :: bs)

namespace TreeOp

variable {s s' : Option α × Heap α} {x y : α} {xs ys as bs : List α}

def apply (fuel : ℕ) : TreeOp α → Option α × Heap α → Option (Option α × Heap α)
  | addBefore node newnode, s =>
    (getAdd .left fuel s.1 node newnode s.2).map fun r => (some r.1, r.2)
  | addAfter node newnode, s =>
    (getAdd .right fuel s.1 node newnode s.2).map fun r => (some r.1, r.2)
  | addedAt parent side newnode, s =>
    (getAddedAt side fuel s.1 parent newnode s.2).map fun r => (some r.1, r.2)
  | add comp newnode, s => (getAddBy comp fuel s.1 newnode s.2).map fun r => (some r.1, r.2)
  | del node, s => s.1.bind fun tree => getDel fuel tree node s.2

/-- A new node is not in the tree, and other nodes are. -/
def LegalAt (op : TreeOp α) (H : Heap α) (xs : List α) : Prop :=
  match op with
  | addBefore node y => y ∉ xs ∧ ∀ x, node = some x → x ∈ xs
  | addAfter node y => y ∉ xs ∧ ∀ x, node = some x → x ∈ xs
  | addedAt none _ _ => xs = []
  | addedAt (some x) s y => y ∉ xs ∧ x ∈ xs ∧ (H x).child s = none
  | add _ y => y ∉ xs
  | del x => x ∈ xs

def Legal (op : TreeOp α) (s : Option α × Heap α) : Prop :=
  ∃ xs, s.2.InOrder s.1 xs ∧ op.LegalAt s.2 xs

/-- The list operation of a call. A comparison puts the new element between elements that compare
    as they should, and in a list that is sorted for it, after all that are not greater. -/
inductive Edits : TreeOp α → List α → List α → Prop
  | addBefore {x y : α} {as bs : List α} :
      Edits (.addBefore (some x) y) (as ++ x :: bs) (as ++ y :: x :: bs)
  | addLast {y : α} {xs : List α} : Edits (.addBefore none y) xs (xs ++ [y])
  | addAfter {x y : α} {as bs : List α} :
      Edits (.addAfter (some x) y) (as ++ x :: bs) (as ++ x :: y :: bs)
  | addFirst {y : α} {xs : List α} : Edits (.addAfter none y) xs (y :: xs)
  | addedAt {x y : α} {s : Side} {as bs : List α} :
      Edits (.addedAt (some x) s y) (as ++ x :: bs) (as ++ (beside s x y ++ bs))
  | addedRoot {y : α} {s : Side} : Edits (.addedAt none s y) [] [y]
  | add {comp : α → α → ℤ} {y : α} {as bs : List α} (hfound : FoundBy comp y as bs)
      (hsorted : ((as ++ bs).Pairwise fun a b => 0 ≤ comp y b → 0 ≤ comp y a) →
        (∀ a ∈ as, 0 ≤ comp y a) ∧ ∀ b ∈ bs, comp y b < 0) :
      Edits (.add comp y) (as ++ bs) (as ++ y :: bs)
  | del {x : α} {as bs : List α} : Edits (.del x) (as ++ x :: bs) (as ++ bs)

end TreeOp

/-- The states after the calls `ops` on an empty tree. -/
inductive Reached (fuel : ℕ) : List (TreeOp α) → Option α × Heap α → Prop
  | nil (H : Heap α) : Reached fuel [] (none, H)
  | snoc {ops : List (TreeOp α)} {op : TreeOp α} {s s' : Option α × Heap α} :
      Reached fuel ops s → op.Legal s → op.apply fuel s = some s' → Reached fuel (ops ++ [op]) s'

/-- The lists after the operations of the calls `ops` on an empty list. -/
inductive Edited : List (TreeOp α) → List α → Prop
  | nil : Edited [] []
  | snoc {ops : List (TreeOp α)} {op : TreeOp α} {xs ys : List α} :
      Edited ops xs → op.Edits xs ys → Edited (ops ++ [op]) ys

/-- The walks through the nodes `xs`. -/
structure Heap.Walks (H : Heap α) (tree : Option α) (xs : List α) : Prop where
  first : ∀ fuel, xs.length ≤ fuel → getEnd .left fuel tree H = some xs.head?
  last : ∀ fuel, xs.length ≤ fuel → getEnd .right fuel tree H = some xs.getLast?
  next : ∀ fuel as x bs, xs.length ≤ fuel → xs = as ++ x :: bs →
    getNeighbour .right fuel x H = some bs.head?
  prev : ∀ fuel as x bs, xs.length ≤ fuel → xs = as ++ x :: bs →
    getNeighbour .left fuel x H = some as.getLast?
  forEach : ∀ fuel, xs.length ≤ fuel → Pclsync.forEach xs.length fuel xs.head? H = some xs
  forEachSafe : ∀ fuel M, xs.length ≤ fuel → (∀ z ∈ xs, M z = some (H z)) →
    ∃ first ys, getFirstSafe fuel tree M = some first ∧
      Pclsync.forEachSafe xs.length fuel first M = some ys ∧ ys.Perm xs

/-! ## One call -/

section

omit [DecidableEq α]

variable {H : Heap α} {p tree : Option α} {t : Tree α} {xs ys as bs : List α} {x y : α}

theorem Heap.Rep.inOrder (hrep : H.Rep p t) : H.InOrder t.root t.toList := by
  induction t generalizing p with
  | nil => exact .nil
  | node l x r h ihl ihr =>
    obtain ⟨hx, hl, hr⟩ := hrep
    refine .node ?_ ?_
    · rw [hx]
      exact ihl hl
    · rw [hx]
      exact ihr hr

theorem Heap.InOrder.unique (hxs : H.InOrder tree xs) (hys : H.InOrder tree ys) : xs = ys := by
  induction hxs generalizing ys with
  | nil =>
    cases hys
    rfl
  | node hl hr ihl ihr =>
    obtain _ | ⟨hl', hr'⟩ := hys
    rw [ihl hl', ihr hr']

theorem Heap.Stored.legalAt {op : TreeOp α} (hH : H.Stored tree xs) (hop : op.Legal (tree, H)) :
    op.LegalAt H xs := by
  obtain ⟨t, ht, -, rfl⟩ := hH
  obtain ⟨ys, hys, hop⟩ := hop
  rw [← ht.root] at hys
  rwa [ht.rep.inOrder.unique hys]

/-- In a sorted list, the place that is found is after all elements that are not greater. -/
theorem FoundBy.of_sorted {comp : α → α → ℤ} (hfound : FoundBy comp y as bs)
    (hsorted : (as ++ bs).Pairwise fun a b => 0 ≤ comp y b → 0 ≤ comp y a) :
    (∀ a ∈ as, 0 ≤ comp y a) ∧ ∀ b ∈ bs, comp y b < 0 := by
  obtain ⟨has, hbs, -⟩ := pairwise_append.1 hsorted
  constructor
  · intro a ha
    obtain rfl | ⟨as, z, rfl⟩ := eq_nil_or_concat as
    · cases ha
    rw [concat_eq_append] at ha has hfound
    have hz := hfound.last z getLast?_concat
    rcases mem_append.1 ha with ha | ha
    · exact (pairwise_append.1 has).2.2 a ha z (mem_singleton.2 rfl) hz
    · exact mem_singleton.1 ha ▸ hz
  · intro b hb
    obtain _ | ⟨z, bs⟩ := bs
    · cases hb
    have hz := hfound.head z rfl
    rcases mem_cons.1 hb with rfl | hb
    · exact hz
    · exact not_le.1 fun hle => not_le.2 hz ((pairwise_cons.1 hbs).1 b hb hle)

end

section

variable {H : Heap α} {tree : Option α} {xs as bs : List α} {x y : α} {fuel : ℕ}

theorem Heap.Stored.exists_getAdd_some (s : Side) (hH : H.Stored tree (as ++ x :: bs))
    (hy : y ∉ as ++ x :: bs) (hfuel : (as ++ x :: bs).length ≤ fuel) :
    ∃ tree' H', getAdd s fuel tree (some x) y H = some (tree', H') ∧
      H'.Stored (some tree') (as ++ (beside s x y ++ bs)) := by
  cases tree with
  | none => exact absurd hH.eq_nil (by simp)
  | some tree =>
    obtain ⟨tree', H', hrun, hH', -⟩ := hH.exists_addBeside s hy hfuel
    exact ⟨tree', H', hrun, hH'⟩

theorem Heap.Stored.exists_getAdd_end (s : Side) (hH : H.Stored tree xs) (hy : y ∉ xs)
    (hfuel : xs.length ≤ fuel) :
    ∃ tree' H', getAdd s fuel tree none y H = some (tree', H') ∧
      H'.Stored (some tree') (atEnd s.other y xs) := by
  cases tree with
  | none =>
    obtain rfl := hH.eq_nil
    obtain ⟨H', hrun, hH', -⟩ := exists_getAdd_empty s none y fuel H
    refine ⟨y, H', hrun, ?_⟩
    cases s
    · exact hH'
    · exact hH'
  | some tree =>
    obtain ⟨tree', H', hrun, hH', -⟩ := hH.exists_getAdd_none s hy hfuel
    exact ⟨tree', H', hrun, hH'⟩

/-- Every call ends, and acts on the nodes in order as the list operation it stands for. -/
theorem Heap.Stored.exists_apply {op : TreeOp α} (hH : H.Stored tree xs) (hop : op.LegalAt H xs)
    (hfuel : xs.length ≤ fuel) :
    ∃ s' ys, op.apply fuel (tree, H) = some s' ∧ op.Edits xs ys ∧ s'.2.Stored s'.1 ys := by
  cases op with
  | addBefore node y =>
    obtain ⟨hy, hnode⟩ := hop
    cases node with
    | none =>
      obtain ⟨tree', H', hrun, hH'⟩ := hH.exists_getAdd_end .left hy hfuel
      exact ⟨_, _, congrArg (Option.map _) hrun, .addLast, hH'⟩
    | some x =>
      obtain ⟨as, bs, rfl⟩ := append_of_mem (hnode x rfl)
      obtain ⟨tree', H', hrun, hH'⟩ := hH.exists_getAdd_some .left hy hfuel
      exact ⟨_, _, congrArg (Option.map _) hrun, .addBefore, hH'⟩
  | addAfter node y =>
    obtain ⟨hy, hnode⟩ := hop
    cases node with
    | none =>
      obtain ⟨tree', H', hrun, hH'⟩ := hH.exists_getAdd_end .right hy hfuel
      exact ⟨_, _, congrArg (Option.map _) hrun, .addFirst, hH'⟩
    | some x =>
      obtain ⟨as, bs, rfl⟩ := append_of_mem (hnode x rfl)
      obtain ⟨tree', H', hrun, hH'⟩ := hH.exists_getAdd_some .right hy hfuel
      exact ⟨_, _, congrArg (Option.map _) hrun, .addAfter, hH'⟩
  | addedAt parent s y =>
    cases parent with
    | none =>
      obtain rfl : xs = [] := hop
      obtain ⟨H', hrun, hH', -⟩ := exists_getAddedAt_none s tree y fuel H
      refine ⟨(some y, H'), _, ?_, .addedRoot, hH'⟩
      rw [TreeOp.apply, hrun]
      rfl
    | some x =>
      obtain ⟨hy, hx, hchild⟩ := hop
      obtain ⟨as, bs, rfl⟩ := append_of_mem hx
      cases tree with
      | none => exact absurd hH.eq_nil (by simp)
      | some tree =>
        obtain ⟨tree', H', hrun, hH', -⟩ := hH.exists_getAddedAt s hchild hy hfuel
        exact ⟨_, _, congrArg (Option.map _) hrun, .addedAt, hH'⟩
  | add comp y =>
    obtain ⟨tree', H', as, bs, hrun, rfl, hH', hfound, -⟩ := hH.exists_getAddBy comp hop hfuel
    exact ⟨_, _, congrArg (Option.map _) hrun, .add hfound hfound.of_sorted, hH'⟩
  | del x =>
    obtain ⟨as, bs, rfl⟩ := append_of_mem hop
    cases tree with
    | none => exact absurd hH.eq_nil (by simp)
    | some tree =>
      obtain ⟨tree', H', hrun, hH', -⟩ := hH.exists_getDel hfuel
      exact ⟨_, _, hrun, .del, hH'⟩

theorem Heap.Stored.walks (hH : H.Stored tree xs) : H.Walks tree xs where
  first _ hfuel := hH.getEnd_eq .right hfuel
  last _ hfuel := hH.getEnd_eq .left hfuel
  next fuel as x bs hfuel hxs := by
    obtain rfl := hxs
    exact hH.getNeighbour_eq .right hfuel
  prev fuel as x bs hfuel hxs := by
    obtain rfl := hxs
    exact hH.getNeighbour_eq .left hfuel
  forEach _ hfuel :=
    have hH' : H.Stored tree ([] ++ xs) := hH
    hH'.forEach_eq hfuel le_rfl
  forEachSafe _ _ hfuel hM := hH.exists_forEachSafe hfuel hM

end

omit [DecidableEq α] in
theorem TreeOp.Edits.length_le {op : TreeOp α} {xs ys : List α} (h : op.Edits xs ys) :
    ys.length ≤ xs.length + 1 := by
  cases h with
  | @addedAt x y s as bs =>
    cases s
    all_goals
      simp only [beside, length_append, length_cons, length_nil]
      omega
  | _ =>
    simp only [length_append, length_cons, length_nil]
    omega

/-! ## Whole runs -/

/-- After the calls of a run, in memory is what the list operations give. -/
theorem Reached.exists_stored {fuel : ℕ} {ops : List (TreeOp α)} {s : Option α × Heap α}
    (hs : Reached fuel ops s) (hfuel : ops.length ≤ fuel) :
    ∃ xs, Edited ops xs ∧ s.2.Stored s.1 xs ∧ xs.length ≤ ops.length := by
  induction hs with
  | nil H => exact ⟨[], .nil, ⟨.nil, ⟨True.intro, rfl, nodup_nil⟩, True.intro, rfl⟩, le_rfl⟩
  | @snoc ops op s s' hs hop hrun ih =>
    rw [length_append, length_singleton] at hfuel ⊢
    obtain ⟨xs, hedited, hstored, hlen⟩ := ih (by omega)
    obtain ⟨s'', ys, hrun', hedits, hstored'⟩ :=
      hstored.exists_apply (hstored.legalAt hop) (show xs.length ≤ fuel by omega)
    obtain rfl := Option.some.inj (hrun'.symm.trans hrun)
    exact ⟨ys, hedited.snoc hedits, hstored', by have := hedits.length_le; omega⟩

/-- After any calls on a tree that starts empty, the tree is balanced, with exact heights and links
    that agree, and its nodes in order are what the list operations give; the walks through it are
    right, and the next call ends. -/
theorem Reached.spec {fuel : ℕ} {ops : List (TreeOp α)} {s : Option α × Heap α}
    (hs : Reached fuel ops s) (hfuel : ops.length ≤ fuel) :
    ∃ xs, Edited ops xs ∧ s.2.Stored s.1 xs ∧ s.2.Walks s.1 xs ∧
      ∀ op : TreeOp α, op.Legal s → ∃ s', op.apply fuel s = some s' := by
  obtain ⟨xs, hedited, hstored, hlen⟩ := hs.exists_stored hfuel
  refine ⟨xs, hedited, hstored, hstored.walks, fun op hop => ?_⟩
  obtain ⟨s', ys, hrun, -⟩ := hstored.exists_apply (hstored.legalAt hop) (hlen.trans hfuel)
  exact ⟨s', hrun⟩

/-- A run with a rotation, and the deletion of a node with two children. -/
theorem reached_rotation : ∃ s : Option ℕ × Heap ℕ, ∃ xs, Edited
      [.addAfter none 0, .addAfter (some 0) 1, .addAfter (some 1) 2, .del 1] xs ∧
    s.2.Stored s.1 xs := by
  have h0 : Reached 4 [] ((none, fun _ => ⟨none, none, none, 0⟩) : Option ℕ × Heap ℕ) := .nil _
  have l₁ : TreeOp.Legal (.addAfter none 0) (none, fun _ => ⟨none, none, none, 0⟩) :=
    ⟨[], .nil, by simp, by simp⟩
  have h1 := h0.snoc l₁ rfl
  have h2 := h1.snoc (show TreeOp.Legal (.addAfter (some 0) 1) _ from
    ⟨[] ++ [0], .node .nil .nil, by simp, by simp⟩) rfl
  have h3 := h2.snoc (show TreeOp.Legal (.addAfter (some 1) 2) _ from
    ⟨[] ++ 0 :: ([] ++ [1]), .node .nil (.node .nil .nil), by simp, by simp⟩) rfl
  have h4 := h3.snoc (show TreeOp.Legal (.del 1) _ from
    ⟨([] ++ [0]) ++ 1 :: ([] ++ [2]), .node (.node .nil .nil) (.node .nil .nil),
      mem_append_right _ mem_cons_self⟩) rfl
  obtain ⟨xs, hedited, hstored, -⟩ := h4.spec (by decide)
  exact ⟨_, xs, hedited, hstored⟩

end Pclsync
