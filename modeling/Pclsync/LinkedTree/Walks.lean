import Pclsync.KeyedTree
import Pclsync.LinkedTree.Deleting

/-!
# Walking through linked nodes

* `getNeighbour`, `forEach`: the walk in order; `Heap.Stored.forEach_eq`: it visits the nodes one
  after another.
* `getNextSafe`, `forEachSafe`: the walk that may free the nodes it has visited. Freed nodes cannot
  be read; `Heap.Stored.exists_forEachSafe`: every node is visited once.
-/

namespace Pclsync

open List Option

variable {α : Type*} [DecidableEq α]

/-! ## In order -/

/-- `psync_tree_get_first` for the left side, and `psync_tree_get_last` for the right one. -/
def getEnd (s : Side) (fuel : ℕ) (tree : Option α) (H : Heap α) : Option (Option α) :=
  match tree with
  | none => some none
  | some x => (walk s fuel x H).map some

/-- `while (tree->parent && tree==tree->parent->child) tree=tree->parent; return tree->parent` -/
def climb (s : Side) : ℕ → α → Heap α → Option (Option α)
  | 0, _, _ => none
  | fuel + 1, x, H =>
    match (H x).parent with
    | none => some none
    | some p => if (H p).child s = some x then climb s fuel p H else some (some p)

/-- `psync_tree_get_prev` for the left side, and `psync_tree_get_next` for the right one. -/
def getNeighbour (s : Side) (fuel : ℕ) (x : α) (H : Heap α) : Option (Option α) :=
  match (H x).child s with
  | some c => (walk s.other fuel c H).map some
  | none => climb s fuel x H

/-- `psync_tree_for_each_element_call` from a node on, for at most as many nodes as the first
    argument says. -/
def forEach : ℕ → ℕ → Option α → Heap α → Option (List α)
  | _, _, none, _ => some []
  | 0, _, some _, _ => none
  | n + 1, fuel, some x, H =>
    (getNeighbour .right fuel x H).bind fun y => (forEach n fuel y H).map (x :: ·)

/-- The nearest node on a side, of those around a subtree. -/
def nearest (s : Side) (as bs : List α) : Option α :=
  match s with
  | .left => as.getLast?
  | .right => bs.head?

namespace Heap

variable {s : Side} {H : Heap α} {t : Tree α} {x tree : α} {fuel : ℕ} {fs : List (Frame α)}
  {as bs xs : List α}

/-- The way up from a subtree ends at the nearest node around it. -/
theorem climb_eq (hrep : H.Rep none (.plug fs t)) (ht : t.root = some x)
    (hnodup : (Tree.plug fs t).toList.Nodup) (hfuel : fs.length < fuel) :
    climb s fuel x H = some (nearest s (Tree.before fs) (Tree.after fs)) := by
  induction fuel generalizing fs t x with
  | zero => exact absurd hfuel (Nat.not_lt_zero _)
  | succ fuel ih =>
    obtain ⟨hpath, hrept⟩ := rep_plug.1 hrep
    have hparent : (H x).parent = pathParent fs := by
      cases t with
      | nil => cases ht
      | node l y r h =>
        obtain ⟨⟩ := ht
        rw [hrept.1]
    rw [climb, hparent]
    cases fs with
    | nil => cases s <;> rfl
    | cons f fs =>
      obtain ⟨sf, e, b, hf, rfl⟩ := f.exists_fork
      have hxb : b.root ≠ some x := fun hz => (Tree.nodup_plug.1 hnodup).2.2 (Tree.mem_of_root ht)
        (Tree.perm_around_fork.mem_iff.2
          (mem_cons_of_mem _ (mem_append_left _ (Tree.mem_of_root hz))))
      have he := (repPath_fork.1 hpath).1
      rw [Tree.pathParent_fork]
      rw [Tree.plug_fork] at hrep hnodup
      dsimp only
      by_cases hs : sf = s
      · obtain rfl := hs
        rw [he, LinkedNode.child_fork, if_pos ht,
          ih hrep Tree.root_fork hnodup (Nat.lt_of_succ_lt_succ hfuel)]
        cases sf <;> rfl
      · obtain rfl : sf = s.other := by cases s <;> cases sf <;> first | rfl | exact absurd rfl hs
        rw [he, ← LinkedNode.fork_other, Side.other_other, LinkedNode.child_fork, if_neg hxb]
        cases s with
        | left =>
          rw [nearest, Side.other, Frame.fork, Tree.before, ← append_assoc, getLast?_concat]
        | right => rfl

omit [DecidableEq α] in
/-- The end of a tree, as the nearest node. -/
theorem Rep.exists_walk_nearest {p : Option α} {c : α} (hrep : H.Rep p t) (ht : t.root = some c)
    (hfuel : t.size ≤ fuel) (as bs : List α) :
    ∃ z, walk s.other fuel c H = some z ∧
      nearest s (as ++ t.toList) (t.toList ++ bs) = some z := by
  obtain ⟨gs, z, b, h, rfl, hgs, hwalk⟩ := hrep.exists_walk s.other ht hfuel
  refine ⟨z, hwalk, ?_⟩
  rw [← Tree.plug_fork, Tree.toList_plug, Tree.toList_nil, nil_append]
  cases s with
  | left =>
    have hafter : Tree.after gs = [] := hgs
    rw [nearest, Side.other, Frame.fork, Tree.before, Tree.after, hafter, append_nil,
      ← append_assoc, ← append_assoc, getLast?_concat]
  | right =>
    have hbefore : Tree.before gs = [] := hgs
    rw [nearest, Side.other, Frame.fork, Tree.before, hbefore]
    rfl

omit [DecidableEq α] in
/-- `psync_tree_get_first` and `psync_tree_get_last` -/
theorem Stored.getEnd_eq {tree : Option α} (s : Side) (hH : H.Stored tree xs)
    (hfuel : xs.length ≤ fuel) : getEnd s.other fuel tree H = some (nearest s xs xs) := by
  obtain ⟨t, ht, -, rfl⟩ := hH
  rw [Tree.length_toList] at hfuel
  cases tree with
  | none =>
    rw [Tree.root_eq_none ht.root]
    cases s <;> rfl
  | some tree =>
    obtain ⟨z, hwalk, hz⟩ := ht.rep.exists_walk_nearest (s := s) ht.root hfuel [] []
    rw [nil_append, append_nil] at hz
    rw [getEnd, hwalk, hz]
    rfl

/-- `psync_tree_get_next` and `psync_tree_get_prev` -/
theorem Stored.getNeighbour_eq {tree : Option α} (s : Side) (hH : H.Stored tree (as ++ x :: bs))
    (hfuel : (as ++ x :: bs).length ≤ fuel) :
    getNeighbour s fuel x H = some (nearest s as bs) := by
  obtain ⟨t, hH, -, hlist⟩ := hH
  obtain ⟨fs, l, r, h, rfl, rfl, rfl⟩ := Tree.exists_plug_of_toList hlist
  rw [← hlist, Tree.length_toList] at hfuel
  have hnode := (holds_plug.1 hH).2.1
  have hsize := Tree.size_plug fs (.node l x r h)
  rw [Tree.size] at hsize
  have hclimb : climb s fuel x H = some (nearest s (Tree.before fs) (Tree.after fs)) :=
    climb_eq hH.rep rfl hH.nodup (by omega)
  rw [getNeighbour, hnode.1]
  cases s with
  | left =>
    cases hroot : l.root with
    | none =>
      obtain rfl := Tree.root_eq_none hroot
      refine hclimb.trans ?_
      rw [Tree.toList_nil, append_nil]
      rfl
    | some c =>
      obtain ⟨z, hwalk, hz⟩ := hnode.2.1.exists_walk_nearest (s := .left) hroot
        (show l.size ≤ fuel by omega) (Tree.before fs) []
      exact (congrArg (Option.map some) hwalk).trans (congrArg some hz.symm)
  | right =>
    cases hroot : r.root with
    | none =>
      obtain rfl := Tree.root_eq_none hroot
      exact hclimb
    | some c =>
      obtain ⟨z, hwalk, hz⟩ := hnode.2.2.exists_walk_nearest (s := .right) hroot
        (show r.size ≤ fuel by omega) [] (Tree.after fs)
      exact (congrArg (Option.map some) hwalk).trans (congrArg some hz.symm)

/-- From a node on, the walk visits the rest of the sequence. -/
theorem Stored.forEach_eq {tree : Option α} (hH : H.Stored tree (as ++ bs))
    (hfuel : (as ++ bs).length ≤ fuel) {n : ℕ} (hn : bs.length ≤ n) :
    forEach n fuel bs.head? H = some bs := by
  induction bs generalizing as n with
  | nil =>
    rw [head?_nil, forEach]
  | cons x bs ih =>
    obtain ⟨n, rfl⟩ := Nat.exists_eq_succ_of_ne_zero (show n ≠ 0 by rintro rfl; cases hn)
    have hrest : forEach n fuel bs.head? H = some bs := by
      rw [append_cons] at hH hfuel
      exact ih hH hfuel (Nat.le_of_succ_le_succ hn)
    rw [head?_cons, forEach, hH.getNeighbour_eq .right hfuel, bind_some, nearest, hrest, map_some]

end Heap

/-! ## Freeing the nodes on the way -/

/-- The nodes that can be read. -/
abbrev Memory (α : Type*) := α → Option (LinkedNode α)

/-- The loop of `psync_tree_get_first_safe` and `psync_tree_get_next_safe`. -/
def firstLeaf : ℕ → α → Memory α → Option α
  | 0, _, _ => none
  | fuel + 1, x, M => (M x).bind fun n =>
    match n.left with
    | some c => firstLeaf fuel c M
    | none =>
      match n.right with
      | some c => firstLeaf fuel c M
      | none => some x

/-- `psync_tree_get_first_safe` -/
def getFirstSafe (fuel : ℕ) (tree : Option α) (M : Memory α) : Option (Option α) :=
  match tree with
  | none => some none
  | some x => (firstLeaf fuel x M).map some

/-- `psync_tree_get_next_safe` -/
def getNextSafe (fuel : ℕ) (x : α) (M : Memory α) : Option (Option α) :=
  (M x).bind fun n =>
    match n.parent with
    | none => some none
    | some p => (M p).bind fun np =>
      match np.right with
      | none => some (some p)
      | some r => if r = x then some (some p) else (firstLeaf fuel r M).map some

/-- The node is freed: it cannot be read any more. -/
def free (x : α) (M : Memory α) : Memory α := Function.update M x none

/-- `psync_tree_for_each_element_call_safe` from a node on, with a call that frees the node. -/
def forEachSafe : ℕ → ℕ → Option α → Memory α → Option (List α)
  | _, _, none, _ => some []
  | 0, _, some _, _ => none
  | n + 1, fuel, some x, M =>
    (getNextSafe fuel x M).bind fun y => (forEachSafe n fuel y (free x M)).map (x :: ·)

namespace Tree

omit [DecidableEq α]

variable {t : Tree α} {fs gs : List (Frame α)} {x z : α}

/-- What is left to visit after a subtree. -/
def remaining : List (Frame α) → List α
  | [] => []
  | .left x r _ :: fs => r.postOrder ++ x :: remaining fs
  | .right _ x _ :: fs => x :: remaining fs

theorem remaining_append : remaining (fs ++ gs) = remaining fs ++ remaining gs := by
  induction fs with
  | nil => rfl
  | cons f fs ih =>
    cases f with
    | left x r h =>
      rw [cons_append, remaining, remaining, ih, append_assoc, cons_append]
    | right l x h => rw [cons_append, remaining, remaining, ih, cons_append]

theorem mem_around_of_remaining (hz : z ∈ remaining fs) : z ∈ around fs := by
  induction fs with
  | nil => cases hz
  | cons f fs ih =>
    cases f with
    | left x r h =>
      refine (perm_around_fork (s := .left)).mem_iff.2 ?_
      rw [remaining, mem_append, mem_cons] at hz
      rw [mem_cons, mem_append]
      rcases hz with hz | hz | hz
      · exact .inr (.inl (r.postOrder_perm.mem_iff.1 hz))
      · exact .inl hz
      · exact .inr (.inr (ih hz))
    | right l x h =>
      refine (perm_around_fork (s := .right)).mem_iff.2 ?_
      rw [remaining, mem_cons] at hz
      rw [mem_cons, mem_append]
      exact hz.imp_right fun hz => .inr (ih hz)

end Tree

namespace Heap

variable {H : Heap α} {M : Memory α} {p : Option α} {t : Tree α} {c x : α} {n fuel : ℕ}
  {fs : List (Frame α)} {xs : List α}

omit [DecidableEq α] in
/-- The first leaf of a tree, from which the walk goes through the whole tree. -/
theorem Rep.exists_firstLeaf (hrep : H.Rep p t) (ht : t.root = some c)
    (hM : ∀ z ∈ t.postOrder, M z = some (H z)) (hfuel : t.size ≤ fuel) :
    ∃ gs y h, t = Tree.plug gs (.node .nil y .nil h) ∧ t.postOrder = y :: Tree.remaining gs ∧
      firstLeaf fuel c M = some y := by
  induction t generalizing p c fuel with
  | nil => cases ht
  | node l x r h ihl ihr =>
    obtain ⟨⟩ := ht
    obtain ⟨hx, hl, hr⟩ := hrep
    rw [Tree.size] at hfuel
    obtain ⟨fuel, rfl⟩ := Nat.exists_eq_succ_of_ne_zero (show fuel ≠ 0 by omega)
    rw [Tree.postOrder] at hM ⊢
    rw [firstLeaf, hM x (by simp), hx, bind_some]
    dsimp only
    cases hlroot : l.root with
    | some c =>
      obtain ⟨gs, y, h', hplug, hpost, hrun⟩ := ihl hl hlroot (fun z hz => hM z (by simp [hz]))
        (show l.size ≤ fuel by omega)
      refine ⟨gs ++ [.left x r h], y, h', ?_, ?_, hrun⟩
      · rw [Tree.plug_append, ← hplug]
        rfl
      · rw [hpost, Tree.remaining_append, cons_append, cons_append, append_assoc]
        rfl
    | none =>
      obtain rfl := Tree.root_eq_none hlroot
      cases hrroot : r.root with
      | some c =>
        obtain ⟨gs, y, h', hplug, hpost, hrun⟩ := ihr hr hrroot (fun z hz => hM z (by simp [hz]))
          (show r.size ≤ fuel by omega)
        refine ⟨gs ++ [.right .nil x h], y, h', ?_, ?_, hrun⟩
        · rw [Tree.plug_append, ← hplug]
          rfl
        · rw [hpost, Tree.remaining_append]
          rfl
      | none =>
        obtain rfl := Tree.root_eq_none hrroot
        exact ⟨[], x, h, rfl, rfl, rfl⟩

/-- From the root `x` of a subtree on, the walk visits what is left; it needs to read only that. -/
theorem forEachSafe_eq (hrep : H.Rep none (.plug fs t)) (hx : t.root = some x)
    (hnodup : (Tree.plug fs t).toList.Nodup)
    (hM : ∀ z ∈ x :: Tree.remaining fs, M z = some (H z)) (hfuel : (Tree.plug fs t).size ≤ fuel)
    (hn : (Tree.remaining fs).length < n) :
    forEachSafe n fuel (some x) M = some (x :: Tree.remaining fs) := by
  induction n generalizing fs t x M with
  | zero => exact absurd hn (Nat.not_lt_zero _)
  | succ n ih =>
    obtain ⟨hpath, hrept⟩ := rep_plug.1 hrep
    obtain ⟨htnd, hfsnd, hdisj⟩ := Tree.nodup_plug.1 hnodup
    have hxt := Tree.mem_of_root hx
    have hxrem : x ∉ Tree.remaining fs := fun hz => hdisj hxt (Tree.mem_around_of_remaining hz)
    have hparent : (H x).parent = pathParent fs := by
      obtain _ | ⟨l, y, r, h⟩ := t
      · cases hx
      obtain ⟨⟩ := hx
      rw [hrept.1]
    have hfree : ∀ z ∈ Tree.remaining fs, free x M z = some (H z) := by
      intro z hz
      have hzx : z ≠ x := fun heq => hxrem (heq ▸ hz)
      exact (Function.update_of_ne hzx _ _).trans (hM z (mem_cons_of_mem _ hz))
    rw [forEachSafe, getNextSafe, hM x mem_cons_self, bind_some, hparent]
    obtain _ | ⟨⟨e, r, h⟩ | ⟨l, e, h⟩, fs⟩ := fs
    · rw [pathParent, bind_some, forEachSafe, Tree.remaining]
      rfl
    · -- from a left subtree, to the first leaf of the right one, if there is one
      obtain ⟨he, hr, -⟩ := hpath
      have hMe : M e = some (H e) :=
        hM e (mem_cons_of_mem _ (mem_append_right _ mem_cons_self))
      have hxr : x ∉ r.toList := fun hz => hdisj hxt ((Tree.perm_around_fork (s := .left)).mem_iff.2
        (mem_cons_of_mem _ (mem_append_left _ hz)))
      rw [pathParent, Frame.elem]
      dsimp only
      rw [hMe, bind_some, he]
      dsimp only
      rw [Tree.remaining] at hfree hn ⊢
      cases hroot : r.root with
      | none =>
        obtain rfl := Tree.root_eq_none hroot
        have hrep' : H.Rep none (.plug fs (.node t e .nil h)) := hrep
        have hrest := ih hrep' rfl hnodup hfree hfuel (Nat.lt_of_succ_lt_succ hn)
        rw [bind_some]
        dsimp only [Tree.postOrder, nil_append]
        rw [hrest]
        rfl
      | some c =>
        have hcx : c ≠ x := fun heq => hxr (heq ▸ Tree.mem_of_root hroot)
        have hsize : r.size ≤ fuel := by
          refine le_trans ?_ ((Tree.size_plug fs (.node t e r h)).trans hfuel)
          rw [Tree.size]
          omega
        have hMr : ∀ z ∈ r.postOrder, M z = some (H z) := fun z hz =>
          hM z (mem_cons_of_mem _ (mem_append_left _ hz))
        obtain ⟨gs, y, h', rfl, hpost, hrun⟩ := hr.exists_firstLeaf hroot hMr hsize
        rw [hpost] at hfree hn ⊢
        have hplug : Tree.plug (.left e (.plug gs (.node .nil y .nil h')) h :: fs) t =
            Tree.plug (gs ++ .right t e h :: fs) (.node .nil y .nil h') := by
          rw [Tree.plug_append]
          rfl
        rw [hplug] at hrep hnodup hfuel
        have hremaining : Tree.remaining gs ++ e :: Tree.remaining fs =
            Tree.remaining (gs ++ .right t e h :: fs) := by
          rw [Tree.remaining_append]
          rfl
        rw [cons_append, hremaining] at hfree hn ⊢
        have hrest := ih hrep rfl hnodup hfree hfuel (Nat.lt_of_succ_lt_succ hn)
        dsimp only
        rw [if_neg hcx, hrun, map_some, bind_some, hrest]
        rfl
    · -- from a right subtree, up
      have hMe : M e = some (H e) := hM e (mem_cons_of_mem _ mem_cons_self)
      rw [pathParent, Frame.elem]
      dsimp only
      rw [hMe, bind_some, hpath.1, hx]
      rw [Tree.remaining] at hfree hn ⊢
      have hrep' : H.Rep none (.plug fs (.node l e t h)) := hrep
      have hrest := ih hrep' rfl hnodup hfree hfuel (Nat.lt_of_succ_lt_succ hn)
      dsimp only
      rw [if_pos rfl, bind_some, hrest]
      rfl

/-- The walk visits every node once, although each is freed when it is visited; at first only the
    nodes of the tree can be read. -/
theorem Stored.exists_forEachSafe {tree : Option α} (hH : H.Stored tree xs)
    (hfuel : xs.length ≤ fuel) (hM : ∀ z ∈ xs, M z = some (H z)) :
    ∃ first ys, getFirstSafe fuel tree M = some first ∧
      forEachSafe xs.length fuel first M = some ys ∧ ys.Perm xs := by
  obtain ⟨t, ht, -, rfl⟩ := hH
  cases tree with
  | none =>
    rw [Tree.root_eq_none ht.root]
    exact ⟨none, [], rfl, rfl, .refl _⟩
  | some tree =>
    rw [Tree.length_toList] at hfuel
    have hMpost : ∀ z ∈ t.postOrder, M z = some (H z) := fun z hz =>
      hM z (t.postOrder_perm.mem_iff.1 hz)
    obtain ⟨gs, y, h, rfl, hpost, hrun⟩ := ht.rep.exists_firstLeaf ht.root hMpost hfuel
    rw [hpost] at hMpost
    have hlen := (Tree.postOrder_perm (.plug gs (.node .nil y .nil h))).length_eq
    rw [hpost, length_cons] at hlen
    refine ⟨some y, y :: Tree.remaining gs, congrArg (Option.map some) hrun,
      forEachSafe_eq ht.rep rfl ht.nodup hMpost hfuel (by omega), ?_⟩
    rw [← hpost]
    exact Tree.postOrder_perm _

end Heap

end Pclsync
