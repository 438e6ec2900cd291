import Pclsync.LinkedTree.WaysUp

/-!
# Adding nodes in memory

* `Heap.Stored`: a balanced tree in memory, by the sequence of its nodes.
* `Heap.Holds.exists_attach`: a new leaf at a free place, and the way up from there.
* `Heap.Stored.exists_addBeside`, `Heap.Stored.exists_getAdd_none`, `Heap.Stored.exists_getAddedAt`,
  `Heap.Stored.exists_getAddBy`: the operations.
-/

namespace Pclsync

open List Option

variable {α : Type*} [DecidableEq α]

/-- A balanced tree with the nodes `xs`, in order, is in memory. -/
def Heap.Stored (H : Heap α) (tree : Option α) (xs : List α) : Prop :=
  ∃ t, H.Holds tree t ∧ t.Avl ∧ t.toList = xs

/-! ## Paths to nodes -/

section

omit [DecidableEq α]

namespace Tree

variable {s : Side} {t a b l r : Tree α} {x : α} {h : ℕ} {fs gs : List (Frame α)} {as bs : List α}

theorem size_plug (fs : List (Frame α)) (t : Tree α) : fs.length + t.size ≤ (plug fs t).size := by
  induction fs generalizing t with
  | nil => exact (Nat.zero_add _).le
  | cons f fs ih =>
    obtain ⟨s, x, b, h, rfl⟩ := f.exists_fork
    have hsize : t.size + 1 ≤ (fork s t x b h).size := by cases s <;> rw [fork, size] <;> omega
    rw [plug_fork, length_cons]
    exact (show _ ≤ fs.length + (fork s t x b h).size by omega).trans (ih _)

theorem before_append : before (fs ++ gs) = before gs ++ before fs := by
  induction fs with
  | nil => exact (append_nil _).symm
  | cons f fs ih =>
    cases f with
    | left x r h => exact ih
    | right l x h =>
      rw [cons_append, before, before, ih, append_assoc]

theorem after_append : after (fs ++ gs) = after fs ++ after gs := by
  induction fs with
  | nil => rfl
  | cons f fs ih =>
    cases f with
    | left x r h =>
      rw [cons_append, after, after, ih, cons_append, append_assoc]
    | right l x h => exact ih

theorem mem_plug_fork : x ∈ (plug (Frame.fork s x b h :: fs) t).toList := by
  rw [plug_fork]
  exact mem_plug.2 (.inl (mem_toList_fork.2 (.inl rfl)))

/-- A node of the tree, at its place in the sequence. -/
theorem exists_plug_of_toList (ht : t.toList = as ++ x :: bs) :
    ∃ fs l r h, t = plug fs (node l x r h) ∧ as = before fs ++ l.toList ∧
      bs = r.toList ++ after fs := by
  induction t generalizing as bs with
  | nil => exact absurd ht.symm (append_ne_nil_of_right_ne_nil _ (cons_ne_nil _ _))
  | node l y r h ihl ihr =>
    rw [toList_node] at ht
    rcases lt_trichotomy as.length l.toList.length with hlt | heq | hlt
    · obtain ⟨cs, hl, rfl⟩ := split_left_cons ht hlt
      obtain ⟨fs, l', r', h', rfl, rfl, rfl⟩ := ihl hl
      refine ⟨fs ++ [.left y r h], l', r', h', ?_, ?_, ?_⟩
      · rw [plug_append]
        rfl
      · rw [before_append]
        rfl
      · rw [after_append, after, after, append_nil, append_assoc]
    · obtain ⟨rfl, hr⟩ := append_inj ht heq.symm
      obtain ⟨rfl, rfl⟩ := cons.inj hr
      exact ⟨[], l, r, h, rfl, rfl, (append_nil _).symm⟩
    · obtain ⟨cs, rfl, hr⟩ := split_right ht hlt
      obtain ⟨fs, l', r', h', rfl, rfl, rfl⟩ := ihr hr
      refine ⟨fs ++ [.right l y h], l', r', h', ?_, ?_, ?_⟩
      · rw [plug_append]
        rfl
      · rw [before_append, before, before, nil_append, append_assoc, append_assoc, singleton_append]
      · rw [after_append]
        exact congrArg (r'.toList ++ ·) (append_nil _).symm

/-! ## Free places -/

/-- The subtree has no node outside the path, on a side. -/
def outside : Side → List (Frame α) → List α
  | .left => before
  | .right => after

theorem size_pos_of_root {c : α} (ht : t.root = some c) : 0 < t.size := by
  cases t with
  | nil => cases ht
  | node l x r h => exact Nat.succ_pos _

theorem outside_append_fork (hgs : outside s gs = []) {b : Tree α} :
    outside s (gs ++ [Frame.fork s x b h]) = [] := by
  cases s with
  | left => exact before_append.trans hgs
  | right => exact after_append.trans ((append_nil _).trans hgs)

theorem induction_side (s : Side) {P : Tree α → Prop} (nil : P nil)
    (fork : ∀ a x b h, P a → P (fork s a x b h)) (t : Tree α) : P t := by
  induction t with
  | nil => exact nil
  | node l x r h ihl ihr =>
    cases s
    · exact fork l x r h ihl
    · exact fork r x l h ihr

end Tree

end

namespace Heap

variable {s : Side} {H : Heap α} {p : Option α} {t : Tree α} {c : α} {fuel : ℕ}

omit [DecidableEq α]

theorem map_walkAddr (addr : α × Side) : (walkAddr s fuel addr c H).map Prod.snd =
    walk s fuel c H := by
  induction fuel generalizing addr c with
  | zero => rfl
  | succ fuel ih =>
    rw [walkAddr, walk]
    cases (H c).child s with
    | none => rfl
    | some c' => exact ih _

/-- The walk along one side ends at the first or last node, and the pointer to it is in the node
    above, unless there is none. -/
theorem Rep.exists_walkAddr (s : Side) (hrep : H.Rep p t) (ht : t.root = some c)
    (hfuel : t.size ≤ fuel) (addr : α × Side) :
    ∃ gs z b h, t = Tree.plug gs (.fork s .nil z b h) ∧ Tree.outside s gs = [] ∧
      walkAddr s fuel addr c H = some (((pathParent gs).elim addr fun e => (e, s)), z) := by
  induction t using Tree.induction_side s generalizing p c fuel addr with
  | nil => cases ht
  | fork a x b h ih =>
    obtain rfl := some.inj (Tree.root_fork.symm.trans ht)
    obtain ⟨hx, ha, -⟩ := rep_fork.1 hrep
    have hsize : a.size + 1 ≤ (Tree.fork s a x b h).size := by
      cases s <;> rw [Tree.fork, Tree.size] <;> omega
    obtain ⟨fuel, rfl⟩ := Nat.exists_eq_succ_of_ne_zero (show fuel ≠ 0 by omega)
    rw [walkAddr, hx, LinkedNode.child_fork]
    cases hroot : a.root with
    | none =>
      obtain rfl := Tree.root_eq_none hroot
      exact ⟨[], x, b, h, rfl, by cases s <;> rfl, rfl⟩
    | some c =>
      obtain ⟨gs, z, b', h', rfl, hgs, hrun⟩ :=
        ih ha hroot (show a.size ≤ fuel by omega) (x, s)
      refine ⟨gs ++ [Frame.fork s x b h], z, b', h', ?_, Tree.outside_append_fork hgs, ?_⟩
      · rw [Tree.plug_append, Tree.plug_fork]
        rfl
      · refine hrun.trans ?_
        cases gs with
        | nil => rw [nil_append, Tree.pathParent_fork]; rfl
        | cons f gs => rfl

theorem Rep.exists_walk (s : Side) (hrep : H.Rep p t) (ht : t.root = some c)
    (hfuel : t.size ≤ fuel) :
    ∃ gs z b h, t = Tree.plug gs (.fork s .nil z b h) ∧ Tree.outside s gs = [] ∧
      walk s fuel c H = some z := by
  obtain ⟨gs, z, b, h, htree, hgs, hrun⟩ := hrep.exists_walkAddr s ht hfuel (c, s)
  refine ⟨gs, z, b, h, htree, hgs, ?_⟩
  rw [← map_walkAddr (c, s), hrun]
  rfl

end Heap

/-! ## A new leaf -/

omit [DecidableEq α] in
/-- The new leaf is the growth of a subtree that was empty. -/
theorem Tree.grown_leaf {s : Side} {b : Tree α} {x y : α} {h : ℕ}
    (havl : (Tree.fork s .nil x b h).Avl) :
    match s with
    | .left => b.Avl ∧ Tree.Grown (.mk .nil y .nil) b h
    | .right => b.Avl ∧ Tree.Grown b (.mk .nil y .nil) h := by
  cases s with
  | left =>
    obtain ⟨-, hb, hh, h1, h2⟩ := havl
    exact ⟨hb, 0, .inl ⟨rfl, .inl rfl, hh, h1, h2⟩⟩
  | right =>
    obtain ⟨hb, -, hh, h1, h2⟩ := havl
    exact ⟨hb, 0, .inr ⟨rfl, .inl rfl, hh, h1, h2⟩⟩

namespace Heap

variable {s : Side} {H G : Heap α} {t b : Tree α} {x y tree : α} {h fuel : ℕ}
  {fs : List (Frame α)} {as bs : List α}

omit [DecidableEq α] in
/-- A new leaf `y` at the free place on a side of the node `x`. -/
theorem Holds.attach (hH : H.Holds (some tree) (.plug fs (.fork s .nil x b h)))
    (hy : y ∉ (Tree.plug fs (.fork s .nil x b h)).toList)
    (hG : ∀ z, z ≠ x → z ≠ y → G z = H z) (hGx : G x = (H x).setChild s (some y))
    (hGy : G y = ⟨none, none, some x, 1⟩) :
    G.Holds (some tree) (.plug fs (.fork s (.mk .nil y .nil) x b h)) := by
  obtain ⟨hpath, hrep, hroot, hnodup⟩ := holds_plug.1 hH
  obtain ⟨htnd, hfsnd, hdisj⟩ := Tree.nodup_plug.1 hnodup
  obtain ⟨hx, -, hb⟩ := rep_fork.1 hrep
  obtain ⟨⟨-, hxb⟩, -, hbnd, -⟩ := Tree.nodup_toList_fork.1 htnd
  rw [Tree.mem_plug, Tree.mem_toList_fork, not_or, not_or, not_or] at hy
  obtain ⟨⟨hyx, -, hyb⟩, hyfs⟩ := hy
  have hxfs : x ∉ Tree.around fs := hdisj (Tree.mem_toList_fork.2 (.inl rfl))
  have hmem : ∀ z, z ∈ (Tree.mk .nil y .nil).toList ↔ z = y := fun z => mem_singleton
  refine holds_plug.2 ⟨?_, rep_fork.2 ⟨?_, ⟨hGy, True.intro, True.intro⟩, ?_⟩, ?_, ?_⟩
  · rw [Tree.root_fork] at hpath ⊢
    exact hpath.congr fun z hz => hG z (fun h => hxfs (h ▸ hz)) (fun h => hyfs (h ▸ hz))
  · rw [hGx, hx, LinkedNode.setChild_fork]
    rfl
  · exact hb.congr fun z hz => hG z (fun h => hxb (h ▸ hz)) (fun h => hyb (h ▸ hz))
  · cases fs with
    | nil => rwa [Tree.plug, Tree.root_fork] at hroot ⊢
    | cons f fs => exact Tree.root_plug_cons.trans hroot
  · refine Tree.nodup_plug.2
      ⟨Tree.nodup_toList_fork.2 ⟨⟨?_, hxb⟩, nodup_singleton y, hbnd, ?_⟩, hfsnd, ?_⟩
    · exact fun hz => hyx ((hmem x).1 hz).symm
    · exact fun z hz => (hmem z).1 hz ▸ hyb
    · intro z hz
      rcases Tree.mem_toList_fork.1 hz with rfl | hz | hz
      · exact hxfs
      · exact (hmem z).1 hz ▸ hyfs
      · exact hdisj (Tree.mem_toList_fork.2 (.inr (.inr hz)))

theorem Holds.exists_attach (hH : H.Holds (some tree) (.plug (Frame.fork s x b h :: fs) .nil))
    (havl : (Tree.plug (Frame.fork s x b h :: fs) .nil).Avl)
    (hy : y ∉ (Tree.plug (Frame.fork s x b h :: fs) .nil).toList)
    (hG : ∀ z, z ≠ x → z ≠ y → G z = H z) (hGx : G x = (H x).setChild s (some y))
    (hGy : G y = ⟨none, none, some x, 1⟩)
    (hfuel : (Tree.plug (Frame.fork s x b h :: fs) .nil).size ≤ fuel) :
    ∃ tree' H', goUpRebalanceAdd fuel tree x G = some (tree', H') ∧
      H'.Stored (some tree') (Tree.before (Frame.fork s x b h :: fs) ++
        y :: Tree.after (Frame.fork s x b h :: fs)) ∧
      ∀ z, z ≠ y → z ∉ (Tree.plug (Frame.fork s x b h :: fs) .nil).toList → H' z = H z := by
  have hinsert : (Tree.plug (Frame.fork s x b h :: fs) .nil).insertAt
      (Tree.before (Frame.fork s x b h :: fs)).length y =
        Tree.rebalanceUp (Frame.fork s x b h :: fs) (.mk .nil y .nil) :=
    Tree.insertAt_plug (k := 0) _ (Nat.zero_le _) y
  have hlist := Tree.toList_rebalanceUp (Frame.fork s x b h :: fs) (.mk .nil y .nil)
  have havl' := (Tree.avl_insertAt havl (Tree.before (Frame.fork s x b h :: fs)).length y).1
  rw [hinsert] at havl'
  have hlen : fs.length < fuel := by
    have hsize := Tree.size_plug (Frame.fork s x b h :: fs) .nil
    rw [length_cons, Tree.size] at hsize
    omega
  rw [Tree.plug_fork] at hH havl hy ⊢
  have hG' := hH.attach hy hG hGx hGy
  obtain ⟨hfork, hfs⟩ := Tree.avl_plug.1 havl
  rw [Tree.height_fork] at hfs
  have hframe : ∀ z, z ≠ y → z ∉ (Tree.plug fs (.fork s .nil x b h)).toList →
      z ∉ (Tree.plug fs (.fork s (.mk .nil y .nil) x b h)).toList ∧ G z = H z := by
    intro z hzy hz
    rw [Tree.mem_plug, Tree.mem_toList_fork, not_or, not_or, not_or] at hz ⊢
    exact ⟨⟨⟨hz.1.1, fun h => hzy (mem_singleton.1 h), hz.1.2.2⟩, hz.2⟩, hG z hz.1.1 hzy⟩
  have hgrown := Tree.grown_leaf (y := y) hfork
  have hleaf : (Tree.mk .nil y .nil).Avl :=
    Tree.avl_mk True.intro True.intro (Nat.zero_le _) (Nat.zero_le _)
  cases s with
  | left =>
    obtain ⟨tree', H', hrun, hH', hframe'⟩ :=
      hG'.exists_goUpRebalanceAdd hleaf hgrown.1 hgrown.2 hfs hlen
    exact ⟨tree', H', hrun, ⟨_, hH', havl', hlist⟩, fun z hzy hz =>
      (hframe' z (hframe z hzy hz).1).trans (hframe z hzy hz).2⟩
  | right =>
    obtain ⟨tree', H', hrun, hH', hframe'⟩ :=
      hG'.exists_goUpRebalanceAdd hgrown.1 hleaf hgrown.2 hfs hlen
    exact ⟨tree', H', hrun, ⟨_, hH', havl', hlist⟩, fun z hzy hz =>
      (hframe' z (hframe z hzy hz).1).trans (hframe z hzy hz).2⟩

end Heap

/-! ## Adding next to a node -/

/-- A new node `y` next to `x`, on a side. -/
def beside (s : Side) (x y : α) : List α :=
  match s with
  | .left => [y, x]
  | .right => [x, y]

/-- A new node `y` at the end on a side. -/
def atEnd (s : Side) (y : α) (xs : List α) : List α :=
  match s with
  | .left => y :: xs
  | .right => xs ++ [y]

/-- The place that a comparison function finds: its neighbours
    compare as they should. -/
structure FoundBy (comp : α → α → ℤ) (y : α) (as bs : List α) : Prop where
  last : ∀ z, as.getLast? = some z → 0 ≤ comp y z
  head : ∀ z, bs.head? = some z → comp y z < 0

section

omit [DecidableEq α]

namespace Tree

variable {s : Side} {t b : Tree α} {x y z : α} {h : ℕ} {fs gs : List (Frame α)} {as bs : List α}

/-- The place next to a node is at an end of the subtree on that side. -/
theorem exists_fork_of_toList (s : Side) (y : α) (ht : t.toList = as ++ x :: bs) :
    ∃ fs a b h, t = plug (Frame.fork s x b h :: fs) a ∧
      as ++ (beside s x y ++ bs) = before (Frame.fork s x b h :: fs) ++
        (atEnd s.other y a.toList ++ after (Frame.fork s x b h :: fs)) := by
  obtain ⟨fs, l, r, h, rfl, rfl, rfl⟩ := exists_plug_of_toList ht
  cases s with
  | left =>
    refine ⟨fs, l, r, h, rfl, ?_⟩
    simp only [beside, atEnd, Frame.fork, before, after, Side.other, append_assoc,
      cons_append, nil_append]
  | right =>
    refine ⟨fs, r, l, h, rfl, ?_⟩
    simp only [beside, atEnd, Frame.fork, before, after, Side.other, append_assoc,
      cons_append, nil_append]

/-- The free place next to the first or last node is at the end. -/
theorem atEnd_plug (y : α) (hgs : outside s gs = []) :
    atEnd s y (plug (Frame.fork s z b h :: gs) nil).toList =
      before (Frame.fork s z b h :: gs) ++ y :: after (Frame.fork s z b h :: gs) := by
  rw [toList_plug, toList_nil, nil_append]
  cases s with
  | left =>
    have hbefore : before gs = [] := hgs
    rw [atEnd, Frame.fork, before, hbefore]
    rfl
  | right =>
    have hafter : after gs = [] := hgs
    rw [atEnd, Frame.fork, after, hafter, append_nil]

end Tree

end

namespace Heap

variable {s : Side} {H : Heap α} {x y tree : α} {fuel : ℕ} {as bs : List α}

theorem attached (s : Side) (H : Heap α) (hxy : x ≠ y) :
    let G := ((initNode y H).setChild s x (some y)).setParent y (some x)
    (∀ z, z ≠ x → z ≠ y → G z = H z) ∧ G x = (H x).setChild s (some y) ∧
      G y = ⟨none, none, some x, 1⟩ := by
  refine ⟨fun z hzx hzy => ?_, ?_, ?_⟩
  · exact (modify_of_ne hzy).trans ((modify_of_ne hzx).trans (modify_of_ne hzy))
  · refine (modify_of_ne hxy).trans (modify_same.trans ?_)
    rw [initNode, modify_of_ne hxy]
  · refine modify_same.trans ?_
    rw [setChild, modify_of_ne hxy.symm, initNode, modify_same]

/-- `psync_tree_get_add_before` and `psync_tree_get_add_after` of a node. -/
theorem Stored.exists_addBeside (s : Side) (hH : H.Stored (some tree) (as ++ x :: bs))
    (hy : y ∉ as ++ x :: bs) (hfuel : (as ++ x :: bs).length ≤ fuel) :
    ∃ tree' H', addBeside s fuel tree x y H = some (tree', H') ∧
      H'.Stored (some tree') (as ++ (beside s x y ++ bs)) ∧
      ∀ z, z ≠ y → z ∉ as ++ x :: bs → H' z = H z := by
  obtain ⟨t, hH, havl, hlist⟩ := hH
  obtain ⟨fs, a, b, h, rfl, hbeside⟩ := Tree.exists_fork_of_toList s y hlist
  rw [← hlist] at hy hfuel ⊢
  rw [Tree.length_toList] at hfuel
  have hxy : x ≠ y := fun h => hy (h ▸ Tree.mem_plug_fork)
  have hrep := (holds_plug.1 hH).2.1
  rw [Tree.pathParent_fork] at hrep
  have hchild : (initNode y H x).child s = a.root := by
    rw [initNode, modify_of_ne hxy, (repPath_fork.1 (holds_plug.1 hH).1).1, LinkedNode.child_fork]
  rw [addBeside, hchild, hbeside]
  dsimp only
  cases hroot : a.root with
  | none =>
    obtain rfl := Tree.root_eq_none hroot
    obtain ⟨hG, hGx, hGy⟩ := attached s H hxy
    obtain ⟨tree', H', hrun, hH', hframe⟩ := hH.exists_attach havl hy hG hGx hGy hfuel
    refine ⟨tree', H', hrun, ?_, hframe⟩
    cases s
    · exact hH'
    · exact hH'
  | some c =>
    have ha : (initNode y H).Rep (some x) a :=
      hrep.modify fun hya => hy (Tree.mem_plug.2 (.inl hya))
    have hsize : a.size ≤ fuel :=
      ((Nat.le_add_left _ _).trans (Tree.size_plug _ _)).trans hfuel
    obtain ⟨gs, z, b', h', rfl, hgs, hwalk⟩ := ha.exists_walk s.other hroot hsize
    rw [← Tree.plug_fork] at hH havl hy hfuel ⊢
    have hz : z ∈ (Tree.plug (Frame.fork s x b h :: fs)
        (.plug (Frame.fork s.other z b' h' :: gs) .nil)).toList :=
      Tree.mem_plug.2 (.inl Tree.mem_plug_fork)
    have hzy : z ≠ y := fun h => hy (h ▸ hz)
    rw [← Tree.plug_append, cons_append] at hH havl hy hfuel ⊢
    obtain ⟨hG, hGz, hGy⟩ := attached s.other H hzy
    obtain ⟨tree', H', hrun, hH', hframe⟩ := hH.exists_attach havl hy hG hGz hGy hfuel
    refine ⟨tree', H', ?_, ?_, hframe⟩
    · exact (congrArg (Option.bind · _) hwalk).trans hrun
    · rw [Tree.atEnd_plug y hgs]
      rw [← cons_append, Tree.before_append, Tree.after_append, append_assoc] at hH'
      rwa [append_assoc, cons_append]

/-! ## The operations -/

omit [DecidableEq α] in
theorem Stored.eq_nil {xs : List α} (hH : H.Stored none xs) : xs = [] := by
  obtain ⟨t, hH, -, rfl⟩ := hH
  rw [Tree.root_eq_none hH.root, Tree.toList_nil]

omit [DecidableEq α] in
theorem stored_singleton (hH : H y = ⟨none, none, none, 1⟩) : H.Stored (some y) [y] :=
  ⟨.mk .nil y .nil, ⟨⟨hH, True.intro, True.intro⟩, rfl, nodup_singleton y⟩,
    Tree.avl_mk True.intro True.intro (Nat.zero_le _) (Nat.zero_le _), rfl⟩

theorem exists_getAdd_empty (s : Side) (node : Option α) (y : α) (fuel : ℕ) (H : Heap α) :
    ∃ H', getAdd s fuel none node y H = some (y, H') ∧ H'.Stored (some y) [y] ∧
      ∀ z, z ≠ y → H' z = H z :=
  ⟨initNode y H, rfl, stored_singleton modify_same, fun _ hz => modify_of_ne hz⟩

/-- Without a node, the new one comes to the end on the other side. -/
theorem Stored.exists_getAdd_none {xs : List α} (s : Side) (hH : H.Stored (some tree) xs)
    (hy : y ∉ xs) (hfuel : xs.length ≤ fuel) :
    ∃ tree' H', getAdd s fuel (some tree) none y H = some (tree', H') ∧
      H'.Stored (some tree') (atEnd s.other y xs) ∧ ∀ z, z ≠ y → z ∉ xs → H' z = H z := by
  obtain ⟨t, ht, havl, rfl⟩ := hH
  obtain ⟨gs, z, b, h, rfl, hgs, hwalk⟩ :=
    ht.rep.exists_walk s.other ht.root (t.length_toList ▸ hfuel)
  rw [← Tree.plug_fork] at ht havl hy hfuel ⊢
  have hsplit : ∃ as bs, (Tree.plug (Frame.fork s.other z b h :: gs) .nil).toList = as ++ z :: bs ∧
      as ++ (beside s.other z y ++ bs) =
        atEnd s.other y (Tree.plug (Frame.fork s.other z b h :: gs) .nil).toList := by
    rw [Tree.toList_plug, Tree.toList_nil, nil_append]
    cases s with
    | left =>
      have hafter : Tree.after gs = [] := hgs
      rw [Side.other, Frame.fork, Tree.before, Tree.after, hafter]
      exact ⟨Tree.before gs ++ b.toList, [], by simp, by simp [beside, atEnd]⟩
    | right =>
      have hbefore : Tree.before gs = [] := hgs
      rw [Side.other, Frame.fork, Tree.before, Tree.after, hbefore]
      exact ⟨[], b.toList ++ Tree.after gs, rfl, rfl⟩
  obtain ⟨as, bs, hlist, hend⟩ := hsplit
  rw [hlist] at hy hfuel hend ⊢
  obtain ⟨tree', H', hrun, hH', hframe⟩ :=
    Stored.exists_addBeside s.other ⟨_, ht, havl, hlist⟩ hy hfuel
  exact ⟨tree', H', (congrArg (Option.bind · _) hwalk).trans hrun, hend ▸ hH', hframe⟩

/-- `psync_tree_get_added_at` with a parent, which has a free place on the side of the new node. -/
theorem Stored.exists_getAddedAt (s : Side) (hH : H.Stored (some tree) (as ++ x :: bs))
    (hx : (H x).child s = none) (hy : y ∉ as ++ x :: bs)
    (hfuel : (as ++ x :: bs).length ≤ fuel) :
    ∃ tree' H', getAddedAt s fuel (some tree) (some x) y H = some (tree', H') ∧
      H'.Stored (some tree') (as ++ (beside s x y ++ bs)) ∧
      ∀ z, z ≠ y → z ∉ as ++ x :: bs → H' z = H z := by
  obtain ⟨t, hH, havl, hlist⟩ := hH
  obtain ⟨fs, a, b, h, rfl, hbeside⟩ := Tree.exists_fork_of_toList s y hlist
  rw [← hlist] at hy hfuel ⊢
  rw [Tree.length_toList] at hfuel
  have hxy : x ≠ y := fun h => hy (h ▸ Tree.mem_plug_fork)
  rw [(repPath_fork.1 (holds_plug.1 hH).1).1, LinkedNode.child_fork] at hx
  obtain rfl := Tree.root_eq_none hx
  -- the caller has assigned the child before the node is initialised
  obtain ⟨tree', H', hrun, hH', hframe⟩ := hH.exists_attach
    (G := (initNode y (H.setChild s x (some y))).setParent y (some x)) havl hy
    (fun z hzx hzy =>
      (modify_of_ne hzy).trans ((modify_of_ne hzy).trans (modify_of_ne hzx)))
    ((modify_of_ne hxy).trans ((modify_of_ne hxy).trans modify_same))
    (modify_same.trans (by rw [initNode, modify_same])) hfuel
  refine ⟨tree', H', hrun, ?_, hframe⟩
  rw [hbeside]
  cases s
  · exact hH'
  · exact hH'

theorem exists_getAddedAt_none (s : Side) (tree : Option α) (y : α) (fuel : ℕ) (H : Heap α) :
    ∃ H', getAddedAt s fuel tree none y H = some (y, H') ∧ H'.Stored (some y) [y] ∧
      ∀ z, z ≠ y → H' z = H z := by
  refine ⟨_, rfl, stored_singleton ?_, fun _ hz => (modify_of_ne hz).trans (modify_of_ne hz)⟩
  rw [setParent, modify_same, initNode, modify_same]

/-- The loop of `psync_tree_get_add`, at the root `el` of a subtree. -/
theorem Holds.exists_addByLoop {comp : α → α → ℤ} {n : ℕ} {fs : List (Frame α)} {a : Tree α}
    {el : α} (hH : H.Holds (some tree) (.plug fs a)) (havl : (Tree.plug fs a).Avl)
    (hel : a.root = some el) (hy : y ∉ (Tree.plug fs a).toList)
    (hfound : FoundBy comp y (Tree.before fs) (Tree.after fs))
    (hfuel : (Tree.plug fs a).toList.length ≤ fuel) (hn : a.size ≤ n) :
    ∃ tree' H' as bs, addByLoop comp n fuel tree el y H = some (tree', H') ∧
      (Tree.plug fs a).toList = as ++ bs ∧ H'.Stored (some tree') (as ++ y :: bs) ∧
      FoundBy comp y as bs ∧ ∀ z, z ≠ y → z ∉ (Tree.plug fs a).toList → H' z = H z := by
  induction n generalizing fs a el with
  | zero => exact absurd (Tree.size_pos_of_root hel) (by omega)
  | succ n ih =>
    obtain _ | ⟨l, x, r, h⟩ := a
    · cases hel
    obtain rfl := some.inj hel
    rw [Tree.size] at hn
    have hx := (holds_plug.1 hH).2.1.1
    have hlist := Tree.toList_plug fs (.node l x r h)
    rw [addByLoop]
    by_cases hcomp : comp y x < 0
    · rw [if_pos hcomp, show (H x).child .left = l.root by rw [hx]; rfl]
      cases hroot : l.root with
      | none =>
        obtain rfl := Tree.root_eq_none hroot
        have hH' : H.Stored (some tree) (Tree.before fs ++ x :: (r.toList ++ Tree.after fs)) :=
          ⟨_, hH, havl, hlist⟩
        rw [show (Tree.plug fs (.node .nil x r h)).toList =
          Tree.before fs ++ x :: (r.toList ++ Tree.after fs) from hlist] at hy hfuel ⊢
        obtain ⟨tree', H', hrun, hstored, hframe⟩ := hH'.exists_addBeside .left hy hfuel
        refine ⟨tree', H', _, _, hrun, rfl, hstored, ⟨hfound.last, fun z hz => ?_⟩, hframe⟩
        exact some.inj hz ▸ hcomp
      | some c =>
        have hH' : H.Holds (some tree) (.plug (.left x r h :: fs) l) := hH
        have hrun := ih hH' havl hroot hy
          ⟨hfound.last, fun z hz => some.inj hz ▸ hcomp⟩ hfuel (by omega)
        exact hrun
    · rw [if_neg hcomp, show (H x).child .right = r.root by rw [hx]; rfl]
      have hlast : ∀ z, (Tree.before fs ++ (l.toList ++ [x])).getLast? = some z → 0 ≤ comp y z := by
        intro z hz
        rw [← append_assoc, getLast?_concat] at hz
        exact some.inj hz ▸ not_lt.1 hcomp
      cases hroot : r.root with
      | none =>
        obtain rfl := Tree.root_eq_none hroot
        have hsplit : (Tree.plug fs (.node l x .nil h)).toList =
            (Tree.before fs ++ l.toList) ++ x :: Tree.after fs := by
          rw [hlist, Tree.toList_node, append_assoc, append_assoc]
          rfl
        have hH' : H.Stored (some tree) ((Tree.before fs ++ l.toList) ++ x :: Tree.after fs) :=
          ⟨_, hH, havl, hsplit⟩
        rw [hsplit] at hy hfuel ⊢
        obtain ⟨tree', H', hrun, hstored, hframe⟩ := hH'.exists_addBeside .right hy hfuel
        refine ⟨tree', H', Tree.before fs ++ (l.toList ++ [x]), Tree.after fs, hrun, ?_, ?_,
          ⟨hlast, hfound.head⟩, hframe⟩
        · simp only [append_assoc, singleton_append]
        · simpa only [beside, append_assoc, cons_append, nil_append] using hstored
      | some c =>
        have hH' : H.Holds (some tree) (.plug (.right l x h :: fs) r) := hH
        have hrun := ih hH' havl hroot hy ⟨hlast, hfound.head⟩ hfuel (by omega)
        exact hrun

/-- `psync_tree_get_add` -/
theorem Stored.exists_getAddBy {tree : Option α} {xs : List α} (comp : α → α → ℤ)
    (hH : H.Stored tree xs) (hy : y ∉ xs) (hfuel : xs.length ≤ fuel) :
    ∃ tree' H' as bs, getAddBy comp fuel tree y H = some (tree', H') ∧ xs = as ++ bs ∧
      H'.Stored (some tree') (as ++ y :: bs) ∧ FoundBy comp y as bs ∧
      ∀ z, z ≠ y → z ∉ xs → H' z = H z := by
  cases tree with
  | none =>
    obtain rfl := hH.eq_nil
    obtain ⟨H', hrun, hstored, hframe⟩ := exists_getAdd_empty .right none y fuel H
    exact ⟨y, H', [], [], hrun, rfl, hstored, ⟨nofun, nofun⟩, fun z hz _ => hframe z hz⟩
  | some tree =>
    obtain ⟨t, ht, havl, rfl⟩ := hH
    have hn := t.length_toList ▸ hfuel
    have ht' : H.Holds (some tree) (.plug [] t) := ht
    exact ht'.exists_addByLoop havl ht.root hy ⟨nofun, nofun⟩ hfuel hn

end Heap

end Pclsync
