import Mathlib.Data.List.Induction
import Pclsync.LinkedTree.Adding

/-!
# Deleting nodes in memory

* `Heap.Holds.unlink`: a node with at most one child gives its place to that child.
* `Heap.Holds.exists_substitute`: a node outside the tree takes the place of one inside.
* `Heap.Stored.exists_getDel`: `psync_tree_get_del`.
-/

namespace Pclsync

open List Option

variable {α : Type*} [DecidableEq α]

section

omit [DecidableEq α]

namespace Tree

variable {s : Side} {a b c e l r : Tree α} {x y z : α} {h n : ℕ} {fs gs : List (Frame α)}

theorem rebalanceUp_fork : rebalanceUp (Frame.fork s x b h :: fs) c =
    rebalanceUp fs (rebalanceFork s c x b) := by
  cases s <;> rfl

theorem avl_fork : (fork s a x b h).Avl ↔ a.Avl ∧ b.Avl ∧ h = max a.height b.height + 1 ∧
    a.height ≤ b.height + 1 ∧ b.height ≤ a.height + 1 := by
  cases s with
  | left => rfl
  | right =>
    rw [fork, Avl, max_comm]
    tauto

/-- The balance does not depend on the element of a node. -/
theorem avl_plug_fork_congr (h : (plug fs (fork s a x b n)).Avl) :
    (plug fs (fork s a y b n)).Avl := by
  rw [avl_plug, avl_fork, height_fork] at h ⊢
  exact h

theorem plug_node_ne_nil : plug gs (node l x r h) ≠ nil := by
  intro hnil
  have hsize := size_plug gs (node l x r h)
  rw [hnil, size, size] at hsize
  omega

theorem popLast_eq (hgs : outside .right gs = []) (ht : plug gs (node e z nil n) = node l x r h) :
    popLast l x r = (z, rebalanceUp gs e) := by
  induction gs using reverseRecOn generalizing l x r h with
  | nil =>
    obtain ⟨rfl, rfl, rfl, rfl⟩ := node.inj ht
    rfl
  | append_singleton gs f ih =>
    rw [outside, after_append, append_eq_nil_iff] at hgs
    obtain ⟨hgs, hf⟩ := hgs
    cases f with
    | left y t h' => cases hf
    | right t y h' =>
      rw [plug_append] at ht
      obtain ⟨rfl, rfl, rfl, rfl⟩ := node.inj ht
      cases hr : plug gs (node e z nil n) with
      | nil => exact absurd hr plug_node_ne_nil
      | node rl w rr rh =>
        rw [popLast, ih hgs hr, rebalanceUp_append]
        rfl

theorem popFirst_eq (hgs : outside .left gs = []) (ht : plug gs (node nil z e n) = node l x r h) :
    popFirst l x r = (z, rebalanceUp gs e) := by
  induction gs using reverseRecOn generalizing l x r h with
  | nil =>
    obtain ⟨rfl, rfl, rfl, rfl⟩ := node.inj ht
    rfl
  | append_singleton gs f ih =>
    rw [outside, before_append, append_eq_nil_iff] at hgs
    obtain ⟨hf, hgs⟩ := hgs
    cases f with
    | left y t h' =>
      rw [plug_append] at ht
      obtain ⟨rfl, rfl, rfl, rfl⟩ := node.inj ht
      cases hl : plug gs (node nil z e n) with
      | nil => exact absurd hl plug_node_ne_nil
      | node ll w lr lh =>
        rw [popFirst, ih hgs hl, rebalanceUp_append]
        rfl
    | right t y h' => exact absurd hf (append_ne_nil_of_right_ne_nil _ (by simp))

theorem join_nil : join l nil = l := by cases l <;> rfl

/-- The higher subtree of a node without its node that is next to it. -/
theorem join_eq {s : Side} (hfork : node l x r h = fork s a x b h)
    (hs : s = if r.height < l.height then .left else .right) (hb : 0 < b.size)
    (ha : a = plug gs (fork s.other nil z e n)) (hgs : outside s.other gs = []) :
    join l r = rebalanceFork s (rebalanceUp gs e) z b := by
  cases s with
  | left =>
    obtain ⟨rfl, -, rfl, -⟩ := node.inj hfork
    obtain _ | ⟨rl, rx, rr, rh⟩ := r
    · exact absurd hb (Nat.lt_irrefl 0)
    obtain _ | ⟨ll, lx, lr, lh⟩ := l
    · exact absurd ha.symm plug_node_ne_nil
    have hlt : rh < lh := by
      by_contra hlt
      rw [height_node, height_node, if_neg hlt] at hs
      cases hs
    rw [join, if_pos hlt, popLast_eq hgs ha.symm]
    rfl
  | right =>
    obtain ⟨rfl, -, rfl, -⟩ := node.inj hfork
    obtain _ | ⟨rl, rx, rr, rh⟩ := r
    · exact absurd ha.symm plug_node_ne_nil
    obtain _ | ⟨ll, lx, lr, lh⟩ := l
    · exact absurd hb (Nat.lt_irrefl 0)
    have hlt : ¬ rh < lh := by
      intro hlt
      rw [height_node, height_node, if_pos hlt] at hs
      cases hs
    rw [join, if_neg hlt, popFirst_eq hgs ha.symm]
    rfl

end Tree

end

namespace Heap

variable {s s' : Side} {H : Heap α} {b c l r : Tree α} {e x y : α} {h h' n fuel : ℕ}
  {fs : List (Frame α)}

/-! ## The way up -/

/-- The way up from the place of a subtree that is lower by at most one. -/
theorem Holds.exists_goUp_shrunk {tree p : α} (hH : H.Holds (some tree) (.plug fs c))
    (hp : pathParent fs = some p) (hc : c.Avl) (hfs : Tree.AvlPath fs n) (hle : c.height ≤ n)
    (hle' : n ≤ c.height + 1) (hfuel : fs.length ≤ fuel) :
    ∃ tree' H', goUpRebalanceDel fuel tree p H = some (tree', H') ∧
      H'.Holds (some tree') (.rebalanceUp fs c) ∧
      ∀ z, z ∉ (Tree.plug fs c).toList → H' z = H z := by
  obtain _ | ⟨⟨y, r, h⟩ | ⟨l, y, h⟩, fs⟩ := fs
  · cases hp
  · obtain ⟨⟩ := hp
    obtain ⟨hr, rfl, h1, h2, hfs⟩ := hfs
    have hH' : H.Holds (some tree) (.plug fs (.node c y r _)) := hH
    have hrun := hH'.exists_goUpRebalanceDel hc hr ⟨n, .inl ⟨hle, hle', rfl, h1, h2⟩⟩ hfs
      (Nat.lt_of_succ_le hfuel)
    exact hrun
  · obtain ⟨⟩ := hp
    obtain ⟨hl, rfl, h1, h2, hfs⟩ := hfs
    have hH' : H.Holds (some tree) (.plug fs (.node l y c _)) := hH
    have hrun := hH'.exists_goUpRebalanceDel hl hc ⟨n, .inr ⟨hle, hle', rfl, h1, h2⟩⟩ hfs
      (Nat.lt_of_succ_le hfuel)
    exact hrun

/-! ## A node with at most one child -/

/-- The node `x` gives its place, below the node `e`, to its only subtree. -/
theorem Holds.unlink {tree : Option α}
    (hH : H.Holds tree (.plug (Frame.fork s e b h :: fs) (.fork s' c x .nil h'))) :
    ((H.setChild s e c.root).setParentOf c.root (some e)).Holds tree
        (.plug (Frame.fork s e b h :: fs) c) ∧
      ∀ z, z ≠ e → c.root ≠ some z →
        (H.setChild s e c.root).setParentOf c.root (some e) z = H z := by
  obtain ⟨hpath, hrep, hroot, hnodup⟩ := holds_plug.1 hH
  obtain ⟨htnd, hfsnd, hdisj⟩ := Tree.nodup_plug.1 hnodup
  obtain ⟨-, hc, -⟩ := rep_fork.1 hrep
  obtain ⟨he, hb, hfs⟩ := repPath_fork.1 hpath
  obtain ⟨-, hcnd, -⟩ := Tree.nodup_toList_fork.1 htnd
  have hcmem : ∀ z, z ∈ c.toList → z ∈ (Tree.fork s' c x .nil h').toList :=
    fun z hz => Tree.mem_toList_fork.2 (.inr (.inl hz))
  have hcdisj : c.toList.Disjoint (Tree.around (Frame.fork s e b h :: fs)) :=
    fun z hz => hdisj (hcmem z hz)
  have hframe : ∀ z, z ≠ e → c.root ≠ some z →
      (H.setChild s e c.root).setParentOf c.root (some e) z = H z :=
    fun z hze hzc => (setParentOf_of_ne hzc).trans (modify_of_ne hze)
  have hmem : ∀ z, z ∈ Tree.around (Frame.fork s e b h :: fs) ↔
      z = e ∨ z ∈ b.toList ∨ z ∈ Tree.around fs := fun z => by
    rw [Tree.perm_around_fork.mem_iff, mem_cons, mem_append]
  have hcroot : ∀ z, z ∈ Tree.around (Frame.fork s e b h :: fs) → c.root ≠ some z :=
    fun z hz hzc => hcdisj (Tree.mem_of_root hzc) hz
  have hec : e ∉ c.toList := fun hz => hcdisj hz ((hmem e).2 (.inl rfl))
  rw [Tree.perm_around_fork.nodup_iff, nodup_cons, mem_append, not_or] at hfsnd
  obtain ⟨⟨heb, hefs⟩, -⟩ := hfsnd
  refine ⟨holds_plug.2 ⟨repPath_fork.2 ⟨?_, ?_, ?_⟩, ?_, Tree.root_plug_cons.trans hroot,
    Tree.nodup_plug.2 ⟨hcnd, (Tree.nodup_plug.1 hnodup).2.1, hcdisj⟩⟩, hframe⟩
  · rw [setParentOf_of_ne (hcroot e ((hmem e).2 (.inl rfl))), setChild, modify_same, he,
      LinkedNode.setChild_fork]
  · exact hb.congr fun z hz => hframe z (fun h => heb (h ▸ hz))
      (hcroot z ((hmem z).2 (.inr (.inl hz))))
  · exact hfs.congr fun z hz => hframe z (fun h => hefs (h ▸ hz))
      (hcroot z ((hmem z).2 (.inr (.inr hz))))
  · rw [Tree.pathParent_fork]
    exact (hc.modify hec).setParentOf hcnd

/-- `psync_tree_replace_me_with` -/
theorem Holds.exists_replaceMeWith {tree : α}
    (hH : H.Holds (some tree) (.plug fs (.fork s c x .nil h)))
    (havl : (Tree.plug fs (.fork s c x .nil h)).Avl)
    (hfuel : (Tree.plug fs (.fork s c x .nil h)).size ≤ fuel) :
    ∃ tree' H', replaceMeWith fuel tree x c.root H = some (tree', H') ∧
      H'.Holds tree' (.rebalanceUp fs c) ∧
      ∀ z, z ∉ (Tree.plug fs (.fork s c x .nil h)).toList → H' z = H z := by
  obtain ⟨hpath, hrep, hroot, hnodup⟩ := holds_plug.1 hH
  obtain ⟨hx, hc, -⟩ := rep_fork.1 hrep
  obtain ⟨hfork, hfs⟩ := Tree.avl_plug.1 havl
  obtain ⟨hcavl, -, hh, hch, -⟩ := Tree.avl_fork.1 hfork
  rw [Tree.height_fork] at hfs
  rw [Tree.height_nil] at hh hch
  have hlen : fs.length ≤ fuel :=
    ((Nat.le_add_right _ _).trans (Tree.size_plug fs _)).trans hfuel
  rw [replaceMeWith.eq_def, hx, LinkedNode.parent_fork]
  cases fs with
  | nil =>
    have hxtree : tree = x := by
      rw [Tree.plug, Tree.root_fork] at hroot
      exact (some.inj hroot).symm
    have hfuel' : 0 < fuel := by
      cases s <;> rw [Tree.plug, Tree.fork, Tree.size] at hfuel <;> omega
    have hcnd := (Tree.nodup_toList_fork.1 hnodup).2.1
    cases c with
    | nil =>
      refine ⟨none, H, if_pos hxtree, ⟨True.intro, rfl, nodup_nil⟩, fun _ _ => rfl⟩
    | node l y r n =>
      obtain ⟨hl, hr, rfl, h1, h2⟩ := hcavl
      have hH' : (H.setParent y none).Holds (some y) (.plug [] (.node l y r _)) :=
        ⟨Heap.Rep.setParentOf (q := none) hc hcnd, rfl, hcnd⟩
      obtain ⟨tree', H', hrun, hH', hframe⟩ := hH'.exists_goUpRebalanceDel hl hr
        ⟨l.height, .inl ⟨le_rfl, Nat.le_succ _, rfl, h1, h2⟩⟩ True.intro hfuel'
      rw [Tree.rebalance_of_balanced h1 h2] at hH'
      refine ⟨some tree', H', ?_, hH', fun z hz => ?_⟩
      · refine (if_pos hxtree).trans ?_
        dsimp only [Tree.root]
        rw [hrun]
        rfl
      · rw [Tree.plug, Tree.mem_toList_fork, not_or, not_or] at hz
        refine (hframe z hz.2.1).trans (modify_of_ne ?_)
        rintro rfl
        exact hz.2.1 (Tree.mem_of_root rfl)
  | cons f fs =>
    obtain ⟨sf, e, b, hf, rfl⟩ := f.exists_fork
    obtain ⟨htnd, hfsnd, hdisj⟩ := Tree.nodup_plug.1 hnodup
    have hxb : b.root ≠ some x := fun hz => hdisj (Tree.mem_toList_fork.2 (.inl rfl))
      (Tree.perm_around_fork.mem_iff.2
        (mem_cons_of_mem _ (mem_append_left _ (Tree.mem_of_root hz))))
    have he := (repPath_fork.1 hpath).1
    rw [Tree.root_fork] at he
    obtain ⟨hH', hframe'⟩ := hH.unlink
    obtain ⟨tree', H', hrun, hH'', hframe⟩ :=
      hH'.exists_goUp_shrunk Tree.pathParent_fork hcavl hfs (by omega) (by omega) hlen
    refine ⟨some tree', H', ?_, hH'', fun z hz => ?_⟩
    · rw [Tree.pathParent_fork]
      dsimp only
      rw [replaceChild_fork he hxb, bind_some, hrun]
      rfl
    · rw [Tree.mem_plug, Tree.mem_toList_fork, Tree.perm_around_fork.mem_iff, mem_cons,
        not_or, not_or, not_or, not_or] at hz
      obtain ⟨⟨hzx, hzc, -⟩, hze, hz⟩ := hz
      rw [hframe z ?_, hframe' z hze fun h => hzc (Tree.mem_of_root h)]
      rw [Tree.mem_plug, Tree.perm_around_fork.mem_iff, mem_cons, not_or, not_or]
      exact ⟨hzc, hze, hz⟩

/-! ## A node with two children -/

/-- The node `y` from outside takes the place of `x`. -/
theorem Holds.exists_substitute {tree : α} (hH : H.Holds (some tree) (.plug fs (.node l x r h)))
    (hy : y ∉ (Tree.plug fs (.node l x r h)).toList) :
    ∃ tree' H', (let H := H.copy y x
        let H := H.setParentOf (H x).left (some y)
        let H := H.setParentOf (H x).right (some y)
        match (H x).parent with
        | some p => (H.replaceChild p x (some y)).map fun H => (tree, H)
        | none => if x = tree then some (y, H) else none) = some (tree', H') ∧
      H'.Holds (some tree') (.plug fs (.node l y r h)) ∧
      ∀ z, z ≠ y → z ∉ (Tree.plug fs (.node l x r h)).toList → H' z = H z := by
  obtain ⟨hpath, ⟨hx, hl, hr⟩, hroot, hnodup⟩ := holds_plug.1 hH
  obtain ⟨htnd, hfsnd, hdisj⟩ := Tree.nodup_plug.1 hnodup
  obtain ⟨⟨hxl, hxr⟩, hlnd, hrnd, hlr⟩ := (Tree.nodup_toList_fork (s := .left)).1 htnd
  have hmem : ∀ z, z ∈ (Tree.node l x r h).toList ↔ z = x ∨ z ∈ l.toList ∨ z ∈ r.toList :=
    fun z => Tree.mem_toList_fork (s := .left)
  rw [Tree.mem_plug, hmem, not_or, not_or, not_or] at hy
  obtain ⟨⟨hyx, hyl, hyr⟩, hyfs⟩ := hy
  have hxy : x ≠ y := Ne.symm hyx
  have hxfs : x ∉ Tree.around fs := hdisj ((hmem x).2 (.inl rfl))
  -- the assignments of the source, one after another
  let H₁ := H.copy y x
  let H₂ := H₁.setParentOf l.root (some y)
  let H₃ := H₂.setParentOf r.root (some y)
  have hlroot : ∀ z, z ∉ l.toList → l.root ≠ some z := fun z hz h => hz (Tree.mem_of_root h)
  have hrroot : ∀ z, z ∉ r.toList → r.root ≠ some z := fun z hz h => hz (Tree.mem_of_root h)
  have hframe : ∀ z, z ≠ y → z ∉ l.toList → z ∉ r.toList → H₃ z = H z := fun z hzy hzl hzr =>
    (setParentOf_of_ne (hrroot z hzr)).trans
      ((setParentOf_of_ne (hlroot z hzl)).trans (modify_of_ne hzy))
  have hx2 : H₂ x = H x := (setParentOf_of_ne (hlroot x hxl)).trans (modify_of_ne hxy)
  have hx3 : H₃ x = H x := hframe x hxy hxl hxr
  have hy3 : H₃ y = ⟨l.root, r.root, pathParent fs, h⟩ :=
    (setParentOf_of_ne (hrroot y hyr)).trans
      ((setParentOf_of_ne (hlroot y hyl)).trans (modify_same.trans hx))
  have hl3 : H₃.Rep (some y) l :=
    ((hl.modify hyl).setParentOf hlnd).setParentOf_of_notMem fun z hz hzl =>
      hlr hzl (Tree.mem_of_root hz)
  have hr3 : H₃.Rep (some y) r :=
    ((hr.modify hyr).setParentOf_of_notMem fun z hz hzr =>
      hlr (Tree.mem_of_root hz) hzr).setParentOf hrnd
  have hpath3 : H₃.RepPath (some x) fs := hpath.congr fun z hz =>
    hframe z (fun h => hyfs (h ▸ hz)) (fun h => hdisj ((hmem z).2 (.inr (.inl h))) hz)
      (fun h => hdisj ((hmem z).2 (.inr (.inr h))) hz)
  have hnodup' : (Tree.plug fs (.node l y r h)).toList.Nodup := by
    refine Tree.nodup_plug.2 ⟨(Tree.nodup_toList_fork (s := .left)).2
      ⟨⟨hyl, hyr⟩, hlnd, hrnd, hlr⟩, hfsnd, fun z hz => ?_⟩
    rcases (Tree.mem_toList_fork (s := .left)).1 hz with rfl | hz
    · exact hyfs
    · exact hdisj ((hmem z).2 (.inr hz))
  have hrun : (let H := H.copy y x
      let H := H.setParentOf (H x).left (some y)
      let H := H.setParentOf (H x).right (some y)
      match (H x).parent with
      | some p => (H.replaceChild p x (some y)).map fun H => (tree, H)
      | none => if x = tree then some (y, H) else none) =
      match pathParent fs with
      | some p => (H₃.replaceChild p x (some y)).map fun H => (tree, H)
      | none => if x = tree then some (y, H₃) else none := by
    have h1 : ((H.copy y x) x).left = l.root := by rw [copy, modify_of_ne hxy, hx]
    have h2 : (H₂ x).right = r.root := by rw [hx2, hx]
    have h3 : (H₃ x).parent = pathParent fs := by rw [hx3, hx]
    dsimp only
    rw [h1]
    dsimp only [H₂, H₁] at h2
    rw [h2]
    dsimp only [H₃, H₂, H₁] at h3 ⊢
    rw [h3]
  rw [hrun]
  cases fs with
  | nil =>
    have hxtree : x = tree := hH.root_eq.symm
    exact ⟨y, H₃, if_pos hxtree, ⟨⟨hy3, hl3, hr3⟩, rfl, hnodup'⟩, fun z hzy hz =>
      hframe z hzy (fun h => hz ((hmem z).2 (.inr (.inl h))))
        (fun h => hz ((hmem z).2 (.inr (.inr h))))⟩
  | cons f fs =>
    obtain ⟨s, e, b, hf, rfl⟩ := f.exists_fork
    have he : e ∈ Tree.around (Frame.fork s e b hf :: fs) :=
      Tree.perm_around_fork.mem_iff.2 mem_cons_self
    have hxb : x ∉ b.toList := fun hz => hxfs
      (Tree.perm_around_fork.mem_iff.2 (mem_cons_of_mem _ (mem_append_left _ hz)))
    obtain ⟨H₄, hrun4, hpath4, hframe4⟩ := hpath3.exists_replaceChild hxb hfsnd (some y)
    have hne : ∀ z, z ∉ Tree.around (Frame.fork s e b hf :: fs) → z ≠ e :=
      fun z hz h => hz (h ▸ he)
    refine ⟨tree, H₄, ?_, holds_plug.2 ⟨hpath4, ⟨?_, ?_, ?_⟩, Tree.root_plug_cons.trans hroot,
      hnodup'⟩, fun z hzy hz => ?_⟩
    · rw [Tree.pathParent_fork]
      dsimp only
      rw [hrun4]
      rfl
    · rw [hframe4 y (hne y hyfs), hy3]
    · exact hl3.congr fun z hz => hframe4 z (hne z (hdisj ((hmem z).2 (.inr (.inl hz)))))
    · exact hr3.congr fun z hz => hframe4 z (hne z (hdisj ((hmem z).2 (.inr (.inr hz)))))
    · rw [Tree.mem_plug, hmem, not_or, not_or, not_or] at hz
      rw [hframe4 z (hne z hz.2), hframe z hzy hz.1.2.1 hz.1.2.2]

omit [DecidableEq α] in
/-- The pointer to the node that takes the place of `x` is in the first node of the path to it. -/
theorem exists_addr (s : Side) (x : α) (b : Tree α) (h : ℕ) (fs : List (Frame α))
    {gs : List (Frame α)} (hgs : Tree.outside s.other gs = []) :
    ∃ sf e b' hf gs', gs ++ Frame.fork s x b h :: fs = Frame.fork sf e b' hf :: gs' ∧
      (pathParent gs).elim (x, s) (fun e => (e, s.other)) = (e, sf) ∧
      (pathParent gs).getD x = e := by
  cases gs with
  | nil => exact ⟨s, x, b, h, fs, rfl, rfl, rfl⟩
  | cons f gs =>
    obtain ⟨sf, e, b', hf, rfl⟩ := f.exists_fork
    have hsf : sf = s.other := by
      cases s with
      | left =>
        cases sf with
        | left => cases hgs
        | right => rfl
      | right =>
        cases sf with
        | left => rfl
        | right => exact absurd hgs (append_ne_nil_of_right_ne_nil _ (by simp))
    rw [Tree.pathParent_fork]
    exact ⟨sf, e, b', hf, _, rfl, by rw [hsf]; rfl, rfl⟩

/-- The branch of `psync_tree_get_del` for a node with two children: the end of one of its subtrees
    takes its place. -/
theorem Holds.exists_delInner {tree d : α} {a : Tree α}
    (hH : H.Holds (some tree) (.plug fs (.fork s a x b h))) (ha : a.root = some d)
    (havl : (Tree.plug fs (.fork s a x b h)).Avl)
    (hfuel : (Tree.plug fs (.fork s a x b h)).size ≤ fuel) :
    ∃ tree' H' gs y e n, delInner s fuel tree x H = some (tree', H') ∧
      a = Tree.plug gs (.fork s.other .nil y e n) ∧ Tree.outside s.other gs = [] ∧
      H'.Holds (some tree') (.rebalanceUp fs (.rebalanceFork s (.rebalanceUp gs e) y b)) ∧
      ∀ z, z ∉ (Tree.plug fs (.fork s a x b h)).toList → H' z = H z := by
  obtain ⟨hpath, hrep, hroot, hnodup⟩ := holds_plug.1 hH
  obtain ⟨hx, harep, -⟩ := rep_fork.1 hrep
  have hsize : a.size ≤ fuel := by
    have hsize := Tree.size_plug (Frame.fork s x b h :: fs) a
    rw [Tree.plug_fork] at hsize
    omega
  obtain ⟨gs, y, e, n, rfl, hgs, hwalk⟩ := harep.exists_walkAddr s.other ha hsize (x, s)
  obtain ⟨sf, p, b', hf, gs', hcons, haddr, hparent⟩ := exists_addr s x b h fs hgs
  have hplug : ∀ c z, Tree.plug (gs ++ Frame.fork s z b h :: fs) c =
      Tree.plug fs (.fork s (.plug gs c) z b h) := fun c z => by
    rw [Tree.plug_append, Tree.plug_fork]
  -- the end of the subtree is taken out
  have hH1 : H.Holds (some tree) (.plug (Frame.fork sf p b' hf :: gs') (.fork s e y .nil n)) := by
    have hend : Tree.fork s e y .nil n = .fork s.other .nil y e n := Tree.fork_other.symm
    rwa [← hcons, hplug, hend]
  obtain ⟨hH2, hframe2⟩ := hH1.unlink
  have hy := (rep_fork.1 (holds_plug.1 hH1).2.1).1
  rw [Tree.pathParent_fork] at hy
  obtain ⟨hynd, -, hydisj⟩ := Tree.nodup_plug.1 hH1.nodup
  have hyP : y ∉ Tree.around (Frame.fork sf p b' hf :: gs') :=
    hydisj (Tree.mem_toList_fork.2 (.inl rfl))
  have hynot : y ∉ (Tree.plug (Frame.fork sf p b' hf :: gs') e).toList := fun hz =>
    (Tree.mem_plug.1 hz).elim (Tree.nodup_toList_fork.1 hynd).1.1 hyP
  rw [← hcons, hplug] at hH2 hynot
  -- it takes the place of the node
  obtain ⟨l, r, hfork⟩ : ∃ l r, ∀ z, Tree.fork s (Tree.plug gs e) z b h = .node l z r h := by
    cases s
    · exact ⟨_, _, fun _ => rfl⟩
    · exact ⟨_, _, fun _ => rfl⟩
  rw [hfork] at hH2 hynot
  obtain ⟨tree₃, H₃, hrun3, hH3, hframe3⟩ := hH2.exists_substitute hynot
  rw [← hfork, ← hplug] at hH3
  have hp : (if some p = some x then some y else some p) =
      pathParent (gs ++ Frame.fork s y b h :: fs) := by
    cases gs with
    | nil => exact (if_pos (congrArg some hparent.symm)).trans Tree.pathParent_fork.symm
    | cons f gs =>
      obtain ⟨sf', p', b'', hf', rfl⟩ := f.exists_fork
      obtain rfl : p' = p := by rwa [Tree.pathParent_fork] at hparent
      have hxa := (Tree.nodup_toList_fork.1 (Tree.nodup_plug.1 hnodup).1).1.1
      rw [cons_append, Tree.pathParent_fork]
      refine if_neg fun heq => hxa ?_
      rw [← some.inj heq]
      exact Tree.mem_plug_fork
  -- and the way up starts from where it was
  have havl' := Tree.avl_plug_fork_congr (y := y) havl
  rw [← hplug, Tree.avl_plug, Tree.avl_fork, Tree.height_fork] at havl'
  obtain ⟨⟨-, heavl, hn, -, -⟩, hpavl⟩ := havl'
  rw [Tree.height_nil] at hn
  obtain ⟨p', hp'⟩ : ∃ p', pathParent (gs ++ Frame.fork s y b h :: fs) = some p' := by
    rw [← hp]
    split_ifs
    · exact ⟨y, rfl⟩
    · exact ⟨p, rfl⟩
  have hlen : (gs ++ Frame.fork s y b h :: fs).length ≤ fuel := by
    have hlen := Tree.size_plug (gs ++ Frame.fork s x b h :: fs) (.fork s.other .nil y e n)
    rw [hplug, length_append, length_cons] at hlen
    rw [length_append, length_cons]
    omega
  obtain ⟨tree', H', hrun, hH', hframe⟩ :=
    hH3.exists_goUp_shrunk hp' heavl hpavl (by omega) (by omega) hlen
  rw [Tree.rebalanceUp_append, Tree.rebalanceUp_fork] at hH'
  refine ⟨tree', H', gs, y, e, n, ?_, rfl, hgs, hH', fun z hz => ?_⟩
  · have hchild : (H x).child s = some d := by rw [hx, LinkedNode.child_fork, ha]
    have hychild : (H y).child s = e.root := by rw [hy, LinkedNode.child_fork]
    have hyparent : (H y).parent = some p := by rw [hy, LinkedNode.parent_fork]
    rw [delInner, hchild, bind_some, hwalk, bind_some, haddr]
    dsimp only
    have hyp : y ≠ p := fun heq => hyP (Tree.perm_around_fork.mem_iff.2 (heq ▸ mem_cons_self))
    have hychild1 : (H.setChild sf p e.root y).child s = e.root := by
      rw [setChild, modify_of_ne hyp, hychild]
    rw [hychild, hyparent, hychild1, hp, hp']
    exact (congrArg (fun o : Option (α × Heap α) => o.bind fun r =>
      (some p').bind fun parent => goUpRebalanceDel fuel r.1 parent r.2) hrun3).trans hrun
  · have hpmem :
        p ∈ (Tree.plug fs (.fork s (.plug gs (.fork s.other .nil y e n)) x b h)).toList := by
      rw [← hplug, hcons]
      exact Tree.mem_plug_fork
    have hzp : z ≠ p := fun heq => hz (heq ▸ hpmem)
    rw [Tree.mem_plug, Tree.mem_toList_fork, Tree.mem_plug, Tree.mem_toList_fork] at hz
    have hz1 : z ∉ (Tree.plug (gs ++ Frame.fork s y b h :: fs) e).toList := by
      rw [hplug, Tree.mem_plug, Tree.mem_toList_fork, Tree.mem_plug]
      tauto
    have hz2 : z ∉ (Tree.plug fs (.node l x r h)).toList := by
      rw [← hfork, Tree.mem_plug, Tree.mem_toList_fork, Tree.mem_plug]
      tauto
    have hze : e.root ≠ some z := fun heq => hz (by
      have hmem := Tree.mem_of_root heq
      tauto)
    rw [hframe z hz1, hframe3 z (by tauto) hz2, hframe2 z hzp hze]

/-- `psync_tree_get_del` -/
theorem Stored.exists_getDel {tree : α} {as bs : List α}
    (hH : H.Stored (some tree) (as ++ x :: bs)) (hfuel : (as ++ x :: bs).length ≤ fuel) :
    ∃ tree' H', getDel fuel tree x H = some (tree', H') ∧ H'.Stored tree' (as ++ bs) ∧
      ∀ z, z ∉ as ++ x :: bs → H' z = H z := by
  obtain ⟨t, hH, havl, hlist⟩ := hH
  obtain ⟨fs, l, r, h, rfl, rfl, rfl⟩ := Tree.exists_plug_of_toList hlist
  have hremove : (Tree.plug fs (.node l x r h)).removeAt (Tree.before fs ++ l.toList).length =
      Tree.rebalanceUp fs (.join l r) := by
    rw [length_append, Tree.length_toList, Tree.removeAt_plug fs
      (show l.size < (Tree.node l x r h).size by rw [Tree.size]; omega), Tree.removeAt,
      if_neg (lt_irrefl _), if_pos rfl]
  have hstored : ∀ (tree' : Option α) (H' : Heap α), H'.Holds tree' (.rebalanceUp fs (.join l r)) →
      H'.Stored tree' (Tree.before fs ++ l.toList ++ (r.toList ++ Tree.after fs)) := by
    intro tree' H' hH'
    rw [← hremove] at hH'
    exact ⟨_, hH', (Tree.avl_removeAt havl _).1, Tree.toList_removeAt hlist⟩
  rw [← hlist] at hfuel ⊢
  rw [Tree.length_toList] at hfuel
  have hx := (holds_plug.1 hH).2.1.1
  rw [getDel, hx]
  dsimp only
  cases hl : l.root with
  | none =>
    obtain rfl := Tree.root_eq_none hl
    have hrun : ∃ tree' H', replaceMeWith fuel tree x r.root H = some (tree', H') ∧
        H'.Holds tree' (.rebalanceUp fs r) ∧
        ∀ z, z ∉ (Tree.plug fs (.node .nil x r h)).toList → H' z = H z :=
      Holds.exists_replaceMeWith (s := .right) hH havl hfuel
    obtain ⟨tree', H', hrun, hH', hframe⟩ := hrun
    refine ⟨tree', H', ?_, hstored tree' H' hH', hframe⟩
    cases hr : r.root with
    | none => rwa [hr] at hrun
    | some c => rwa [hr] at hrun
  | some cl =>
    cases hr : r.root with
    | none =>
      obtain rfl := Tree.root_eq_none hr
      obtain ⟨tree', H', hrun, hH', hframe⟩ :=
        Holds.exists_replaceMeWith (s := .left) hH havl hfuel
      rw [hl] at hrun
      exact ⟨tree', H', hrun, hstored tree' H' (Tree.join_nil.symm ▸ hH'), hframe⟩
    | some cr =>
      obtain ⟨-, hlrep, hrrep⟩ := (holds_plug.1 hH).2.1
      have hlh : (H cl).height = l.height := by rw [← hlrep.height_root, hl]; rfl
      have hrh : (H cr).height = r.height := by rw [← hrrep.height_root, hr]; rfl
      dsimp only
      rw [hlh, hrh]
      obtain ⟨a, b, d, hfork, ha, hb⟩ : ∃ a b d,
          Tree.node l x r h = .fork (if (r.height : ℤ) < l.height then .left else .right) a x b h ∧
          a.root = some d ∧ 0 < b.size := by
        split_ifs
        · exact ⟨l, r, cl, rfl, hl, Tree.size_pos_of_root hr⟩
        · exact ⟨r, l, cr, rfl, hr, Tree.size_pos_of_root hl⟩
      rw [hfork] at hH havl hfuel ⊢
      obtain ⟨tree', H', gs, y, e, n, hrun, rfl, hgs, hH', hframe⟩ :=
        hH.exists_delInner ha havl hfuel
      rw [← Tree.join_eq hfork (by simp only [Int.ofNat_lt]) hb rfl hgs] at hH'
      exact ⟨some tree', H', by rw [hrun]; rfl, hstored _ H' hH', hframe⟩

end Heap

end Pclsync
