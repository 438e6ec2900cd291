import Pclsync.LinkedTree.Rep

/-!
# The ways up in memory

* `Heap.Holds`: a whole tree in memory, with the address of its root.
* `Heap.Holds.exists_rotateHeavy`: the rotations at a node, and the link to them from above.
* `Heap.Holds.exists_goUpRebalanceAdd`, `Heap.Holds.exists_goUpRebalanceDel`: the ways up come to
  the same as rebalancing up to the root.
-/

namespace Pclsync

open List Option

variable {α : Type*} [DecidableEq α]

/-- A whole tree in memory, with the address of its root. -/
structure Heap.Holds (H : Heap α) (tree : Option α) (t : Tree α) : Prop where
  rep : H.Rep none t
  root : t.root = tree
  nodup : t.toList.Nodup

/-! ## Paths by their sides -/

section

omit [DecidableEq α]

theorem Frame.exists_fork (f : Frame α) : ∃ s x b h, f = Frame.fork s x b h := by
  cases f with
  | left x r h => exact ⟨.left, x, r, h, rfl⟩
  | right l x h => exact ⟨.right, x, l, h, rfl⟩

namespace Tree

variable {s : Side} {t t' a b : Tree α} {x : α} {h : ℕ} {fs : List (Frame α)} {tree : Option α}

theorem plug_fork : plug (Frame.fork s x b h :: fs) t = plug fs (fork s t x b h) := by
  cases s <;> rfl

@[simp] theorem pathParent_fork : pathParent (Frame.fork s x b h :: fs) = some x := by
  cases s <;> rfl

/-- The nodes of a tree that are not in the subtree at the path. -/
def around (fs : List (Frame α)) : List α := before fs ++ after fs

theorem perm_around_fork :
    (around (Frame.fork s x b h :: fs)).Perm (x :: (b.toList ++ around fs)) := by
  rw [around, around]
  cases s with
  | left => exact perm_middle.trans (.cons x (perm_append_comm_assoc _ _ _))
  | right =>
    rw [Frame.fork, before, after, append_assoc, append_assoc, singleton_append]
    refine (perm_append_comm_assoc _ _ _).trans ?_
    exact (perm_middle.append_left _).trans perm_middle

theorem perm_plug : (plug fs t).toList.Perm (t.toList ++ around fs) := by
  rw [toList_plug, around]
  exact perm_append_comm_assoc _ _ _

theorem nodup_plug : (plug fs t).toList.Nodup ↔
    t.toList.Nodup ∧ (around fs).Nodup ∧ t.toList.Disjoint (around fs) := by
  rw [perm_plug.nodup_iff, nodup_append']

theorem mem_plug {z : α} : z ∈ (plug fs t).toList ↔ z ∈ t.toList ∨ z ∈ around fs := by
  rw [perm_plug.mem_iff, mem_append]

/-- Below a path, the root of a subtree is not the root of the tree. -/
theorem root_plug_cons {f : Frame α} : (plug (f :: fs) t).root = (plug (f :: fs) t').root := by
  induction fs generalizing f t t' with
  | nil => cases f <;> rfl
  | cons g fs ih =>
    obtain ⟨s, x, b, h, rfl⟩ := f.exists_fork
    rw [plug_fork, plug_fork]
    exact ih

/-! ## The rotations by their sides -/

/-- `Tree.rebalance` of a node with the subtree `a` on a side and `b` on the other one. -/
def rebalanceFork (s : Side) (a : Tree α) (x : α) (b : Tree α) : Tree α :=
  match s with
  | .left => rebalance a x b
  | .right => rebalance b x a

theorem mkFork_other : mkFork s.other a x b = mkFork s b x a := by
  rw [mkFork, mkFork, fork_other, max_comm]

theorem mkFork_left : mkFork .left a x b = mk a x b := rfl

theorem mkFork_right : mkFork .right a x b = mk b x a := by
  rw [mkFork, max_comm]
  rfl

/-- The subtree that is too high is not higher on the inner side. -/
theorem rebalanceFork_outer {a₁ a₂ : Tree α} {y : α} (hh : h = b.height + 2)
    (hle : ¬ a₁.height < a₂.height) :
    rebalanceFork s (fork s a₁ y a₂ h) x b = mkFork s a₁ y (mkFork s a₂ x b) := by
  cases s with
  | left =>
    have hheavy : ¬ (node a₁ y a₂ h).RightHeavy := hle
    rw [rebalanceFork, fork, rebalance, height_node, if_pos hh, if_neg hheavy, mkFork_left,
      mkFork_left, rotateRight_mk]
  | right =>
    have hheavy : ¬ (node a₂ y a₁ h).LeftHeavy := hle
    rw [rebalanceFork, fork, rebalance, height_node, if_neg (by omega), if_pos hh, if_neg hheavy,
      mkFork_right, mkFork_right, rotateLeft_mk]

/-- The subtree that is too high is higher on the inner side. -/
theorem rebalanceFork_inner {a₁ c₁ c₂ : Tree α} {y z : α} {h' : ℕ} (hh : h = b.height + 2)
    (hlt : a₁.height < h') :
    rebalanceFork s (fork s a₁ y (fork s c₁ z c₂ h') h) x b =
      mkFork s (mkFork s a₁ y c₁) z (mkFork s c₂ x b) := by
  cases s with
  | left =>
    have hheavy : (node a₁ y (node c₁ z c₂ h') h).RightHeavy := hlt
    rw [rebalanceFork, fork, fork, rebalance, height_node, if_pos hh, if_pos hheavy, mkFork_left,
      mkFork_left, mkFork_left, rotateRight_rotateLeft]
  | right =>
    have hheavy : (node (node c₂ z c₁ h') y a₁ h).LeftHeavy := hlt
    rw [rebalanceFork, fork, fork, rebalance, height_node, if_neg (by omega), if_pos hh,
      if_pos hheavy, mkFork_right, mkFork_right, mkFork_right, rotateLeft_rotateRight]

theorem toList_fork_fork {c : Tree α} {y : α} {h1 h2 h3 h4 : ℕ} :
    (fork s (fork s a x b h1) y c h2).toList = (fork s a x (fork s b y c h3) h4).toList := by
  cases s
  all_goals
    simp only [fork, toList_node, append_assoc, cons_append]

theorem toList_fork_congr {a' : Tree α} (ha : a'.toList = a.toList) {h' : ℕ} :
    (fork s a' x b h').toList = (fork s a x b h).toList := by
  cases s
  all_goals
    rw [fork, fork, toList_node, toList_node, ha]

theorem toList_plug_congr (ht : t'.toList = t.toList) :
    (plug fs t').toList = (plug fs t).toList := by
  rw [toList_plug, toList_plug, ht]

theorem exists_fork (s : Side) (ht : 0 < t.height) : ∃ a x b h, t = fork s a x b h := by
  cases t with
  | nil => exact absurd ht (lt_irrefl 0)
  | node l y r h' =>
    cases s
    · exact ⟨l, y, r, h', rfl⟩
    · exact ⟨r, y, l, h', rfl⟩

end Tree

end

namespace Heap

variable {s : Side} {H : Heap α} {a b t : Tree α} {x e : α} {h : ℕ} {fs : List (Frame α)}
  {tree c p q : Option α}

/-! ## LinkedNode from above -/

omit [DecidableEq α] in
theorem holds_plug : H.Holds tree (.plug fs t) ↔
    H.RepPath t.root fs ∧ H.Rep (pathParent fs) t ∧ (Tree.plug fs t).root = tree ∧
      (Tree.plug fs t).toList.Nodup :=
  ⟨fun hH => ⟨(rep_plug.1 hH.rep).1, (rep_plug.1 hH.rep).2, hH.root, hH.nodup⟩,
    fun ⟨hpath, hrep, hroot, hnodup⟩ => ⟨rep_plug.2 ⟨hpath, hrep⟩, hroot, hnodup⟩⟩

theorem replaceChild_fork {n : ℤ} (he : H e = LinkedNode.fork s (some x) q p n) (hq : q ≠ some x) :
    H.replaceChild e x c = some (H.setChild s e c) := by
  rw [replaceChild, he]
  cases s
  · exact if_pos rfl
  · exact (if_neg hq).trans (if_pos rfl)

/-- The node above the root `x` of a subtree gets another child in its place. -/
theorem RepPath.exists_replaceChild (hrep : H.RepPath (some x) (Frame.fork s e b h :: fs))
    (hx : x ∉ b.toList) (hnodup : (Tree.around (Frame.fork s e b h :: fs)).Nodup) (c : Option α) :
    ∃ H', H.replaceChild e x c = some H' ∧ H'.RepPath c (Frame.fork s e b h :: fs) ∧
      ∀ z, z ≠ e → H' z = H z := by
  obtain ⟨he, hb, hfs⟩ := repPath_fork.1 hrep
  rw [Tree.perm_around_fork.nodup_iff, nodup_cons, mem_append, not_or] at hnodup
  obtain ⟨⟨heb, hefs⟩, -⟩ := hnodup
  refine ⟨H.setChild s e c, replaceChild_fork he fun h => hx (Tree.mem_of_root h),
    repPath_fork.2 ⟨?_, hb.modify heb, hfs.modify hefs⟩, fun z hz => modify_of_ne hz⟩
  rw [setChild, modify_same, he, LinkedNode.setChild_fork]

/-! ## The rotations at a node -/

/-- The node `x` on a path has a subtree with the outer part `o` and the inner part `i`: the
    rotation at `x`, and the link to it. -/
theorem Holds.exists_rotateOuter {tree y : α} {o i : Tree α} {h' : ℕ}
    (hH : H.Holds (some tree) (.plug fs (.fork s (.fork s o y i h') x b h))) :
    ∃ tree' H', (if x = tree then (rotate s.other x H).map fun r => (r.1, none, r.2)
        else (H x).parent.bind fun e2 => (rotate s.other x H).bind fun r =>
          (r.2.replaceChild e2 x (some r.1)).map fun H => (tree, some e2, H)) =
        some (tree', pathParent fs, H') ∧
      H'.Holds (some tree') (.plug fs (.mkFork s o y (.mkFork s i x b))) ∧
      ∀ z, z ∉ (Tree.plug fs (.fork s (.fork s o y i h') x b h)).toList → H' z = H z := by
  obtain ⟨hpath, hrep, hroot, hnodup⟩ := holds_plug.1 hH
  obtain ⟨htnd, hfsnd, hdisj⟩ := Tree.nodup_plug.1 hnodup
  have hother : Tree.fork s (.fork s o y i h') x b h =
      Tree.fork s.other b x (.fork s.other i y o h') h := by
    rw [Tree.fork_other, Tree.fork_other]
  have hlist : (Tree.mkFork s o y (.mkFork s i x b)).toList =
      (Tree.fork s (.fork s o y i h') x b h).toList :=
    Tree.toList_fork_fork.symm
  have hx : (H x).parent = pathParent fs := by
    rw [(rep_fork.1 hrep).1, LinkedNode.parent_fork]
  obtain ⟨H₁, hrun, hrep1, hframe⟩ := (hother ▸ hrep).exists_rotate (hother ▸ htnd)
  rw [← hother] at hframe
  rw [Tree.mkFork_other, Tree.mkFork_other] at hrep1
  have hnodup1 : (Tree.plug fs (.mkFork s o y (.mkFork s i x b))).toList.Nodup :=
    Tree.toList_plug_congr hlist ▸ hnodup
  have hpath1 : H₁.RepPath (some x) fs :=
    (Tree.root_fork (s := s) ▸ hpath).congr fun z hz => hframe z fun hzt => hdisj hzt hz
  cases fs with
  | nil =>
    have hxtree : x = tree := by
      rw [Tree.plug, Tree.root_fork] at hroot
      exact some.inj hroot
    refine ⟨y, H₁, ?_, holds_plug.2 ⟨True.intro, hrep1, Tree.root_mkFork, hnodup1⟩, hframe⟩
    rw [if_pos hxtree, hrun]
    rfl
  | cons f fs =>
    obtain ⟨sf, e2, bf, hf, rfl⟩ := f.exists_fork
    have hxt : x ∈ (Tree.fork s (.fork s o y i h') x b h).toList :=
      Tree.mem_toList_fork.2 (.inl rfl)
    have he2 : e2 ∈ Tree.around (Frame.fork sf e2 bf hf :: fs) :=
      Tree.perm_around_fork.mem_iff.2 mem_cons_self
    have hxb : x ∉ bf.toList := fun hz => hdisj hxt
      (Tree.perm_around_fork.mem_iff.2 (mem_cons_of_mem _ (mem_append_left _ hz)))
    obtain ⟨H₂, hrun2, hpath2, hframe2⟩ := hpath1.exists_replaceChild hxb hfsnd (some y)
    have hxtree : x ≠ tree := by
      intro heq
      -- the root of the tree is on the path
      have hroot' : (Tree.plug (Frame.fork sf e2 bf hf :: fs) .nil).root = some tree :=
        Tree.root_plug_cons.trans hroot
      rcases Tree.mem_plug.1 (Tree.mem_of_root hroot') with hz | hz
      · exact not_mem_nil hz
      · exact hdisj hxt (heq ▸ hz)
    refine ⟨tree, H₂, ?_, holds_plug.2 ⟨?_, ?_, Tree.root_plug_cons.trans hroot, hnodup1⟩,
      fun z hz => ?_⟩
    · rw [if_neg hxtree, hx, Tree.pathParent_fork, bind_some, hrun, bind_some, hrun2]
      rfl
    · rwa [Tree.root_mkFork]
    · refine hrep1.congr fun z hz => hframe2 z ?_
      rintro rfl
      exact hdisj (hlist ▸ hz) he2
    · rw [Tree.mem_plug, not_or] at hz
      rw [hframe2 z (by rintro rfl; exact hz.2 he2), hframe z hz.1]

/-- The first rotation, if there are two: the subtree that is too high is then not higher on the
    inner side. -/
theorem Holds.exists_rotateInner {tree : Option α} (hH : H.Holds tree (.plug fs (.fork s a x b h)))
    (hh : a.height = b.height + 2) :
    ∃ y o i h' H', ((H x).child s).bind (fun c =>
        if H.height ((H c).child s) < H.height ((H c).child s.other) then
          (rotate s c H).map fun r => r.2.setChild s x (some r.1)
        else some H) = some H' ∧
      H'.Holds tree (.plug fs (.fork s (.fork s o y i h') x b h)) ∧
      Tree.rebalanceFork s a x b = .mkFork s o y (.mkFork s i x b) ∧
      (Tree.fork s o y i h').toList = a.toList ∧
      ∀ z, z ∉ (Tree.plug fs (.fork s a x b h)).toList → H' z = H z := by
  obtain ⟨hpath, hrep, hroot, hnodup⟩ := holds_plug.1 hH
  obtain ⟨htnd, hfsnd, hdisj⟩ := Tree.nodup_plug.1 hnodup
  obtain ⟨hx, ha, hb⟩ := rep_fork.1 hrep
  obtain ⟨⟨hxa, hxb⟩, hand, hbnd, hab⟩ := Tree.nodup_toList_fork.1 htnd
  obtain ⟨o, y, i, h', rfl⟩ := Tree.exists_fork (t := a) s (by omega)
  rw [Tree.height_fork] at hh
  obtain ⟨hy, ho, hi⟩ := rep_fork.1 ha
  have hchild : (H x).child s = some y := by rw [hx, LinkedNode.child_fork, Tree.root_fork]
  have hho : H.height ((H y).child s) = o.height := by
    rw [hy, LinkedNode.child_fork, ho.height_root]
  have hhi : H.height ((H y).child s.other) = i.height := by
    rw [hy, LinkedNode.child_other_fork, hi.height_root]
  rw [hchild, bind_some, hho, hhi]
  by_cases hlt : o.height < i.height
  · rw [if_pos (Int.ofNat_lt.2 hlt)]
    obtain ⟨c₁, z, c₂, h'', rfl⟩ := Tree.exists_fork (t := i) s (by omega)
    rw [Tree.height_fork] at hlt
    obtain ⟨H₁, hrun, hrep1, hframe⟩ := ha.exists_rotate hand
    have hlist : (Tree.mkFork s (.mkFork s o y c₁) z c₂).toList =
        (Tree.fork s o y (.fork s c₁ z c₂ h'') h').toList := Tree.toList_fork_fork
    have hx1 : H₁ x = LinkedNode.fork s (some y) b.root (pathParent fs) h := by
      rw [hframe x hxa, hx, Tree.root_fork]
    have hpath1 : H₁.RepPath (some x) fs := by
      rw [Tree.root_fork] at hpath
      exact hpath.congr fun w hw => hframe w fun hwa =>
        hdisj (Tree.mem_toList_fork.2 (.inr (.inl hwa))) hw
    have hb1 : H₁.Rep (some x) b := hb.congr fun w hw => hframe w fun hwa => hab hwa hw
    have hxfs : x ∉ Tree.around fs := hdisj (Tree.mem_toList_fork.2 (.inl rfl))
    refine ⟨z, _, _, _, H₁.setChild s x (some z), ?_, holds_plug.2 ⟨?_, rep_fork.2 ⟨?_, ?_, ?_⟩, ?_,
      ?_⟩, Tree.rebalanceFork_inner hh hlt, hlist, fun w hw => ?_⟩
    · rw [hrun]
      rfl
    · rw [Tree.root_fork]
      exact hpath1.modify hxfs
    · rw [setChild, modify_same, hx1, LinkedNode.setChild_fork, Tree.root_fork]
    · exact hrep1.modify (hlist ▸ hxa)
    · exact hb1.modify hxb
    · cases fs with
      | nil => rwa [Tree.plug, Tree.root_fork] at hroot ⊢
      | cons f fs => exact Tree.root_plug_cons.trans hroot
    · exact Tree.toList_plug_congr (Tree.toList_fork_congr hlist) ▸ hnodup
    · rw [Tree.mem_plug, Tree.mem_toList_fork, not_or, not_or, not_or] at hw
      rw [setChild, modify_of_ne hw.1.1, hframe w hw.1.2.1]
  · rw [if_neg (by omega)]
    exact ⟨y, o, i, h', H, rfl, hH, Tree.rebalanceFork_outer hh hlt, rfl, fun _ _ => rfl⟩

/-- The rotations at the node `x`, whose subtree on a side is too high. -/
theorem Holds.exists_rotateHeavy {tree : α} (hH : H.Holds (some tree) (.plug fs (.fork s a x b h)))
    (hh : a.height = b.height + 2) :
    ∃ tree' H', rotateHeavy s tree x H = some (tree', pathParent fs, H') ∧
      H'.Holds (some tree') (.plug fs (.rebalanceFork s a x b)) ∧
      ∀ z, z ∉ (Tree.plug fs (.fork s a x b h)).toList → H' z = H z := by
  obtain ⟨y, o, i, h', H₁, hrun1, hH1, hreb, hlist, hframe1⟩ := hH.exists_rotateInner hh
  obtain ⟨tree', H₂, hrun2, hH2, hframe2⟩ := hH1.exists_rotateOuter
  rw [Tree.toList_plug_congr (Tree.toList_fork_congr hlist)] at hframe2
  refine ⟨tree', H₂, ?_, hreb ▸ hH2, fun z hz => (hframe2 z hz).trans (hframe1 z hz)⟩
  rw [rotateHeavy, ← bind_assoc, hrun1, bind_some]
  exact hrun2

/-! ## The ways up -/

section

variable {l r : Tree α}

theorem Holds.setHeight (hH : H.Holds tree (.plug fs (.node l x r h))) (n : ℕ) :
    (H.setHeight x n).Holds tree (.plug fs (.node l x r n)) := by
  obtain ⟨hpath, hrep, hroot, hnodup⟩ := holds_plug.1 hH
  obtain ⟨htnd, hfsnd, hdisj⟩ := Tree.nodup_plug.1 hnodup
  obtain ⟨hx, hl, hr⟩ := hrep
  obtain ⟨⟨hxl, hxr⟩, -⟩ := (Tree.nodup_toList_fork (s := .left)).1 htnd
  have hxfs : x ∉ Tree.around fs := hdisj (mem_append_right _ mem_cons_self)
  refine holds_plug.2 ⟨hpath.modify hxfs, ⟨?_, hl.modify hxl, hr.modify hxr⟩, ?_, ?_⟩
  · rw [Heap.setHeight, modify_same, hx]
  · cases fs with
    | nil => exact hroot
    | cons f fs => exact Tree.root_plug_cons.trans hroot
  · have hlist : (Tree.node l x r n).toList = (Tree.node l x r h).toList := rfl
    exact Tree.toList_plug_congr hlist ▸ hnodup

omit [DecidableEq α] in
theorem Holds.apply_node (hH : H.Holds tree (.plug fs (.node l x r h))) :
    H.height (H x).left = l.height ∧ H.height (H x).right = r.height ∧
      (H x).parent = pathParent fs := by
  obtain ⟨hpath, ⟨hx, hl, hr⟩, hroot, hnodup⟩ := holds_plug.1 hH
  rw [hx]
  exact ⟨hl.height_root, hr.height_root, rfl⟩

omit [DecidableEq α] in
theorem Holds.root_eq {tree : α} (hH : H.Holds (some tree) (.node l x r h)) : tree = x :=
  (some.inj hH.root).symm

/-- The way up after one of the subtrees of `x` has grown. -/
theorem Holds.exists_goUpRebalanceAdd {tree : α} {fuel : ℕ}
    (hH : H.Holds (some tree) (.plug fs (.node l x r h))) (hl : l.Avl) (hr : r.Avl)
    (hgrown : Tree.Grown l r h) (hfs : Tree.AvlPath fs h) (hfuel : fs.length < fuel) :
    ∃ tree' H', goUpRebalanceAdd fuel tree x H = some (tree', H') ∧
      H'.Holds (some tree') (.rebalanceUp fs (.rebalance l x r)) ∧
      ∀ z, z ∉ (Tree.plug fs (.node l x r h)).toList → H' z = H z := by
  induction fuel generalizing fs l r x h H with
  | zero => exact absurd hfuel (Nat.not_lt_zero _)
  | succ fuel ih =>
    obtain ⟨hleft, hright, -⟩ := hH.apply_node
    obtain ⟨hle, hle'⟩ := hgrown.le
    have hstop : (Tree.rebalance l x r).height = h →
        Tree.rebalanceUp fs (.rebalance l x r) = Tree.plug fs (.rebalance l x r) :=
      fun hh => Tree.rebalanceUp_of_avlPath (hh.symm ▸ hfs)
    rw [goUpRebalanceAdd, hleft, hright]
    dsimp only
    by_cases heq : l.height = r.height
    · -- the node is as high as before
      have hnode := hgrown.of_eq (x := x) heq
      rw [if_pos (by omega), hstop (by rw [hnode, Tree.height_node]), hnode]
      exact ⟨tree, H, rfl, hH, fun _ _ => rfl⟩
    rw [if_neg (by omega)]
    by_cases hsucc : l.height = r.height + 1 ∨ r.height = l.height + 1
    · obtain ⟨hreb, hheight, hskew⟩ := hgrown.of_succ (x := x) hsucc
      have hn : (r.height : ℤ) + ((l.height : ℤ) - r.height + 1) / 2 + 1 =
          (max l.height r.height + 1 : ℕ) := by omega
      have hH1 := hH.setHeight (max l.height r.height + 1)
      rw [if_pos (by omega), hn, hH1.apply_node.2.2, hreb]
      have hframe : ∀ z, z ∉ (Tree.plug fs (.node l x r h)).toList →
          (H.setHeight x (max l.height r.height + 1 : ℕ)) z = H z := fun z hz => by
        rw [Tree.mem_plug, not_or, Tree.toList_node] at hz
        exact modify_of_ne fun hzx => hz.1 (hzx ▸ mem_append_right _ mem_cons_self)
      have hmk : (Tree.mk l x r).Avl := Tree.avl_mk hl hr (by omega) (by omega)
      have hmem : (Tree.plug fs (.mk l x r)).toList = (Tree.plug fs (.node l x r h)).toList :=
        Tree.toList_plug_congr rfl
      obtain _ | ⟨⟨y, r', h'⟩ | ⟨l', y, h'⟩, fs⟩ := fs
      · exact ⟨tree, _, if_pos hH1.root_eq, hH1, hframe⟩
      · obtain ⟨hr', rfl, h1, h2, hfs'⟩ := hfs
        have hH2 : Holds _ (some tree) (.plug fs (.node (.mk l x r) y r' _)) := hH1
        obtain ⟨tree', H', hrun, hH', hframe'⟩ := ih hH2 hmk hr'
          ⟨h, .inl ⟨hheight, hskew, rfl, h1, h2⟩⟩ hfs' (Nat.lt_of_succ_lt_succ hfuel)
        exact ⟨tree', H', hrun, hH', fun z hz => (hframe' z (hmem ▸ hz)).trans (hframe z hz)⟩
      · obtain ⟨hl', rfl, h1, h2, hfs'⟩ := hfs
        have hH2 : Holds _ (some tree) (.plug fs (.node l' y (.mk l x r) _)) := hH1
        obtain ⟨tree', H', hrun, hH', hframe'⟩ := ih hH2 hl' hmk
          ⟨h, .inr ⟨hheight, hskew, rfl, h1, h2⟩⟩ hfs' (Nat.lt_of_succ_lt_succ hfuel)
        exact ⟨tree', H', hrun, hH', fun z hz => (hframe' z (hmem ▸ hz)).trans (hframe z hz)⟩
    · rw [if_neg (by omega), hstop (hgrown.of_ne hl hr heq hsucc)]
      by_cases hleft : l.height = r.height + 2
      · obtain ⟨tree', H', hrun, hH', hframe⟩ :=
          Holds.exists_rotateHeavy (s := .left) hH hleft
        rw [if_pos (by omega), hrun]
        exact ⟨tree', H', rfl, hH', hframe⟩
      · obtain ⟨tree', H', hrun, hH', hframe⟩ :=
          Holds.exists_rotateHeavy (s := .right) hH (by omega)
        rw [if_neg (by omega), if_pos (by omega), hrun]
        exact ⟨tree', H', rfl, hH', hframe⟩

/-- The way up after one of the subtrees of `x` has shrunk. -/
theorem Holds.exists_goUpRebalanceDel {tree : α} {fuel : ℕ}
    (hH : H.Holds (some tree) (.plug fs (.node l x r h))) (hl : l.Avl) (hr : r.Avl)
    (hshrunk : Tree.Shrunk l r h) (hfs : Tree.AvlPath fs h) (hfuel : fs.length < fuel) :
    ∃ tree' H', goUpRebalanceDel fuel tree x H = some (tree', H') ∧
      H'.Holds (some tree') (.rebalanceUp fs (.rebalance l x r)) ∧
      ∀ z, z ∉ (Tree.plug fs (.node l x r h)).toList → H' z = H z := by
  induction fuel generalizing fs l r x h H tree with
  | zero => exact absurd hfuel (Nat.not_lt_zero _)
  | succ fuel ih =>
    obtain ⟨hleft, hright, -⟩ := hH.apply_node
    obtain ⟨hle, hle'⟩ := hshrunk.le
    obtain ⟨havl, hheight, hheight'⟩ := hshrunk.avl_rebalance (x := x) hl hr
    have hmem : (Tree.plug fs (.rebalance l x r)).toList = (Tree.plug fs (.node l x r h)).toList :=
      Tree.toList_plug_congr (Tree.toList_rebalance l x r)
    -- the rest of the way, after the step at `x`
    have hup : ∀ tree₁ H₁, H₁.Holds (some tree₁) (.plug fs (.rebalance l x r)) →
        (∀ z, z ∉ (Tree.plug fs (.node l x r h)).toList → H₁ z = H z) →
        ∃ tree' H', ((pathParent fs).elim (some (tree₁, H₁)) fun e2 =>
            goUpRebalanceDel fuel tree₁ e2 H₁) = some (tree', H') ∧
          H'.Holds (some tree') (.rebalanceUp fs (.rebalance l x r)) ∧
          ∀ z, z ∉ (Tree.plug fs (.node l x r h)).toList → H' z = H z := by
      intro tree₁ H₁ hH1 hframe
      obtain _ | ⟨⟨y, r', h'⟩ | ⟨l', y, h'⟩, fs⟩ := fs
      · exact ⟨tree₁, H₁, rfl, hH1, hframe⟩
      · obtain ⟨hr', rfl, h1, h2, hfs'⟩ := hfs
        have hH2 : H₁.Holds (some tree₁) (.plug fs (.node (.rebalance l x r) y r' _)) := hH1
        obtain ⟨tree', H', hrun, hH', hframe'⟩ := ih hH2 havl hr'
          ⟨h, .inl ⟨hheight, hheight', rfl, h1, h2⟩⟩ hfs' (Nat.lt_of_succ_lt_succ hfuel)
        exact ⟨tree', H', hrun, hH', fun z hz => (hframe' z (hmem ▸ hz)).trans (hframe z hz)⟩
      · obtain ⟨hl', rfl, h1, h2, hfs'⟩ := hfs
        have hH2 : H₁.Holds (some tree₁) (.plug fs (.node l' y (.rebalance l x r) _)) := hH1
        obtain ⟨tree', H', hrun, hH', hframe'⟩ := ih hH2 hl' havl
          ⟨h, .inr ⟨hheight, hheight', rfl, h1, h2⟩⟩ hfs' (Nat.lt_of_succ_lt_succ hfuel)
        exact ⟨tree', H', hrun, hH', fun z hz => (hframe' z (hmem ▸ hz)).trans (hframe z hz)⟩
    rw [goUpRebalanceDel, hleft, hright]
    dsimp only
    by_cases heq : l.height = r.height
    · have hH1 := hH.setHeight (r.height + 1)
      have hroot : pathParent fs = none → tree = x := fun hfs => by
        cases fs with
        | nil => exact hH.root_eq
        | cons f fs => cases hfs
      have hframe : ∀ z, z ∉ (Tree.plug fs (.node l x r h)).toList →
          (H.setHeight x (r.height + 1 : ℕ)) z = H z := fun z hz => by
        rw [Tree.mem_plug, not_or, Tree.toList_node] at hz
        exact modify_of_ne fun hzx => hz.1 (hzx ▸ mem_append_right _ mem_cons_self)
      rw [if_pos (by omega), show (r.height : ℤ) + 1 = (r.height + 1 : ℕ) from rfl,
        hH1.apply_node.2.2]
      obtain ⟨tree', H', hrun, hrest⟩ := hup tree _ (Tree.Shrunk.of_eq heq ▸ hH1) hframe
      refine ⟨tree', H', ?_, hrest⟩
      cases hp : pathParent fs with
      | none =>
        rw [hp] at hrun
        exact (if_pos (hroot hp)).trans hrun
      | some e2 =>
        rw [hp] at hrun
        exact hrun
    rw [if_neg (by omega)]
    by_cases hsucc : l.height = r.height + 1 ∨ r.height = l.height + 1
    · -- the node is as high as before
      have hnode := hshrunk.of_succ (x := x) hsucc
      rw [if_pos (by omega), hnode,
        Tree.rebalanceUp_of_avlPath (t := .node l x r h) hfs]
      exact ⟨tree, H, rfl, hH, fun _ _ => rfl⟩
    · rw [if_neg (by omega)]
      by_cases hleft : l.height = r.height + 2
      · obtain ⟨tree₁, H₁, hrun, hH1, hframe⟩ :=
          Holds.exists_rotateHeavy (s := .left) hH hleft
        rw [if_pos (by omega), hrun]
        exact hup tree₁ H₁ hH1 hframe
      · obtain ⟨tree₁, H₁, hrun, hH1, hframe⟩ :=
          Holds.exists_rotateHeavy (s := .right) hH (by omega)
        rw [if_neg (by omega), if_pos (by omega), hrun]
        exact hup tree₁ H₁ hH1 hframe

end

end Heap

end Pclsync
