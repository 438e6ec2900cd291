import Mathlib.Data.List.Nodup
import Pclsync.LinkedTree.Heap
import Pclsync.LinkedTree.Path

/-!
# Trees in memory

* `Heap.Rep`: a tree whose elements are the addresses of its nodes is in memory, with a parent of
  its root; `Heap.RepPath` says the same of a path. `Heap.rep_plug` puts them together.
* `Heap.Rep.exists_rotate`: what a rotation does to a subtree; all other nodes stay as they are.
-/

namespace Pclsync

open List

variable {α : Type*} [DecidableEq α]

/-- The address of the root. -/
def Tree.root : Tree α → Option α
  | .nil => none
  | .node _ x _ _ => some x

/-- The tree is in memory, and the parent of its root is `p`. -/
def Heap.Rep (H : Heap α) : Option α → Tree α → Prop
  | _, .nil => True
  | p, .node l x r h => H x = ⟨l.root, r.root, p, h⟩ ∧ H.Rep (some x) l ∧ H.Rep (some x) r

/-- A node with the subtree `a` on a side and `b` on the other one. -/
def Tree.fork (s : Side) (a : Tree α) (x : α) (b : Tree α) (h : ℕ) : Tree α :=
  match s with
  | .left => .node a x b h
  | .right => .node b x a h

namespace Frame

/-- The node of a frame. -/
def elem : Frame α → α
  | left x _ _ => x
  | right _ x _ => x

/-- A node whose subtree on a side is the one that is looked at, with `b` as its other subtree. -/
def fork (s : Side) (x : α) (b : Tree α) (h : ℕ) : Frame α :=
  match s with
  | .left => .left x b h
  | .right => .right b x h

end Frame

/-- The parent of the root of the subtree at a path. -/
def pathParent : List (Frame α) → Option α
  | [] => none
  | f :: _ => some f.elem

/-- The nodes of a path are in memory, with their other subtrees; `c` is the root of the subtree. -/
def Heap.RepPath (H : Heap α) : Option α → List (Frame α) → Prop
  | _, [] => True
  | c, .left x r h :: fs =>
    H x = ⟨c, r.root, pathParent fs, h⟩ ∧ H.Rep (some x) r ∧ H.RepPath (some x) fs
  | c, .right l x h :: fs =>
    H x = ⟨l.root, c, pathParent fs, h⟩ ∧ H.Rep (some x) l ∧ H.RepPath (some x) fs

/-! ## What is in memory -/

section

omit [DecidableEq α]

namespace Tree

variable {s : Side} {a b : Tree α} {x : α} {h : ℕ}

theorem fork_other : fork s.other a x b h = fork s b x a h := by cases s <;> rfl

@[simp] theorem root_fork : (fork s a x b h).root = some x := by cases s <;> rfl

@[simp] theorem height_fork : (fork s a x b h).height = h := by cases s <;> rfl

theorem mem_toList_fork {z : α} :
    z ∈ (fork s a x b h).toList ↔ z = x ∨ z ∈ a.toList ∨ z ∈ b.toList := by
  cases s
  all_goals
    rw [fork, toList_node, mem_append, mem_cons]
    tauto

theorem nodup_toList_fork : (fork s a x b h).toList.Nodup ↔
    (x ∉ a.toList ∧ x ∉ b.toList) ∧ a.toList.Nodup ∧ b.toList.Nodup ∧
      a.toList.Disjoint b.toList := by
  cases s
  all_goals
    rw [fork, toList_node, nodup_append', nodup_cons, disjoint_cons_right]
  · tauto
  · rw [List.disjoint_comm]
    tauto

theorem mem_of_root {t : Tree α} (h : t.root = some x) : x ∈ t.toList := by
  cases t with
  | nil => cases h
  | node l y r h' =>
    cases h
    rw [toList_node]
    exact mem_append_right _ mem_cons_self

theorem root_eq_none {t : Tree α} (h : t.root = none) : t = nil := by
  cases t with
  | nil => rfl
  | node l y r h' => cases h

end Tree

namespace Heap

variable {s : Side} {H H' : Heap α} {p c : Option α} {t a b : Tree α} {x : α} {h : ℕ}
  {fs : List (Frame α)}

theorem rep_fork : H.Rep p (.fork s a x b h) ↔
    H x = LinkedNode.fork s a.root b.root p h ∧ H.Rep (some x) a ∧ H.Rep (some x) b := by
  cases s
  · rfl
  · exact and_congr_right' and_comm

theorem repPath_fork : H.RepPath c (.fork s x b h :: fs) ↔
    H x = LinkedNode.fork s c b.root (pathParent fs) h ∧ H.Rep (some x) b ∧
      H.RepPath (some x) fs := by
  cases s <;> rfl

theorem Rep.congr (hrep : H.Rep p t) (heq : ∀ z ∈ t.toList, H' z = H z) : H'.Rep p t := by
  induction t generalizing p with
  | nil => trivial
  | node l x r h ihl ihr =>
    obtain ⟨hx, hl, hr⟩ := hrep
    rw [Tree.toList_node] at heq
    exact ⟨(heq x (by simp)).trans hx, ihl hl fun z hz => heq z (by simp [hz]),
      ihr hr fun z hz => heq z (by simp [hz])⟩

theorem RepPath.congr (hrep : H.RepPath c fs)
    (heq : ∀ z ∈ Tree.before fs ++ Tree.after fs, H' z = H z) : H'.RepPath c fs := by
  induction fs generalizing c with
  | nil => trivial
  | cons f fs ih =>
    cases f
    all_goals
      obtain ⟨hx, hb, hfs⟩ := hrep
      rw [Tree.before, Tree.after] at heq
      refine ⟨(heq _ (by simp)).trans hx, hb.congr fun z hz => heq z (by simp [hz]),
        ih hfs fun z hz => heq z ?_⟩
      rcases mem_append.1 hz with hz | hz <;> simp [hz]

theorem Rep.height_root (hrep : H.Rep p t) : H.height t.root = t.height := by
  cases t with
  | nil => rfl
  | node l x r h =>
    rw [Tree.root, height, hrep.1]
    rfl

/-- A tree is in memory as a subtree and a path. -/
theorem rep_plug : H.Rep none (Tree.plug fs t) ↔
    H.RepPath t.root fs ∧ H.Rep (pathParent fs) t := by
  induction fs generalizing t with
  | nil => exact (and_iff_right trivial).symm
  | cons f fs ih =>
    cases f with
    | left x r h =>
      rw [Tree.plug, ih, RepPath, Rep, pathParent, Tree.root, Frame.elem]
      tauto
    | right l x h =>
      rw [Tree.plug, ih, RepPath, Rep, pathParent, Tree.root, Frame.elem]
      tauto

end Heap

end

namespace Heap

variable {s : Side} {H H' : Heap α} {p q c : Option α} {t a b : Tree α} {x z : α} {h : ℕ}
  {fs : List (Frame α)} {f : LinkedNode α → LinkedNode α}

@[simp] theorem modify_same : H.modify x f x = f (H x) := Function.update_self _ _ _

theorem modify_of_ne (hz : z ≠ x) : H.modify x f z = H z := Function.update_of_ne hz _ _

theorem Rep.modify (hrep : H.Rep p t) (hx : x ∉ t.toList) : (H.modify x f).Rep p t :=
  hrep.congr fun _ hz => modify_of_ne fun h => hx (h ▸ hz)

theorem RepPath.modify (hrep : H.RepPath c fs) (hx : x ∉ Tree.before fs ++ Tree.after fs) :
    (H.modify x f).RepPath c fs :=
  hrep.congr fun _ hz => modify_of_ne fun h => hx (h ▸ hz)

theorem setParentOf_of_ne (hz : t.root ≠ some z) : H.setParentOf t.root p z = H z := by
  cases t with
  | nil => rfl
  | node l x r h =>
    rw [Tree.root, setParentOf, setParent]
    exact modify_of_ne fun h => hz (congrArg some h.symm)

theorem Rep.setParentOf (hrep : H.Rep p t) (hnodup : t.toList.Nodup) :
    (H.setParentOf t.root q).Rep q t := by
  cases t with
  | nil => trivial
  | node l x r h =>
    obtain ⟨hx, hl, hr⟩ := hrep
    obtain ⟨⟨hxl, hxr⟩, -⟩ := (Tree.nodup_toList_fork (s := .left)).1 hnodup
    rw [Tree.root, Heap.setParentOf, setParent]
    refine ⟨?_, hl.modify hxl, hr.modify hxr⟩
    rw [modify_same, hx]

theorem Rep.setParentOf_of_notMem (hrep : H.Rep p t) (hx : ∀ z, b.root = some z → z ∉ t.toList) :
    (H.setParentOf b.root q).Rep p t :=
  hrep.congr fun z hz => setParentOf_of_ne fun h => hx z h hz

omit [DecidableEq α] in
theorem height_fork_max {e : α} (he : H e = LinkedNode.fork s c q p h) :
    max (H.height (H e).left) (H.height (H e).right) = max (H.height c) (H.height q) := by
  rw [he]
  cases s
  · rfl
  · exact max_comm _ _

end Heap

/-! ## Rotations in memory -/

/-- A node with its height recalculated. -/
def Tree.mkFork (s : Side) (a : Tree α) (x : α) (b : Tree α) : Tree α :=
  .fork s a x b (max a.height b.height + 1)

omit [DecidableEq α] in
theorem Tree.cast_height_mkFork (s : Side) (a : Tree α) (x : α) (b : Tree α) :
    ((mkFork s a x b).height : ℤ) = max (a.height : ℤ) b.height + 1 := by
  rw [mkFork, height_fork]
  omega

omit [DecidableEq α] in
@[simp] theorem Tree.root_mkFork {s : Side} {a b : Tree α} {x : α} :
    (mkFork s a x b).root = some x := root_fork

omit [DecidableEq α] in
theorem Heap.rep_mkFork {s : Side} {H : Heap α} {p : Option α} {a b : Tree α} {x : α} :
    H.Rep p (.mkFork s a x b) ↔
      H x = LinkedNode.fork s a.root b.root p (Tree.mkFork s a x b).height ∧
        H.Rep (some x) a ∧ H.Rep (some x) b := by
  rw [Tree.mkFork, rep_fork, Tree.height_fork]

/-- A rotation brings up the root `y` of the subtree on the other side. -/
theorem Heap.Rep.exists_rotate {s : Side} {H : Heap α} {p : Option α} {l m r : Tree α} {x y : α}
    {h h' : ℕ} (hrep : H.Rep p (.fork s l x (.fork s m y r h') h))
    (hnodup : (Tree.fork s l x (.fork s m y r h') h).toList.Nodup) :
    ∃ H', rotate s x H = some (y, H') ∧ H'.Rep p (.mkFork s (.mkFork s l x m) y r) ∧
      ∀ z, z ∉ (Tree.fork s l x (.fork s m y r h') h).toList → H' z = H z := by
  obtain ⟨hx, hl, hyrep⟩ := Heap.rep_fork.1 hrep
  obtain ⟨hy, hm, hr⟩ := Heap.rep_fork.1 hyrep
  obtain ⟨⟨hxl, hxf⟩, hlnd, hfnd, hdisj⟩ := Tree.nodup_toList_fork.1 hnodup
  obtain ⟨⟨hym, hyr⟩, hmnd, hrnd, hmr⟩ := Tree.nodup_toList_fork.1 hfnd
  have hyl : y ∉ l.toList := fun hz => hdisj hz (Tree.mem_toList_fork.2 (.inl rfl))
  have hxm : x ∉ m.toList := fun hz => hxf (Tree.mem_toList_fork.2 (.inr (.inl hz)))
  have hxr : x ∉ r.toList := fun hz => hxf (Tree.mem_toList_fork.2 (.inr (.inr hz)))
  have hxy : x ≠ y := fun hz => hxf (Tree.mem_toList_fork.2 (.inl hz))
  have hml : ∀ z, m.root = some z → z ∉ l.toList := fun z hz hzl =>
    hdisj hzl (Tree.mem_toList_fork.2 (.inr (.inl (Tree.mem_of_root hz))))
  have hmr' : ∀ z, m.root = some z → z ∉ r.toList := fun z hz => hmr (Tree.mem_of_root hz)
  -- the assignments of the source, one after another
  let H₁ := H.setParent y p
  let H₂ := H₁.setChild s.other x m.root
  let H₃ := H₂.setParentOf m.root (some x)
  let H₄ := H₃.setHeight x (Tree.mkFork s l x m).height
  let H₅ := H₄.setParent x (some y)
  let H₆ := H₅.setChild s y (some x)
  let H₇ := H₆.setHeight y (Tree.mkFork s (.mkFork s l x m) y r).height
  have hmx : m.root ≠ some x := fun hz => hxm (Tree.mem_of_root hz)
  have hmy : m.root ≠ some y := fun hz => hym (Tree.mem_of_root hz)
  have hx3 : H₃ x = LinkedNode.fork s l.root m.root p h := by
    rw [show H₃ x = H₂ x from Heap.setParentOf_of_ne hmx, show H₂ x = _ from Heap.modify_same,
      show H₁ x = H x from Heap.modify_of_ne hxy, hx, LinkedNode.setChild_other_fork]
  have hy3 : H₃ y = LinkedNode.fork s m.root r.root p h' := by
    rw [show H₃ y = H₂ y from Heap.setParentOf_of_ne hmy,
      show H₂ y = H₁ y from Heap.modify_of_ne hxy.symm, show H₁ y = _ from Heap.modify_same, hy,
      LinkedNode.setParent_fork]
  have hl3 : H₃.Rep (some x) l := ((hl.modify hyl).modify hxl).setParentOf_of_notMem hml
  have hm3 : H₃.Rep (some x) m := Heap.Rep.setParentOf ((hm.modify hym).modify hxm) hmnd
  have hr3 : H₃.Rep (some y) r := ((hr.modify hyr).modify hxr).setParentOf_of_notMem hmr'
  have hx2 : H₂ x = LinkedNode.fork s l.root m.root p h := by
    rw [show H₂ x = _ from Heap.modify_same, show H₁ x = H x from Heap.modify_of_ne hxy, hx,
      LinkedNode.setChild_other_fork]
  have hy1 : H₁ y = LinkedNode.fork s m.root r.root p h' := by
    rw [show H₁ y = _ from Heap.modify_same, hy, LinkedNode.setParent_fork]
  have hy6 : H₆ y = LinkedNode.fork s (some x) r.root p h' := by
    rw [show H₆ y = _ from Heap.modify_same, show H₅ y = H₄ y from Heap.modify_of_ne hxy.symm,
      show H₄ y = H₃ y from Heap.modify_of_ne hxy.symm, hy3, LinkedNode.setChild_fork]
  have hx6 : H₆ x = LinkedNode.fork s l.root m.root (some y) (Tree.mkFork s l x m).height := by
    rw [show H₆ x = H₅ x from Heap.modify_of_ne hxy, show H₅ x = _ from Heap.modify_same,
      show H₄ x = _ from Heap.modify_same, hx3, LinkedNode.setHeight_fork,
      LinkedNode.setParent_fork]
  have hl6 : H₆.Rep (some x) l := ((hl3.modify hxl).modify hxl).modify hyl
  have hm6 : H₆.Rep (some x) m := ((hm3.modify hxm).modify hxm).modify hym
  have hr6 : H₆.Rep (some y) r := ((hr3.modify hxr).modify hxr).modify hyr
  have h7 : H₆.recalcHeight y = H₇ := by
    have hheight := Heap.height_fork_max hy6
    rw [hr6.height_root, show H₆.height (some x) = (H₆ x).height from rfl, hx6,
      LinkedNode.height_fork] at hheight
    refine congrArg (H₆.setHeight y) ?_
    rw [Tree.cast_height_mkFork, ← hheight]
  refine ⟨H₇, ?_, ?_, fun z hz => ?_⟩
  · have hchild : (H x).child s.other = some y := by
      rw [hx, LinkedNode.child_other_fork, Tree.root_fork]
    have hp : (H x).parent = p := by rw [hx, LinkedNode.parent_fork]
    have hm1 : ((H.setParent y p) y).child s = m.root := by
      rw [show H.setParent y p = H₁ from rfl, hy1, LinkedNode.child_fork]
    have hm2 : ((H₁.setChild s.other x m.root) x).child s.other = m.root := by
      rw [show H₁.setChild s.other x m.root = H₂ from rfl, hx2, LinkedNode.child_other_fork]
    have hl2 : ((H₁.setChild s.other x m.root) x).child s = l.root := by
      rw [show H₁.setChild s.other x m.root = H₂ from rfl, hx2, LinkedNode.child_fork]
    -- the height of `x`, with and without a subtree between `x` and `y`
    have h4 : (∀ c, m.root = some c → (H₂.setParent c (some x)).recalcHeight x = H₄) ∧
        (m.root = none → H₂.setHeight x (H₂.height l.root + 1) = H₄) := by
      have hlh := hl3.height_root
      have hmh := hm3.height_root
      refine ⟨fun c hc => ?_, fun hc => ?_⟩
      · have hheight := Heap.height_fork_max hx3
        have hH3 : H₃ = H₂.setParent c (some x) := by
          rw [show H₃ = H₂.setParentOf _ _ from rfl, hc]
          rfl
        rw [hlh, hmh] at hheight
        rw [← hH3]
        refine congrArg (H₃.setHeight x) ?_
        rw [Tree.cast_height_mkFork, ← hheight]
      · obtain rfl := Tree.root_eq_none hc
        refine congrArg (H₂.setHeight x) ?_
        rw [show H₂.height l.root = l.height from hlh, Tree.cast_height_mkFork]
        exact congrArg (· + 1) (max_eq_left (Int.natCast_nonneg _)).symm
    rw [rotate, hchild, Option.map_some, hp]
    dsimp only
    rw [hm1, show H.setParent y p = H₁ from rfl, hm2, hl2]
    cases hc : m.root with
    | none =>
      have h4 := h4.2 hc
      rw [show H₂ = H₁.setChild s.other x none by rw [← hc]] at h4
      refine congrArg (fun H => some (y, H)) (Eq.trans ?_ h7)
      exact congrArg (fun H : Heap α =>
        ((H.setParent x (some y)).setChild s y (some x)).recalcHeight y) h4
    | some c =>
      have h4 := h4.1 c hc
      rw [show H₂ = H₁.setChild s.other x (some c) by rw [← hc]] at h4
      refine congrArg (fun H => some (y, H)) (Eq.trans ?_ h7)
      exact congrArg (fun H : Heap α =>
        ((H.setParent x (some y)).setChild s y (some x)).recalcHeight y) h4
  · refine Heap.rep_mkFork.2 ⟨?_, Heap.rep_mkFork.2 ⟨?_, hl6.modify hyl, hm6.modify hym⟩,
      hr6.modify hyr⟩
    · rw [show H₇ y = _ from Heap.modify_same, hy6, LinkedNode.setHeight_fork, Tree.root_mkFork]
    · exact (Heap.modify_of_ne hxy).trans hx6
  · rw [Tree.mem_toList_fork, Tree.mem_toList_fork, not_or, not_or, not_or, not_or] at hz
    obtain ⟨hzx, -, hzy, hzm, -⟩ := hz
    have hzroot : m.root ≠ some z := fun h => hzm (Tree.mem_of_root h)
    rw [show H₇ z = H₆ z from Heap.modify_of_ne hzy, show H₆ z = H₅ z from Heap.modify_of_ne hzy,
      show H₅ z = H₄ z from Heap.modify_of_ne hzx, show H₄ z = H₃ z from Heap.modify_of_ne hzx,
      show H₃ z = H₂ z from Heap.setParentOf_of_ne hzroot,
      show H₂ z = H₁ z from Heap.modify_of_ne hzx, show H₁ z = H z from Heap.modify_of_ne hzy]

end Pclsync
