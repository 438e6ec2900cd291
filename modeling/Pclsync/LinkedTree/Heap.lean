import Mathlib.Data.Int.Notation
import Mathlib.Tactic.Common

/-!
# Linked nodes

The nodes of `ptree.c` in memory, and the functions of that file on them. A function has no result
where it follows a null pointer or an assertion fails, and its loops take some fuel. What the source
writes out once for the left and once for the right is here one function of a `Side`.

* `LinkedNode`, `Heap`: the nodes.
* `rotate`, `goUpRebalanceAdd`, `goUpRebalanceDel`: the rotations and the ways up.
* `getAdd`, `getAddedAt`, `getAddBy`, `getDel`: the operations.
-/

namespace Pclsync

/-! ## Sides -/

inductive Side
  | left
  | right
  deriving DecidableEq

def Side.other : Side → Side
  | left => right
  | right => left

@[simp] theorem Side.other_other (s : Side) : s.other.other = s := by cases s <;> rfl

/-! ## Nodes in memory -/

/-- `psync_tree` -/
structure LinkedNode (α : Type*) where
  left : Option α
  right : Option α
  parent : Option α
  height : ℤ

namespace LinkedNode

variable {α : Type*}

def child (n : LinkedNode α) : Side → Option α
  | .left => n.left
  | .right => n.right

def setChild (s : Side) (c : Option α) (n : LinkedNode α) : LinkedNode α :=
  match s with
  | .left => { n with left := c }
  | .right => { n with right := c }

/-- A node with `a` on a side and `b` on the other one. -/
def fork (s : Side) (a b parent : Option α) (height : ℤ) : LinkedNode α :=
  match s with
  | .left => ⟨a, b, parent, height⟩
  | .right => ⟨b, a, parent, height⟩

variable {s : Side} {a b c p : Option α} {h : ℤ}

theorem fork_other : fork s.other a b p h = fork s b a p h := by cases s <;> rfl
@[simp] theorem child_fork : (fork s a b p h).child s = a := by cases s <;> rfl
@[simp] theorem child_other_fork : (fork s a b p h).child s.other = b := by cases s <;> rfl
@[simp] theorem parent_fork : (fork s a b p h).parent = p := by cases s <;> rfl
@[simp] theorem height_fork : (fork s a b p h).height = h := by cases s <;> rfl

@[simp] theorem setChild_fork : (fork s a b p h).setChild s c = fork s c b p h := by
  cases s <;> rfl

@[simp] theorem setChild_other_fork : (fork s a b p h).setChild s.other c = fork s a c p h := by
  cases s <;> rfl

@[simp] theorem setParent_fork :
    ({ fork s a b p h with parent := c } : LinkedNode α) = fork s a b c h := by cases s <;> rfl

@[simp] theorem setHeight_fork {h' : ℤ} :
    ({ fork s a b p h with height := h' } : LinkedNode α) = fork s a b p h' := by cases s <;> rfl

end LinkedNode

/-- The nodes by their addresses. -/
abbrev Heap (α : Type*) := α → LinkedNode α

variable {α : Type*} [DecidableEq α]

namespace Heap

/-- An assignment to a field of a node. -/
def modify (H : Heap α) (x : α) (f : LinkedNode α → LinkedNode α) : Heap α :=
  Function.update H x (f (H x))

def setParent (H : Heap α) (x : α) (p : Option α) : Heap α :=
  H.modify x fun n => { n with parent := p }

def setHeight (H : Heap α) (x : α) (h : ℤ) : Heap α := H.modify x fun n => { n with height := h }

def setChild (H : Heap α) (s : Side) (x : α) (c : Option α) : Heap α :=
  H.modify x (LinkedNode.setChild s c)

/-- `if (x) x->parent=p` -/
def setParentOf (H : Heap α) (x : Option α) (p : Option α) : Heap α :=
  match x with
  | none => H
  | some x => H.setParent x p

/-- `memcpy` of a node. -/
def copy (H : Heap α) (x y : α) : Heap α := H.modify x fun _ => H y

omit [DecidableEq α] in
/-- `psync_tree_height` -/
def height (H : Heap α) : Option α → ℤ
  | none => 0
  | some x => (H x).height

/-- `psync_tree_recalc_height` -/
def recalcHeight (H : Heap α) (e : α) : Heap α :=
  H.setHeight e (max (H.height (H e).left) (H.height (H e).right) + 1)

/-- The child of a node that is `e` becomes `c`. -/
def replaceChild (H : Heap α) (x e : α) (c : Option α) : Option (Heap α) :=
  if (H x).left = some e then some (H.setChild .left x c)
  else if (H x).right = some e then some (H.setChild .right x c)
  else none

end Heap

/-! ## Rotations and the ways up -/

/-- `psync_tree_rotate_left` for the left side, and `psync_tree_rotate_right` for the right one: the
    child `e2` on the other side comes up. -/
def rotate (s : Side) (e : α) (H : Heap α) : Option (α × Heap α) :=
  ((H e).child s.other).map fun e2 =>
    let H := H.setParent e2 (H e).parent
    let H := H.setChild s.other e ((H e2).child s)
    let H := match (H e).child s.other with
      | some c => (H.setParent c (some e)).recalcHeight e
      | none => H.setHeight e (H.height ((H e).child s) + 1)
    let H := H.setParent e (some e2)
    let H := H.setChild s e2 (some e)
    (e2, H.recalcHeight e2)

/-- The branch of both ways up for a node `e` whose subtree on a side is too high. The result has
    the root and the node above, if there is one. -/
def rotateHeavy (s : Side) (tree e : α) (H : Heap α) : Option (α × Option α × Heap α) :=
  ((H e).child s).bind fun c =>
    (if H.height ((H c).child s) < H.height ((H c).child s.other) then
      (rotate s c H).map fun r => r.2.setChild s e (some r.1)
    else some H).bind fun H =>
      if e = tree then (rotate s.other e H).map fun r => (r.1, none, r.2)
      else (H e).parent.bind fun e2 => (rotate s.other e H).bind fun r =>
        (r.2.replaceChild e2 e (some r.1)).map fun H => (tree, some e2, H)

/-- `psync_tree_go_up_rebalance_add` -/
def goUpRebalanceAdd : ℕ → α → α → Heap α → Option (α × Heap α)
  | 0, _, _, _ => none
  | fuel + 1, tree, e, H =>
    let lheight := H.height (H e).left
    let rheight := H.height (H e).right
    let dheight := lheight - rheight
    if dheight = 0 then some (tree, H)
    else if dheight = 1 ∨ dheight = -1 then
      let H := H.setHeight e (rheight + (dheight + 1) / 2 + 1)
      match (H e).parent with
      | some parent => goUpRebalanceAdd fuel tree parent H
      | none => if tree = e then some (tree, H) else none
    else if dheight = 2 then (rotateHeavy .left tree e H).map fun r => (r.1, r.2.2)
    else if dheight = -2 then (rotateHeavy .right tree e H).map fun r => (r.1, r.2.2)
    else none

/-- `psync_tree_go_up_rebalance_del` -/
def goUpRebalanceDel : ℕ → α → α → Heap α → Option (α × Heap α)
  | 0, _, _, _ => none
  | fuel + 1, tree, e, H =>
    let lheight := H.height (H e).left
    let rheight := H.height (H e).right
    let dheight := lheight - rheight
    let up (r : α × Option α × Heap α) : Option (α × Heap α) :=
      r.2.1.elim (some (r.1, r.2.2)) fun e2 => goUpRebalanceDel fuel r.1 e2 r.2.2
    if dheight = 0 then
      let H := H.setHeight e (rheight + 1)
      match (H e).parent with
      | some parent => goUpRebalanceDel fuel tree parent H
      | none => if tree = e then some (tree, H) else none
    else if dheight = 1 ∨ dheight = -1 then some (tree, H)
    else if dheight = 2 then (rotateHeavy .left tree e H).bind up
    else if dheight = -2 then (rotateHeavy .right tree e H).bind up
    else none

/-! ## Adding a node -/

/-- `while (x->child) x=x->child` -/
def walk (s : Side) : ℕ → α → Heap α → Option α
  | 0, _, _ => none
  | fuel + 1, x, H =>
    match (H x).child s with
    | some c => walk s fuel c H
    | none => some x

/-- `psync_tree_init_node` -/
def initNode (x : α) (H : Heap α) : Heap α := H.modify x fun _ => ⟨none, none, none, 1⟩

/-- The new node takes the free place next to a node, on the left or on the right of it in order. -/
def addBeside (s : Side) (fuel : ℕ) (tree node newnode : α) (H : Heap α) : Option (α × Heap α) :=
  let H := initNode newnode H
  match (H node).child s with
  | some c => (walk s.other fuel c H).bind fun node =>
      let H := H.setChild s.other node (some newnode)
      goUpRebalanceAdd fuel tree node (H.setParent newnode (some node))
  | none =>
    let H := H.setChild s node (some newnode)
    goUpRebalanceAdd fuel tree node (H.setParent newnode (some node))

/-- `psync_tree_get_add_before` for the left side, and `psync_tree_get_add_after` for the right one.
    Without a node, the new one comes after the last one, or before the first one. -/
def getAdd (s : Side) (fuel : ℕ) (tree node : Option α) (newnode : α) (H : Heap α) :
    Option (α × Heap α) :=
  match tree with
  | none => some (newnode, initNode newnode H)
  | some tree =>
    match node with
    | some node => addBeside s fuel tree node newnode H
    | none => (walk s.other fuel tree H).bind fun node =>
        addBeside s.other fuel tree node newnode H

/-- `psync_tree_get_added_at`, after the caller has made the new node the root, or the child on a
    side of `parent`. -/
def getAddedAt (s : Side) (fuel : ℕ) (tree parent : Option α) (newnode : α) (H : Heap α) :
    Option (α × Heap α) :=
  match parent with
  | none => some (newnode, (initNode newnode H).setParent newnode none)
  | some parent => tree.bind fun tree =>
      let H := H.setChild s parent (some newnode)
      goUpRebalanceAdd fuel tree parent ((initNode newnode H).setParent newnode (some parent))

/-- The loop of `psync_tree_get_add`. -/
def addByLoop (comp : α → α → ℤ) : ℕ → ℕ → α → α → α → Heap α → Option (α × Heap α)
  | 0, _, _, _, _, _ => none
  | n + 1, fuel, tree, el, newnode, H =>
    let s := if comp newnode el < 0 then Side.left else Side.right
    match (H el).child s with
    | some c => addByLoop comp n fuel tree c newnode H
    | none => getAdd s fuel (some tree) (some el) newnode H

/-- `psync_tree_get_add` -/
def getAddBy (comp : α → α → ℤ) (fuel : ℕ) (tree : Option α) (newnode : α) (H : Heap α) :
    Option (α × Heap α) :=
  match tree with
  | none => getAdd .right fuel none none newnode H
  | some tree => addByLoop comp fuel fuel tree tree newnode H

/-! ## Deleting a node -/

/-- `psync_tree_replace_me_with` -/
def replaceMeWith (fuel : ℕ) (tree node : α) (repl : Option α) (H : Heap α) :
    Option (Option α × Heap α) :=
  match (H node).parent with
  | none =>
    if tree = node then
      match repl with
      | none => some (none, H)
      | some tree => (goUpRebalanceDel fuel tree tree (H.setParent tree none)).map fun r =>
          (some r.1, r.2)
    else none
  | some parent => (H.replaceChild parent node repl).bind fun H =>
      (goUpRebalanceDel fuel tree parent (H.setParentOf repl (some parent))).map fun r =>
        (some r.1, r.2)

/-- The walk to the neighbour of a node in one of its subtrees: `addr` is the place with the pointer
    to `el`, as a node and a side of it. -/
def walkAddr (s : Side) : ℕ → α × Side → α → Heap α → Option ((α × Side) × α)
  | 0, _, _, _ => none
  | fuel + 1, addr, el, H =>
    match (H el).child s with
    | some c => walkAddr s fuel (el, s) c H
    | none => some (addr, el)

/-- The branch of `psync_tree_get_del` for a node with two children, where a side has the neighbour
    that takes its place. -/
def delInner (s : Side) (fuel : ℕ) (tree node : α) (H : Heap α) : Option (α × Heap α) :=
  ((H node).child s).bind fun c => (walkAddr s.other fuel (node, s) c H).bind fun r =>
    let el := r.2
    let parent := (H el).parent
    let H := H.setChild r.1.2 r.1.1 ((H el).child s)
    let H := H.setParentOf ((H el).child s) parent
    let H := H.copy el node
    let parent := if parent = some node then some el else parent
    let H := H.setParentOf (H node).left (some el)
    let H := H.setParentOf (H node).right (some el)
    (match (H node).parent with
    | some p => (H.replaceChild p node (some el)).map fun H => (tree, H)
    | none => if node = tree then some (el, H) else none).bind fun r =>
      parent.bind fun parent => goUpRebalanceDel fuel r.1 parent r.2

/-- `psync_tree_get_del` -/
def getDel (fuel : ℕ) (tree node : α) (H : Heap α) : Option (Option α × Heap α) :=
  match (H node).left, (H node).right with
  | none, none => replaceMeWith fuel tree node none H
  | none, some r => replaceMeWith fuel tree node (some r) H
  | some l, none => replaceMeWith fuel tree node (some l) H
  | some l, some r =>
    let s := if (H r).height < (H l).height then Side.left else Side.right
    (delInner s fuel tree node H).map fun r => (some r.1, r.2)

end Pclsync
