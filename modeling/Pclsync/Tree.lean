import Mathlib.Data.List.Basic
import Mathlib.Algebra.Order.Group.Nat

/-!
# Balanced trees

The intrusive AVL trees of `ptree.c`, as a functional structure. A pointer to a node of a tree is
modelled by the in-order position of the node: `psync_tree_get_next` and `psync_tree_get_prev` add
and subtract one, `psync_tree_get_first` is position `0`, and a tree is read through its in-order
sequence `Tree.toList`.

* `Tree.insertAt`: `psync_tree_add_before` at the position of the node, and `psync_tree_add_after`
  at the position following it (there is one free place between two consecutive nodes).
* `Tree.removeAt`: `psync_tree_del`.
* `Tree.modifyAt`: an assignment to the element of a node.

Each of them acts on the in-order sequence as the list operation of the same kind:
`Tree.toList_insertAt`, `Tree.toList_removeAt`, `Tree.toList_modifyAt`.
-/

namespace Pclsync

open List

/-- A node holds its two subtrees, the element it is embedded in, and its height. -/
inductive Tree (α : Type*)
  | nil
  | node (left : Tree α) (elem : α) (right : Tree α) (height : ℕ)
  deriving DecidableEq

namespace Tree

variable {α β : Type*}

/-- `psync_tree_height`: the stored height, `0` for the empty tree. -/
def height : Tree α → ℕ
  | nil => 0
  | node _ _ _ h => h

/-- The in-order sequence of the elements. -/
def toList : Tree α → List α
  | nil => []
  | node l x r _ => l.toList ++ x :: r.toList

/-- The number of nodes. -/
def size : Tree α → ℕ
  | nil => 0
  | node l _ r _ => l.size + r.size + 1

@[simp] theorem toList_nil : (nil : Tree α).toList = [] := rfl

@[simp] theorem toList_node (l : Tree α) (x : α) (r : Tree α) (h : ℕ) :
    (node l x r h).toList = l.toList ++ x :: r.toList := rfl

@[simp] theorem length_toList (t : Tree α) : t.toList.length = t.size := by
  induction t with
  | nil => rfl
  | node l x r h ihl ihr => simp [size, ihl, ihr]; omega

@[simp] theorem size_eq_zero {t : Tree α} : t.size = 0 ↔ t = nil := by
  cases t <;> simp [size]

/-- A cut of the sequence of a node, within its left subtree. -/
theorem split_left {xs ys as bs : List α} {y : α} (h : xs ++ y :: ys = as ++ bs)
    (hk : as.length ≤ xs.length) : ∃ cs, xs = as ++ cs ∧ bs = cs ++ y :: ys := by
  rcases append_eq_append_iff.1 h with ⟨cs, rfl, hb⟩ | ⟨cs, rfl, rfl⟩
  · obtain rfl : cs = [] := by simpa using hk
    exact ⟨[], by simp, hb.symm⟩
  · exact ⟨cs, rfl, rfl⟩

/-- A cut of the sequence of a node, after its element. -/
theorem split_right {xs ys as bs : List α} {y : α} (h : xs ++ y :: ys = as ++ bs)
    (hk : xs.length < as.length) : ∃ cs, as = xs ++ y :: cs ∧ ys = cs ++ bs := by
  rcases append_eq_append_iff.1 h with ⟨cs, rfl, hb⟩ | ⟨cs, rfl, rfl⟩
  · obtain ⟨z, cs, rfl⟩ := exists_cons_of_ne_nil (l := cs) (by rintro rfl; simp at hk)
    obtain ⟨rfl, rfl⟩ := cons.inj hb
    exact ⟨cs, rfl, rfl⟩
  · simp at hk

/-- A place in the sequence of a node, within its left subtree. -/
theorem split_left_cons {xs ys as bs : List α} {x y : α} (h : xs ++ y :: ys = as ++ x :: bs)
    (hk : as.length < xs.length) : ∃ cs, xs = as ++ x :: cs ∧ bs = cs ++ y :: ys := by
  obtain ⟨cs, rfl, hr⟩ := split_left h hk.le
  obtain ⟨z, cs, rfl⟩ := exists_cons_of_ne_nil (l := cs) (by rintro rfl; simp at hk)
  obtain ⟨rfl, rfl⟩ := cons.inj hr
  exact ⟨cs, rfl, rfl⟩

/-! ## Rotations -/

/-- A node with its height recalculated from its subtrees, `psync_tree_recalc_height`. -/
def mk (l : Tree α) (x : α) (r : Tree α) : Tree α :=
  node l x r (max l.height r.height + 1)

@[simp] theorem toList_mk (l : Tree α) (x : α) (r : Tree α) :
    (mk l x r).toList = l.toList ++ x :: r.toList := rfl

/-- `psync_tree_rotate_left`. -/
def rotateLeft : Tree α → Tree α
  | node l x (node rl y rr _) _ => mk (mk l x rl) y rr
  | t => t

/-- `psync_tree_rotate_right`. -/
def rotateRight : Tree α → Tree α
  | node (node ll y lr _) x r _ => mk ll y (mk lr x r)
  | t => t

@[simp] theorem toList_rotateLeft (t : Tree α) : t.rotateLeft.toList = t.toList := by
  rcases t with _ | ⟨l, x, _ | _, h⟩ <;> simp [rotateLeft]

@[simp] theorem toList_rotateRight (t : Tree α) : t.rotateRight.toList = t.toList := by
  rcases t with _ | ⟨_ | _, x, r, h⟩ <;> simp [rotateRight]

/-- The right subtree is higher than the left one. -/
def RightHeavy : Tree α → Prop
  | nil => False
  | node l _ r _ => l.height < r.height

/-- The left subtree is higher than the right one. -/
def LeftHeavy : Tree α → Prop
  | nil => False
  | node l _ r _ => r.height < l.height

instance : DecidablePred (RightHeavy : Tree α → Prop) := fun t =>
  match t with
  | nil => isFalse id
  | node _ _ _ _ => inferInstanceAs (Decidable (_ < _))

instance : DecidablePred (LeftHeavy : Tree α → Prop) := fun t =>
  match t with
  | nil => isFalse id
  | node _ _ _ _ => inferInstanceAs (Decidable (_ < _))

/-- One step of `psync_tree_go_up_rebalance_add` and `psync_tree_go_up_rebalance_del`: a node
    whose subtrees differ in height by two is rotated, after its higher subtree is rotated the
    other way if that is heavy on the inner side. -/
def rebalance (l : Tree α) (x : α) (r : Tree α) : Tree α :=
  if l.height = r.height + 2 then
    (mk (if l.RightHeavy then l.rotateLeft else l) x r).rotateRight
  else if r.height = l.height + 2 then
    (mk l x (if r.LeftHeavy then r.rotateRight else r)).rotateLeft
  else mk l x r

@[simp] theorem toList_rebalance (l : Tree α) (x : α) (r : Tree α) :
    (rebalance l x r).toList = l.toList ++ x :: r.toList := by
  unfold rebalance
  split_ifs <;> simp

/-! ## Adding a node -/

/-- Add a node at the in-order position `k`. -/
def insertAt (k : ℕ) (x : α) : Tree α → Tree α
  | nil => mk nil x nil
  | node l y r _ =>
    if k ≤ l.size then rebalance (l.insertAt k x) y r
    else rebalance l y (r.insertAt (k - l.size - 1) x)

theorem toList_insertAt {t : Tree α} {as bs : List α} (x : α) (h : t.toList = as ++ bs) :
    (t.insertAt as.length x).toList = as ++ x :: bs := by
  induction t generalizing as bs with
  | nil =>
    obtain ⟨rfl, rfl⟩ := nil_eq_append_iff.1 h
    rfl
  | node l y r _ ihl ihr =>
    rw [insertAt]
    split_ifs with hk
    · obtain ⟨cs, hl, rfl⟩ := split_left h (by simpa using hk)
      rw [toList_rebalance, ihl hl, append_assoc, cons_append]
    · obtain ⟨cs, rfl, hr⟩ := split_right h (by simpa using hk)
      have hj : (l.toList ++ y :: cs).length - l.size - 1 = cs.length := by simp
      rw [hj, toList_rebalance, ihr hr, append_assoc, cons_append]

/-! ## Deleting a node -/

/-- Take the first node out of the tree `node l x r`, rebalancing up to its root. -/
def popFirst (l : Tree α) (x : α) (r : Tree α) : α × Tree α :=
  match l with
  | nil => (x, r)
  | node ll y lr _ => let p := popFirst ll y lr; (p.1, rebalance p.2 x r)

/-- Take the last node out of the tree `node l x r`, rebalancing up to its root. -/
def popLast (l : Tree α) (x : α) (r : Tree α) : α × Tree α :=
  match r with
  | nil => (x, l)
  | node rl y rr _ => let p := popLast rl y rr; (p.1, rebalance l x p.2)

theorem toList_popFirst (l : Tree α) (x : α) (r : Tree α) :
    (popFirst l x r).1 :: (popFirst l x r).2.toList = l.toList ++ x :: r.toList := by
  induction l generalizing x r with
  | nil => rfl
  | node ll y lr h ihl ihr =>
    rw [popFirst, toList_rebalance, ← cons_append, ihl, toList_node]

theorem toList_popLast (l : Tree α) (x : α) (r : Tree α) :
    (popLast l x r).2.toList ++ [(popLast l x r).1] = l.toList ++ x :: r.toList := by
  induction r generalizing x l with
  | nil => rfl
  | node rl y rr h ihl ihr =>
    rw [popLast, toList_rebalance, append_assoc, cons_append, ihr, toList_node]

/-- Delete a root with subtrees `l` and `r`: its place is taken by its only subtree, or else by
    its neighbour in the higher subtree (the right one if they are equally high). -/
def join (l r : Tree α) : Tree α :=
  match l, r with
  | nil, r => r
  | l, nil => l
  | node ll lx lr lh, node rl rx rr rh =>
    if rh < lh then
      let p := popLast ll lx lr
      rebalance p.2 p.1 (node rl rx rr rh)
    else
      let p := popFirst rl rx rr
      rebalance (node ll lx lr lh) p.1 p.2

@[simp] theorem toList_join (l r : Tree α) : (join l r).toList = l.toList ++ r.toList := by
  rcases l with _ | ⟨ll, lx, lr, lh⟩
  · rfl
  rcases r with _ | ⟨rl, rx, rr, rh⟩
  · simp [join]
  rw [join]
  split_ifs
  · rw [toList_rebalance, append_cons, toList_popLast, toList_node, toList_node]
  · rw [toList_rebalance, toList_popFirst, toList_node, toList_node]

/-- Delete the node at the in-order position `k`. -/
def removeAt (k : ℕ) : Tree α → Tree α
  | nil => nil
  | node l y r _ =>
    if k < l.size then rebalance (l.removeAt k) y r
    else if k = l.size then join l r
    else rebalance l y (r.removeAt (k - l.size - 1))

theorem toList_removeAt {t : Tree α} {as bs : List α} {x : α} (h : t.toList = as ++ x :: bs) :
    (t.removeAt as.length).toList = as ++ bs := by
  induction t generalizing as bs with
  | nil => simp at h
  | node l y r _ ihl ihr =>
    rw [removeAt]
    split_ifs with hlt heq
    · obtain ⟨cs, hl, rfl⟩ := split_left_cons h (by simpa using hlt)
      rw [toList_rebalance, ihl hl, append_assoc]
    · obtain ⟨rfl, hr⟩ := append_inj h (by simp [heq])
      rw [toList_join, (cons.inj hr).2]
    · obtain ⟨cs, rfl, hr⟩ := split_right h (by simp; omega)
      have hj : (l.toList ++ y :: cs).length - l.size - 1 = cs.length := by simp
      rw [hj, toList_rebalance, ihr hr, append_assoc, cons_append]

/-! ## Changing an element -/

/-- Replace the element of the node at the in-order position `k`. -/
def modifyAt (k : ℕ) (f : α → α) : Tree α → Tree α
  | nil => nil
  | node l y r h =>
    if k < l.size then node (l.modifyAt k f) y r h
    else if k = l.size then node l (f y) r h
    else node l y (r.modifyAt (k - l.size - 1) f) h

theorem toList_modifyAt {t : Tree α} {as bs : List α} {x : α} (f : α → α)
    (h : t.toList = as ++ x :: bs) : (t.modifyAt as.length f).toList = as ++ f x :: bs := by
  induction t generalizing as bs with
  | nil => simp at h
  | node l y r _ ihl ihr =>
    rw [modifyAt]
    split_ifs with hlt heq
    · obtain ⟨cs, hl, rfl⟩ := split_left_cons h (by simpa using hlt)
      rw [toList_node, ihl hl, append_assoc, cons_append]
    · obtain ⟨rfl, hr⟩ := append_inj h (by simp [heq])
      obtain ⟨rfl, rfl⟩ := cons.inj hr
      rfl
    · obtain ⟨cs, rfl, hr⟩ := split_right h (by simp; omega)
      have hj : (l.toList ++ y :: cs).length - l.size - 1 = cs.length := by simp
      rw [hj, toList_node, ihr hr, append_assoc, cons_append]

end Tree

end Pclsync
