import Pclsync.BalancedTree

/-!
# Paths in a tree

A subtree of a tree and the path from it to the root. `Tree.insertAt` and `Tree.removeAt` rebalance
at every node of the path; the ways up of `ptree.c` stop early, where nothing is left to do.

* `Frame`: a node on the path, and its other subtree; a path has the innermost node first.
* `Tree.rebalanceUp`: the steps up to the root; `Tree.insertAt_plug`, `Tree.removeAt_plug`.
* `Tree.Grown`, `Tree.Shrunk`: a node whose subtree has grown or shrunk by one, and when the tree
  above it is balanced.
-/

namespace Pclsync

open List

/-- A node whose left or right subtree is the one that is looked at. -/
inductive Frame (α : Type*)
  | left (x : α) (r : Tree α) (h : ℕ)
  | right (l : Tree α) (x : α) (h : ℕ)

namespace Tree

variable {α : Type*} {fs : List (Frame α)} {t l r : Tree α} {x : α}

def plug : List (Frame α) → Tree α → Tree α
  | [], t => t
  | .left x r h :: fs, t => plug fs (node t x r h)
  | .right l x h :: fs, t => plug fs (node l x t h)

/-- What comes before the subtree, in order. -/
def before : List (Frame α) → List α
  | [] => []
  | .left _ _ _ :: fs => before fs
  | .right l x _ :: fs => before fs ++ (l.toList ++ [x])

/-- What comes after the subtree, in order. -/
def after : List (Frame α) → List α
  | [] => []
  | .left x r _ :: fs => x :: (r.toList ++ after fs)
  | .right _ _ _ :: fs => after fs

theorem toList_plug (fs : List (Frame α)) (t : Tree α) :
    (plug fs t).toList = before fs ++ (t.toList ++ after fs) := by
  induction fs generalizing t with
  | nil => rw [plug, before, after, nil_append, append_nil]
  | cons f fs ih =>
    cases f
    all_goals
      rw [plug, ih, before, after, toList_node]
      simp only [append_assoc, cons_append, nil_append]

theorem plug_append (fs gs : List (Frame α)) (t : Tree α) :
    plug (fs ++ gs) t = plug gs (plug fs t) := by
  induction fs generalizing t with
  | nil => rfl
  | cons f fs ih =>
    cases f
    · exact ih _
    · exact ih _

/-! ## Rebalancing up to the root -/

def rebalanceUp : List (Frame α) → Tree α → Tree α
  | [], t => t
  | .left x r _ :: fs, t => rebalanceUp fs (rebalance t x r)
  | .right l x _ :: fs, t => rebalanceUp fs (rebalance l x t)

theorem rebalanceUp_append (fs gs : List (Frame α)) (t : Tree α) :
    rebalanceUp (fs ++ gs) t = rebalanceUp gs (rebalanceUp fs t) := by
  induction fs generalizing t with
  | nil => rfl
  | cons f fs ih =>
    cases f
    · exact ih _
    · exact ih _

theorem toList_rebalanceUp (fs : List (Frame α)) (t : Tree α) :
    (rebalanceUp fs t).toList = before fs ++ (t.toList ++ after fs) := by
  induction fs generalizing t with
  | nil => rw [rebalanceUp, before, after, nil_append, append_nil]
  | cons f fs ih =>
    cases f
    all_goals
      rw [rebalanceUp, ih, before, after, toList_rebalance]
      simp only [append_assoc, cons_append, nil_append]

theorem insertAt_plug (fs : List (Frame α)) {k : ℕ} (hk : k ≤ t.size) (x : α) :
    (plug fs t).insertAt ((before fs).length + k) x = rebalanceUp fs (t.insertAt k x) := by
  induction fs generalizing t k with
  | nil => rw [before, length_nil, Nat.zero_add, plug, rebalanceUp]
  | cons f fs ih =>
    cases f with
    | left y r h =>
      rw [plug, before, ih (show k ≤ (node t y r h).size by rw [size]; omega), insertAt, if_pos hk,
        rebalanceUp]
    | right l y h =>
      have hlen : (before fs ++ (l.toList ++ [y])).length + k =
          (before fs).length + (l.size + 1 + k) := by
        rw [length_append, length_append, length_toList, length_singleton, Nat.add_assoc]
      have hsub : l.size + 1 + k - l.size - 1 = k := by omega
      rw [plug, before, hlen, ih (show l.size + 1 + k ≤ (node l y t h).size by rw [size]; omega),
        insertAt, if_neg (by omega), hsub, rebalanceUp]

theorem removeAt_plug (fs : List (Frame α)) {k : ℕ} (hk : k < t.size) :
    (plug fs t).removeAt ((before fs).length + k) = rebalanceUp fs (t.removeAt k) := by
  induction fs generalizing t k with
  | nil => rw [before, length_nil, Nat.zero_add, plug, rebalanceUp]
  | cons f fs ih =>
    cases f with
    | left y r h =>
      rw [plug, before, ih (show k < (node t y r h).size by rw [size]; omega), removeAt, if_pos hk,
        rebalanceUp]
    | right l y h =>
      have hlen : (before fs ++ (l.toList ++ [y])).length + k =
          (before fs).length + (l.size + 1 + k) := by
        rw [length_append, length_append, length_toList, length_singleton, Nat.add_assoc]
      have hsub : l.size + 1 + k - l.size - 1 = k := by omega
      rw [plug, before, hlen, ih (show l.size + 1 + k < (node l y t h).size by rw [size]; omega),
        removeAt, if_neg (by omega), if_neg (by omega), hsub, rebalanceUp]

/-! ## Balance on a path -/

/-- The nodes of the path are balanced, when the subtree has the height `n`. -/
def AvlPath : List (Frame α) → ℕ → Prop
  | [], _ => True
  | .left _ r h :: fs, n =>
    r.Avl ∧ h = max n r.height + 1 ∧ n ≤ r.height + 1 ∧ r.height ≤ n + 1 ∧ AvlPath fs h
  | .right l _ h :: fs, n =>
    l.Avl ∧ h = max l.height n + 1 ∧ l.height ≤ n + 1 ∧ n ≤ l.height + 1 ∧ AvlPath fs h

theorem avl_plug : (plug fs t).Avl ↔ t.Avl ∧ AvlPath fs t.height := by
  induction fs generalizing t with
  | nil => exact (and_iff_left trivial).symm
  | cons f fs ih =>
    cases f with
    | left x r h =>
      rw [plug, ih, AvlPath, Avl, height_node]
      tauto
    | right l x h =>
      rw [plug, ih, AvlPath, Avl, height_node]
      tauto

/-- Where the height has not changed, the steps up to the root change nothing. -/
theorem rebalanceUp_of_avlPath (h : AvlPath fs t.height) : rebalanceUp fs t = plug fs t := by
  induction fs generalizing t with
  | nil => rfl
  | cons f fs ih =>
    cases f with
    | left x r fh =>
      obtain ⟨hr, rfl, hlr, hrl, hfs⟩ := h
      rw [rebalanceUp, rebalance_of_balanced hlr hrl, plug]
      exact ih (t := mk t x r) hfs
    | right l x fh =>
      obtain ⟨hl, rfl, hlr, hrl, hfs⟩ := h
      rw [rebalanceUp, rebalance_of_balanced hlr hrl, plug]
      exact ih (t := mk l x t) hfs

/-! ## After adding a node -/

/-- A new leaf, or a node with subtrees of different heights. -/
def Skewed : Tree α → Prop
  | nil => False
  | node l _ r h => h = 1 ∨ l.height ≠ r.height

/-- One of the subtrees of a balanced node has grown by one. -/
def Grown (l r : Tree α) (h : ℕ) : Prop :=
  ∃ n, (l.height = n + 1 ∧ l.Skewed ∧ h = max n r.height + 1 ∧ n ≤ r.height + 1 ∧
      r.height ≤ n + 1) ∨
    (r.height = n + 1 ∧ r.Skewed ∧ h = max l.height n + 1 ∧ l.height ≤ n + 1 ∧
      n ≤ l.height + 1)

/-- The rotations undo the growth of the subtree that is too high. -/
theorem height_rebalance_of_skewed_left (hl : l.Avl) (hskew : l.Skewed)
    (h : l.height = r.height + 2) : (rebalance l x r).height = l.height := by
  rw [rebalance, if_pos h]
  obtain _ | ⟨ll, y, lr, lh⟩ := l
  · exact hskew.elim
  obtain ⟨hll, hlr, rfl, h1, h2⟩ := hl
  have hne : max ll.height lr.height + 1 = 1 ∨ ll.height ≠ lr.height := hskew
  rw [height_node] at h ⊢
  split_ifs with hheavy
  · have hheavy : ll.height < lr.height := hheavy
    obtain _ | ⟨lrl, z, lrr, lrh⟩ := lr
    · exact absurd hheavy (Nat.not_lt_zero _)
    obtain ⟨hlrl, hlrr, rfl, h3, h4⟩ := hlr
    rw [height_node] at h h1 h2 hheavy hne
    rw [rotateRight_rotateLeft, height_node, height_mk, height_mk, height_mk]
    omega
  · have hheavy : ¬ ll.height < lr.height := hheavy
    rw [rotateRight_mk, height_mk, height_mk]
    omega

theorem height_rebalance_of_skewed_right (hr : r.Avl) (hskew : r.Skewed)
    (h : r.height = l.height + 2) : (rebalance l x r).height = r.height := by
  rw [rebalance, if_neg (by omega), if_pos h]
  obtain _ | ⟨rl, y, rr, rh⟩ := r
  · exact hskew.elim
  obtain ⟨hrl, hrr, rfl, h1, h2⟩ := hr
  have hne : max rl.height rr.height + 1 = 1 ∨ rl.height ≠ rr.height := hskew
  rw [height_node] at h ⊢
  split_ifs with hheavy
  · have hheavy : rr.height < rl.height := hheavy
    obtain _ | ⟨rll, z, rlr, rlh⟩ := rl
    · exact absurd hheavy (Nat.not_lt_zero _)
    obtain ⟨hrll, hrlr, rfl, h3, h4⟩ := hrl
    rw [height_node] at h h1 h2 hheavy hne
    rw [rotateLeft_rotateRight, height_node, height_mk, height_mk, height_mk]
    omega
  · have hheavy : ¬ rr.height < rl.height := hheavy
    rw [rotateLeft_mk, height_mk, height_mk]
    omega

theorem Grown.le {h : ℕ} (hgrown : Grown l r h) :
    l.height ≤ r.height + 2 ∧ r.height ≤ l.height + 2 := by
  obtain ⟨n, ⟨hn, -, rfl, h1, h2⟩ | ⟨hn, -, rfl, h1, h2⟩⟩ := hgrown
  all_goals omega

theorem Grown.of_eq {h : ℕ} (hgrown : Grown l r h) (heq : l.height = r.height) :
    rebalance l x r = node l x r h := by
  obtain ⟨n, ⟨hn, -, rfl, h1, h2⟩ | ⟨hn, -, rfl, h1, h2⟩⟩ := hgrown
  all_goals
    rw [rebalance_of_balanced (by omega) (by omega), mk]
    congr 1
    omega

theorem Grown.of_succ {h : ℕ} (hgrown : Grown l r h)
    (hsucc : l.height = r.height + 1 ∨ r.height = l.height + 1) :
    rebalance l x r = mk l x r ∧ (mk l x r).height = h + 1 ∧ (mk l x r).Skewed := by
  refine ⟨rebalance_of_balanced (by omega) (by omega), ?_, .inr (by omega)⟩
  rw [height_mk]
  obtain ⟨n, ⟨hn, -, rfl, h1, h2⟩ | ⟨hn, -, rfl, h1, h2⟩⟩ := hgrown
  all_goals omega

theorem Grown.of_ne {h : ℕ} (hl : l.Avl) (hr : r.Avl) (hgrown : Grown l r h)
    (hne : l.height ≠ r.height) (hne' : ¬(l.height = r.height + 1 ∨ r.height = l.height + 1)) :
    (rebalance l x r).height = h := by
  obtain ⟨n, ⟨hn, hskew, rfl, h1, h2⟩ | ⟨hn, hskew, rfl, h1, h2⟩⟩ := hgrown
  · rw [height_rebalance_of_skewed_left hl hskew (by omega)]
    omega
  · rw [height_rebalance_of_skewed_right hr hskew (by omega)]
    omega

/-! ## After deleting a node -/

/-- One of the subtrees of a balanced node has become lower by at most one. -/
def Shrunk (l r : Tree α) (h : ℕ) : Prop :=
  ∃ n, (l.height ≤ n ∧ n ≤ l.height + 1 ∧ h = max n r.height + 1 ∧ n ≤ r.height + 1 ∧
      r.height ≤ n + 1) ∨
    (r.height ≤ n ∧ n ≤ r.height + 1 ∧ h = max l.height n + 1 ∧ l.height ≤ n + 1 ∧
      n ≤ l.height + 1)

theorem Shrunk.le {h : ℕ} (hshrunk : Shrunk l r h) :
    l.height ≤ r.height + 2 ∧ r.height ≤ l.height + 2 := by
  obtain ⟨n, ⟨hn, hn', rfl, h1, h2⟩ | ⟨hn, hn', rfl, h1, h2⟩⟩ := hshrunk
  all_goals omega

theorem Shrunk.of_eq (heq : l.height = r.height) : rebalance l x r = node l x r (r.height + 1) := by
  rw [rebalance_of_balanced (by omega) (by omega), mk, heq, max_self]

theorem Shrunk.of_succ {h : ℕ} (hshrunk : Shrunk l r h)
    (hsucc : l.height = r.height + 1 ∨ r.height = l.height + 1) :
    rebalance l x r = node l x r h := by
  obtain ⟨n, ⟨hn, hn', rfl, h1, h2⟩ | ⟨hn, hn', rfl, h1, h2⟩⟩ := hshrunk
  all_goals
    rw [rebalance_of_balanced (by omega) (by omega), mk]
    congr 1
    omega

/-- What is left is balanced, and lower by at most one. -/
theorem Shrunk.avl_rebalance {h : ℕ} (hl : l.Avl) (hr : r.Avl) (hshrunk : Shrunk l r h) :
    (rebalance l x r).Avl ∧ (rebalance l x r).height ≤ h ∧
      h ≤ (rebalance l x r).height + 1 := by
  obtain ⟨n, ⟨hn, hn', rfl, h1, h2⟩ | ⟨hn, hn', rfl, h1, h2⟩⟩ := hshrunk
  all_goals
    obtain ⟨havl, hge, hle, heq⟩ := Tree.avl_rebalance x hl hr (by omega) (by omega)
    exact ⟨havl, by omega, by omega⟩

end Tree

end Pclsync
