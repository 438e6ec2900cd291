import Pclsync.Tree

/-!
# Balance

The balance of the trees of `ptree.c`.

* `Tree.Avl`: the stored heights are exact, and subtrees differ in height by at most one.
* `Tree.avl_rebalance`: one step of the way up restores it where they differ by two.
* `Tree.avl_insertAt`, `Tree.avl_removeAt`, `Tree.avl_modifyAt`: the operations keep it.
-/

namespace Pclsync

namespace Tree

variable {α : Type*}

/-- The stored heights are exact, and the subtrees of a node differ in height by at most one. -/
def Avl : Tree α → Prop
  | nil => True
  | node l _ r h => l.Avl ∧ r.Avl ∧ h = max l.height r.height + 1 ∧
      l.height ≤ r.height + 1 ∧ r.height ≤ l.height + 1

theorem avl_mk {l r : Tree α} {x : α} (hl : l.Avl) (hr : r.Avl) (hlr : l.height ≤ r.height + 1)
    (hrl : r.height ≤ l.height + 1) : (mk l x r).Avl :=
  ⟨hl, hr, rfl, hlr, hrl⟩

@[simp] theorem height_nil : (nil : Tree α).height = 0 := rfl

@[simp] theorem height_node (l r : Tree α) (x : α) (h : ℕ) : (node l x r h).height = h := rfl

@[simp] theorem height_mk (l r : Tree α) (x : α) :
    (mk l x r).height = max l.height r.height + 1 := rfl

@[simp] theorem rotateRight_mk (ll lr r : Tree α) (x y : α) (h : ℕ) :
    (mk (node ll y lr h) x r).rotateRight = mk ll y (mk lr x r) := rfl

@[simp] theorem rotateLeft_mk (l rl rr : Tree α) (x y : α) (h : ℕ) :
    (mk l x (node rl y rr h)).rotateLeft = mk (mk l x rl) y rr := rfl

theorem rotateRight_rotateLeft (ll lrl lrr r : Tree α) (x y z : α) (h h' : ℕ) :
    (mk (node ll y (node lrl z lrr h) h').rotateLeft x r).rotateRight =
      mk (mk ll y lrl) z (mk lrr x r) := rfl

theorem rotateLeft_rotateRight (l rll rlr rr : Tree α) (x y z : α) (h h' : ℕ) :
    (mk l x (node (node rll z rlr h) y rr h').rotateRight).rotateLeft =
      mk (mk l x rll) z (mk rlr y rr) := rfl

/-- The rotations for a left subtree that is too high. -/
theorem rebalance_left {l r : Tree α} {x : α} (hl : l.Avl) (hr : r.Avl)
    (h : l.height = r.height + 2) : (rebalance l x r).Avl ∧
      l.height ≤ (rebalance l x r).height ∧ (rebalance l x r).height ≤ l.height + 1 := by
  rw [rebalance, if_pos h]
  obtain _ | ⟨ll, y, lr, lh⟩ := l
  · rw [height_nil] at h
    omega
  obtain ⟨hll, hlr, rfl, h1, h2⟩ := hl
  rw [height_node] at h ⊢
  split_ifs with hheavy
  · have hheavy : ll.height < lr.height := hheavy
    obtain _ | ⟨lrl, z, lrr, lrh⟩ := lr
    · exact absurd hheavy (Nat.not_lt_zero _)
    obtain ⟨hlrl, hlrr, rfl, h3, h4⟩ := hlr
    rw [height_node] at h h1 h2 hheavy
    rw [rotateRight_rotateLeft, height_node, height_mk, height_mk, height_mk]
    refine ⟨avl_mk (avl_mk hll hlrl ?_ ?_) (avl_mk hlrr hr ?_ ?_) ?_ ?_, ?_, ?_⟩
    all_goals (try rw [height_mk, height_mk])
    all_goals omega
  · have hheavy : ¬ ll.height < lr.height := hheavy
    rw [rotateRight_mk, height_mk, height_mk]
    refine ⟨avl_mk hll (avl_mk hlr hr ?_ ?_) ?_ ?_, ?_, ?_⟩
    all_goals (try rw [height_mk])
    all_goals omega

/-- The rotations for a right subtree that is too high. -/
theorem rebalance_right {l r : Tree α} {x : α} (hl : l.Avl) (hr : r.Avl)
    (h : r.height = l.height + 2) : (rebalance l x r).Avl ∧
      r.height ≤ (rebalance l x r).height ∧ (rebalance l x r).height ≤ r.height + 1 := by
  rw [rebalance, if_neg (by omega), if_pos h]
  obtain _ | ⟨rl, y, rr, rh⟩ := r
  · rw [height_nil] at h
    omega
  obtain ⟨hrl, hrr, rfl, h1, h2⟩ := hr
  rw [height_node] at h ⊢
  split_ifs with hheavy
  · have hheavy : rr.height < rl.height := hheavy
    obtain _ | ⟨rll, z, rlr, rlh⟩ := rl
    · exact absurd hheavy (Nat.not_lt_zero _)
    obtain ⟨hrll, hrlr, rfl, h3, h4⟩ := hrl
    rw [height_node] at h h1 h2 hheavy
    rw [rotateLeft_rotateRight, height_node, height_mk, height_mk, height_mk]
    refine ⟨avl_mk (avl_mk hl hrll ?_ ?_) (avl_mk hrlr hrr ?_ ?_) ?_ ?_, ?_, ?_⟩
    all_goals (try rw [height_mk, height_mk])
    all_goals omega
  · have hheavy : ¬ rr.height < rl.height := hheavy
    rw [rotateLeft_mk, height_mk, height_mk]
    refine ⟨avl_mk (avl_mk hl hrl ?_ ?_) hrr ?_ ?_, ?_, ?_⟩
    all_goals (try rw [height_mk])
    all_goals omega

theorem avl_rebalance {l r : Tree α} (x : α) (hl : l.Avl) (hr : r.Avl)
    (hlr : l.height ≤ r.height + 2) (hrl : r.height ≤ l.height + 2) : (rebalance l x r).Avl ∧
      (max l.height r.height ≤ (rebalance l x r).height) ∧
      ((rebalance l x r).height ≤ max l.height r.height + 1) ∧
      (l.height ≤ r.height + 1 → r.height ≤ l.height + 1 →
        (rebalance l x r).height = max l.height r.height + 1) := by
  by_cases h : l.height = r.height + 2
  · obtain ⟨havl, hle, hle'⟩ := rebalance_left (x := x) hl hr h
    exact ⟨havl, by omega, by omega, by omega⟩
  by_cases h' : r.height = l.height + 2
  · obtain ⟨havl, hle, hle'⟩ := rebalance_right (x := x) hl hr h'
    exact ⟨havl, by omega, by omega, by omega⟩
  · rw [rebalance, if_neg h, if_neg h', height_mk]
    exact ⟨avl_mk hl hr (by omega) (by omega), by omega, le_rfl, fun _ _ => rfl⟩

/-- A step with subtrees that differ by at most one only recalculates the height. -/
theorem rebalance_of_balanced {l r : Tree α} {x : α} (hlr : l.height ≤ r.height + 1)
    (hrl : r.height ≤ l.height + 1) : rebalance l x r = mk l x r := by
  rw [rebalance, if_neg (by omega), if_neg (by omega)]

/-! ## Adding a node -/

theorem avl_insertAt {t : Tree α} (h : t.Avl) (k : ℕ) (x : α) : (t.insertAt k x).Avl ∧
    t.height ≤ (t.insertAt k x).height ∧ (t.insertAt k x).height ≤ t.height + 1 := by
  induction t generalizing k with
  | nil => exact ⟨avl_mk h h (Nat.zero_le _) (Nat.zero_le _), Nat.zero_le _, le_rfl⟩
  | node l y r th ihl ihr =>
    obtain ⟨hl, hr, rfl, hlr, hrl⟩ := h
    rw [insertAt, height_node]
    split_ifs
    · obtain ⟨hl', hle, hle'⟩ := ihl hl k
      obtain ⟨havl, hge, hge', heq⟩ := avl_rebalance y hl' hr (by omega) (by omega)
      exact ⟨havl, by omega, by omega⟩
    · obtain ⟨hr', hle, hle'⟩ := ihr hr (k - l.size - 1)
      obtain ⟨havl, hge, hge', heq⟩ := avl_rebalance y hl hr' (by omega) (by omega)
      exact ⟨havl, by omega, by omega⟩

/-! ## Deleting a node -/

/-- What is left of the tree `node l x r` when one of its subtrees has become lower by at most one:
    it is lower by at most one itself. -/
theorem avl_rebalance_shrunk {l l' r r' : Tree α} (x : α) (hl : l'.Avl) (hr : r'.Avl)
    (hlr : l.height ≤ r.height + 1) (hrl : r.height ≤ l.height + 1)
    (h : (l'.height ≤ l.height ∧ l.height ≤ l'.height + 1 ∧ r' = r) ∨
      (r'.height ≤ r.height ∧ r.height ≤ r'.height + 1 ∧ l' = l)) :
    (rebalance l' x r').Avl ∧ (rebalance l' x r').height ≤ max l.height r.height + 1 ∧
      max l.height r.height ≤ (rebalance l' x r').height := by
  obtain ⟨hle, hle', rfl⟩ | ⟨hle, hle', rfl⟩ := h
  · obtain ⟨havl, hge, hge', heq⟩ := avl_rebalance x hl hr (by omega) (by omega)
    exact ⟨havl, by omega, by omega⟩
  · obtain ⟨havl, hge, hge', heq⟩ := avl_rebalance x hl hr (by omega) (by omega)
    exact ⟨havl, by omega, by omega⟩

theorem avl_popFirst {l r : Tree α} (x : α) (hl : l.Avl) (hr : r.Avl)
    (hlr : l.height ≤ r.height + 1) (hrl : r.height ≤ l.height + 1) : (popFirst l x r).2.Avl ∧
      (popFirst l x r).2.height ≤ max l.height r.height + 1 ∧
      max l.height r.height ≤ (popFirst l x r).2.height := by
  induction l generalizing x r with
  | nil =>
    rw [height_nil] at hlr hrl ⊢
    exact ⟨hr, show r.height ≤ _ by omega, show _ ≤ r.height by omega⟩
  | node ll y lr lh ih _ =>
    obtain ⟨hll, hlr', hlh, h1, h2⟩ := hl
    obtain ⟨havl, hle, hle'⟩ := ih y hll hlr' h1 h2
    rw [popFirst, height_node]
    rw [height_node] at hlr hrl
    have hshrunk := avl_rebalance_shrunk (l := node ll y lr lh) x havl hr hlr hrl
      (.inl ⟨by rw [height_node]; omega, by rw [height_node]; omega, rfl⟩)
    rwa [height_node] at hshrunk

theorem avl_popLast {l r : Tree α} (x : α) (hl : l.Avl) (hr : r.Avl)
    (hlr : l.height ≤ r.height + 1) (hrl : r.height ≤ l.height + 1) : (popLast l x r).2.Avl ∧
      (popLast l x r).2.height ≤ max l.height r.height + 1 ∧
      max l.height r.height ≤ (popLast l x r).2.height := by
  induction r generalizing x l with
  | nil =>
    rw [height_nil] at hlr hrl ⊢
    exact ⟨hl, show l.height ≤ _ by omega, show _ ≤ l.height by omega⟩
  | node rl y rr rh _ ih =>
    obtain ⟨hrl', hrr, hrh, h1, h2⟩ := hr
    obtain ⟨havl, hle, hle'⟩ := ih y hrl' hrr h1 h2
    rw [popLast, height_node]
    rw [height_node] at hlr hrl
    have hshrunk := avl_rebalance_shrunk (r := node rl y rr rh) x hl havl hlr hrl
      (.inr ⟨by rw [height_node]; omega, by rw [height_node]; omega, rfl⟩)
    rwa [height_node] at hshrunk

theorem avl_join {l r : Tree α} (hl : l.Avl) (hr : r.Avl) (hlr : l.height ≤ r.height + 1)
    (hrl : r.height ≤ l.height + 1) : (join l r).Avl ∧
      (join l r).height ≤ max l.height r.height + 1 ∧
      max l.height r.height ≤ (join l r).height := by
  obtain _ | ⟨ll, lx, lr, lh⟩ := l
  · rw [join, height_nil]
    exact ⟨hr, by omega, by omega⟩
  obtain _ | ⟨rl, rx, rr, rh⟩ := r
  · rw [join, height_nil]
    exact ⟨hl, by omega, by omega⟩
    · intro h
      cases h
  rw [join]
  rw [height_node, height_node] at hlr hrl ⊢
  split_ifs with hlt
  · obtain ⟨hll, hlr', hlh, h1, h2⟩ := hl
    obtain ⟨havl, hle, hle'⟩ := avl_popLast lx hll hlr' h1 h2
    exact avl_rebalance_shrunk (l := node ll lx lr lh) (r := node rl rx rr rh) _ havl hr hlr hrl
      (.inl ⟨by rw [height_node]; omega, by rw [height_node]; omega, rfl⟩)
  · obtain ⟨hrl', hrr, hrh, h1, h2⟩ := hr
    obtain ⟨havl, hle, hle'⟩ := avl_popFirst rx hrl' hrr h1 h2
    exact avl_rebalance_shrunk (l := node ll lx lr lh) (r := node rl rx rr rh) _ hl havl hlr hrl
      (.inr ⟨by rw [height_node]; omega, by rw [height_node]; omega, rfl⟩)

theorem avl_removeAt {t : Tree α} (h : t.Avl) (k : ℕ) : (t.removeAt k).Avl ∧
    (t.removeAt k).height ≤ t.height ∧ t.height ≤ (t.removeAt k).height + 1 := by
  induction t generalizing k with
  | nil => exact ⟨h, le_rfl, Nat.zero_le _⟩
  | node l y r th ihl ihr =>
    obtain ⟨hl, hr, rfl, hlr, hrl⟩ := h
    rw [removeAt, height_node]
    split_ifs
    · obtain ⟨hl', hle, hle'⟩ := ihl hl k
      obtain ⟨havl, hge, hge'⟩ := avl_rebalance_shrunk y hl' hr hlr hrl (.inl ⟨hle, hle', rfl⟩)
      exact ⟨havl, hge, Nat.succ_le_succ hge'⟩
    · obtain ⟨havl, hge, hge'⟩ := avl_join hl hr hlr hrl
      exact ⟨havl, hge, Nat.succ_le_succ hge'⟩
    · obtain ⟨hr', hle, hle'⟩ := ihr hr (k - l.size - 1)
      obtain ⟨havl, hge, hge'⟩ := avl_rebalance_shrunk y hl hr' hlr hrl (.inr ⟨hle, hle', rfl⟩)
      exact ⟨havl, hge, Nat.succ_le_succ hge'⟩

/-! ## Changing an element -/

@[simp] theorem height_modifyAt (k : ℕ) (f : α → α) (t : Tree α) :
    (t.modifyAt k f).height = t.height := by
  cases t with
  | nil => rfl
  | node l x r h =>
    rw [modifyAt]
    split_ifs <;> rfl

theorem avl_modifyAt {t : Tree α} (h : t.Avl) (k : ℕ) (f : α → α) : (t.modifyAt k f).Avl := by
  induction t generalizing k with
  | nil => exact h
  | node l x r th ihl ihr =>
    obtain ⟨hl, hr, hth, hlr, hrl⟩ := h
    rw [modifyAt]
    split_ifs
    · exact ⟨ihl hl k, hr, by rw [height_modifyAt, hth], by rwa [height_modifyAt],
        by rwa [height_modifyAt]⟩
    · exact ⟨hl, hr, hth, hlr, hrl⟩
    · exact ⟨hl, ihr hr _, by rw [height_modifyAt, hth], by rwa [height_modifyAt],
        by rwa [height_modifyAt]⟩

end Tree

end Pclsync
