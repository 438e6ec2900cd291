import Pclsync.Tree
import Mathlib.Data.List.Pairwise

/-!
# Searching in balanced trees

The descents from the root by which the callers of `ptree.c` find a node or the place of a new one.
The comparison is a function of the element: `c x` compares the searched key with the key of `x`,
`.lt` goes to the left and `.gt` to the right.

* `Tree.locate`: the node at which the comparison gives `.eq`, or the place at which the descent
  leaves the tree. On a tree sorted for the comparison (`Tree.Sorted`) the place splits the sequence
  into what is below and what is above the key: `Tree.locate_vacant`.
* `Tree.placeBy`: the descent which goes on at equal keys, `psync_tree_add`.
* `Tree.map`: a change of all elements which keeps the shape.
* `Tree.postOrder`: the order in which all elements are freed.
-/

namespace Pclsync

open List

namespace Tree

variable {α : Type*}

@[simp] theorem size_rebalance (l : Tree α) (x : α) (r : Tree α) :
    (rebalance l x r).size = l.size + r.size + 1 := by
  rw [← length_toList, toList_rebalance, length_append, length_cons, length_toList,
    length_toList, Nat.add_assoc]

@[simp] theorem size_insertAt (k : ℕ) (x : α) (t : Tree α) :
    (t.insertAt k x).size = t.size + 1 := by
  induction t generalizing k with
  | nil => rfl
  | node l y r _ ihl ihr =>
    rw [insertAt]
    split_ifs
    · rw [size_rebalance, ihl, size]; omega
    · rw [size_rebalance, ihr, size]; omega

theorem size_removeAt {t : Tree α} {k : ℕ} (h : k < t.size) : (t.removeAt k).size + 1 = t.size := by
  have hk : k < t.toList.length := by rwa [length_toList]
  have hsplit : t.toList = t.toList.take k ++ t.toList[k] :: t.toList.drop (k + 1) := by simp
  have hlen : (t.toList.take k).length = k := length_take_of_le hk.le
  have hrem := toList_removeAt hsplit
  rw [hlen] at hrem
  rw [← length_toList, hrem, ← length_toList]
  simp only [length_append, hlen, length_drop]
  omega

theorem toList_removeAt_sublist (k : ℕ) (t : Tree α) : (t.removeAt k).toList.Sublist t.toList := by
  induction t generalizing k with
  | nil => exact .slnil
  | node l y r _ ihl ihr =>
    rw [removeAt, toList_node]
    split_ifs
    · rw [toList_rebalance]
      exact (ihl k).append (.refl _)
    · rw [toList_join]
      exact (Sublist.refl _).append (sublist_cons_self y _)
    · rw [toList_rebalance]
      exact (Sublist.refl _).append ((ihr _).cons_cons y)

@[simp] theorem size_modifyAt (k : ℕ) (f : α → α) (t : Tree α) :
    (t.modifyAt k f).size = t.size := by
  induction t generalizing k with
  | nil => rfl
  | node l y r _ ihl ihr =>
    rw [modifyAt]
    split_ifs
    · rw [size, ihl, size]
    · rfl
    · rw [size, ihr, size]

/-! ## Changing all elements -/

/-- Apply a function to all elements. -/
def map (f : α → α) : Tree α → Tree α
  | nil => nil
  | node l x r h => node (l.map f) (f x) (r.map f) h

@[simp] theorem toList_map (f : α → α) (t : Tree α) : (t.map f).toList = t.toList.map f := by
  induction t with
  | nil => rfl
  | node l x r _ ihl ihr => rw [map, toList_node, ihl, ihr, toList_node, map_append, map_cons]

/-! ## Freeing all elements -/

/-- The order of `psync_tree_for_each_element_call_safe`: an element comes after its subtrees. -/
def postOrder : Tree α → List α
  | nil => []
  | node l x r _ => l.postOrder ++ r.postOrder ++ [x]

theorem postOrder_perm (t : Tree α) : t.postOrder.Perm t.toList := by
  induction t with
  | nil => exact .refl _
  | node l x r _ ihl ihr =>
    rw [postOrder, toList_node, append_assoc]
    exact ihl.append ((perm_append_singleton x _).trans (ihr.cons x))

/-! ## Descents -/

/-- Where a descent ends: at the node at an in-order position, or at the free place before it. -/
inductive Spot (α : Type*)
  | found (k : ℕ) (x : α)
  | vacant (k : ℕ)

/-- The same spot, `n` positions further. -/
def Spot.shift (n : ℕ) : Spot α → Spot α
  | found k x => found (n + k) x
  | vacant k => vacant (n + k)

/-- The descent which stops where the comparison gives `.eq`. -/
def locate (c : α → Ordering) : Tree α → Spot α
  | nil => .vacant 0
  | node l x r _ =>
    match c x with
    | .lt => l.locate c
    | .eq => .found l.size x
    | .gt => (r.locate c).shift (l.size + 1)

/-- The same spot in a tree whose elements are changed. -/
def Spot.map (f : α → α) : Spot α → Spot α
  | found k x => found k (f x)
  | vacant k => vacant k

/-- The descent which goes to the left below the elements selected by `before`, and to the right
    at the others. -/
def placeBy (before : α → Bool) : Tree α → ℕ
  | nil => 0
  | node l x r _ => if before x then l.placeBy before else l.size + 1 + r.placeBy before

@[simp] theorem size_map (f : α → α) (t : Tree α) : (t.map f).size = t.size := by
  rw [← length_toList, toList_map, length_map, length_toList]

/-- A change of the elements which is not seen by the comparison. -/
theorem locate_map {c : α → Ordering} {f : α → α} (hc : ∀ x, c (f x) = c x) (t : Tree α) :
    (t.map f).locate c = (t.locate c).map f := by
  induction t with
  | nil => rfl
  | node l x r _ ihl ihr =>
    rw [map, locate, locate, hc]
    split
    · exact ihl
    · rw [size_map]
      rfl
    · rw [ihr, size_map]
      cases r.locate c <;> rfl

theorem locate_found {c : α → Ordering} {t : Tree α} {k : ℕ} {x : α} (h : t.locate c = .found k x) :
    ∃ as bs, t.toList = as ++ x :: bs ∧ as.length = k ∧ c x = .eq := by
  induction t generalizing k with
  | nil => cases h
  | node l y r _ ihl ihr =>
    rw [locate] at h
    split at h
    · obtain ⟨as, bs, hl, hk, hx⟩ := ihl h
      exact ⟨as, bs ++ y :: r.toList, by rw [toList_node, hl]; simp, hk, hx⟩
    · next hy =>
      cases h
      exact ⟨l.toList, r.toList, rfl, length_toList l, hy⟩
    · rcases hr : r.locate c with ⟨j, z⟩ | j
      · rw [hr] at h
        cases h
        obtain ⟨as, bs, hr, hk, hx⟩ := ihr hr
        exact ⟨l.toList ++ y :: as, bs, by rw [toList_node, hr]; simp, by simp [hk]; omega, hx⟩
      · rw [hr] at h
        cases h

theorem mem_of_locate {c : α → Ordering} {t : Tree α} {k : ℕ} {x : α}
    (h : t.locate c = .found k x) : x ∈ t.toList ∧ c x = .eq := by
  obtain ⟨as, bs, ht, -, hx⟩ := locate_found h
  exact ⟨ht ▸ mem_append_right _ mem_cons_self, hx⟩

/-- The comparison is consistent with the order of the sequence: what is at or below the key is
    followed by elements above it only. -/
def Sorted (c : α → Ordering) (t : Tree α) : Prop :=
  t.toList.Pairwise fun x y => (c x ≠ .gt → c y = .lt) ∧ (c y ≠ .lt → c x = .gt)

theorem locate_vacant {c : α → Ordering} {t : Tree α} {k : ℕ} (hs : t.Sorted c)
    (h : t.locate c = .vacant k) :
    ∃ as bs, t.toList = as ++ bs ∧ as.length = k ∧ (∀ x ∈ as, c x = .gt) ∧ ∀ y ∈ bs, c y = .lt := by
  induction t generalizing k with
  | nil =>
    cases h
    exact ⟨[], [], rfl, rfl, by simp, by simp⟩
  | node l y r _ ihl ihr =>
    obtain ⟨hl, hr, hlr⟩ := pairwise_append.1 hs
    obtain ⟨hyr, hr⟩ := pairwise_cons.1 hr
    rw [locate] at h
    split at h
    · next hy =>
      -- to the left: the element and all that follows it are above the key
      obtain ⟨as, bs, hl, hk, has, hbs⟩ := ihl hl h
      refine ⟨as, bs ++ y :: r.toList, by rw [toList_node, hl]; simp, hk, has, fun z hz => ?_⟩
      rcases mem_append.1 hz with hz | hz
      · exact hbs z hz
      · rcases mem_cons.1 hz with rfl | hz
        · exact hy
        · exact (hyr z hz).1 (by simp [hy])
    · cases h
    · next hy =>
      rcases hj : r.locate c with ⟨j, z⟩ | j
      · rw [hj] at h
        cases h
      · rw [hj] at h
        cases h
        obtain ⟨as, bs, hr, hk, has, hbs⟩ := ihr hr hj
        refine ⟨l.toList ++ y :: as, bs, by rw [toList_node, hr]; simp, by simp [hk]; omega,
          fun z hz => ?_, hbs⟩
        rcases mem_append.1 hz with hz | hz
        · exact (hlr z hz y mem_cons_self).2 (by simp [hy])
        · rcases mem_cons.1 hz with rfl | hz
          · exact hy
          · exact has z hz

theorem placeBy_congr {p q : α → Bool} {t : Tree α} (h : ∀ x ∈ t.toList, p x = q x) :
    t.placeBy p = t.placeBy q := by
  induction t with
  | nil => rfl
  | node l x r _ ihl ihr =>
    simp only [toList_node, mem_append, mem_cons] at h
    rw [placeBy, placeBy, h x (.inr (.inl rfl)), ihl fun y hy => h y (.inl hy),
      ihr fun y hy => h y (.inr (.inr hy))]

theorem placeBy_spec {before : α → Bool} {t : Tree α}
    (hs : t.toList.Pairwise fun x y => before x = true → before y = true) :
    ∃ as bs, t.toList = as ++ bs ∧ as.length = t.placeBy before ∧ (∀ x ∈ as, before x = false) ∧
      ∀ y ∈ bs, before y = true := by
  induction t with
  | nil => exact ⟨[], [], rfl, rfl, by simp, by simp⟩
  | node l y r _ ihl ihr =>
    obtain ⟨hl, hr, hlr⟩ := pairwise_append.1 hs
    obtain ⟨hyr, hr⟩ := pairwise_cons.1 hr
    rw [placeBy]
    split_ifs with hy
    · obtain ⟨as, bs, hl, hk, has, hbs⟩ := ihl hl
      refine ⟨as, bs ++ y :: r.toList, by rw [toList_node, hl]; simp, hk, has, fun z hz => ?_⟩
      rcases mem_append.1 hz with hz | hz
      · exact hbs z hz
      · rcases mem_cons.1 hz with rfl | hz
        · exact hy
        · exact hyr z hz hy
    · obtain ⟨as, bs, hr, hk, has, hbs⟩ := ihr hr
      refine ⟨l.toList ++ y :: as, bs, by rw [toList_node, hr]; simp, by simp [hk]; omega,
        fun z hz => ?_, hbs⟩
      rcases mem_append.1 hz with hz | hz
      · exact Bool.eq_false_iff.2 fun h => hy (hlr z hz y mem_cons_self h)
      · rcases mem_cons.1 hz with rfl | hz
        · exact Bool.eq_false_iff.2 hy
        · exact has z hz

end Tree

end Pclsync
