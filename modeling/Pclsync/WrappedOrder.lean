import Mathlib.Data.List.Nodup
import Pclsync.KeyedTree

/-!
# Search trees ordered by wrapped differences

Numbers of `w` bits can be compared by the sign of their difference, which wraps. This is not an
order on all of them: `a` may be before `b`, `b` before `c` and `c` before `a`. It is one on the
numbers of a half of the circle, where it compares the distances from the start of the half.

* `diffCompare`: the comparison. `OnHalf c x`: `x` is on the half circle that starts at `c`.
* `Tree.DiffOrdered`: the in-order sequence of a tree is ordered, by the keys of its elements.
* `Tree.DiffOrdered.locate_of_mem`, `Tree.DiffOrdered.insertAt`: when all keys are on one half
  circle with the key searched for, the descent finds the node with that key, or a place for it that
  keeps the tree ordered.
-/

namespace Pclsync

open List

variable {w : ℕ}

/-- The comparison of `a` with `b` by the sign of their difference. -/
def diffCompare (a b : BitVec w) : Ordering := compare (a - b).toInt 0

/-- `x` is less than half a circle after `c`. -/
def OnHalf (c x : BitVec w) : Prop := 2 * (x - c).toNat < 2 ^ w

section Half

variable {a b c : BitVec w}

theorem toInt_sub (ha : OnHalf c a) (hb : OnHalf c b) :
    (a - b).toInt = (a - c).toNat - (b - c).toNat := by
  unfold OnHalf at ha hb
  have hab : a - b = (a - c) - (b - c) := by grind
  rw [hab]
  generalize a - c = x at *
  generalize b - c = y at *
  have hx := x.isLt
  rw [BitVec.toInt_eq_toNat_cond, BitVec.toNat_sub]
  rcases le_or_gt y.toNat x.toNat with h | h
  · have hmod : (2 ^ w - y.toNat + x.toNat) % 2 ^ w = x.toNat - y.toNat := by
      rw [show 2 ^ w - y.toNat + x.toNat = x.toNat - y.toNat + 2 ^ w by omega, Nat.add_mod_right,
        Nat.mod_eq_of_lt (by omega)]
    rw [hmod, if_pos (by omega)]
    omega
  · rw [Nat.mod_eq_of_lt (by omega), if_neg (by omega)]
    omega

theorem diffCompare_eq (ha : OnHalf c a) (hb : OnHalf c b) :
    diffCompare a b = compare (a - c).toNat (b - c).toNat := by
  rw [diffCompare, toInt_sub ha hb]
  rcases lt_trichotomy (a - c).toNat (b - c).toNat with h | h | h
  · rw [compare_lt_iff_lt.2 h, compare_lt_iff_lt]
    omega
  · rw [compare_eq_iff_eq.2 h, compare_eq_iff_eq]
    omega
  · rw [compare_gt_iff_gt.2 h, compare_gt_iff_gt]
    omega

end Half

namespace Tree

variable {α : Type*} {key : α → BitVec w} {t : Tree α} {a : BitVec w} {x : α} {k : ℕ}

/-- The keys are in order along the sequence of the tree. -/
def DiffOrdered (key : α → BitVec w) (t : Tree α) : Prop :=
  t.toList.Pairwise fun x y => diffCompare (key x) (key y) = .lt

/-- All keys of the tree are on a half circle, with the key `a`. -/
def OnHalfWith (key : α → BitVec w) (t : Tree α) (a : BitVec w) : Prop :=
  ∃ c, OnHalf c a ∧ ∀ x ∈ t.toList, OnHalf c (key x)

section

variable (h : DiffOrdered key t)
include h

theorem DiffOrdered.sublist {t' : Tree α} (hs : t'.toList.Sublist t.toList) : DiffOrdered key t' :=
  Pairwise.sublist hs h

theorem DiffOrdered.nodup_keys : (t.toList.map key).Nodup := by
  refine pairwise_map.2 (h.imp fun {x y} hxy heq => ?_)
  rw [heq, diffCompare, BitVec.sub_self, BitVec.toInt_zero] at hxy
  exact absurd hxy (by decide)

theorem DiffOrdered.sorted (hh : OnHalfWith key t a) : t.Sorted fun x => diffCompare a (key x) := by
  obtain ⟨c, ha, hc⟩ := hh
  refine h.imp_of_mem fun {x y} hx hy hxy => ?_
  dsimp only
  rw [diffCompare_eq (hc x hx) (hc y hy), compare_lt_iff_lt] at hxy
  rw [diffCompare_eq ha (hc x hx), diffCompare_eq ha (hc y hy), compare_lt_iff_lt,
    compare_gt_iff_gt, ne_eq, compare_gt_iff_gt, ne_eq, compare_lt_iff_lt]
  exact ⟨fun hna => (not_lt.1 hna).trans_lt hxy, fun hna => hxy.trans_le (not_lt.1 hna)⟩

/-- The descent finds the node with the key. -/
theorem DiffOrdered.locate_of_mem (hh : OnHalfWith key t (key x))
    (hx : x ∈ t.toList) : ∃ k, t.locate (fun y => diffCompare (key x) (key y)) = .found k x := by
  have heq : ∀ y ∈ t.toList, diffCompare (key x) (key y) = .eq → y = x := fun y hy hxy => by
    obtain ⟨c, hc, hall⟩ := hh
    rw [diffCompare_eq hc (hall y hy), compare_eq_iff_eq, BitVec.toNat_inj,
      BitVec.sub_left_inj] at hxy
    exact inj_on_of_nodup_map h.nodup_keys hy hx hxy.symm
  rcases hl : t.locate (fun y => diffCompare (key x) (key y)) with ⟨k, y⟩ | k
  · obtain ⟨hy, hxy⟩ := mem_of_locate hl
    exact ⟨k, by rw [heq y hy hxy]⟩
  · -- The node is on neither side of the place.
    obtain ⟨as, bs, ht, -, has, hbs⟩ := locate_vacant (h.sorted hh) hl
    have hxx : diffCompare (key x) (key x) = .eq := by
      rw [diffCompare, BitVec.sub_self, BitVec.toInt_zero]
      rfl
    rcases mem_append.1 (ht ▸ hx) with hx | hx
    · exact absurd (hxx.symm.trans (has x hx)) (by decide)
    · exact absurd (hxx.symm.trans (hbs x hx)) (by decide)

/-- A new element at the place that the descent found for its key. -/
theorem DiffOrdered.insertAt (hh : OnHalfWith key t (key x))
    (hl : t.locate (fun y => diffCompare (key x) (key y)) = .vacant k) :
    DiffOrdered key (t.insertAt k x) := by
  obtain ⟨as, bs, ht, rfl, has, hbs⟩ := locate_vacant (h.sorted hh) hl
  obtain ⟨c, hc, hall⟩ := hh
  unfold DiffOrdered at *
  rw [toList_insertAt x ht]
  rw [ht] at h hall
  obtain ⟨h1, h2, h3⟩ := pairwise_append.1 h
  have hbefore : ∀ y ∈ as, diffCompare (key y) (key x) = .lt := fun y hy => by
    have := has y hy
    rw [diffCompare_eq hc (hall y (mem_append_left _ hy)), compare_gt_iff_gt] at this
    rwa [diffCompare_eq (hall y (mem_append_left _ hy)) hc, compare_lt_iff_lt]
  refine pairwise_append.2 ⟨h1, pairwise_cons.2 ⟨hbs, h2⟩, fun y hy z hz => ?_⟩
  rcases mem_cons.1 hz with rfl | hz
  · exact hbefore y hy
  · exact h3 y hy z hz

end

/-- The elements after the only one with the property is deleted. -/
theorem toList_removeAt_findIdx {p : α → Bool} (hx : x ∈ t.toList) (hp : p x = true)
    (hn : t.toList.Pairwise fun y z => ¬ (p y = true ∧ p z = true)) :
    ∃ as bs k, t.toList = as ++ x :: bs ∧ t.toList.findIdx? p = some k ∧
      (t.removeAt k).toList = as ++ bs := by
  obtain ⟨as, bs, ht⟩ := append_of_mem hx
  refine ⟨as, bs, as.length, ht, ?_, toList_removeAt ht⟩
  rw [ht] at hn ⊢
  have hnot : as.findIdx? p = none := findIdx?_eq_none_iff.2 fun y hy =>
    Bool.eq_false_iff.2 fun hpy =>
      (pairwise_append.1 hn).2.2 y hy x mem_cons_self ⟨hpy, hp⟩
  rw [findIdx?_append, hnot, findIdx?_cons, hp]
  simp

end Tree

end Pclsync
