import Mathlib.Data.List.Nodup
import Pclsync.KeyedTree

/-!
# Search trees with ordered keys

Trees whose elements have different keys from a linear order and are ordered by them. A descent
compares the key searched for with those of the elements.

* `Tree.KeyOrdered.locate_of_mem`: the element with a key is found.
* `Tree.KeyOrdered.insertAt`: the place at which a descent ends keeps the order.
-/

namespace Pclsync.Tree

open List

variable {α κ : Type*} [LinearOrder κ] {key : α → κ} {t : Tree α} {a : κ} {x y : α} {k : ℕ}

/-- The keys are in order along the sequence of the tree. -/
def KeyOrdered (key : α → κ) (t : Tree α) : Prop :=
  t.toList.Pairwise fun x y => key x < key y

theorem keyOrdered_nil : KeyOrdered key nil := .nil

theorem KeyOrdered.removeAt (h : KeyOrdered key t) (k : ℕ) : KeyOrdered key (t.removeAt k) :=
  Pairwise.sublist (toList_removeAt_sublist k t) h

theorem KeyOrdered.map (h : KeyOrdered key t) {f : α → α} (hf : ∀ x, key (f x) = key x) :
    KeyOrdered key (t.map f) := by
  rw [KeyOrdered, toList_map, pairwise_map]
  refine h.imp fun {x y} hxy => ?_
  rwa [hf, hf]

theorem KeyOrdered.eq_of_key (h : KeyOrdered key t) (hx : x ∈ t.toList) (hy : y ∈ t.toList)
    (hkey : key x = key y) : x = y := by
  have hnodup : (t.toList.map key).Nodup := pairwise_map.2 (h.imp ne_of_lt)
  exact inj_on_of_nodup_map hnodup hx hy hkey

theorem KeyOrdered.sorted (h : KeyOrdered key t) (a : κ) : t.Sorted fun x => compare a (key x) := by
  refine h.imp fun {x y} hxy => ?_
  rw [compare_lt_iff_lt, compare_gt_iff_gt, ne_eq, compare_gt_iff_gt, ne_eq, compare_lt_iff_lt]
  exact ⟨fun hna => (not_lt.1 hna).trans_lt hxy, fun hna => hxy.trans_le (not_lt.1 hna)⟩

theorem key_of_locate (h : t.locate (fun y => compare a (key y)) = .found k x) :
    x ∈ t.toList ∧ key x = a := by
  obtain ⟨hmem, heq⟩ := mem_of_locate h
  exact ⟨hmem, (compare_eq_iff_eq.1 heq).symm⟩

theorem KeyOrdered.ne_of_locate (h : KeyOrdered key t)
    (hl : t.locate (fun y => compare a (key y)) = .vacant k) (hx : x ∈ t.toList) : key x ≠ a := by
  obtain ⟨as, bs, ht, -, has, hbs⟩ := locate_vacant (h.sorted a) hl
  rcases mem_append.1 (ht ▸ hx) with hx | hx
  · exact (compare_gt_iff_gt.1 (has x hx)).ne
  · exact (compare_lt_iff_lt.1 (hbs x hx)).ne'

/-- The descent finds the element with the key. -/
theorem KeyOrdered.locate_of_mem (h : KeyOrdered key t) (hx : x ∈ t.toList) :
    ∃ k, t.locate (fun y => compare (key x) (key y)) = .found k x := by
  rcases hl : t.locate (fun y => compare (key x) (key y)) with ⟨k, y⟩ | k
  · obtain ⟨hy, hkey⟩ := key_of_locate hl
    exact ⟨k, by rw [h.eq_of_key hy hx hkey]⟩
  · exact absurd rfl (h.ne_of_locate hl hx)

/-- A new element at the place that the descent found for its key. -/
theorem KeyOrdered.insertAt (h : KeyOrdered key t)
    (hl : t.locate (fun y => compare (key x) (key y)) = .vacant k) :
    KeyOrdered key (t.insertAt k x) ∧
      ∀ y, y ∈ (t.insertAt k x).toList ↔ y = x ∨ y ∈ t.toList := by
  obtain ⟨as, bs, ht, rfl, has, hbs⟩ := locate_vacant (h.sorted (key x)) hl
  rw [KeyOrdered, toList_insertAt x ht]
  rw [KeyOrdered, ht] at h
  obtain ⟨h1, h2, h3⟩ := pairwise_append.1 h
  refine ⟨pairwise_append.2 ⟨h1, pairwise_cons.2 ⟨fun y hy => ?_, h2⟩,
    fun y hy z hz => ?_⟩, fun y => ?_⟩
  · exact compare_lt_iff_lt.1 (hbs y hy)
  · rcases mem_cons.1 hz with rfl | hz
    · exact compare_gt_iff_gt.1 (has y hy)
    · exact h3 y hy z hz
  · rw [ht, mem_append, mem_append, mem_cons, or_left_comm]

end Pclsync.Tree
