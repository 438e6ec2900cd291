import Mathlib.Algebra.BigOperators.Group.Finset.Piecewise
import Mathlib.Algebra.Order.Group.Nat
import Mathlib.Tactic.Abel

/-!
# Counting in lists and families

The threads of a system are a list, or a finite family, in which a step replaces one element. What
counts the threads, or adds up their shares, changes by that element only.

* `countP_set_add`, `countP_eraseIdx_add`, `sum_map_set_add`: one element is replaced or deleted.
* `sum_comp_update`: the same for the sum over a family.
* `eq_false_of_countP_le_one`: what only one element can be.
-/

namespace Pclsync

open Function List

variable {α : Type*} {l : List α} {i : ℕ} {a b : α} {p : α → Bool}

/-- The number of elements with a property, after one of them is replaced. -/
theorem countP_set_add (h : l[i]? = some a) (b : α) (p : α → Bool) :
    (l.set i b).countP p + (if p a = true then 1 else 0) =
      l.countP p + (if p b = true then 1 else 0) := by
  obtain ⟨hi, rfl⟩ := List.getElem?_eq_some_iff.1 h
  rw [countP_set hi]
  have hpos : (if p l[i] = true then 1 else 0) ≤ l.countP p := by
    split_ifs with hp
    · exact countP_pos_iff.2 ⟨_, getElem_mem hi, hp⟩
    · exact Nat.zero_le _
  omega

/-- The number of elements with a property, after one of them is deleted. -/
theorem countP_eraseIdx_add (h : l[i]? = some a) (p : α → Bool) :
    (l.eraseIdx i).countP p + (if p a = true then 1 else 0) = l.countP p := by
  obtain ⟨hi, rfl⟩ := List.getElem?_eq_some_iff.1 h
  have hsplit : l = l.take i ++ l[i] :: l.drop (i + 1) := by simp
  conv_rhs => rw [hsplit]
  rw [eraseIdx_eq_take_drop_succ, countP_append, countP_append, countP_cons, Nat.add_assoc]

/-- The sum over the elements, after one of them is replaced. -/
theorem sum_map_set_add {M : Type*} [AddCommMonoid M] (h : l[i]? = some a) (b : α) (f : α → M) :
    ((l.set i b).map f).sum + f a = (l.map f).sum + f b := by
  obtain ⟨hi, rfl⟩ := List.getElem?_eq_some_iff.1 h
  have hsplit : l = l.take i ++ l[i] :: l.drop (i + 1) := by simp
  rw [set_eq_take_append_cons_drop, if_pos hi]
  conv_rhs => rw [hsplit]
  simp only [map_append, map_cons, sum_append, sum_cons]
  abel

/-- The sum over a family, after one of its members is replaced. -/
theorem sum_comp_update {ι M : Type*} [Fintype ι] [DecidableEq ι] [AddCommMonoid M] (g : ι → α)
    (i : ι) (x : α) (f : α → M) :
    ∑ j, f (update g i x j) + f (g i) = ∑ j, f (g j) + f x := by
  have hf : (fun j => f (update g i x j)) = update (fun j => f (g j)) i (f x) :=
    comp_update f g i x
  have hi : {i} ⊆ (Finset.univ : Finset ι) := Finset.subset_univ {i}
  rw [hf, Finset.sum_update_of_mem (Finset.mem_univ i), ← Finset.sum_sdiff hi, Finset.sum_singleton]
  abel

/-- An element of a list in which one element was replaced is the new one, or stands elsewhere. -/
theorem eq_or_getElem?_of_mem_set (h : b ∈ l.set i a) : b = a ∨ ∃ j, j ≠ i ∧ l[j]? = some b := by
  obtain ⟨j, hj⟩ := mem_iff_getElem?.1 h
  rw [getElem?_set] at hj
  split_ifs at hj with hij
  · exact .inl (Option.some_inj.1 hj).symm
  · exact .inr ⟨j, Ne.symm hij, hj⟩

/-- When at most one element has a property, the others do not have it. -/
theorem eq_false_of_countP_le_one (h : l[i]? = some a) (ha : p a = true)
    (hp : l.countP p ≤ 1) {j : ℕ} (hji : j ≠ i) (hj : l[j]? = some b) : p b = false := by
  have hadd := countP_eraseIdx_add h p
  rw [if_pos ha] at hadd
  have hzero : (l.eraseIdx i).countP p = 0 := by omega
  have hmem := mem_eraseIdx_iff_getElem?.2 ⟨j, hji, hj⟩
  simpa using countP_eq_zero.1 hzero b hmem

end Pclsync
