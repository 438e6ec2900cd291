import Mathlib.Algebra.BigOperators.Group.List.Basic
import Mathlib.Data.List.Nodup

/-!
# Tables with a primary key

A table is a list of rows with different keys (`Keyed`). Rows are looked up by their keys
(`lookup`), inserted, updated (`update`) and deleted (`without`); `total` is the sum of a weight of
the rows.

* `lookup_append`, `lookup_update`, `lookup_without`: what is looked up after a change.
* `total_eq`: the total is the weight of one row and the total of the others, so that a change of
  one row changes the total by the difference of its weights.
* `perm_of_lookup_eq`: tables with the same rows under all keys are permutations of each other.
-/

namespace Pclsync.Sql.Table

open List

variable {ρ κ M : Type} [DecidableEq κ] [AddCommMonoid M] (key : ρ → κ)

/-- The rows have different keys. -/
def Keyed (l : List ρ) : Prop := (l.map key).Nodup

/-- The row with a key. -/
def lookup (l : List ρ) (k : κ) : Option ρ := l.find? fun r => key r = k

/-- The rows with other keys. -/
def without (l : List ρ) (k : κ) : List ρ := l.filter fun r => key r ≠ k

/-- The row with a key is changed. -/
def update (l : List ρ) (k : κ) (f : ρ → ρ) : List ρ := l.map fun r => if key r = k then f r else r

/-- The sum of a weight. -/
def total (g : ρ → M) (l : List ρ) : M := (l.map g).sum

variable {key} {l l' : List ρ} {k k' : κ} {r : ρ} {f : ρ → ρ} {g g' : ρ → M}

/-! ## Lookup -/

@[simp] theorem lookup_nil : lookup key [] k = none := rfl

theorem lookup_cons : lookup key (r :: l) k = if key r = k then some r else lookup key l k := by
  unfold lookup
  by_cases h : key r = k
  · rw [if_pos h, find?_cons_of_pos (by simpa using h)]
  · rw [if_neg h, find?_cons_of_neg (by simpa using h)]

theorem key_of_lookup (h : lookup key l k = some r) : key r = k := by
  simpa using find?_some h

theorem mem_of_lookup (h : lookup key l k = some r) : r ∈ l := mem_of_find?_eq_some h

theorem lookup_eq_none : lookup key l k = none ↔ ∀ r ∈ l, key r ≠ k := by
  simp [lookup, find?_eq_none]

theorem isSome_lookup : (lookup key l k).isSome ↔ ∃ r ∈ l, key r = k := by
  simp [lookup, find?_isSome]

theorem length_filter_key :
    (l.filter fun r => key r = k).length = 0 ↔ (lookup key l k).isSome = false := by
  rw [length_eq_zero_iff, filter_eq_nil_iff, ← Bool.not_eq_true, isSome_lookup]
  simp only [decide_eq_true_eq, not_exists, not_and]

theorem Keyed.lookup_of_mem (hl : Keyed key l) (hr : r ∈ l) : lookup key l (key r) = some r := by
  induction l with
  | nil => cases hr
  | cons s l ih =>
    obtain ⟨hs, hl⟩ := nodup_cons.1 hl
    rw [lookup_cons]
    rcases mem_cons.1 hr with rfl | hr
    · exact if_pos rfl
    · have hne : key s ≠ key r := fun h => hs (h ▸ mem_map_of_mem hr)
      rw [if_neg hne]
      exact ih hl hr

theorem Keyed.mem_iff (hl : Keyed key l) : r ∈ l ↔ lookup key l (key r) = some r :=
  ⟨hl.lookup_of_mem, mem_of_lookup⟩

theorem lookup_append_of_ne (h : key r ≠ k) : lookup key (l ++ [r]) k = lookup key l k := by
  unfold lookup
  rw [find?_append, find?_cons_of_neg (by simpa using h), find?_nil,
    Option.or_none]

theorem lookup_append (h : lookup key l (key r) = none) :
    lookup key (l ++ [r]) k = if k = key r then some r else lookup key l k := by
  by_cases hk : k = key r
  · subst hk
    unfold lookup at h ⊢
    rw [if_pos rfl, find?_append, h, Option.none_or]
    simp
  · rw [if_neg hk, lookup_append_of_ne (Ne.symm hk)]

theorem lookup_without :
    lookup key (without key l k) k' = if k' = k then none else lookup key l k' := by
  induction l with
  | nil => simp [without]
  | cons s l ih =>
    by_cases hs : key s = k
    · have hcons : without key (s :: l) k = without key l k :=
        filter_cons_of_neg (by simpa using hs)
      rw [hcons, ih, lookup_cons, hs]
      by_cases hk : k' = k
      · rw [if_pos hk, if_pos hk]
      · rw [if_neg hk, if_neg hk, if_neg (Ne.symm hk)]
    · have hcons : without key (s :: l) k = s :: without key l k :=
        filter_cons_of_pos (by simpa using hs)
      rw [hcons, lookup_cons, lookup_cons, ih]
      by_cases hk : key s = k'
      · rw [if_pos hk, if_pos hk, if_neg (hk ▸ hs)]
      · rw [if_neg hk, if_neg hk]

theorem lookup_update (hf : ∀ r, key r = k → key (f r) = k) : lookup key (update key l k f) k' =
      if k' = k then (lookup key l k).map f else lookup key l k' := by
  induction l with
  | nil => simp [update]
  | cons s l ih =>
    have hcons : update key (s :: l) k f = (if key s = k then f s else s) :: update key l k f := rfl
    rw [hcons, lookup_cons, lookup_cons, lookup_cons, ih]
    by_cases hs : key s = k
    · rw [if_pos hs, if_pos hs, hf s hs, hs, Option.map_some]
      by_cases hk : k' = k
      · rw [if_pos hk, if_pos hk.symm, if_pos hk]
      · rw [if_neg hk, if_neg (Ne.symm hk), if_neg hk, if_neg (Ne.symm hk)]
    · rw [if_neg hs, if_neg hs]
      by_cases hk : key s = k'
      · rw [if_pos hk, if_pos hk, if_neg (hk ▸ hs)]
      · rw [if_neg hk, if_neg hk]

/-! ## Changes keep the keys different -/

theorem Keyed.append (hl : Keyed key l) (h : lookup key l (key r) = none) :
    Keyed key (l ++ [r]) := by
  unfold Keyed
  rw [map_append]
  refine Nodup.append hl (nodup_singleton _) fun k hk hk' => ?_
  obtain ⟨s, hs, rfl⟩ := mem_map.1 hk
  exact lookup_eq_none.1 h s hs (mem_singleton.1 hk')

theorem Keyed.without (hl : Keyed key l) (k : κ) : Keyed key (without key l k) :=
  hl.sublist (filter_sublist.map key)

theorem Keyed.update (hl : Keyed key l) (hf : ∀ r, key r = k → key (f r) = k) :
    Keyed key (update key l k f) := by
  have hkeys : (Table.update key l k f).map key = l.map key := by
    unfold Table.update
    rw [map_map]
    refine map_congr_left fun s _ => ?_
    dsimp only [Function.comp]
    split
    · rename_i hs
      rw [hf s hs, hs]
    · rfl
  unfold Keyed
  rw [hkeys]
  exact hl

/-! ## Totals -/

theorem without_append (h : key r = k) : without key (l ++ [r]) k = without key l k := by
  unfold without
  rw [filter_append, filter_cons_of_neg (by simpa using h), filter_nil,
    append_nil]

theorem without_without : without key (without key l k) k = without key l k := by
  unfold without
  rw [filter_filter]
  simp only [Bool.and_self]

theorem without_update (hf : ∀ r, key r = k → key (f r) = k) :
    without key (update key l k f) k = without key l k := by
  induction l with
  | nil => rfl
  | cons s l ih =>
    have hcons : update key (s :: l) k f = (if key s = k then f s else s) :: update key l k f := rfl
    rw [hcons]
    by_cases hs : key s = k
    · rw [if_pos hs]
      unfold without at ih ⊢
      rw [filter_cons_of_neg (by simpa using hf s hs),
        filter_cons_of_neg (by simpa using hs), ih]
    · rw [if_neg hs]
      unfold without at ih ⊢
      rw [filter_cons_of_pos (by simpa using hs), filter_cons_of_pos (by simpa using hs),
        ih]

theorem without_eq_self (h : lookup key l k = none) : without key l k = l :=
  filter_eq_self.2 fun r hr => by simpa using lookup_eq_none.1 h r hr

/-- The weight of the row with a key. -/
def weight (key : ρ → κ) (g : ρ → M) (l : List ρ) (k : κ) : M := (lookup key l k).elim 0 g

/-- The total is the weight of one row and the total of the others. -/
theorem Keyed.total_eq (hl : Keyed key l) (g : ρ → M) (k : κ) :
    total g l = weight key g l k + total g (Table.without key l k) := by
  unfold weight
  induction l with
  | nil => exact (zero_add _).symm
  | cons s l ih =>
    obtain ⟨hs, hl⟩ := nodup_cons.1 hl
    rw [lookup_cons]
    by_cases hk : key s = k
    · have hnone : lookup key l k = none :=
        lookup_eq_none.2 fun r hr h => hs (hk ▸ h ▸ mem_map_of_mem hr)
      have hcons : Table.without key (s :: l) k = l := by
        unfold Table.without
        rw [filter_cons_of_neg (by simpa using hk)]
        exact without_eq_self hnone
      rw [if_pos hk, hcons]
      rfl
    · have hcons : Table.without key (s :: l) k = s :: Table.without key l k :=
        filter_cons_of_pos (by simpa using hk)
      have htotal : total g (s :: l) = g s + total g l := rfl
      have htotal' : total g (s :: Table.without key l k) = g s + total g (Table.without key l k) :=
        rfl
      rw [if_neg hk, hcons, htotal, htotal', ih hl, add_left_comm]

theorem total_congr (h : ∀ r ∈ l, g r = g' r) : total g l = total g' l :=
  congrArg sum (map_congr_left h)

theorem total_append : total g (l ++ [r]) = total g l + g r := by
  unfold total
  rw [map_append, sum_append]
  exact congrArg _ (add_zero _)

/-! ## Other columns -/

variable {σ : Type} {key' : σ → κ} {h : ρ → σ}

theorem lookup_map (hh : ∀ r, key' (h r) = key r) :
    lookup key' (l.map h) k = (lookup key l k).map h := by
  induction l with
  | nil => rfl
  | cons r l ih =>
    rw [map_cons, lookup_cons, lookup_cons, hh, ih]
    split <;> rfl

omit [DecidableEq κ] in
theorem Keyed.map (hl : Keyed key l) (hh : ∀ r, key' (h r) = key r) : Keyed key' (l.map h) := by
  unfold Keyed
  rw [map_map]
  exact (map_congr_left fun r _ => hh r) ▸ hl

/-! ## Equal tables -/

/-- Tables with the same rows under all keys have the same rows. -/
theorem perm_of_lookup_eq (hl : Keyed key l) (hl' : Keyed key l')
    (h : ∀ k, lookup key l k = lookup key l' k) : l.Perm l' := by
  refine (perm_ext_iff_of_nodup (Nodup.of_map _ hl) (Nodup.of_map _ hl')).2
    fun r => ?_
  rw [hl.mem_iff, hl'.mem_iff, h]

theorem Keyed.filter_key (hl : Keyed key l) (k : κ) :
    (l.filter fun r => key r = k) = (lookup key l k).toList := by
  induction l with
  | nil => rfl
  | cons s l ih =>
    obtain ⟨hs, hl⟩ := nodup_cons.1 hl
    rw [lookup_cons]
    by_cases hk : key s = k
    · have hnone : lookup key l k = none :=
        lookup_eq_none.2 fun r hr h => hs (hk ▸ h ▸ mem_map_of_mem hr)
      rw [if_pos hk, filter_cons_of_pos (by simpa using hk), ih hl, hnone]
      rfl
    · rw [if_neg hk, filter_cons_of_neg (by simpa using hk), ih hl]

end Pclsync.Sql.Table
