import Mathlib.Data.List.Count
import Mathlib.Data.List.Nodup
import Mathlib.Data.List.Perm.Basic
import Mathlib.Data.Int.Notation

/-!
# Refreshing changed folders

`psync_diff_refresh_thread` (`pdiff.c`) sorts the ids of the changed folders and refreshes each id
that differs from the one before it. The comparison that it gives to `qsort` compares the addresses
of its arguments, and not the ids that are there.

* `Qsorted`: what `qsort` promises of the array that it leaves.
* `psyncDiffRefreshThread_iff`: for which lists each folder is refreshed once, whatever `qsort` does
  within its promise.
* `refreshed_twice`: a list with an id that is refreshed twice.
-/

namespace Pclsync.Diff.RefreshFolders

open List

/-- `cmp_folderid`, of two addresses in a memory. -/
def cmpFolderid (_mem : ℕ → UInt64) (folderid1 folderid2 : ℕ) : ℤ :=
  if folderid1 < folderid2 then -1 else if folderid1 > folderid2 then 1 else 0

/-- An array of ids in memory. -/
def arrayAt (base : ℕ) (ids : List UInt64) : ℕ → UInt64 := fun a => ids.getD ((a - base) / 8) 0

/-- What `qsort` may leave of an array: its elements, none of which is in front of one that the
    comparison puts before it. -/
structure Qsorted (cmp : (ℕ → UInt64) → ℕ → ℕ → ℤ) (base : ℕ) (ids sorted : List UInt64) :
    Prop where
  perm : sorted.Perm ids
  ascending : ∀ i j, i < j → j < sorted.length →
    cmp (arrayAt base sorted) (base + 8 * i) (base + 8 * j) ≤ 0

/-- `(psync_folderid_t)-1`. -/
def noFolderid : UInt64 := 0xffffffffffffffff

/-- The loop over the sorted ids: the calls of `psync_fs_refresh_folder`. -/
def refreshFrom (lastfolderid : UInt64) : List UInt64 → List UInt64
  | [] => []
  | folderid :: ids =>
    if folderid ≠ lastfolderid then folderid :: refreshFrom folderid ids
    else refreshFrom lastfolderid ids

/-- `psync_diff_refresh_thread`, with what `qsort` leaves of the ids. -/
def psyncDiffRefreshThread (sorted : List UInt64) : List UInt64 := refreshFrom noFolderid sorted

/-- Each of the ids is refreshed once, and no other one is. -/
def RefreshedOnce (ids refreshed : List UInt64) : Prop :=
  refreshed.Nodup ∧ ∀ x, x ∈ refreshed ↔ x ∈ ids

variable {ids sorted : List UInt64} {base : ℕ} {last x y : UInt64}

/-- Every order of the elements is ascending by address. -/
theorem qsorted_iff : Qsorted cmpFolderid base ids sorted ↔ sorted.Perm ids := by
  refine ⟨Qsorted.perm, fun h => ⟨h, fun i j hij _ => ?_⟩⟩
  rw [cmpFolderid, if_pos (by omega)]
  decide

theorem mem_of_mem_refreshFrom (h : x ∈ refreshFrom last ids) : x ∈ ids := by
  induction ids generalizing last with
  | nil => exact h
  | cons y ids ih =>
    rw [refreshFrom] at h
    split_ifs at h
    · rcases mem_cons.1 h with rfl | h
      · exact mem_cons_self
      · exact mem_cons_of_mem _ (ih h)
    · exact mem_cons_of_mem _ (ih h)

theorem refreshFrom_of_nodup (h : (last :: ids).Nodup) : refreshFrom last ids = ids := by
  induction ids generalizing last with
  | nil => rfl
  | cons y ids ih =>
    obtain ⟨hlast, hids⟩ := nodup_cons.1 h
    rw [refreshFrom, if_pos, ih hids]
    rintro rfl
    exact hlast mem_cons_self

theorem refreshFrom_append (h : ∀ y ∈ sorted, y = last) (ids : List UInt64) :
    refreshFrom last (sorted ++ ids) = refreshFrom last ids := by
  induction sorted with
  | nil => rfl
  | cons y sorted ih =>
    rw [forall_mem_cons] at h
    rw [cons_append, refreshFrom, if_neg (not_not.2 h.1), ih h.2]

/-- The id that stands for none is not refreshed when it comes first. -/
theorem exists_perm_of_mem (h : noFolderid ∈ ids) :
    ∃ sorted : List UInt64, sorted.Perm ids ∧
      ¬ RefreshedOnce ids (psyncDiffRefreshThread sorted) := by
  refine ⟨_, filter_append_perm (fun y => y = noFolderid) ids, fun hr => ?_⟩
  have hmem := (hr.2 noFolderid).2 h
  rw [psyncDiffRefreshThread, refreshFrom_append fun y hy => by simpa using (mem_filter.1 hy).2]
    at hmem
  simpa using (mem_filter.1 (mem_of_mem_refreshFrom hmem)).2

/-- An id that is there twice can have another one between. -/
theorem exists_perm_of_twice (hno : noFolderid ∉ ids) (htwice : ¬ ids.Nodup) (hx : x ∈ ids)
    (hy : y ∈ ids) (hxy : x ≠ y) :
    ∃ sorted : List UInt64, sorted.Perm ids ∧
      ¬ RefreshedOnce ids (psyncDiffRefreshThread sorted) := by
  obtain ⟨a, ha⟩ : ∃ a, 1 < ids.count a := by
    by_contra hle
    exact htwice (nodup_iff_count_le_one.2 fun a => Nat.not_lt.1 fun ha => hle ⟨a, ha⟩)
  have ha1 : a ∈ ids := count_pos_iff.1 (by omega)
  have ha2 : a ∈ ids.erase a := count_pos_iff.1 (by rw [count_erase_self]; omega)
  obtain ⟨b, hb, hba⟩ : ∃ b ∈ ids, b ≠ a := by
    rcases eq_or_ne x a with rfl | hxa
    · exact ⟨y, hy, hxy.symm⟩
    · exact ⟨x, hx, hxa⟩
  have hb' : b ∈ (ids.erase a).erase a :=
    (mem_erase_of_ne hba).2 ((mem_erase_of_ne hba).2 hb)
  have hperm : (a :: b :: a :: ((ids.erase a).erase a).erase b).Perm ids :=
    (((Perm.swap a b _).trans ((perm_cons_erase hb').symm.cons a)).cons a).trans
      (((perm_cons_erase ha2).symm.cons a).trans (perm_cons_erase ha1).symm)
  refine ⟨_, hperm, fun hr => ?_⟩
  have hlast : a ≠ noFolderid := fun h => hno (h ▸ ha1)
  have hnodup := hr.1
  rw [psyncDiffRefreshThread, refreshFrom, if_pos hlast, refreshFrom, if_pos hba, refreshFrom,
    if_pos hba.symm] at hnodup
  exact (nodup_cons.1 hnodup).1 (mem_cons_of_mem _ mem_cons_self)

/-- Each folder is refreshed once, whatever order of the ids `qsort` leaves, exactly when no id is
    there twice, or there is only one id, and the id that stands for none is not there. -/
theorem psyncDiffRefreshThread_iff (base : ℕ) (ids : List UInt64) :
    (∀ sorted, Qsorted cmpFolderid base ids sorted →
      RefreshedOnce ids (psyncDiffRefreshThread sorted)) ↔
    noFolderid ∉ ids ∧ (ids.Nodup ∨ ∀ x ∈ ids, ∀ y ∈ ids, x = y) := by
  simp only [qsorted_iff]
  constructor
  · intro h
    have hno : noFolderid ∉ ids := fun hmem => by
      obtain ⟨sorted, hs, hnot⟩ := exists_perm_of_mem hmem
      exact hnot (h sorted hs)
    refine ⟨hno, or_iff_not_imp_left.2 fun htwice x hx y hy => ?_⟩
    by_contra hxy
    obtain ⟨sorted, hs, hnot⟩ := exists_perm_of_twice hno htwice hx hy hxy
    exact hnot (h sorted hs)
  · rintro ⟨hno, hnodup | hsame⟩ sorted hs
    · rw [psyncDiffRefreshThread, refreshFrom_of_nodup (nodup_cons.2
        ⟨fun hmem => hno (hs.subset hmem), hs.nodup_iff.2 hnodup⟩)]
      exact ⟨hs.nodup_iff.2 hnodup, fun x => hs.mem_iff⟩
    · cases sorted with
      | nil =>
        obtain rfl := nil_perm.1 hs
        exact ⟨.nil, fun _ => Iff.rfl⟩
      | cons a rest =>
        have ha : a ∈ ids := hs.subset mem_cons_self
        have hrest : ∀ y ∈ rest, y = a := fun y hy =>
          hsame y (hs.subset (mem_cons_of_mem _ hy)) a ha
        have hrun := refreshFrom_append hrest []
        rw [append_nil] at hrun
        have hne : a ≠ noFolderid := fun h => hno (h ▸ ha)
        rw [psyncDiffRefreshThread, refreshFrom, if_pos hne, hrun]
        refine ⟨nodup_singleton a, fun x => mem_singleton.trans
          ⟨?_, fun hx => hsame x hx a ha⟩⟩
        rintro rfl
        exact ha

/-- `qsort` leaves the ids `1, 2, 1` as they are, and the folder `1` is refreshed twice. -/
theorem refreshed_twice : Qsorted cmpFolderid 4096 [1, 2, 1] [1, 2, 1] ∧
    psyncDiffRefreshThread [1, 2, 1] = [1, 2, 1] ∧
    ¬ RefreshedOnce [1, 2, 1] (psyncDiffRefreshThread [1, 2, 1]) := by
  refine ⟨qsorted_iff.2 (.refl _), by decide, fun h => ?_⟩
  exact absurd h.1 (by decide)

end Pclsync.Diff.RefreshFolders
