import Pclsync.Diff.Changes

/-!
# The table of folders

`FolderTable` relates `folder` to the folders of the server: those are there, with their numbers of
subfolders, and other rows are of folders whose events come later. What the statements do to the
table is said for lookups, and what they do to the relation is said for each of the changes.

* `FolderTable.putFolder`, `updateFolder`, `without` and `addSubdircnt`: the parts of the events.
* `FolderTable.insertFolder`: a folder that is entered before its event.
* `Tree.subfolders_append`, `subfolders_update`, `subfolders_without`: the numbers of subfolders
  after a change of the tree.
-/

namespace Pclsync.Diff

open Sql Sql.Table Option

/-- A folder without its time of modification, which also changes with its subfolders. -/
def Folder.timeless (f : Folder) : Folder := { f with mtime := 0 }

/-- The table has the folders `l`, and others which are entered early; `n` are their numbers of
    subfolders. -/
structure FolderTable (l : List Folder) (early : ℕ → Prop) (n : ℕ → ℤ) (rows : List FolderRow) :
    Prop where
  keyed : Keyed FolderRow.key rows
  there : ∀ k f, lookup Folder.id l k = some f →
    ∃ row, lookup FolderRow.key rows k = some row ∧ row.toFolder.timeless = f.timeless
  early : ∀ k, (lookup FolderRow.key rows k).isSome → (lookup Folder.id l k).isSome ∨ early k
  subdircnt : ∀ k row, lookup FolderRow.key rows k = some row → row.subdircnt = n k

namespace FolderTable

variable {l : List Folder} {early early' : ℕ → Prop} {n n' : ℕ → ℤ} {rows : List FolderRow}
  {row : Folder}
  {k id mtime : ℕ} {i : ℤ}

theorem weaken (h : FolderTable l early n rows) (hearly : ∀ k, early k → early' k) :
    FolderTable l early' n rows :=
  { h with early := fun k hk => (h.early k hk).imp_right (hearly k) }

theorem congr (h : FolderTable l early n rows) (hn : ∀ k, n' k = n k) :
    FolderTable l early n' rows :=
  { h with subdircnt := fun k row hrow => (h.subdircnt k row hrow).trans (hn k).symm }

theorem lookup_addSubdircnt : lookup FolderRow.key (Remote.addSubdircnt i mtime id rows) k =
      (lookup FolderRow.key rows k).map fun r =>
        if k = id then { r with mtime := mtime, subdircnt := r.subdircnt + i } else r := by
  have hkey : ∀ r : FolderRow, r.key = id →
      FolderRow.key { r with mtime := mtime, subdircnt := r.subdircnt + i } = id := fun _ h => h
  unfold Remote.addSubdircnt
  rw [lookup_update hkey]
  by_cases hk : k = id
  · simp only [hk, if_true]
  · simp only [hk, if_false, map_id']

theorem addSubdircnt (h : FolderTable l early n rows)
    (hn : ∀ k, n' k = n k + if k = id then i else 0) :
    FolderTable l early n' (Remote.addSubdircnt i mtime id rows) where
  keyed := h.keyed.update fun _ h => h
  there k f hf := by
    obtain ⟨row, hrow, hsame⟩ := h.there k f hf
    refine ⟨_, lookup_addSubdircnt.trans (congrArg _ hrow), ?_⟩
    dsimp only
    split
    · exact hsame
    · exact hsame
  early k hk := by
    rw [lookup_addSubdircnt, isSome_map] at hk
    exact h.early k hk
  subdircnt k row hrow := by
    rw [lookup_addSubdircnt] at hrow
    obtain ⟨old, hold, rfl⟩ := map_eq_some_iff.1 hrow
    rw [hn]
    split
    · exact congrArg (· + i) (h.subdircnt k old hold)
    · rw [add_zero]
      exact h.subdircnt k old hold

theorem lookup_updateFolder : lookup FolderRow.key (Remote.updateFolder row rows) k =
      if k = row.id then (lookup FolderRow.key rows row.id).map fun r =>
        { row with subdircnt := r.subdircnt }
      else lookup FolderRow.key rows k :=
  lookup_update fun _ _ => rfl

theorem updateFolder (h : FolderTable l early n rows) (hrow : (lookup Folder.id l row.id).isSome) :
    FolderTable (update Folder.id l row.id fun _ => row) early n
      (Remote.updateFolder row rows) where
  keyed := h.keyed.update fun _ _ => rfl
  there k f hf := by
    rw [lookup_update fun _ _ => rfl] at hf
    rw [lookup_updateFolder]
    split at hf
    · rename_i hk
      obtain ⟨old, hold, rfl⟩ := map_eq_some_iff.1 hf
      obtain ⟨r, hr, -⟩ := h.there _ _ hold
      rw [if_pos hk, hr]
      exact ⟨_, rfl, rfl⟩
    · rename_i hk
      rw [if_neg hk]
      exact h.there k f hf
  early k hk := by
    rw [lookup_update fun _ _ => rfl]
    rw [lookup_updateFolder] at hk
    split
    · rw [isSome_map]
      exact .inl hrow
    · rename_i hne
      rw [if_neg hne] at hk
      exact h.early k hk
  subdircnt k r hr := by
    rw [lookup_updateFolder] at hr
    split at hr
    · rename_i hk
      obtain ⟨old, hold, rfl⟩ := map_eq_some_iff.1 hr
      exact hk ▸ h.subdircnt _ old hold
    · exact h.subdircnt k r hr

/-- A folder without subfolders is inserted, unless it is there; it is early, or one of the
    folders. -/
theorem insertFolder (h : FolderTable l early n rows)
    (hn : lookup Folder.id l row.id = none → n row.id = 0) (hrow : early row.id) :
    FolderTable l early n (Remote.insertFolder row rows) := by
  unfold Remote.insertFolder
  split
  · exact h
  · rename_i hnone
    rw [Bool.not_eq_true, isSome_eq_false_iff, isNone_iff_eq_none] at hnone
    have hlookup : ∀ k, lookup FolderRow.key
        (rows ++ [{ row with subdircnt := (0 : ℤ) }]) k =
          if k = row.id then some { row with subdircnt := (0 : ℤ) }
          else lookup FolderRow.key rows k := fun k => lookup_append hnone
    refine ⟨h.keyed.append hnone, fun k f hf => ?_, fun k hk => ?_, fun k r hr => ?_⟩
    · obtain ⟨r, hr, hsame⟩ := h.there k f hf
      rw [hlookup]
      split
      · rename_i hk
        rw [hk, hnone] at hr
        cases hr
      · exact ⟨r, hr, hsame⟩
    · rw [hlookup] at hk
      split at hk
      · rename_i hid
        exact .inr (hid ▸ hrow)
      · exact h.early k hk
    · rw [hlookup] at hr
      split at hr
      · rename_i hk
        obtain ⟨⟩ := hr
        refine (hk ▸ hn ?_).symm
        refine eq_none_iff_forall_ne_some.2 fun f hf => ?_
        obtain ⟨r, hr, -⟩ := h.there _ f hf
        rw [hnone] at hr
        cases hr
      · exact h.subdircnt k r hr

theorem lookup_putFolder : lookup FolderRow.key (Remote.putFolder row rows) k = if k = row.id then
        some { row with subdircnt := (lookup FolderRow.key rows row.id).elim 0 FolderRow.subdircnt }
      else lookup FolderRow.key rows k := by
  unfold Remote.putFolder
  split
  · rename_i hsome
    obtain ⟨old, hold⟩ := isSome_iff_exists.1 hsome
    rw [lookup_updateFolder, hold]
    rfl
  · rename_i hnone
    have hinsert : Remote.insertFolder row rows = rows ++ [{ row with subdircnt := 0 }] :=
      if_neg hnone
    rw [Bool.not_eq_true, isSome_eq_false_iff, isNone_iff_eq_none] at hnone
    have happend : lookup FolderRow.key (rows ++ [{ row with subdircnt := (0 : ℤ) }]) k =
        if k = row.id then some { row with subdircnt := (0 : ℤ) }
        else lookup FolderRow.key rows k := lookup_append hnone
    rw [hinsert, happend, hnone]
    rfl

theorem keyed_putFolder (h : Keyed FolderRow.key rows) :
    Keyed FolderRow.key (Remote.putFolder row rows) := by
  unfold Remote.putFolder
  split
  · exact h.update fun _ _ => rfl
  · rename_i hnone
    unfold Remote.insertFolder
    rw [if_neg hnone]
    rw [Bool.not_eq_true, isSome_eq_false_iff, isNone_iff_eq_none] at hnone
    exact h.append hnone

/-- A folder without subfolders is created. -/
theorem putFolder (h : FolderTable l (fun k => k = row.id ∨ early k) n rows)
    (hn : n row.id = 0) (hrow : lookup Folder.id l row.id = none) :
    FolderTable (l ++ [row]) early n (Remote.putFolder row rows) where
  keyed := keyed_putFolder h.keyed
  there k f hf := by
    rw [lookup_append hrow] at hf
    rw [lookup_putFolder]
    split at hf
    · rename_i hk
      obtain ⟨⟩ := hf
      exact ⟨_, if_pos hk, rfl⟩
    · rename_i hk
      rw [if_neg hk]
      exact h.there k f hf
  early k hk := by
    rw [lookup_append hrow]
    rw [lookup_putFolder] at hk
    split
    · exact .inl rfl
    · rename_i hne
      rw [if_neg hne] at hk
      exact (h.early k hk).imp id fun h => h.resolve_left hne
  subdircnt k r hr := by
    rw [lookup_putFolder] at hr
    split at hr
    · rename_i hk
      obtain ⟨⟩ := hr
      rcases hold : lookup FolderRow.key rows row.id with _ | old
      · exact (hk ▸ hn).symm
      · exact hk ▸ h.subdircnt _ old hold
    · exact h.subdircnt k r hr

theorem without (h : FolderTable l early n rows) (id : ℕ) :
    FolderTable (Table.without Folder.id l id) early n (Table.without FolderRow.key rows id) where
  keyed := h.keyed.without id
  there k f hf := by
    rw [lookup_without] at hf ⊢
    split at hf
    · cases hf
    · rename_i hk
      rw [if_neg hk]
      exact h.there k f hf
  early k hk := by
    rw [lookup_without] at hk ⊢
    split at hk
    · cases hk
    · rename_i hne
      rw [if_neg hne]
      exact h.early k hk
  subdircnt k r hr := by
    rw [lookup_without] at hr
    split at hr
    · cases hr
    · exact h.subdircnt k r hr

end FolderTable

/-! ## The numbers of subfolders -/

namespace Tree

variable {l : List Folder} {f row : Folder} {k id : ℕ}

theorem subfolders_append :
    subfolders (l ++ [f]) k = subfolders l k + if k = f.parentfolderid then 1 else 0 := total_append

theorem subfolders_without (hl : Keyed Folder.id l) (hf : lookup Folder.id l id = some f) :
    subfolders (Table.without Folder.id l id) k =
      subfolders l k + if k = f.parentfolderid then -1 else 0 := by
  unfold subfolders
  rw [hl.total_eq _ id, weight, hf, elim_some]
  split <;> omega

theorem subfolders_update (hl : Keyed Folder.id l) (hf : lookup Folder.id l row.id = some f) :
    subfolders (update Folder.id l row.id fun _ => row) k =
      subfolders l k + (if k = f.parentfolderid then -1 else 0) +
        if k = row.parentfolderid then 1 else 0 := by
  have hkey : ∀ r : Folder, r.id = row.id → row.id = row.id := fun _ _ => rfl
  have hnew : lookup Folder.id (update Folder.id l row.id fun _ => row) row.id = some row := by
    rw [lookup_update hkey, if_pos rfl, hf]
    rfl
  unfold subfolders
  rw [(hl.update hkey).total_eq _ row.id, hl.total_eq _ row.id, weight, weight, hf, hnew,
    without_update hkey, elim_some, elim_some]
  split <;> split <;> omega

theorem subfolders_eq_zero (h : ∀ f ∈ l, f.parentfolderid ≠ k) : subfolders l k = 0 := by
  have hzero : subfolders l k = total (fun _ => (0 : ℤ)) l :=
    total_congr fun f hf => if_neg (Ne.symm (h f hf))
  rw [hzero, total]
  simp

end Tree

end Pclsync.Diff
