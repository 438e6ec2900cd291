import Pclsync.Diff.Changes

/-!
# The table of files

`FileTable` relates `file` and the used quota to the files of the server: a row about which no event
comes later is that of the server, and the used quota is what the rows of the files of the server
have together.

* `FileTable.change`: one row changes, and the used quota by the difference.
* `FileTable.put`, `without`: a file is created or modified, or deleted.
-/

namespace Pclsync.Diff

open Sql Sql.Table Option

/-- The table has the files `l`, but for those which events are about; `q` is what its rows
    count. -/
structure FileTable (env : Env) (l : List File) (about : ℕ → Prop) (rows : List File)
    (q : UInt64) : Prop where
  keyed : Keyed File.id rows
  same : ∀ k, ¬ about k → lookup File.id rows k = lookup File.id l k
  used_quota : q = total (counted env l) rows

namespace FileTable

variable {env : Env} {l l' : List File} {about about' : ℕ → Prop} {rows rows' : List File}
  {q q' : UInt64} {row : File} {k x : ℕ}

theorem weaken (h : FileTable env l about rows q) (habout : ∀ k, about k → about' k) :
    FileTable env l about' rows q :=
  { h with same := fun k hk => h.same k (mt (habout k) hk) }

/-- The rows with other keys are the same. -/
theorem lookup_of_without (hrows : Table.without File.id rows' x = Table.without File.id rows x)
    (hk : k ≠ x) : lookup File.id rows' k = lookup File.id rows k := by
  have h := congrArg (fun l => lookup File.id l k) hrows
  rwa [lookup_without, lookup_without, if_neg hk, if_neg hk] at h

/-- One file changes, and the used quota by the difference of what its row counts. -/
theorem change (h : FileTable env l about rows q) (hkeyed : Keyed File.id rows')
    (hrows : Table.without File.id rows' x = Table.without File.id rows x)
    (hl : ∀ k, k ≠ x → lookup File.id l' k = lookup File.id l k)
    (habout : ∀ k, k ≠ x → ¬ about' k → ¬ about k)
    (hx : ¬ about' x → lookup File.id rows' x = lookup File.id l' x)
    (hq : q' = q - weight File.id (counted env l) rows x +
      weight File.id (counted env l') rows' x) :
    FileTable env l' about' rows' q' where
  keyed := hkeyed
  same k hk := by
    by_cases hkx : k = x
    · exact hkx ▸ hx (hkx ▸ hk)
    · rw [lookup_of_without hrows hkx, hl k hkx]
      exact h.same k (habout k hkx hk)
  used_quota := by
    have hothers : total (counted env l') (Table.without File.id rows x) =
        total (counted env l) (Table.without File.id rows x) := by
      refine total_congr fun r hr => ?_
      have hne : r.id ≠ x := by simpa [Table.without] using (List.mem_filter.1 hr).2
      unfold counted
      rw [hl r.id hne]
    rw [hq, h.used_quota, hkeyed.total_eq _ x, h.keyed.total_eq _ x, hrows, hothers]
    grind

/-- What is not in the tree does not count. -/
theorem weight_of_none (h : lookup File.id l x = none) :
    weight File.id (counted env l) rows x = 0 := by
  unfold weight
  rcases hrow : lookup File.id rows x with _ | row
  · rfl
  · have hid := key_of_lookup hrow
    rw [elim_some, counted, hid, h]
    rfl

/-- What is in the tree counts its own bytes. -/
theorem weight_of_some {f : File} (h : lookup File.id l x = some f) :
    weight File.id (counted env l) rows x = weight File.id (Remote.own env) rows x := by
  unfold weight
  rcases hrow : lookup File.id rows x with _ | row
  · rfl
  · have hid := key_of_lookup hrow
    rw [elim_some, counted, hid, h]
    rfl

/-! ## Files that are put -/

theorem lookup_putFile : lookup File.id (Remote.putFile row rows) k =
      if k = row.id then some row else lookup File.id rows k := by
  unfold Remote.putFile
  split
  · rename_i hsome
    obtain ⟨old, hold⟩ := isSome_iff_exists.1 hsome
    have hkey : ∀ r : File, r.id = row.id → row.id = row.id := fun _ _ => rfl
    unfold Remote.updateFile
    rw [lookup_update hkey, hold]
    rfl
  · rename_i hnone
    have hinsert : Remote.insertFile row rows = rows ++ [row] := if_neg hnone
    rw [Bool.not_eq_true, isSome_eq_false_iff, isNone_iff_eq_none] at hnone
    rw [hinsert, lookup_append hnone]

theorem keyed_insertFile (h : Keyed File.id rows) : Keyed File.id (Remote.insertFile row rows) := by
  unfold Remote.insertFile
  split
  · exact h
  · rename_i hnone
    rw [Bool.not_eq_true, isSome_eq_false_iff, isNone_iff_eq_none] at hnone
    exact h.append hnone

theorem keyed_putFile (h : Keyed File.id rows) : Keyed File.id (Remote.putFile row rows) := by
  unfold Remote.putFile
  split
  · exact h.update fun _ _ => rfl
  · exact keyed_insertFile h

theorem without_insertFile : Table.without File.id (Remote.insertFile row rows) row.id =
      Table.without File.id rows row.id := by
  unfold Remote.insertFile
  split
  · rfl
  · exact without_append rfl

theorem without_putFile : Table.without File.id (Remote.putFile row rows) row.id =
      Table.without File.id rows row.id := by
  unfold Remote.putFile
  split
  · exact without_update fun _ _ => rfl
  · exact without_insertFile

theorem weight_putFile (g : File → UInt64) :
    weight File.id g (Remote.putFile row rows) row.id = g row := by
  rw [weight, lookup_putFile, if_pos rfl, elim_some]

section

variable (h : FileTable env l about rows q)
include h

theorem put
    (hl : ∀ k, lookup File.id l' k = if k = row.id then some row else lookup File.id l k)
    (habout : ∀ k, k ≠ row.id → ¬ about' k → ¬ about k)
    (hq : q' = q - weight File.id (counted env l) rows row.id + Remote.own env row) :
    FileTable env l' about' (Remote.putFile row rows) q' := by
  refine h.change (keyed_putFile h.keyed) without_putFile
    (fun k hk => (hl k).trans (if_neg hk)) habout (fun _ => ?_) ?_
  · rw [lookup_putFile, hl, if_pos rfl, if_pos rfl]
  · rw [weight_putFile, hq, counted, hl, if_pos rfl]
    rfl

theorem enter (hrow : about row.id)
    (hq : q' = q - weight File.id (counted env l) rows row.id + counted env l row) :
    FileTable env l about (Remote.putFile row rows) q' :=
  h.change (keyed_putFile h.keyed) without_putFile (fun _ _ => rfl) (fun _ _ h => h)
    (fun hn => absurd hrow hn) (by rw [weight_putFile, hq])

theorem insert (hrow : about row.id)
    (hcounted : (lookup File.id rows row.id).isSome ∨ counted env l row = 0) :
    FileTable env l about (Remote.insertFile row rows) q := by
  refine h.change (keyed_insertFile h.keyed) without_insertFile (fun _ _ => rfl) (fun _ _ h => h)
    (fun hn => absurd hrow hn) ?_
  unfold Remote.insertFile
  split
  · grind
  · rename_i hnone
    rw [Bool.not_eq_true, isSome_eq_false_iff, isNone_iff_eq_none] at hnone
    have hzero : counted env l row = 0 := hcounted.resolve_left (by simp [hnone])
    rw [weight, weight, lookup_append hnone, if_pos rfl, hnone, elim_none, elim_some, hzero]
    grind

/-! ## Files that are deleted -/

/-- A file is deleted, in the tree too or not. -/
theorem without (x : ℕ) (hl : ∀ k, k ≠ x → lookup File.id l' k = lookup File.id l k)
    (habout : ∀ k, k ≠ x → ¬ about' k → ¬ about k)
    (hx : ¬ about' x → lookup File.id l' x = none)
    (hq : q' = q - weight File.id (counted env l) rows x) :
    FileTable env l' about' (Table.without File.id rows x) q' := by
  have hnone : lookup File.id (Table.without File.id rows x) x = none := by
    rw [lookup_without, if_pos rfl]
  refine h.change (h.keyed.without x) without_without hl habout (fun hn => ?_) ?_
  · rw [hnone, hx hn]
  · rw [hq, weight, weight, hnone, elim_none]
    grind

end

/-! ## Files that are replaced -/

theorem keyed_dropFile (h : Keyed File.id l) (y : Option ℕ) :
    Keyed File.id (Remote.dropFile y l) := by
  cases y with
  | none => exact h
  | some y => exact h.without y

theorem lookup_dropFile {y : Option ℕ} :
    lookup File.id (Remote.dropFile y l) k = if y = some k then none else lookup File.id l k := by
  cases y with
  | none => rfl
  | some y =>
    refine lookup_without.trans ?_
    by_cases hk : k = y
    · rw [if_pos hk, if_pos (congrArg some hk.symm)]
    · rw [if_neg hk, if_neg fun h => hk (some.inj h).symm]

theorem weight_dropFile {y : Option ℕ} (hy : y ≠ some x) (g : File → UInt64) :
    weight File.id g (Remote.dropFile y rows) x = weight File.id g rows x := by
  rw [weight, lookup_dropFile, if_neg hy, weight]

/-- A file is replaced in the tree and in the table. -/
theorem dropFile (h : FileTable env l about rows q) (y : Option ℕ)
    (hy : ∀ id ∈ y, weight File.id (counted env l) rows id = 0) :
    FileTable env (Remote.dropFile y l) (fun k => about k ∧ y ≠ some k)
      (Remote.dropFile y rows) q := by
  cases y with
  | none => exact h.weaken fun k hk => ⟨hk, fun h => by cases h⟩
  | some y =>
    refine h.without y (fun k hk => lookup_without.trans (if_neg hk))
      (fun k hk hn habout => hn ⟨habout, fun h => hk (some.inj h).symm⟩)
      (fun _ => lookup_without.trans (if_pos rfl)) ?_
    rw [hy y rfl, UInt64.sub_zero]

/-- A file is replaced in the table, and an event says so. -/
theorem dropRow (h : FileTable env l about rows q) (y : Option ℕ)
    (hy : ∀ id ∈ y, weight File.id (counted env l) rows id = 0) (habout : ∀ id ∈ y, about id) :
    FileTable env l about (Remote.dropFile y rows) q := by
  cases y with
  | none => exact h
  | some y =>
    refine h.without y (fun _ _ => rfl) (fun _ _ h => h) (fun hn => absurd (habout y rfl) hn) ?_
    rw [hy y rfl, UInt64.sub_zero]

end FileTable

end Pclsync.Diff
