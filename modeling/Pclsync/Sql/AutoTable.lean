import Pclsync.Sql.Table

/-!
# Tables whose ids are never used again

A table with a primary key that numbers its rows on its own, never using a number again
(`INTEGER PRIMARY KEY AUTOINCREMENT`), and with a unique index: rows differ in their ids and in the
columns of the index. A statement which would break the index changes nothing.

The ids and the columns of the index are functions of the row.
-/

namespace Pclsync.Sql

open List

variable {ρ κ : Type} {ident : ρ → ℕ} {key : ρ → κ}

/-- A table with ids `ident` and a unique index over `key`. -/
structure AutoTable (ident : ρ → ℕ) (key : ρ → κ) where
  rows : List ρ
  /-- Above every id that was ever used. -/
  next : ℕ
  next_pos : 0 < next
  pos : ∀ r ∈ rows, 0 < ident r
  lt_next : ∀ r ∈ rows, ident r < next
  nodup_ident : (rows.map ident).Nodup
  nodup_key : (rows.map key).Nodup

namespace AutoTable

/-- The table without rows. -/
def empty : AutoTable ident key := ⟨[], 1, Nat.one_pos, by simp, by simp, by simp, by simp⟩

/-- `DELETE … WHERE`. -/
def delete (t : AutoTable ident key) (p : ρ → Bool) : AutoTable ident key where
  rows := t.rows.filter fun r => !p r
  next := t.next
  next_pos := t.next_pos
  pos := fun r hr => t.pos r (mem_filter.1 hr).1
  lt_next := fun r hr => t.lt_next r (mem_filter.1 hr).1
  nodup_ident := t.nodup_ident.sublist (filter_sublist.map ident)
  nodup_key := t.nodup_key.sublist (filter_sublist.map key)

/-- The row with an id. -/
def get (t : AutoTable ident key) (n : ℕ) : Option ρ := Table.lookup ident t.rows n

variable {t : AutoTable ident key} {p : ρ → Bool} {r : ρ} {n : ℕ}

/-- Rows with the same columns in the index are the same. -/
theorem eq_of_key {s : ρ} (hr : r ∈ t.rows) (hs : s ∈ t.rows) (h : key r = key s) : r = s :=
  inj_on_of_nodup_map t.nodup_key hr hs h

theorem mem_delete (h : r ∈ (t.delete p).rows) : r ∈ t.rows := (mem_filter.1 h).1

@[simp] theorem next_delete : (t.delete p).next = t.next := rfl

variable [DecidableEq κ]

/-- An id that is not given to a row. -/
def skipId (t : AutoTable ident key) : AutoTable ident key where
  rows := t.rows
  next := t.next + 1
  next_pos := Nat.succ_pos _
  pos := t.pos
  lt_next := fun r hr => Nat.lt_succ_of_lt (t.lt_next r hr)
  nodup_ident := t.nodup_ident
  nodup_key := t.nodup_key

/-- `INSERT OR IGNORE`: the row of a new id is added. Where the index has its columns already, the
id is used up; where `allowed` (a constraint of another kind) forbids it, the statement fails. Gives
the new id. -/
def insertOrIgnore (t : AutoTable ident key) (allowed : Bool) (row : ℕ → ρ)
    (hrow : ∀ n, ident (row n) = n) : AutoTable ident key × Option ℕ :=
  if h : key (row t.next) ∈ t.rows.map key then (t.skipId, none)
  else if allowed then
    ({ rows := t.rows ++ [row t.next]
       next := t.next + 1
       next_pos := Nat.succ_pos _
       pos := fun r hr => (mem_append.1 hr).elim (t.pos r)
         (fun hr => by rw [mem_singleton.1 hr, hrow]; exact t.next_pos)
       lt_next := fun r hr => (mem_append.1 hr).elim
         (fun hr => Nat.lt_succ_of_lt (t.lt_next r hr))
         (fun hr => by rw [mem_singleton.1 hr, hrow]; exact Nat.lt_succ_self _)
       nodup_ident := by
         rw [map_append, map_singleton, hrow]
         refine Nodup.append t.nodup_ident (nodup_singleton _) fun n hn hn' => ?_
         obtain ⟨r, hr, rfl⟩ := mem_map.1 hn
         exact Nat.ne_of_lt (t.lt_next r hr) (mem_singleton.1 hn')
       nodup_key := by
         rw [map_append, map_singleton]
         refine Nodup.append t.nodup_key (nodup_singleton _) fun k hk hk' => ?_
         exact h (mem_singleton.1 hk' ▸ hk) }, some t.next)
  else (t, none)

/-- `UPDATE … WHERE`: the rows that satisfy `p` are changed by `f`, all of them or, where the index
would have the same columns twice, none. -/
def update (t : AutoTable ident key) (p : ρ → Bool) (f : ρ → ρ) (hf : ∀ r, ident (f r) = ident r) :
    AutoTable ident key :=
  if h : ((t.rows.map fun r => if p r then f r else r).map key).Nodup then
    have hident : (t.rows.map fun r => if p r then f r else r).map ident = t.rows.map ident := by
      rw [map_map]
      refine map_congr_left fun r _ => ?_
      dsimp only [Function.comp]
      split
      · exact hf r
      · rfl
    { rows := t.rows.map fun r => if p r then f r else r
      next := t.next
      next_pos := t.next_pos
      pos := fun r hr => by
        obtain ⟨s, hs, rfl⟩ := mem_map.1 hr
        split
        · exact (hf s).symm ▸ t.pos s hs
        · exact t.pos s hs
      lt_next := fun r hr => by
        obtain ⟨s, hs, rfl⟩ := mem_map.1 hr
        split
        · exact (hf s).symm ▸ t.lt_next s hs
        · exact t.lt_next s hs
      nodup_ident := by rw [hident]; exact t.nodup_ident
      nodup_key := h }
  else t

/-! ## What the statements leave -/

variable {allowed : Bool} {row : ℕ → ρ} {hrow : ∀ n, ident (row n) = n} {f : ρ → ρ}
  {hf : ∀ r, ident (f r) = ident r}

theorem mem_insertOrIgnore (h : r ∈ (t.insertOrIgnore allowed row hrow).1.rows) :
    r ∈ t.rows ∨ r = row t.next := by
  unfold insertOrIgnore at h
  split at h
  · exact .inl h
  split at h
  · exact (mem_append.1 h).imp_right mem_singleton.1
  · exact .inl h

theorem insertOrIgnore_some (h : (t.insertOrIgnore allowed row hrow).2 = some n) : n = t.next := by
  unfold insertOrIgnore at h
  split at h
  · cases h
  split at h
  · exact (Option.some.inj h).symm
  · cases h

theorem insertOrIgnore_new (hallowed : allowed) (h : key (row t.next) ∉ t.rows.map key) :
    (t.insertOrIgnore allowed row hrow).2 = some t.next ∧
      (t.insertOrIgnore allowed row hrow).1.rows = t.rows ++ [row t.next] := by
  rw [insertOrIgnore, dif_neg h, if_pos hallowed]
  exact ⟨rfl, rfl⟩

theorem insertOrIgnore_ignored (h : allowed = false ∨ key (row t.next) ∈ t.rows.map key) :
    (t.insertOrIgnore allowed row hrow).2 = none ∧
      (t.insertOrIgnore allowed row hrow).1.rows = t.rows := by
  unfold insertOrIgnore
  split
  · exact ⟨rfl, rfl⟩
  · next hkey =>
    rw [h.resolve_right hkey]
    exact ⟨rfl, rfl⟩

theorem next_le_insertOrIgnore : t.next ≤ (t.insertOrIgnore allowed row hrow).1.next := by
  unfold insertOrIgnore
  split
  · exact Nat.le_succ _
  split
  · exact Nat.le_succ _
  · exact Nat.le_refl _

theorem mem_update (h : r ∈ (t.update p f hf).rows) : r ∈ t.rows ∨ ∃ s ∈ t.rows, p s ∧ r = f s := by
  unfold update at h
  split at h
  · obtain ⟨s, hs, rfl⟩ := mem_map.1 h
    by_cases hp : p s
    · rw [if_pos hp]
      exact .inr ⟨s, hs, hp, rfl⟩
    · rw [if_neg hp]
      exact .inl hs
  · exact .inl h

theorem rows_update (hkey : ∀ r, key (f r) = key r) :
    (t.update p f hf).rows = t.rows.map fun r => if p r then f r else r := by
  have hmap : (t.rows.map fun r => if p r then f r else r).map key = t.rows.map key := by
    rw [map_map]
    refine map_congr_left fun r _ => ?_
    dsimp only [Function.comp]
    split
    · exact hkey r
    · rfl
  rw [update, dif_pos (hmap ▸ t.nodup_key)]

@[simp] theorem next_update : (t.update p f hf).next = t.next := by
  unfold update
  split <;> rfl

end AutoTable

end Pclsync.Sql
