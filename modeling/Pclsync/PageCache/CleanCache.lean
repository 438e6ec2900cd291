import Mathlib.Data.List.Nodup
import Mathlib.Data.List.Perm.Subperm
import Pclsync.PageCache.PqSort

/-!
# Cleaning the page cache

`clean_cache` (`ppagecache.c`) reads the read pages of the `pagecache` table in batches, sets seven
shares of them aside one after the other, each with a partial sort of what the ones before left
over, and frees the rest.

* `readEntries_eq`: however the reading is cut into batches, it returns the read pages.
* `Cleaned`: what the function is for: shares of given sizes are kept in a given order of
  preference, each of what is left, and exactly the rest is freed.
* `exists_cleanCache`: this is what it does if the pages are classified as first pages by their last
  use as they would be by their page id (the entries are filled from the column of the last use),
  and if ids and times are small enough for the comparisons; `not_cleaned` is a table where a first
  page is freed.
-/

namespace Pclsync.PageCache.CleanCache

open Partitioning PartialSort List

/-! ## The table -/

/-- `PAGE_TYPE_FREE`. -/
def pageTypeFree : UInt64 := 0

/-- `PAGE_TYPE_READ`. -/
def pageTypeRead : UInt64 := 1

/-- A row of `pagecache`. -/
structure Row where
  id : UInt64
  hash : Option UInt64
  pageid : Option UInt64
  type : UInt64
  lastuse : UInt64
  usecnt : UInt64
  crc : Option UInt64
deriving DecidableEq

/-- A row that is set free. -/
def Row.free (r : Row) : Row :=
  { r with type := pageTypeFree, hash := none, pageid := none, crc := none }

/-- The table `pagecache`, by its primary key, which is assigned from 1 on. -/
structure Table where
  rows : List Row
  sorted : rows.Pairwise fun r r' => r.id < r'.id
  positive : ∀ r ∈ rows, 0 < r.id

/-- The table and `free_db_pages`. -/
structure State where
  table : Table
  freeDbPages : UInt32

/-! ## The code -/

/-- `pagecache_entry`. -/
structure Entry where
  lastuse : UInt32
  id : UInt32
  usecnt : UInt16
  isfirst : Bool
  isxfirst : Bool
deriving DecidableEq

/-- The conversion of a 64-bit value to `int`. -/
def toInt (d : ℤ) : ℤ := d.bmod 4294967296

/-- `pagecache_entry_cmp_lastuse`. -/
def cmpLastuse (e₁ e₂ : Entry) : ℤ := toInt ((e₂.lastuse.toNat : ℤ) - (e₁.lastuse.toNat : ℤ))

/-- The common shape of `pagecache_entry_cmp_usecnt_lastuse2` to `..16`. -/
def cmpUsecntLastuse (n : UInt16) (e₁ e₂ : Entry) : ℤ :=
  if n ≤ e₁.usecnt ∧ e₂.usecnt < n then -1
  else if n ≤ e₂.usecnt ∧ e₁.usecnt < n then 1
  else cmpLastuse e₁ e₂

/-- `pagecache_entry_cmp_usecnt_lastuse2`. -/
def cmpUsecntLastuse2 : Entry → Entry → ℤ := cmpUsecntLastuse 2

/-- `pagecache_entry_cmp_usecnt_lastuse4`. -/
def cmpUsecntLastuse4 : Entry → Entry → ℤ := cmpUsecntLastuse 4

/-- `pagecache_entry_cmp_usecnt_lastuse8`. -/
def cmpUsecntLastuse8 : Entry → Entry → ℤ := cmpUsecntLastuse 8

/-- `pagecache_entry_cmp_usecnt_lastuse16`. -/
def cmpUsecntLastuse16 : Entry → Entry → ℤ := cmpUsecntLastuse 16

/-- `pagecache_entry_cmp_id`. -/
def cmpId (e₁ e₂ : Entry) : ℤ := toInt (toInt (e₁.id.toNat : ℤ) - toInt (e₂.id.toNat : ℤ))

/-- `pagecache_entry_cmp_xfirst_pages`. -/
def cmpXfirstPages (e₁ e₂ : Entry) : ℤ :=
  if (e₂.isxfirst.toInt : ℤ) - e₁.isxfirst.toInt ≠ 0 then e₂.isxfirst.toInt - e₁.isxfirst.toInt
  else cmpLastuse e₁ e₂

/-- `pagecache_entry_cmp_first_pages`. -/
def cmpFirstPages (e₁ e₂ : Entry) : ℤ :=
  if (e₂.isfirst.toInt : ℤ) - e₁.isfirst.toInt ≠ 0 then e₂.isfirst.toInt - e₁.isfirst.toInt
  else if e₁.isfirst then cmpLastuse e₁ e₂
  else if (e₂.isxfirst.toInt : ℤ) - e₁.isxfirst.toInt ≠ 0 then
    e₂.isxfirst.toInt - e₁.isxfirst.toInt
  else cmpLastuse e₁ e₂

/-- `compar(e₁, e₂)<0`. -/
def before (cmp : Entry → Entry → ℤ) (e₁ e₂ : Entry) : Bool := decide (cmp e₁ e₂ < 0)

/-- `PSYNC_FS_FIRST_PAGES_UNDER_ID`. -/
def firstPagesUnderId : UInt64 := 128 * 1024 / 4096

/-- `PSYNC_FS_XFIRST_PAGES_UNDER_ID`. -/
def xfirstPagesUnderId : UInt64 := 1024 * 1024 / 4096

/-- The entry for a row `id, pageid, lastuse, usecnt, type`; whether it is a first page is taken
    from `row[2]`. -/
def toEntry (r : Row) : Entry where
  lastuse := r.lastuse.toUInt32
  id := r.id.toUInt32
  usecnt := if 65535 < r.usecnt then 65535 else r.usecnt.toUInt16
  isfirst := r.lastuse < firstPagesUnderId
  isxfirst := r.lastuse < xfirstPagesUnderId

/-- `SELECT .. FROM pagecache WHERE id>? ORDER BY id LIMIT 50000`. -/
def selectBatch (rows : List Row) (e : UInt64) : List Row :=
  (rows.filter fun r => e < r.id).take 50000

/-- The inner loop over the rows of a batch; `waiters` says for which of them other threads wait for
    the database. -/
def readBatch (waiters : UInt64 → Bool) (cnt : ℕ) :
    List Row → List Entry → UInt64 → List Entry × UInt64
  | [], entries, e => (entries, e)
  | r :: rows, entries, e =>
    if cnt ≤ entries.length then (entries, e)
    else if r.type = pageTypeRead then
      if (entries ++ [toEntry r]).length &&& 1023 = 1023 ∧ waiters r.id = true then
        (entries ++ [toEntry r], r.id)
      else readBatch waiters cnt rows (entries ++ [toEntry r]) r.id
    else readBatch waiters cnt rows entries r.id

/-- The loop over the batches, at most `n` of them. -/
def readEntries (waiters : UInt64 → Bool) (cnt : ℕ) (rows : List Row) :
    ℕ → List Entry → UInt64 → Option (List Entry)
  | 0, _, _ => none
  | n + 1, entries, e =>
    if entries.length < cnt then
      if (selectBatch rows e).isEmpty then some entries
      else
        readEntries waiters cnt rows n
          (readBatch waiters cnt (selectBatch rows e) entries e).1
          (readBatch waiters cnt (selectBatch rows e) entries e).2
    else some entries

/-- What is left over after the share which comes first by `cmp`. -/
def keepShare (rnd : List ℕ → ℕ) (cmp : Entry → Entry → ℤ) (rcnt : ℕ) (entries : List Entry) :
    Option (List Entry) :=
  (psyncQpartition (before cmp) rnd entries rcnt).map fun entries => entries.drop rcnt

/-- What is left over after several shares. -/
def keepShares (rnd : List ℕ → ℕ) : List (ℕ × (Entry → Entry → ℤ)) → List Entry →
    Option (List Entry)
  | [], entries => some entries
  | share :: shares, entries =>
    (keepShare (fun path => rnd (shares.length :: path)) share.2 share.1 entries).bind
      (keepShares rnd shares)

/-- `PSYNC_FS_CACHE_LRU_FIRST_PAGES_PERCENT` of `n` entries. -/
def firstPages (n : ℕ) : ℕ := 15 * n / 100

/-- `PSYNC_FS_CACHE_LRU_XFIRST_PAGES_PERCENT` of `n` entries. -/
def xfirstPages (n : ℕ) : ℕ := 5 * n / 100

/-- The entries after these, of `n`. -/
def afterFirstPages (n : ℕ) : ℕ := n - firstPages n - xfirstPages n

/-- The seven shares of `n` entries. -/
def shares (n : ℕ) : List (ℕ × (Entry → Entry → ℤ)) :=
  [(firstPages n, cmpFirstPages), (xfirstPages n, cmpXfirstPages),
    (40 * afterFirstPages n / 100, cmpLastuse), (20 * afterFirstPages n / 100, cmpUsecntLastuse2),
    (15 * afterFirstPages n / 100, cmpUsecntLastuse4),
    (10 * afterFirstPages n / 100, cmpUsecntLastuse8),
    (5 * afterFirstPages n / 100, cmpUsecntLastuse16)]

/-- `UPDATE pagecache SET type=.., hash=NULL, pageid=NULL, crc=NULL WHERE id=?`. -/
def Table.freeRow (t : Table) (id : UInt64) : Table where
  rows := t.rows.map fun r => if r.id = id then r.free else r
  sorted := by
    rw [pairwise_map]
    refine t.sorted.imp fun {r r'} h => ?_
    split <;> split <;> exact h
  positive := by
    rintro r hr
    obtain ⟨r', hr', rfl⟩ := mem_map.1 hr
    split <;> exact t.positive r' hr'

/-- One round of the loop which frees pages. -/
def freeEntry (s : State) (e : Entry) : State :=
  { table := s.table.freeRow e.id.toUInt64, freeDbPages := s.freeDbPages + 1 }

/-- `SELECT MAX(id) FROM pagecache`. -/
def Table.maxId (t : Table) : UInt64 := t.rows.foldl (fun m r => max m r.id) 0

/-- `clean_cache`, once it has its mutex. -/
def cleanCache (rnd : List ℕ → ℕ) (waiters : UInt64 → Bool) (s : State) : Option State :=
  if s.table.maxId = 0 then some s
  else
    (readEntries waiters s.table.maxId.toNat s.table.rows (s.table.rows.length + 1) [] 0).bind
      fun entries => (keepShares rnd (shares entries.length) entries).bind fun left =>
        (psyncPqsort (before cmpId) rnd left left.length).map fun left => left.foldl freeEntry s

/-! ## What is to be kept -/

/-- The read pages. -/
def Table.readRows (t : Table) : List Row := t.rows.filter fun r => r.type = pageTypeRead

/-- Used more recently. -/
def Recent (b a : Row) : Prop := a.lastuse < b.lastuse

/-- Rows with a property come first, and rows which are alike in it are compared further. -/
def Prefers (p : Row → Prop) (next : Row → Row → Prop) (b a : Row) : Prop :=
  (p b ∧ ¬ p a) ∨ ((p b ↔ p a) ∧ next b a)

/-- The page id is below the limit of the first pages. -/
def IsFirst (r : Row) : Prop := r.pageid.getD 0 < firstPagesUnderId

/-- The page id is below the limit of the extended first pages. -/
def IsXfirst (r : Row) : Prop := r.pageid.getD 0 < xfirstPagesUnderId

instance : DecidablePred IsFirst := fun _ => inferInstanceAs (Decidable (_ < _))

instance : DecidablePred IsXfirst := fun _ => inferInstanceAs (Decidable (_ < _))

/-- The page was used at least `n` times. -/
def UsedAtLeast (n : UInt64) (r : Row) : Prop := n ≤ r.usecnt

/-- `k` of the pages are kept, and no page that is left over is better than one of them. -/
structure Keep (better : Row → Row → Prop) (k : ℕ) (rows kept left : List Row) : Prop where
  perm : (kept ++ left).Perm rows
  length : kept.length = k
  best : ∀ a ∈ kept, ∀ b ∈ left, ¬ better b a

/-- Shares are kept one after the other, each of what is left over from the ones before. -/
inductive KeepAll : List (ℕ × (Row → Row → Prop)) → List Row → List Row → Prop
  | nil {rows : List Row} : KeepAll [] rows rows
  | cons {better : Row → Row → Prop} {k : ℕ} {rows kept left freed : List Row}
      {rest : List (ℕ × (Row → Row → Prop))} : Keep better k rows kept left →
      KeepAll rest left freed → KeepAll ((k, better) :: rest) rows freed

/-- The shares of `n` read pages: first pages, extended first pages, recently used pages and pages
    used at least 2, 4, 8 and 16 times, the most recently used ones of each kind before others. -/
def sharesOf (n : ℕ) : List (ℕ × (Row → Row → Prop)) :=
  [(firstPages n, Prefers IsFirst (Prefers IsXfirst Recent)),
    (xfirstPages n, Prefers IsXfirst Recent), (40 * afterFirstPages n / 100, Recent),
    (20 * afterFirstPages n / 100, Prefers (UsedAtLeast 2) Recent),
    (15 * afterFirstPages n / 100, Prefers (UsedAtLeast 4) Recent),
    (10 * afterFirstPages n / 100, Prefers (UsedAtLeast 8) Recent),
    (5 * afterFirstPages n / 100, Prefers (UsedAtLeast 16) Recent)]

/-- The pages left over are freed, each once, and counted, and the other rows stay as they are. -/
def Cleaned (s s' : State) : Prop :=
  ∃ freed, KeepAll (sharesOf s.table.readRows.length) s.table.readRows freed ∧
    (freed.map Row.id).Nodup ∧
    s'.table.rows = s.table.rows.map (fun r => if r ∈ freed then r.free else r) ∧
    s'.freeDbPages = s.freeDbPages + UInt32.ofNat freed.length

/-! ## Reading the entries -/

variable {rows done todo : List Row} {e : UInt64} {cnt : ℕ} {waiters : UInt64 → Bool}
  {entries : List Entry} {t : Table}

/-- Rows with ascending ids above `k` before a row. -/
theorem length_lt_id {k : ℕ} {r : Row} (hs : (done ++ [r]).Pairwise fun r r' => r.id < r'.id)
    (hk : ∀ r' ∈ done ++ [r], k < r'.id.toNat) : k + done.length < r.id.toNat := by
  induction done generalizing k with
  | nil => exact hk r mem_cons_self
  | cons r' done ih =>
    obtain ⟨hlt, hs⟩ := pairwise_cons.1 hs
    have hr' := hk r' mem_cons_self
    have hrest := ih (k := k + 1) hs fun r'' hr'' => by
      have := UInt64.lt_iff_toNat_lt.1 (hlt r'' hr'')
      omega
    rw [length_cons]
    omega

/-- The entries of the read pages among some rows. -/
def entriesOf (rows : List Row) : List Entry :=
  (rows.filter fun r => r.type = pageTypeRead).map toEntry

theorem entriesOf_append (rows rows' : List Row) :
    entriesOf (rows ++ rows') = entriesOf rows ++ entriesOf rows' := by
  rw [entriesOf, filter_append, map_append]
  rfl

theorem entriesOf_singleton (r : Row) :
    entriesOf [r] = if r.type = pageTypeRead then [toEntry r] else [] := by
  by_cases h : r.type = pageTypeRead <;> simp [entriesOf, h]

variable (rows) in
theorem length_entriesOf_le : (entriesOf rows).length ≤ rows.length := by
  rw [entriesOf, length_map]
  exact length_filter_le _ _

/-- The rows up to `e` are read, and the others are to be read. -/
structure Reading (rows done todo : List Row) (e : UInt64) : Prop where
  rows : rows = done ++ todo
  done : ∀ r ∈ done, r.id ≤ e
  todo : ∀ r ∈ todo, e < r.id

theorem Reading.select (h : Reading rows done todo e) : (rows.filter fun r => e < r.id) = todo := by
  rw [h.rows, filter_append, filter_eq_nil_iff.2, nil_append, filter_eq_self.2]
  · exact fun r hr => decide_eq_true (h.todo r hr)
  · exact fun r hr hlt => absurd (UInt64.lt_iff_toNat_lt.1 (of_decide_eq_true hlt))
      (Nat.not_lt_of_le (UInt64.le_iff_toNat_le.1 (h.done r hr)))

theorem Reading.next {r : Row} (hs : rows.Pairwise fun r r' => r.id < r'.id)
    (h : Reading rows done (r :: todo) e) : Reading rows (done ++ [r]) todo r.id where
  rows := by rw [h.rows, append_assoc, singleton_append]
  done := fun r' hr' => by
    have her := h.todo r mem_cons_self
    rcases mem_append.1 hr' with hr' | hr'
    · exact UInt64.le_of_lt (UInt64.lt_of_le_of_lt (h.done r' hr') her)
    · rw [mem_singleton.1 hr']
      exact UInt64.le_refl _
  todo := fun r' hr' => by
    rw [h.rows] at hs
    exact (pairwise_cons.1 (pairwise_append.1 hs).2.1).1 r' hr'

/-- The entries never fill the memory for them while there are rows to be read. -/
theorem Reading.room {r : Row} (hs : t.rows.Pairwise fun r r' => r.id < r'.id)
    (hmax : ∀ r ∈ t.rows, r.id.toNat ≤ cnt) (h : Reading t.rows done (r :: todo) e) :
    (entriesOf done).length < cnt := by
  have hrows : t.rows = done ++ [r] ++ todo := by
    rw [h.rows, append_assoc, singleton_append]
  have hmem : ∀ r' ∈ done ++ [r], r' ∈ t.rows := fun r' hr' => by
    rw [hrows]
    exact mem_append_left _ hr'
  have hlt := length_lt_id (k := 0) (pairwise_append.1 (hrows ▸ hs)).1 fun r' hr' =>
    UInt64.lt_iff_toNat_lt.1 (t.positive r' (hmem r' hr'))
  have hle := hmax r (hmem r (mem_append_right _ (mem_singleton_self r)))
  have := length_entriesOf_le done
  omega

variable (waiters) in
theorem exists_readBatch {batch more : List Row} (hmax : ∀ r ∈ t.rows, r.id.toNat ≤ cnt)
    (h : Reading t.rows done (batch ++ more) e) :
    ∃ done' todo' e', readBatch waiters cnt batch (entriesOf done) e = (entriesOf done', e') ∧
      Reading t.rows done' todo' e' ∧ todo'.length ≤ (batch ++ more).length ∧
      (batch ≠ [] → todo'.length < (batch ++ more).length) := by
  induction batch generalizing done e with
  | nil => exact ⟨done, more, e, rfl, h, Nat.le_refl _, fun hne => absurd rfl hne⟩
  | cons r batch ih =>
    have hnext := h.next t.sorted
    have hlen : (r :: batch ++ more).length = (batch ++ more).length + 1 := rfl
    obtain ⟨done', todo', e', hread, hreading, hle, _⟩ := ih hnext
    rw [readBatch, if_neg (Nat.not_le_of_lt (h.room t.sorted hmax))]
    by_cases htype : r.type = pageTypeRead
    · have happend : entriesOf done ++ [toEntry r] = entriesOf (done ++ [r]) := by
        rw [entriesOf_append, entriesOf_singleton, if_pos htype]
      rw [if_pos htype, happend]
      split
      · exact ⟨done ++ [r], batch ++ more, r.id, rfl, hnext, by omega, fun _ => by omega⟩
      · exact ⟨done', todo', e', hread, hreading, by omega, fun _ => by omega⟩
    · have happend : entriesOf (done ++ [r]) = entriesOf done := by
        rw [entriesOf_append, entriesOf_singleton, if_neg htype, append_nil]
      rw [if_neg htype, ← happend]
      exact ⟨done', todo', e', hread, hreading, by omega, fun _ => by omega⟩

theorem readEntries_of_reading (hmax : ∀ r ∈ t.rows, r.id.toNat ≤ cnt) {n : ℕ}
    (h : Reading t.rows done todo e) (hn : todo.length < n) :
    readEntries waiters cnt t.rows n (entriesOf done) e = some (entriesOf t.rows) := by
  induction n generalizing done todo e with
  | zero => omega
  | succ n ih =>
    have hselect : selectBatch t.rows e = todo.take 50000 := by rw [selectBatch, h.select]
    have hend : todo = [] → entriesOf done = entriesOf t.rows := by
      rintro rfl
      rw [h.rows, append_nil]
    rw [readEntries, hselect]
    split
    · rename_i hroom
      split
      · rename_i hempty
        have htake := isEmpty_iff.1 hempty
        rw [hend]
        by_contra hne
        have hlen := congrArg List.length htake
        rw [length_take, length_nil] at hlen
        have hpos := length_pos_iff.2 hne
        omega
      · rename_i hbatch
        have hne : todo.take 50000 ≠ [] := fun h => hbatch (isEmpty_iff.2 h)
        have hsplit : Reading t.rows done (todo.take 50000 ++ todo.drop 50000) e := by
          rwa [take_append_drop]
        obtain ⟨done', todo', e', hread, hreading, _, hlt⟩ := exists_readBatch waiters hmax hsplit
        rw [hread]
        have hlt := hlt hne
        rw [take_append_drop] at hlt
        exact ih hreading (by omega)
    · rename_i hfull
      rw [hend]
      by_contra hne
      obtain ⟨_, todo, rfl⟩ := exists_cons_of_ne_nil hne
      exact hfull (h.room t.sorted hmax)

/-- The entries of the read pages are read, in whatever batches. -/
theorem readEntries_eq (hmax : ∀ r ∈ t.rows, r.id.toNat ≤ cnt) :
    readEntries waiters cnt t.rows (t.rows.length + 1) [] 0 = some (t.readRows.map toEntry) := by
  have h : Reading t.rows [] t.rows 0 :=
    ⟨rfl, forall_mem_nil _, t.positive⟩
  exact readEntries_of_reading hmax h (Nat.lt_succ_self _)

/-! ## The comparisons -/

/-- The ids and the times of the pages are small enough to be compared as they are, and, unless no
    first pages are reserved, the last use classifies every page as its page id does. -/
structure Fits (t : Table) : Prop where
  id : ∀ r ∈ t.readRows, r.id.toNat < 2147483648
  lastuse : ∀ r ∈ t.readRows, r.lastuse.toNat < 4294967296
  near : ∀ r ∈ t.readRows, ∀ r' ∈ t.readRows, r.lastuse.toNat < r'.lastuse.toNat + 2147483648
  first : firstPages t.readRows.length = 0 ∨ ∀ r ∈ t.readRows,
    (r.lastuse < firstPagesUnderId ↔ IsFirst r) ∧ (r.lastuse < xfirstPagesUnderId ↔ IsXfirst r)

/-- Less recently used entries have larger ranks. -/
def lastuseRank (e : Entry) : ℕ := 4294967295 - e.lastuse.toNat

/-- Entries with a property have smaller ranks than others, in which they are compared further. -/
def preferRank (bound : ℕ) (p : Entry → Bool) (rank : Entry → ℕ) (e : Entry) : ℕ :=
  if p e then rank e else bound + rank e

/-- The last uses of two entries can be compared. -/
def Near (e₁ e₂ : Entry) : Prop :=
  e₁.lastuse.toNat < e₂.lastuse.toNat + 2147483648 ∧
    e₂.lastuse.toNat < e₁.lastuse.toNat + 2147483648

theorem toInt_lt_zero {d : ℤ} (h : -2147483648 < d) (h' : d < 2147483648) :
    toInt d < 0 ↔ d < 0 := by
  rw [toInt, Int.bmod_eq_of_le_mul_two (by omega) (by omega)]

theorem before_cmpLastuse {e₁ e₂ : Entry} (h : Near e₁ e₂) :
    before cmpLastuse e₁ e₂ = true ↔ lastuseRank e₁ < lastuseRank e₂ := by
  have h1 := e₁.lastuse.toNat_lt
  have h2 := e₂.lastuse.toNat_lt
  obtain ⟨hn, hn'⟩ := h
  rw [before, decide_eq_true_iff, cmpLastuse, toInt_lt_zero (by omega) (by omega), lastuseRank,
    lastuseRank]
  omega

theorem lastuseRank_lt (e : Entry) : lastuseRank e < 4294967296 := by
  rw [lastuseRank]
  omega

/-- Comparing by a property first, and among entries which are alike in it by `next`. -/
theorem lt_preferRank {p : Entry → Bool} {rank : Entry → ℕ} {bound : ℕ} {e₁ e₂ : Entry}
    {cmp next : Entry → Entry → ℤ}
    (hcmp : cmp e₁ e₂ < 0 ↔ (p e₁ = true ∧ p e₂ = false) ∨ (p e₁ = p e₂ ∧ next e₁ e₂ < 0))
    (hnext : before next e₁ e₂ = true ↔ rank e₁ < rank e₂) (h1 : rank e₁ < bound)
    (h2 : rank e₂ < bound) :
    before cmp e₁ e₂ = true ↔ preferRank bound p rank e₁ < preferRank bound p rank e₂ := by
  rw [before, decide_eq_true_iff] at hnext ⊢
  rw [hcmp, hnext, preferRank, preferRank]
  cases p e₁ <;> cases p e₂ <;> simp <;> omega

theorem cmpUsecntLastuse_lt (n : UInt16) (e₁ e₂ : Entry) : cmpUsecntLastuse n e₁ e₂ < 0 ↔
      (decide (n ≤ e₁.usecnt) = true ∧ decide (n ≤ e₂.usecnt) = false) ∨
        (decide (n ≤ e₁.usecnt) = decide (n ≤ e₂.usecnt) ∧ cmpLastuse e₁ e₂ < 0) := by
  rw [cmpUsecntLastuse]
  by_cases h1 : n ≤ e₁.usecnt <;> by_cases h2 : n ≤ e₂.usecnt <;>
    simp [h1, h2, ← UInt16.not_le]

theorem cmpXfirstPages_lt (e₁ e₂ : Entry) :
    cmpXfirstPages e₁ e₂ < 0 ↔ (e₁.isxfirst = true ∧ e₂.isxfirst = false) ∨
      (e₁.isxfirst = e₂.isxfirst ∧ cmpLastuse e₁ e₂ < 0) := by
  rw [cmpXfirstPages]
  cases e₁.isxfirst <;> cases e₂.isxfirst <;> simp

/-- First pages are extended first pages, among which only the last use matters. -/
theorem cmpFirstPages_lt {e₁ e₂ : Entry} (h1 : e₁.isfirst = true → e₁.isxfirst = true)
    (h2 : e₂.isfirst = true → e₂.isxfirst = true) :
    cmpFirstPages e₁ e₂ < 0 ↔ (e₁.isfirst = true ∧ e₂.isfirst = false) ∨
      (e₁.isfirst = e₂.isfirst ∧ cmpXfirstPages e₁ e₂ < 0) := by
  rw [cmpFirstPages, cmpXfirstPages]
  cases hf1 : e₁.isfirst <;> cases hf2 : e₂.isfirst
  · simp
  · simp
  · simp
  · rw [h1 hf1, h2 hf2]
    simp

/-! ## Keeping the shares -/

/-- A comparison of entries is by ranks, and `better` rows, where this matters, have smaller
    ones. -/
structure Matches (rows : List Row) (k : ℕ) (cmp : Entry → Entry → ℤ) (better : Row → Row → Prop)
    (rank : Entry → ℕ) (bound : ℕ) : Prop where
  bounded : ∀ e, rank e < bound
  order : ∀ r ∈ rows, ∀ r' ∈ rows,
    before cmp (toEntry r) (toEntry r') = true ↔ rank (toEntry r) < rank (toEntry r')
  better : k ≠ 0 → ∀ r ∈ rows, ∀ r' ∈ rows, better r r' → rank (toEntry r) < rank (toEntry r')

variable {all : List Row} {k : ℕ} {cmp : Entry → Entry → ℤ} {better : Row → Row → Prop}
  {rnd : List ℕ → ℕ} {rank : Entry → ℕ} {bound : ℕ}

variable (rnd) in
theorem exists_keepShare (h : Matches all k cmp better rank bound) (hsub : ∀ r ∈ rows, r ∈ all)
    (hk : k < rows.length ∨ k = 0) :
    ∃ kept left, keepShare rnd cmp k (rows.map toEntry) = some (left.map toEntry) ∧
      Keep better k rows kept left := by
  have hranks : Ranks (before cmp) rank (rows.map toEntry) := by
    rintro x hx y hy
    obtain ⟨r, hr, rfl⟩ := mem_map.1 hx
    obtain ⟨r', hr', rfl⟩ := mem_map.1 hy
    exact h.order r (hsub r hr) r' (hsub r' hr')
  obtain ⟨b, hb, hperm, hsplit⟩ := exists_psyncQpartition k rnd hranks
    (by rw [length_map]; omega)
  obtain ⟨rows', hperm', rfl⟩ := exists_perm_of_map hperm
  have hlen := hperm'.length_eq
  refine ⟨rows'.take k, rows'.drop k, ?_, ?_, ?_, fun r hr r' hr' hrr' => ?_⟩
  · rw [keepShare, hb, Option.map_some, map_drop]
  · rwa [take_append_drop]
  · rw [length_take]
    omega
  · obtain ⟨i, hi⟩ := getElem?_of_mem hr
    obtain ⟨j, hj⟩ := getElem?_of_mem hr'
    have hik : i < k := by
      by_contra hge
      rw [getElem?_take, if_neg hge] at hi
      cases hi
    rw [getElem?_take_of_lt hik] at hi
    rw [getElem?_drop] at hj
    have hle := hsplit (by rw [length_map]; omega) i (k + j) (toEntry r) (toEntry r') hik
      (by omega) (by rw [getElem?_map, hi]; rfl) (by rw [getElem?_map, hj]; rfl)
    have hlt := h.better (by omega) r' (hsub r' (hperm'.mem_iff.1 (mem_of_mem_drop hr'))) r
      (hsub r (hperm'.mem_iff.1 (mem_of_mem_take hr))) hrr'
    omega

/-- The shares of the code are the ones to be kept. -/
inductive AllMatch (all : List Row) : List (ℕ × (Entry → Entry → ℤ)) →
    List (ℕ × (Row → Row → Prop)) → Prop
  | nil : AllMatch all [] []
  | cons {k : ℕ} {cmp : Entry → Entry → ℤ} {better : Row → Row → Prop}
      {rest : List (ℕ × (Entry → Entry → ℤ))} {rest' : List (ℕ × (Row → Row → Prop))}
      {rank : Entry → ℕ} {bound : ℕ} : Matches all k cmp better rank bound →
      AllMatch all rest rest' → AllMatch all ((k, cmp) :: rest) ((k, better) :: rest')

variable (rnd) in
theorem exists_keepShares {shares : List (ℕ × (Entry → Entry → ℤ))}
    {wanted : List (ℕ × (Row → Row → Prop))} (h : AllMatch all shares wanted)
    (hsub : ∀ r ∈ rows, r ∈ all)
    (hsum : (shares.map Prod.fst).sum < rows.length ∨ (shares.map Prod.fst).sum = 0) :
    ∃ left, keepShares rnd shares (rows.map toEntry) = some (left.map toEntry) ∧
      KeepAll wanted rows left := by
  induction h generalizing rows with
  | nil => exact ⟨rows, rfl, .nil⟩
  | @cons k cmp better rest rest' rank bound hm _ ih =>
    rw [map_cons, sum_cons] at hsum
    obtain ⟨kept, left, hkeep, hk⟩ := exists_keepShare
      (fun path => rnd (rest.length :: path)) hm hsub (by omega)
    have hlen := hk.perm.length_eq
    have hkl := hk.length
    rw [length_append] at hlen
    have hsub' : ∀ r ∈ left, r ∈ all := fun r hr =>
      hsub r (hk.perm.mem_iff.1 (mem_append_right _ hr))
    obtain ⟨freed, hfreed, hall⟩ := ih hsub' (by omega)
    refine ⟨freed, ?_, .cons hk hall⟩
    exact (congrArg (·.bind (keepShares rnd rest)) hkeep).trans hfreed

/-! ## The comparisons of the code -/

theorem Matches.prefer {p : Entry → Bool} {P : Row → Prop} {cmp' : Entry → Entry → ℤ}
    (h : Matches rows k cmp better rank bound)
    (hp : k ≠ 0 → ∀ r ∈ rows, p (toEntry r) = true ↔ P r)
    (hcmp : ∀ r ∈ rows, ∀ r' ∈ rows, cmp' (toEntry r) (toEntry r') < 0 ↔
      (p (toEntry r) = true ∧ p (toEntry r') = false) ∨
        (p (toEntry r) = p (toEntry r') ∧ cmp (toEntry r) (toEntry r') < 0)) :
    Matches rows k cmp' (Prefers P better) (preferRank bound p rank) (bound + bound) where
  bounded := fun e => by
    have := h.bounded e
    rw [preferRank]
    split <;> omega
  order := fun r hr r' hr' =>
    lt_preferRank (hcmp r hr r' hr') (h.order r hr r' hr') (h.bounded _) (h.bounded _)
  better := fun hk r hr r' hr' hb => by
    have hpr := hp hk r hr
    have hpr' := hp hk r' hr'
    have hlt := h.bounded (toEntry r)
    rcases hb with ⟨hP, hP'⟩ | ⟨hiff, hb⟩
    · rw [preferRank, preferRank, if_pos (hpr.2 hP), if_neg fun hc => hP' (hpr'.1 hc)]
      omega
    · have hnext := h.better hk r hr r' hr' hb
      rw [preferRank, preferRank]
      by_cases hc : p (toEntry r) = true
      · rw [if_pos hc, if_pos (hpr'.2 (hiff.1 (hpr.1 hc)))]
        exact hnext
      · rw [if_neg hc, if_neg fun hc' => hc (hpr.2 (hiff.2 (hpr'.1 hc')))]
        omega

namespace Fits

theorem toNat_lastuse (h : Fits t) {r : Row} (hr : r ∈ t.readRows) :
    (toEntry r).lastuse.toNat = r.lastuse.toNat := by
  rw [toEntry, UInt64.toNat_toUInt32]
  exact Nat.mod_eq_of_lt (h.lastuse r hr)

theorem matches_lastuse (h : Fits t) (k : ℕ) :
    Matches t.readRows k cmpLastuse Recent lastuseRank 4294967296 where
  bounded := lastuseRank_lt
  order := fun r hr r' hr' => before_cmpLastuse (by
    rw [Near, h.toNat_lastuse hr, h.toNat_lastuse hr']
    exact ⟨h.near r hr r' hr', h.near r' hr' r hr⟩)
  better := fun _ r hr r' hr' hb => by
    have hlt : r'.lastuse.toNat < r.lastuse.toNat := UInt64.lt_iff_toNat_lt.1 hb
    have hmax := h.lastuse r hr
    rw [lastuseRank, lastuseRank, h.toNat_lastuse hr, h.toNat_lastuse hr']
    omega

theorem matches_usecnt (h : Fits t) (k : ℕ) (n : UInt16) :
    Matches t.readRows k (cmpUsecntLastuse n) (Prefers (UsedAtLeast n.toUInt64) Recent)
      (preferRank 4294967296 (fun e => n ≤ e.usecnt) lastuseRank) (4294967296 + 4294967296) :=
  (h.matches_lastuse k).prefer (fun _ r _ => by
    have hn := n.toNat_lt
    rw [decide_eq_true_iff, UsedAtLeast, toEntry, UInt16.le_iff_toNat_le, UInt64.le_iff_toNat_le,
      UInt16.toNat_toUInt64]
    split
    · rename_i hbig
      have hbig : 65535 < r.usecnt.toNat := UInt64.lt_iff_toNat_lt.1 hbig
      rw [show (65535 : UInt16).toNat = 65535 from rfl]
      omega
    · rename_i hsmall
      have hsmall : r.usecnt.toNat ≤ 65535 := UInt64.le_iff_toNat_le.1 (UInt64.not_lt.1 hsmall)
      rw [UInt64.toNat_toUInt16, Nat.mod_eq_of_lt (by omega)])
    fun _ _ _ _ => cmpUsecntLastuse_lt n _ _

theorem matches_xfirst (h : Fits t) (hk : k ≠ 0 → firstPages t.readRows.length ≠ 0) :
    Matches t.readRows k cmpXfirstPages (Prefers IsXfirst Recent)
      (preferRank 4294967296 Entry.isxfirst lastuseRank) (4294967296 + 4294967296) :=
  (h.matches_lastuse k).prefer
    (fun hne r hr => decide_eq_true_iff.trans (h.first.resolve_left (hk hne) r hr).2)
    fun _ _ _ _ => cmpXfirstPages_lt _ _

theorem matches_first (h : Fits t) (hk : k ≠ 0 → firstPages t.readRows.length ≠ 0) :
    Matches t.readRows k cmpFirstPages (Prefers IsFirst (Prefers IsXfirst Recent))
      (preferRank (4294967296 + 4294967296) Entry.isfirst
        (preferRank 4294967296 Entry.isxfirst lastuseRank))
      (4294967296 + 4294967296 + (4294967296 + 4294967296)) := by
  have hsub : ∀ r : Row, (toEntry r).isfirst = true → (toEntry r).isxfirst = true := fun r hr =>
    decide_eq_true (UInt64.lt_trans (of_decide_eq_true hr) (by decide))
  exact (h.matches_xfirst hk).prefer
    (fun hne r hr => decide_eq_true_iff.trans (h.first.resolve_left (hk hne) r hr).1)
    fun r _ r' _ => cmpFirstPages_lt (hsub r) (hsub r')

theorem allMatch (h : Fits t) :
    AllMatch t.readRows (shares t.readRows.length) (sharesOf t.readRows.length) := by
  have hx : xfirstPages t.readRows.length ≠ 0 → firstPages t.readRows.length ≠ 0 := by
    rw [xfirstPages, firstPages]
    omega
  exact .cons (h.matches_first fun hne => hne) (.cons (h.matches_xfirst hx)
    (.cons (h.matches_lastuse _) (.cons (h.matches_usecnt _ 2) (.cons (h.matches_usecnt _ 4)
      (.cons (h.matches_usecnt _ 8) (.cons (h.matches_usecnt _ 16) .nil))))))

end Fits

theorem sum_shares (n : ℕ) :
    ((shares n).map Prod.fst).sum < n ∨ ((shares n).map Prod.fst).sum = 0 := by
  simp only [shares, map_cons, map_nil, sum_cons, sum_nil, firstPages, xfirstPages, afterFirstPages]
  omega

/-! ## Freeing the rest -/

theorem foldl_freeEntry (left : List Entry) (s : State) :
    (left.foldl freeEntry s).table.rows = s.table.rows.map (fun r =>
        if r.id ∈ left.map fun e => e.id.toUInt64 then r.free else r) ∧
      (left.foldl freeEntry s).freeDbPages = s.freeDbPages + UInt32.ofNat left.length := by
  induction left generalizing s with
  | nil =>
    refine ⟨?_, (UInt32.add_zero _).symm⟩
    exact (map_id s.table.rows).symm.trans
      (map_congr_left fun r _ => (if_neg not_mem_nil).symm)
  | cons e left ih =>
    obtain ⟨hrows, hfree⟩ := ih (freeEntry s e)
    rw [foldl_cons]
    refine ⟨hrows.trans ?_, hfree.trans ?_⟩
    · rw [freeEntry, Table.freeRow, map_map]
      refine map_congr_left fun r _ => ?_
      rw [map_cons, Function.comp_apply]
      by_cases hid : r.id = e.id.toUInt64
      · rw [if_pos hid, if_pos (mem_cons.2 (.inl hid))]
        exact ite_self _
      · rw [if_neg hid]
        by_cases hmem : r.id ∈ left.map fun e => e.id.toUInt64
        · rw [if_pos hmem, if_pos (mem_cons_of_mem _ hmem)]
        · rw [if_neg hmem, if_neg fun hc => (mem_cons.1 hc).elim hid hmem]
    · rw [freeEntry, length_cons, UInt32.ofNat_add, UInt32.add_assoc, UInt32.add_comm 1]
      rfl

theorem KeepAll.exists_kept {wanted : List (ℕ × (Row → Row → Prop))} {freed : List Row}
    (h : KeepAll wanted rows freed) : ∃ kept, (kept ++ freed).Perm rows := by
  induction h with
  | nil => exact ⟨[], .refl _⟩
  | @cons _ _ _ kept _ _ _ hk _ ih =>
    obtain ⟨kept', hperm⟩ := ih
    refine ⟨kept ++ kept', ?_⟩
    rw [append_assoc]
    exact (hperm.append_left kept).trans hk.perm

theorem nodup_ids (t : Table) : (t.rows.map Row.id).Nodup :=
  pairwise_map.2 (t.sorted.imp fun h => UInt64.ne_of_lt h)

/-- There are not more read pages than ids. -/
theorem Fits.length_le (h : Fits t) : t.readRows.length ≤ 2147483648 := by
  have hread : t.readRows.Sublist t.rows := filter_sublist
  have hnodup : (t.readRows.map fun r => r.id.toNat).Nodup := by
    refine pairwise_map.2 ((t.sorted.sublist hread).imp fun hlt => ?_)
    exact Nat.ne_of_lt (UInt64.lt_iff_toNat_lt.1 hlt)
  have hsub : (t.readRows.map fun r => r.id.toNat) ⊆ range 2147483648 := fun n hn => by
    obtain ⟨r, hr, rfl⟩ := mem_map.1 hn
    exact mem_range.2 (h.id r hr)
  simpa using (hnodup.subperm hsub).length_le

theorem le_max_uint64 (m n : UInt64) : m ≤ max m n ∧ n ≤ max m n := by
  rw [show max m n = if m ≤ n then n else m from rfl]
  split
  · rename_i hle
    exact ⟨hle, UInt64.le_refl n⟩
  · rename_i hlt
    exact ⟨UInt64.le_refl m, UInt64.le_of_lt (UInt64.not_le.1 hlt)⟩

theorem le_maxId {r : Row} (hr : r ∈ t.rows) : r.id ≤ t.maxId := by
  have hgen : ∀ (rows : List Row) (m : UInt64), m ≤ rows.foldl (fun m r => max m r.id) m ∧
      ∀ r ∈ rows, r.id ≤ rows.foldl (fun m r => max m r.id) m := by
    intro rows
    induction rows with
    | nil => exact fun m => ⟨UInt64.le_refl m, forall_mem_nil _⟩
    | cons r rows ih =>
      intro m
      obtain ⟨hm, hall⟩ := ih (max m r.id)
      refine ⟨UInt64.le_trans (le_max_uint64 m r.id).1 hm, fun r' hr' => ?_⟩
      rcases mem_cons.1 hr' with rfl | hr'
      · exact UInt64.le_trans (le_max_uint64 m r'.id).2 hm
      · exact hall r' hr'
  exact (hgen t.rows 0).2 r hr

/-- Without a row there is nothing to keep and nothing to free. -/
theorem cleaned_of_empty {s : State} (h : s.table.rows = []) : Cleaned s s := by
  have hread : s.table.readRows = [] := by rw [Table.readRows, h, filter_nil]
  have hkeep : ∀ better, Keep better 0 [] [] [] := fun _ =>
    ⟨.refl _, rfl, forall_mem_nil _⟩
  refine ⟨[], ?_, nodup_nil, by rw [h, map_nil], (UInt32.add_zero _).symm⟩
  rw [hread]
  exact .cons (hkeep _) (.cons (hkeep _) (.cons (hkeep _) (.cons (hkeep _) (.cons (hkeep _)
    (.cons (hkeep _) (.cons (hkeep _) .nil))))))

theorem ranks_cmpId {left : List Row} (h : ∀ r ∈ left, r.id.toNat < 2147483648) :
    Ranks (before cmpId) (fun e => e.id.toNat) (left.map toEntry) := by
  have hid : ∀ r ∈ left, (toEntry r).id.toNat < 2147483648 := fun r hr => by
    rw [toEntry, UInt64.toNat_toUInt32, Nat.mod_eq_of_lt (Nat.lt_trans (h r hr) (by decide))]
    exact h r hr
  have hint : ∀ n : ℕ, n < 2147483648 → toInt n = n := fun n hn => by
    rw [toInt, Int.bmod_eq_of_le_mul_two (by omega) (by omega)]
  rintro x hx y hy
  obtain ⟨r, hr, rfl⟩ := mem_map.1 hx
  obtain ⟨r', hr', rfl⟩ := mem_map.1 hy
  have hlt := hid r hr
  have hlt' := hid r' hr'
  rw [before, decide_eq_true_iff, cmpId, hint _ hlt, hint _ hlt',
    toInt_lt_zero (by omega) (by omega)]
  show (_ : ℤ) < 0 ↔ (toEntry r).id.toNat < (toEntry r').id.toNat
  omega

/-- `clean_cache` returns and frees exactly what is left over from the shares. -/
theorem exists_cleanCache (rnd : List ℕ → ℕ) (waiters : UInt64 → Bool) (s : State)
    (h : Fits s.table) : ∃ s', cleanCache rnd waiters s = some s' ∧ Cleaned s s' := by
  rw [cleanCache]
  split
  · rename_i hmax
    refine ⟨s, rfl, cleaned_of_empty (eq_nil_iff_forall_not_mem.2 fun r hr => ?_)⟩
    have hle := le_maxId hr
    rw [hmax] at hle
    exact absurd (UInt64.lt_iff_toNat_lt.1 (s.table.positive r hr))
      (Nat.not_lt_of_le (UInt64.le_iff_toNat_le.1 hle))
  · have hread : readEntries waiters s.table.maxId.toNat s.table.rows
        (s.table.rows.length + 1) [] 0 = some (s.table.readRows.map toEntry) :=
      readEntries_eq fun r hr => UInt64.le_iff_toNat_le.1 (le_maxId hr)
    obtain ⟨freed, hfreed, hkeep⟩ := exists_keepShares rnd h.allMatch
      (fun r hr => hr) (sum_shares _)
    obtain ⟨kept, hkept⟩ := hkeep.exists_kept
    have hmem : ∀ r ∈ freed, r ∈ s.table.readRows := fun r hr =>
      hkept.mem_iff.1 (mem_append_right _ hr)
    have hlen : (freed.map toEntry).length < 2 ^ 59 := by
      have hle := hkept.length_eq
      have hrows := h.length_le
      rw [length_append] at hle
      rw [length_map]
      omega
    obtain ⟨sorted, hsorted, hperm⟩ := PqSort.exists_partialSort rnd
      (ranks_cmpId fun r hr => h.id r (hmem r hr)) hlen
    rw [hread, Option.bind_some, length_map, hfreed, Option.bind_some, hsorted, Option.map_some]
    obtain ⟨hrows, hcount⟩ := foldl_freeEntry sorted s
    have hread : s.table.readRows.Sublist s.table.rows := filter_sublist
    have hnodup := nodup_ids s.table
    -- the ids of the entries are those of the rows
    have hid : ∀ r ∈ freed, (toEntry r).id.toUInt64 = r.id := fun r hr => by
      apply UInt64.toNat_inj.1
      rw [UInt32.toNat_toUInt64, toEntry, UInt64.toNat_toUInt32,
        Nat.mod_eq_of_lt (Nat.lt_trans (h.id r (hmem r hr)) (by decide))]
    refine ⟨_, rfl, freed, hkeep, ?_, hrows.trans (map_congr_left fun r hr => ?_), ?_⟩
    · have hkn := ((hkept.map Row.id).nodup_iff.2 ((hread.map Row.id).nodup hnodup))
      rw [map_append] at hkn
      exact (nodup_append.1 hkn).2.1
    · have hiff : (r.id ∈ sorted.map fun e => e.id.toUInt64) ↔ r ∈ freed := by
        rw [mem_map]
        refine ⟨fun ⟨e, he, heq⟩ => ?_, fun hf => ⟨toEntry r, ?_, hid r hf⟩⟩
        · obtain ⟨r', hr', rfl⟩ := mem_map.1 (hperm.mem_iff.1 he)
          rw [hid r' hr'] at heq
          rwa [← inj_on_of_nodup_map hnodup (hread.subset (hmem r' hr')) hr heq]
        · exact hperm.mem_iff.2 (mem_map_of_mem hf)
      by_cases hf : r ∈ freed
      · rw [if_pos (hiff.2 hf), if_pos hf]
      · rw [if_neg fun hc => hf (hiff.1 hc), if_neg hf]
    · rw [hcount, hperm.length_eq, length_map]

/-- A read page of file 1 which was used once. -/
def page (id pageid lastuse : UInt64) : Row :=
  ⟨id, some 1, some pageid, pageTypeRead, lastuse, 1, some 0⟩

/-- Seven pages, none of them a first page. -/
def later : Table where
  rows := [page 1 301 2001, page 2 302 2002, page 3 303 2003, page 4 304 2004, page 5 305 2005,
    page 6 306 2006, page 7 307 2007]
  sorted := by decide
  positive := by decide

theorem exists_cleanCache_later : Fits later ∧ ∃ s',
    cleanCache (fun _ => 0) (fun _ => false) ⟨later, 0⟩ = some s' ∧ Cleaned ⟨later, 0⟩ s' := by
  have hfits : Fits later :=
    { id := by decide
      lastuse := by decide
      near := by decide
      first := by decide }
  exact ⟨hfits, exists_cleanCache (fun _ => 0) (fun _ => false) ⟨later, 0⟩ hfits⟩

/-- Seven pages, of which the first page of the file was used least recently. -/
def ageing : Table where
  rows := [page 1 0 1000, page 2 302 2002, page 3 303 2003, page 4 304 2004, page 5 305 2005,
    page 6 306 2006, page 7 307 2007]
  sorted := by decide
  positive := by decide

set_option maxRecDepth 4000 in
/-- The first page is freed, although one first page is to be kept. -/
theorem not_cleaned : ¬ ∃ s', cleanCache (fun _ => 0) (fun _ => false) ⟨ageing, 0⟩ = some s' ∧
    Cleaned ⟨ageing, 0⟩ s' := by
  rintro ⟨s', hs', freed, hkeep, _, hrows, _⟩
  have htypes : (cleanCache (fun _ => 0) (fun _ => false) ⟨ageing, 0⟩).map
      (fun s => s.table.rows.map Row.type) = some [0, 0, 0, 1, 1, 1, 1] := by decide
  rw [hs', Option.map_some, hrows, map_map] at htypes
  have hhead := (List.cons.inj (Option.some.inj htypes)).1
  have hfreed : page 1 0 1000 ∈ freed := by
    by_contra hni
    rw [Function.comp_apply, if_neg hni] at hhead
    cases hhead
  -- the share of one first page
  have hread : (Table.readRows ageing) = ageing.rows := by decide
  obtain @⟨⟩ | @⟨_, _, _, kept, left, _, _, hk, hrest⟩ := hkeep
  obtain ⟨kept', hperm⟩ := hrest.exists_kept
  have hleft : page 1 0 1000 ∈ left := hperm.mem_iff.1 (mem_append_right _ hfreed)
  obtain ⟨a, rfl⟩ := length_eq_one_iff.1 hk.length
  have ha : a ∈ ageing.rows := by
    rw [← hread]
    exact hk.perm.mem_iff.1 (mem_append_left _ (mem_singleton_self a))
  have hne : page 1 0 1000 ≠ a := by
    rintro rfl
    have hnodup : ((page 1 0 1000 :: left).map Row.id).Nodup := by
      have hlist : ((page 1 0 1000 :: left).map Row.id).Perm (ageing.rows.map Row.id) :=
        hread ▸ hk.perm.map Row.id
      rw [hlist.nodup_iff]
      decide
    exact (nodup_cons.1 hnodup).1 (mem_map_of_mem hleft)
  refine hk.best a (mem_singleton_self a) _ hleft (.inl ⟨by decide, ?_⟩)
  -- every other page is far into the file
  have hfar : ∀ r ∈ ageing.rows, page 1 0 1000 ≠ r → ¬ IsFirst r := by decide
  exact hfar a ha hne

end Pclsync.PageCache.CleanCache
