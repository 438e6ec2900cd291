import Pclsync.OpenFile.Basic

/-!
# The page cache

Pages of the files on the server are cached in memory, and in a file of pages with a table in the
database. A page is found by the hash of its file and its number. A page which no longer has the
checksum it had when it was cached is dropped.

* `Cache`: the pages in memory, in one list for all buckets of the hash table, and those in the
  database. `Cache.checkPageInMemoryByHash` and so on are the functions on them.
* `Cache.PagesOk`: every page holds the bytes of its file. The functions keep it
  (`PagesOk.checkPageInMemoryByHash` and so on).
-/

namespace Pclsync.PageCache

open List

open OpenFile (fill)

abbrev Hash := ℕ

/-- `PSYNC_FS_PAGE_SIZE`. -/
def pageSize : ℕ := 4096

theorem pageSize_pos : 0 < pageSize := by decide

/-- `PAGE_TYPE_READ` and `PAGE_TYPE_CACHE`. -/
inductive PageType
  | read
  | cache
  deriving DecidableEq

/-- `psync_cache_page_t`: the page is a buffer, of which `size` bytes are used. -/
structure Page where
  hash : Hash
  pageid : ℕ
  page : ℕ → UInt8
  size : ℕ
  crc : ℕ
  type : PageType

/-- The first bytes of a buffer. -/
def bytes (buf : ℕ → UInt8) (n : ℕ) : List UInt8 := (List.range n).map buf

def Page.content (p : Page) : List UInt8 := bytes p.page p.size

/-- A page in the table `pagecache`. -/
structure Row where
  id : ℕ
  hash : Hash
  pageid : ℕ
  size : ℕ
  crc : ℕ

structure Cache where
  memory : List Page
  rows : List Row
  readcache : File
  /-- The pages that readers wait for (`wait_page_hash`). -/
  waiting : List (Hash × ℕ)

/-- The bytes that `pread` gives: all of them, or fewer (`some k`), or it fails (`none`). -/
def preadUpTo (f : File) (n off : ℕ) (k : Option ℕ) : Option (List UInt8) :=
  k.map fun k => f.pread (min n k) off

namespace Cache

variable (crc32c : List UInt8 → ℕ) (c : Cache)

/-! ## Functions -/

/-- The loop of `check_page_in_memory_by_hash`: the pages that stay, the buffer, and the number of
    bytes in it. -/
def checkMemoryLoop (hash : Hash) (pageid : ℕ) :
    List Page → (ℕ → UInt8) → ℕ → Option ℕ → List Page × (ℕ → UInt8) × Option ℕ
  | [], buf, _, ret => ([], buf, ret)
  | p :: ps, buf, size, ret =>
    if p.hash = hash ∧ p.pageid = pageid then
      if crc32c p.content ≠ p.crc then (ps, buf, ret)
      else
        let n := if p.size < size then p.size else size
        let r := checkMemoryLoop hash pageid ps (fill buf 0 (bytes p.page n)) n (some n)
        (p :: r.1, r.2)
    else
      let r := checkMemoryLoop hash pageid ps buf size ret
      (p :: r.1, r.2)

/-- `check_page_in_memory_by_hash` from the start of the page. -/
def checkPageInMemoryByHash (hash : Hash) (pageid : ℕ) (buf : ℕ → UInt8) (size : ℕ) :
    Cache × (ℕ → UInt8) × Option ℕ :=
  let r := checkMemoryLoop crc32c hash pageid c.memory buf size none
  ({ c with memory := r.1 }, r.2)

/-- `mark_page_free`. -/
def markPageFree (id : ℕ) : Cache := { c with rows := c.rows.filter (·.id ≠ id) }

/-- `check_page_in_database_by_hash` from the start of the page, when `pread` gives `k`. -/
def checkPageInDatabaseByHash (hash : Hash) (pageid : ℕ) (buf : ℕ → UInt8) (size : ℕ)
    (k : Option ℕ) : Cache × (ℕ → UInt8) × Option ℕ :=
  match c.rows.find? (fun r => r.hash = hash ∧ r.pageid = pageid) with
  | none => (c, buf, none)
  | some r =>
    let n := if r.size < size then r.size else size
    match preadUpTo c.readcache n (r.id * pageSize) k with
    | none => (c.markPageFree r.id, buf, none)
    | some bs =>
      let buf := fill buf 0 bs
      if bs.length ≠ n then (c.markPageFree r.id, buf, none)
      else if n = r.size ∧ crc32c bs ≠ r.crc then (c.markPageFree r.id, buf, none)
      else (c, buf, some n)

/-- A page from memory, or else from the database. -/
def checkPage (hash : Hash) (pageid : ℕ) (buf : ℕ → UInt8) (size : ℕ) (k : Option ℕ) :
    Cache × (ℕ → UInt8) × Option ℕ :=
  let r := c.checkPageInMemoryByHash crc32c hash pageid buf size
  if r.2.2.isNone then r.1.checkPageInDatabaseByHash crc32c hash pageid r.2.1 size k else r

/-- `psync_pagecache_add_page_if_not_exists`. -/
def addPageIfNotExists (p : Page) : Cache :=
  if c.rows.any fun r => r.hash = p.hash ∧ r.pageid = p.pageid then c
  else if (c.memory.any fun q => q.type = .read ∧ q.hash = p.hash ∧ q.pageid = p.pageid) ∨
      (p.hash, p.pageid) ∈ c.waiting then c
  else { c with memory := c.memory ++ [p] }

/-- `switch_memory_page_to_hash`: `none` when there is no such page. -/
def switchMemoryPageToHash (oldhash newhash : Hash) (pageid : ℕ) : Option Cache :=
  let isOld : Page → Bool := fun p => p.hash = oldhash ∧ p.pageid = pageid ∧ p.type = .read
  (c.memory.find? isOld).map fun p =>
    { c with memory := c.memory.eraseP isOld ++ [{ p with hash := newhash }] }

/-- The update of one page in `switch_pageids`: the index of the table is unique on the hash and the
    page, so that a page that would be there twice is left as it is. -/
def switchPageid (hash oldhash : Hash) (pageid : ℕ) : Cache :=
  if c.rows.any fun r => r.hash = hash ∧ r.pageid = pageid then c
  else
    { c with rows := c.rows.map fun r =>
        if r.hash = oldhash ∧ r.pageid = pageid then { r with hash := hash } else r }

/-- `switch_pageids`. -/
def switchPageids (hash oldhash : Hash) : List ℕ → Cache → Cache
  | [], c => c
  | pageid :: pageids, c => switchPageids hash oldhash pageids (c.switchPageid hash oldhash pageid)

/-! ## The content of the pages -/

/-- The bytes of a page of a file. -/
def pageOf (f : File) (pageid : ℕ) : List UInt8 := f.pread pageSize (pageid * pageSize)

/-- Every page holds the bytes of the file with its hash, up to the end of the page or of the
    file. -/
structure PagesOk (files : Hash → File) (c : Cache) : Prop where
  memory : ∀ p ∈ c.memory, p.content = pageOf (files p.hash) p.pageid
  rows : ∀ r ∈ c.rows, r.size = (pageOf (files r.hash) r.pageid).length ∧
    c.readcache.pread r.size (r.id * pageSize) = pageOf (files r.hash) r.pageid

section Lemmas

variable {crc32c c} {files : Hash → File} {hash oldhash : Hash} {pageid size : ℕ} {buf : ℕ → UInt8}
  {k : Option ℕ}

@[simp] theorem length_bytes (n : ℕ) : (bytes buf n).length = n := by simp [bytes]

theorem take_bytes {n m : ℕ} : (bytes buf m).take n = bytes buf (min n m) := by
  rw [bytes, ← map_take, take_range, bytes]

variable (buf) in
theorem bytes_fill (bs : List UInt8) : bytes (fill buf 0 bs) bs.length = bs := by
  refine ext_getElem (by simp) fun j hj _ => ?_
  rw [length_bytes] at hj
  simp [bytes, fill, hj]

/-- What a lookup leaves in the buffer: the start of the page. -/
def Gives (f : File) (pageid size : ℕ) (buf : ℕ → UInt8) (ret : Option ℕ) : Prop :=
  ∀ n, ret = some n → n = min size (pageOf f pageid).length ∧
    bytes buf n = (pageOf f pageid).take n

variable (crc32c) in
theorem checkMemoryLoop_spec {ps : List Page} {ret : Option ℕ}
    (hps : ∀ p ∈ ps, p.content = pageOf (files p.hash) p.pageid)
    (hret : Gives (files hash) pageid size buf ret) :
    (checkMemoryLoop crc32c hash pageid ps buf size ret).1.Sublist ps ∧
      Gives (files hash) pageid size (checkMemoryLoop crc32c hash pageid ps buf size ret).2.1
        (checkMemoryLoop crc32c hash pageid ps buf size ret).2.2 := by
  induction ps generalizing buf size ret with
  | nil => exact ⟨.slnil, hret⟩
  | cons p ps ih =>
    have hps' := fun q hq => hps q (mem_cons_of_mem _ hq)
    rw [checkMemoryLoop]
    by_cases hp : p.hash = hash ∧ p.pageid = pageid
    · rw [if_pos hp]
      by_cases hcrc : crc32c p.content ≠ p.crc
      · rw [if_pos hcrc]
        exact ⟨sublist_cons_self p ps, hret⟩
      rw [if_neg hcrc]
      -- The page is copied, and the search goes on with its size.
      have hpage : p.content = pageOf (files hash) pageid := by
        rw [hps p mem_cons_self, hp.1, hp.2]
      have hlen : p.size = (pageOf (files hash) pageid).length := by
        rw [← hpage, Page.content, length_bytes]
      have hn : (if p.size < size then p.size else size) =
          min size (pageOf (files hash) pageid).length := by
        rw [← hlen]
        split_ifs <;> omega
      dsimp only
      rw [hn]
      generalize hm : min size (pageOf (files hash) pageid).length = m
      have hcopy : bytes (fill buf 0 (bytes p.page m)) m = (pageOf (files hash) pageid).take m := by
        have := bytes_fill buf (bytes p.page m)
        rw [length_bytes] at this
        rw [this, ← hpage, Page.content, take_bytes, min_eq_left]
        omega
      have hgives : Gives (files hash) pageid m (fill buf 0 (bytes p.page m)) (some m) :=
        fun n hn => by
          obtain ⟨⟩ := hn
          exact ⟨by omega, hcopy⟩
      obtain ⟨h1, h2⟩ := ih hps' hgives
      refine ⟨h1.cons_cons p, fun n hn => ?_⟩
      obtain ⟨hn', hb⟩ := h2 n hn
      exact ⟨by omega, hb⟩
    · rw [if_neg hp]
      obtain ⟨h1, h2⟩ := ih hps' hret
      exact ⟨h1.cons_cons p, h2⟩

theorem PagesOk.checkPageInMemoryByHash (h : PagesOk files c) :
    PagesOk files (c.checkPageInMemoryByHash crc32c hash pageid buf size).1 ∧
      Gives (files hash) pageid size
        (c.checkPageInMemoryByHash crc32c hash pageid buf size).2.1
        (c.checkPageInMemoryByHash crc32c hash pageid buf size).2.2 := by
  have hnone : Gives (files hash) pageid size buf none := fun n hn => absurd hn (by simp)
  obtain ⟨h1, h2⟩ := checkMemoryLoop_spec crc32c h.memory hnone
  exact ⟨⟨fun p hp => h.memory p (h1.mem hp), h.rows⟩, h2⟩

theorem PagesOk.markPageFree (h : PagesOk files c) (id : ℕ) : PagesOk files (c.markPageFree id) :=
  ⟨h.memory, fun r hr => h.rows r (mem_filter.1 hr).1⟩

theorem PagesOk.checkPageInDatabaseByHash (h : PagesOk files c) :
    PagesOk files (c.checkPageInDatabaseByHash crc32c hash pageid buf size k).1 ∧
      Gives (files hash) pageid size
        (c.checkPageInDatabaseByHash crc32c hash pageid buf size k).2.1
        (c.checkPageInDatabaseByHash crc32c hash pageid buf size k).2.2 := by
  have hnone : ∀ buf, Gives (files hash) pageid size buf none := fun buf n hn => absurd hn (by simp)
  unfold Cache.checkPageInDatabaseByHash
  rcases hr : c.rows.find? (fun r => r.hash = hash ∧ r.pageid = pageid) with _ | r
  · simp only [hr]
    exact ⟨h, hnone _⟩
  simp only [hr]
  obtain ⟨hlen, hread⟩ := h.rows r (mem_of_find?_eq_some hr)
  obtain ⟨rfl, rfl⟩ : r.hash = hash ∧ r.pageid = pageid := by
    simpa using find?_some hr
  have hn : (if r.size < size then r.size else size) =
      min size (pageOf (files r.hash) r.pageid).length := by
    rw [← hlen]
    split_ifs <;> omega
  rw [hn]
  generalize hm : min size (pageOf (files r.hash) r.pageid).length = m
  rcases hbs : preadUpTo c.readcache m (r.id * pageSize) k with _ | bs
  · exact ⟨h.markPageFree r.id, hnone _⟩
  dsimp only
  by_cases hshort : bs.length ≠ m
  · rw [if_pos hshort]
    exact ⟨h.markPageFree r.id, hnone _⟩
  rw [if_neg hshort]
  by_cases hcrc : m = r.size ∧ crc32c bs ≠ r.crc
  · rw [if_pos hcrc]
    exact ⟨h.markPageFree r.id, hnone _⟩
  rw [if_neg hcrc]
  refine ⟨h, fun n hnm => ?_⟩
  obtain ⟨⟩ := hnm
  refine ⟨hm.symm, ?_⟩
  -- All bytes were read, and they are those of the page.
  obtain ⟨j, -, rfl⟩ := Option.map_eq_some_iff.1 hbs
  rw [not_not, File.length_pread] at hshort
  have hmin : min m j = m := by omega
  have hfile : min m (c.readcache.size - r.id * pageSize) = m := by omega
  have hcopy := bytes_fill buf (c.readcache.pread m (r.id * pageSize))
  rw [File.length_pread, hfile] at hcopy
  dsimp only
  rw [hmin, hcopy, ← hread, File.take_pread, min_eq_left (by omega)]

variable (crc32c hash pageid buf size k) in
theorem PagesOk.checkPage (h : PagesOk files c) :
    PagesOk files (c.checkPage crc32c hash pageid buf size k).1 ∧
      Gives (files hash) pageid size (c.checkPage crc32c hash pageid buf size k).2.1
        (c.checkPage crc32c hash pageid buf size k).2.2 := by
  unfold Cache.checkPage
  dsimp only
  split_ifs
  · exact h.checkPageInMemoryByHash.1.checkPageInDatabaseByHash
  · exact h.checkPageInMemoryByHash

theorem PagesOk.addPageIfNotExists {p : Page} (h : PagesOk files c)
    (hp : p.content = pageOf (files p.hash) p.pageid) : PagesOk files (c.addPageIfNotExists p) := by
  unfold Cache.addPageIfNotExists
  split_ifs
  · exact h
  · exact h
  · refine ⟨fun q hq => ?_, h.rows⟩
    rcases mem_append.1 hq with hq | hq
    · exact h.memory q hq
    · rwa [mem_singleton.1 hq]

/-- A page that is the same in two files can be taken for one of the other file. -/
theorem PagesOk.switchMemoryPageToHash {c' : Cache} (h : PagesOk files c)
    (hsame : pageOf (files oldhash) pageid = pageOf (files hash) pageid)
    (hc : c.switchMemoryPageToHash oldhash hash pageid = some c') : PagesOk files c' := by
  obtain ⟨p, hp, rfl⟩ := Option.map_eq_some_iff.1 hc
  have hold : p.hash = oldhash ∧ p.pageid = pageid := by
    have := find?_some hp
    simp only [decide_eq_true_eq] at this
    exact ⟨this.1, this.2.1⟩
  refine ⟨fun q hq => ?_, h.rows⟩
  rcases mem_append.1 hq with hq | hq
  · exact h.memory q (mem_of_mem_eraseP hq)
  · rw [mem_singleton.1 hq]
    have := h.memory p (mem_of_find?_eq_some hp)
    rw [hold.1, hold.2, hsame] at this
    rw [← hold.2] at this
    exact this

theorem PagesOk.switchPageid (h : PagesOk files c)
    (hsame : pageOf (files oldhash) pageid = pageOf (files hash) pageid) :
    PagesOk files (c.switchPageid hash oldhash pageid) := by
  unfold Cache.switchPageid
  split_ifs
  · exact h
  · refine ⟨h.memory, fun r hr => ?_⟩
    obtain ⟨r₀, hr0, rfl⟩ := mem_map.1 hr
    have hok := h.rows r₀ hr0
    split_ifs with hold
    · rw [hold.1, hold.2, hsame, ← hold.2] at hok
      exact hok
    · exact hok

theorem PagesOk.switchPageids {pageids : List ℕ} (h : PagesOk files c)
    (hsame : ∀ p ∈ pageids, pageOf (files oldhash) p = pageOf (files hash) p) :
    PagesOk files (Cache.switchPageids hash oldhash pageids c) := by
  induction pageids generalizing c with
  | nil => exact h
  | cons p pageids ih =>
    exact ih (h.switchPageid (hsame p mem_cons_self)) fun q hq => hsame q (mem_cons_of_mem _ hq)

end Lemmas

/-! ## What other threads do -/

/-- A change of the cache by another thread, a reader or the flush. -/
inductive Change (files : Hash → File)
  /-- a page leaves the memory: it does not have its checksum, or the cache is cleaned -/
  | drop (i : ℕ)
  /-- `flush_pages` writes a page to the place `id`, which is free -/
  | flush (i id : ℕ)
  /-- `mark_page_free`, also when the cache is cleaned -/
  | free (id : ℕ)
  /-- a page that has come from the network, with the bytes of its file -/
  | add (p : Page) (ok : p.content = pageOf (files p.hash) p.pageid)
  /-- a reader waits, or no longer waits, for pages -/
  | wait (waiting : List (Hash × ℕ))

/-- `flush_pages` for one page; the index of the table is unique on the hash and the page. -/
def flushPage (p : Page) (i id : ℕ) : Cache :=
  if c.rows.any (·.id = id) then c
  else
    { c with
      memory := c.memory.eraseIdx i
      readcache := c.readcache.pwrite (bytes p.page pageSize) (id * pageSize)
      rows := if c.rows.any fun r => r.hash = p.hash ∧ r.pageid = p.pageid then c.rows
        else ⟨id, p.hash, p.pageid, p.size, p.crc⟩ :: c.rows }

def Change.apply {files : Hash → File} (c : Cache) : Change files → Cache
  | drop i => { c with memory := c.memory.eraseIdx i }
  | flush i id =>
    match c.memory[i]? with
    | none => c
    | some p => c.flushPage p i id
  | free id => c.markPageFree id
  | add p _ => c.addPageIfNotExists p
  | wait waiting => { c with waiting }

variable {c} {files : Hash → File}

theorem size_le_pageSize {p : Page} {f : File} {pageid : ℕ} (h : p.content = pageOf f pageid) :
    p.size ≤ pageSize := by
  have := congrArg List.length h
  rw [Page.content, length_bytes, pageOf, File.length_pread] at this
  omega

/-- A page is written to a place of its own. -/
theorem pread_pwrite_page {f : File} {id id' n : ℕ} {buf : ℕ → UInt8} (hne : id' ≠ id)
    (hn : n ≤ pageSize) (hfile : n ≤ f.size - id' * pageSize) :
    (f.pwrite (bytes buf pageSize) (id * pageSize)).pread n (id' * pageSize) =
      f.pread n (id' * pageSize) := by
  rcases n.eq_zero_or_pos with rfl | hpos
  · simp [File.pread]
  rcases lt_or_gt_of_ne hne with hlt | hlt
  · have := Nat.mul_le_mul_right pageSize hlt
    rw [Nat.succ_mul] at this
    exact File.pread_pwrite_of_ge (by omega) (by omega)
  · have := Nat.mul_le_mul_right pageSize hlt
    rw [Nat.succ_mul] at this
    refine File.pread_pwrite_of_le ?_ ?_ <;> rw [length_bytes] <;> omega

theorem PagesOk.flushPage (h : PagesOk files c) {p : Page} {i id : ℕ} (hp : p ∈ c.memory) :
    PagesOk files (c.flushPage p i id) := by
  unfold Cache.flushPage
  by_cases hid : c.rows.any (·.id = id)
  · rwa [if_pos hid]
  rw [if_neg hid]
  have hkept : ∀ r ∈ c.rows, r.size = (pageOf (files r.hash) r.pageid).length ∧
      (c.readcache.pwrite (bytes p.page pageSize) (id * pageSize)).pread r.size
        (r.id * pageSize) = pageOf (files r.hash) r.pageid := by
    intro r hr
    obtain ⟨hlen, hread⟩ := h.rows r hr
    have hne : r.id ≠ id := fun heq => hid (any_eq_true.2 ⟨r, hr, decide_eq_true heq⟩)
    have hsize := congrArg List.length hread
    rw [← hlen, File.length_pread] at hsize
    have hpage : r.size ≤ pageSize := by
      rw [hlen, pageOf, File.length_pread]
      exact min_le_left ..
    exact ⟨hlen, by rw [pread_pwrite_page hne hpage (by omega), hread]⟩
  refine ⟨fun q hq => h.memory q (mem_of_mem_eraseIdx hq), ?_⟩
  dsimp only
  split_ifs
  · exact hkept
  rintro r hr
  rcases mem_cons.1 hr with rfl | hr
  · have hok := h.memory p hp
    refine ⟨by rw [← hok, Page.content, length_bytes], ?_⟩
    have hread : (c.readcache.pwrite (bytes p.page pageSize) (id * pageSize)).pread pageSize
        (id * pageSize) = bytes p.page pageSize := by
      have := @File.pread_pwrite c.readcache (bytes p.page pageSize) (id * pageSize)
      rwa [length_bytes] at this
    calc
      _ = (bytes p.page pageSize).take p.size := by
        rw [← hread, File.take_pread, min_eq_left (size_le_pageSize hok), hread]
      _ = p.content := by rw [take_bytes, min_eq_left (size_le_pageSize hok), Page.content]
      _ = _ := hok
  · exact hkept r hr

/-- What other threads do keeps the pages right. -/
theorem PagesOk.change (h : PagesOk files c) (ch : Change files) : PagesOk files (ch.apply c) := by
  cases ch with
  | drop i => exact ⟨fun q hq => h.memory q (mem_of_mem_eraseIdx hq), h.rows⟩
  | flush i id =>
    rw [Change.apply]
    rcases hp : c.memory[i]? with _ | p
    · exact h
    · exact h.flushPage (mem_of_getElem? hp)
  | free id => exact h.markPageFree id
  | add p ok => exact h.addPageIfNotExists ok
  | wait waiting => exact ⟨h.memory, h.rows⟩

/-- The cache after changes, one after the other. -/
def meanwhile (c : Cache) (changes : List (Change files)) : Cache := changes.foldl Change.apply c

theorem PagesOk.meanwhile (h : PagesOk files c) (changes : List (Change files)) :
    PagesOk files (c.meanwhile changes) := by
  induction changes generalizing c with
  | nil => exact h
  | cons ch changes ih => exact ih (h.change ch)

end Cache

end Pclsync.PageCache
