import Mathlib.Data.List.Perm.Basic
import Pclsync.PageCache.Cache
import Pclsync.Transition

/-!
# The pages in memory

The memory of the page cache is a fixed number of pages. A thread takes one from the list of free
pages, fills it, and puts it in the hash, or returns it; `flush_pages` writes the pages of the hash
to the database, and frees them. Two counters are kept beside the lists, and a third one of the
flushes that run.

The lists of the hash table are one list here. A step runs up to the point where the thread leaves
`cache_mutex`.

* `Pc`: where a thread is.
* `State.getFreePage` and so on: the functions, and `State.flushStep` the parts of `flush_pages`.
* `Action`, `step`: the system, in which the threads take their steps in any order.
-/

namespace Pclsync.PageCache.MemoryPages

/-- The place of a `psync_cache_page_t`. -/
abbrev PageRef := ℕ

/-- `CACHE_PAGES`, with the `PSYNC_FS_MEMORY_CACHE` of 64 MiB. -/
def cachePages : ℕ := 64 * 1024 * 1024 / pageSize

/-- What a page in the hash is found by, and its type. -/
structure Info where
  hash : Hash
  pageid : ℕ
  type : PageType
  deriving DecidableEq

/-- What a thread does after `flush_pages`. -/
inductive Cont
  | done
  /-- it was called at the start of `psync_pagecache_get_free_page` -/
  | take
  /-- it was called there because there were no free pages; a thread that flushes is to be run -/
  | retry (run : Bool)
  deriving DecidableEq

/-- Where a thread is in `flush_pages`. -/
inductive FlushPc
  | start
  /-- Waiting for `flush_cache_mutex`. -/
  | enter
  | locked
  /-- Sorting the pages of which half are to be discarded. -/
  | discard (pagesToFlush : List PageRef)
  /-- Writing the pages to the cache file. -/
  | write (pagesToFlush : List PageRef)
  /-- At the start of the transaction. -/
  | transaction (pagesToFlush : List PageRef)
  /-- In the loop which updates the table, without the lock. -/
  | update (pagesToFlush : List PageRef) (pagecnt updates : ℕ)
  | finish
  /-- About to leave `flush_cache_mutex`. -/
  | ended
  deriving DecidableEq

inductive Pc
  | idle
  /-- In `psync_pagecache_get_free_page`, after the first call of `flush_pages`. -/
  | take
  /-- Waiting for `free_page_cond`. -/
  | asleep (run : Bool)
  | woken (run : Bool)
  /-- After a later call of `flush_pages`. -/
  | retry (run : Bool)
  | hold (page : PageRef)
  | flush (nosleep : ℕ) (cont : Cont) (pc : FlushPc)
  deriving DecidableEq

def Cont.pc : Cont → Pc
  | done => .idle
  | take => .take
  | retry run => .retry run

structure State where
  threads : List Pc
  info : PageRef → Info
  freePages : List PageRef
  cacheHash : List PageRef
  cachePagesFree : ℤ
  cachePagesInHash : ℤ
  flushPageRunning : ℤ
  freePageWaiters : ℤ
  flushcacherun : Bool
  /-- `flush_cache_mutex` is locked by a flush -/
  flushCacheMutex : Bool

/-- What the database and the disk do for a flush. -/
structure Outcome where
  /-- the disk is full, and the database has no free pages -/
  discard : Bool
  /-- the pages to flush as they are sorted -/
  sorted : List PageRef
  /-- the number of free pages in the database -/
  rows : ℕ
  /-- the pages are written and synced -/
  written : Bool
  /-- there may be more pages in the database, and the disk is not full -/
  grow : Bool
  /-- the row of the page is updated -/
  accepted : PageRef → Bool

/-- A waiting thread when `free_page_cond` is signalled. -/
def Pc.wake : Pc → Pc
  | asleep run => .woken run
  | pc => pc

namespace State

variable (n : ℕ) (s : State)

def setThread (t : ℕ) (pc : Pc) : State := { s with threads := s.threads.set t pc }

/-- `psync_run_thread`, when a thread that flushes is to be run. -/
def runThread (run : Bool) : State :=
  if run then { s with threads := s.threads ++ [.flush 0 .done .start] } else s

/-- `pthread_cond_broadcast`, when somebody waits. -/
def broadcast : State :=
  if s.freePageWaiters ≠ 0 then { s with threads := s.threads.map Pc.wake } else s

/-- The condition on which `psync_pagecache_get_free_page` starts a flush. -/
def FewFree : Prop := s.cachePagesFree ≤ (n * 25 / 100 : ℕ) ∧ s.flushcacherun = false

instance : Decidable (s.FewFree n) := inferInstanceAs (Decidable (_ ∧ _))

/-! ## Taking and returning pages -/

/-- `psync_pagecache_get_free_page_if_available`. -/
def getFreePageIfAvailable (t : ℕ) : State :=
  let run : Bool := s.FewFree n
  let s := { s with flushcacherun := s.flushcacherun || run }
  match s.freePages with
  | page :: rest => ({ s with freePages := rest }.setThread t (.hold page)).runThread run
  | [] => s.runThread run

/-- The end of `psync_pagecache_get_free_page`, with a page. -/
def takePage (t : ℕ) (run : Bool) : State :=
  match s.freePages with
  | page :: rest =>
    ({ s with freePages := rest, cachePagesFree := s.cachePagesFree - 1 }.setThread t
      (.hold page)).runThread run
  | [] => s

def waitFreePage (t : ℕ) (run : Bool) : State :=
  { s with freePageWaiters := s.freePageWaiters + 1 }.setThread t (.asleep run)

/-- The loop that flushes until there is a free page. -/
def retryPage (t : ℕ) (run : Bool) : State :=
  if s.freePages = [] then s.setThread t (.flush 1 (.retry run) .start) else s.takePage t run

/-- `psync_pagecache_get_free_page` from where it looks for a free page. -/
def findPage (t : ℕ) (run : Bool) : State :=
  if s.freePages = [] ∧ s.flushPageRunning ≠ 0 then s.waitFreePage t run else s.retryPage t run

/-- `psync_pagecache_get_free_page`. -/
def getFreePage (t : ℕ) (runflushcacheinside : Bool) : State :=
  if s.FewFree n then
    let s := { s with flushcacherun := true }
    if runflushcacheinside then s.setThread t (.flush 2 .take .start) else s.findPage t true
  else s.findPage t false

/-- The loop around `pthread_cond_wait`, when it returns. -/
def waited (t : ℕ) (run : Bool) : State :=
  { s with freePageWaiters := s.freePageWaiters - 1 }.findPage t run

/-- `psync_pagecache_return_free_page_locked`. -/
def returnFreePageLocked (page : PageRef) : State :=
  { s with freePages := page :: s.freePages, cachePagesFree := s.cachePagesFree + 1 }

/-- `psync_pagecache_return_free_page`, by the thread that holds the page. -/
def returnFreePage (t : ℕ) (page : PageRef) : State :=
  (s.returnFreePageLocked page).setThread t .idle

/-! ## The hash -/

/-- A thread puts its page in the hash, as `psync_pagecache_read_range_from_api` and
    `check_page_in_database_by_hash_and_cache` do. -/
def addPage (t : ℕ) (page : PageRef) (info : Info) : State :=
  { s with
    info := Function.update s.info page info
    cacheHash := s.cacheHash ++ [page]
    cachePagesInHash := s.cachePagesInHash + 1 }.setThread t .idle

/-- `psync_pagecache_add_page_if_not_exists`, when the page is in the database or not, and is waited
    for or not. -/
def addPageIfNotExists (t : ℕ) (page : PageRef) (hash : Hash) (pageid : ℕ) (inDb waiting : Bool) :
    State :=
  if inDb then s.returnFreePage t page
  else if (s.cacheHash.any fun pg => s.info pg = ⟨hash, pageid, .read⟩) || waiting then
    s.returnFreePage t page
  else s.addPage t page ⟨hash, pageid, .read⟩

/-- The page that `check_page_in_memory_by_hash` drops, when `bad` tells which pages do not have
    their checksum. -/
def badPage (hash : Hash) (pageid : ℕ) (bad : PageRef → Bool) : Option PageRef :=
  s.cacheHash.find? fun page =>
    (s.info page).hash = hash ∧ (s.info page).pageid = pageid ∧ bad page = true

/-- `check_page_in_memory_by_hash`. -/
def checkPageInMemoryByHash (hash : Hash) (pageid : ℕ) (bad : PageRef → Bool) : State :=
  match s.badPage hash pageid bad with
  | some page =>
    let s := { s with cacheHash := s.cacheHash.erase page }.returnFreePageLocked page
    { s with cachePagesInHash := s.cachePagesInHash - 1 }
  | none => s

/-- `switch_memory_page_to_hash`. -/
def switchMemoryPageToHash (oldhash newhash : Hash) (pageid : ℕ) : State :=
  match s.cacheHash.find? fun page => s.info page = ⟨oldhash, pageid, .read⟩ with
  | some page =>
    { s with
      info := Function.update s.info page ⟨newhash, pageid, .read⟩
      cacheHash := s.cacheHash.erase page ++ [page] }
  | none => s

/-! ## Flushing -/

/-- A page of the hash is freed. -/
def freePage (page : PageRef) : State :=
  { s with
    cacheHash := s.cacheHash.erase page
    freePages := page :: s.freePages
    cachePagesFree := s.cachePagesFree + 1 }

/-- The pages of a type in the hash. -/
def ofType (type : PageType) : List PageRef :=
  s.cacheHash.filter fun page => (s.info page).type = type

/-- The loop that frees the pages of the type `PAGE_TYPE_CACHE`. -/
def freeCached : State := (s.ofType .cache).foldl freePage s

/-- The loops that discard pages, which count them. -/
def discardPages (pages : List PageRef) : State :=
  pages.foldl (fun s page =>
    { s.freePage page with cachePagesInHash := s.cachePagesInHash - 1 }) s

/-- The part of `flush_pages` that collects the pages to write. -/
def gather (t nosleep : ℕ) (cont : Cont) : State :=
  if s.cachePagesInHash ≠ 0 then
    let pagesToFlush := s.ofType .read
    let s := { s.freeCached with cachePagesInHash := pagesToFlush.length }
    s.setThread t (.flush nosleep cont
      (if pagesToFlush = [] then .transaction [] else .write pagesToFlush))
  else s.setThread t (.flush nosleep cont (.transaction []))

/-- The loop that updates the table. After each 64 rows it leaves the lock, unless `nosleep` is one;
    the count of the pages in the hash is changed after the loop. -/
def updateLoop (t nosleep : ℕ) (cont : Cont) (accepted : PageRef → Bool) :
    List PageRef → ℕ → ℕ → State → State
  | [], pagecnt, _, s =>
    { s with cachePagesInHash := s.cachePagesInHash - pagecnt }.setThread t
      (.flush nosleep cont .finish)
  | page :: pages, pagecnt, updates, s =>
    let s := s.freePage page
    let pagecnt := if accepted page then pagecnt + 1 else pagecnt
    let updates := if accepted page then updates + 1 else updates
    if nosleep ≠ 1 ∧ updates % 64 = 0 then
      s.broadcast.setThread t (.flush nosleep cont (.update pages pagecnt updates))
    else updateLoop t nosleep cont accepted pages pagecnt updates s

/-- `flush_pages`, up to where it next leaves the lock. -/
def flushStep (t nosleep : ℕ) (cont : Cont) (o : Outcome) : FlushPc → Option State
  | .start =>
    some <| { s with flushPageRunning := s.flushPageRunning + 1, flushcacherun := true }.setThread t
      (.flush nosleep cont .enter)
  | .enter =>
    if s.flushCacheMutex then none
    else some <| { s with flushCacheMutex := true }.setThread t (.flush nosleep cont .locked)
  | .locked =>
    if o.discard then
      some <| (s.discardPages (s.ofType .cache)).setThread t
        (.flush nosleep cont (.discard (s.ofType .read)))
    else some <| s.gather t nosleep cont
  | .discard pagesToFlush =>
    if o.sorted.Perm pagesToFlush then
      some <| (s.discardPages (o.sorted.take (max 1 (n / 2)))).broadcast.gather t nosleep cont
    else none
  | .write pagesToFlush =>
    if o.sorted.Perm pagesToFlush then
      if o.written then
        some <| s.setThread t (.flush nosleep cont (.transaction (o.sorted.take o.rows)))
      else
        -- The early return.
        some <| { s with flushCacheMutex := false }.setThread t cont.pc
    else none
  | .transaction pagesToFlush =>
    let updates := if o.grow ∧ s.cachePagesInHash ≠ 0 then 1 else 0
    some <| s.setThread t (.flush nosleep cont (.update pagesToFlush 0 updates))
  | .update pagesToFlush pagecnt updates =>
    some <| updateLoop t nosleep cont o.accepted pagesToFlush pagecnt updates s
  | .finish =>
    let s := { s with flushcacherun := false, flushPageRunning := s.flushPageRunning - 1 }
    some <| s.broadcast.setThread t (.flush nosleep cont .ended)
  | .ended => some <| { s with flushCacheMutex := false }.setThread t cont.pc

end State

/-! ## The system -/

inductive Action
  /-- A thread is created. -/
  | create
  | getFreePage (t : ℕ) (runflushcacheinside : Bool)
  | getFreePageIfAvailable (t : ℕ)
  | returnFreePage (t : ℕ)
  | addPage (t : ℕ) (info : Info)
  | addPageIfNotExists (t : ℕ) (hash : Hash) (pageid : ℕ) (inDb waiting : Bool)
  | checkPageInMemoryByHash (hash : Hash) (pageid : ℕ) (bad : PageRef → Bool)
  | switchMemoryPageToHash (oldhash newhash : Hash) (pageid : ℕ)
  | flushPages (t nosleep : ℕ)
  /-- A thread goes on in `psync_pagecache_get_free_page` or `flush_pages`; one that waits for
  `free_page_cond` may wake up without a signal. -/
  | step (t : ℕ) (o : Outcome)

/-- The state after an action, when it is possible. -/
def step (n : ℕ) (s : State) : Action → Option State
  | .create => some { s with threads := s.threads ++ [.idle] }
  | .getFreePage t inside =>
    if s.threads[t]? = some .idle then some (s.getFreePage n t inside) else none
  | .getFreePageIfAvailable t =>
    if s.threads[t]? = some .idle then some (s.getFreePageIfAvailable n t) else none
  | .returnFreePage t =>
    match s.threads[t]? with
    | some (.hold page) => some (s.returnFreePage t page)
    | _ => none
  | .addPage t info =>
    match s.threads[t]? with
    | some (.hold page) => some (s.addPage t page info)
    | _ => none
  | .addPageIfNotExists t hash pageid inDb waiting =>
    match s.threads[t]? with
    | some (.hold page) => some (s.addPageIfNotExists t page hash pageid inDb waiting)
    | _ => none
  | .checkPageInMemoryByHash hash pageid bad => some (s.checkPageInMemoryByHash hash pageid bad)
  | .switchMemoryPageToHash oldhash newhash pageid =>
    some (s.switchMemoryPageToHash oldhash newhash pageid)
  | .flushPages t nosleep =>
    if s.threads[t]? = some .idle then some (s.setThread t (.flush nosleep .done .start)) else none
  | .step t o =>
    match s.threads[t]? with
    | some .take => some (s.findPage t false)
    | some (.asleep run) => some (s.waited t run)
    | some (.woken run) => some (s.waited t run)
    | some (.retry run) => some (s.retryPage t run)
    | some (.flush nosleep cont pc) => s.flushStep n t nosleep cont o pc
    | _ => none

/-- The state that `psync_pagecache_init` leaves. -/
def start (n : ℕ) : State where
  threads := []
  info _ := ⟨0, 0, .read⟩
  freePages := List.range n
  cacheHash := []
  cachePagesFree := n
  cachePagesInHash := 0
  flushPageRunning := 0
  freePageWaiters := 0
  flushcacherun := false
  flushCacheMutex := false

/-- The threads of the page cache with a memory of `n` pages. -/
def system (n : ℕ) : Machine State Action where
  init s := s = start n
  step := step n

end Pclsync.PageCache.MemoryPages
