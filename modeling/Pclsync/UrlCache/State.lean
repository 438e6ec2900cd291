import Pclsync.Transition
import Pclsync.WrappedOrder

/-!
# The cache of file URLs

Request threads share the URLs of a file: the first one that needs them creates an entry in the tree
`url_cache_tree` and fetches them, the others find the entry and wait. A thread that is done with
the URLs releases the entry, or marks it bad.

Memory is modelled by the list of all entries ever allocated, in which those that were freed are
`none`; a thread that goes on to use a freed entry has failed. The calls of `free` are counted, for
entries and for results.

* `Pc`: where a thread is. A step runs up to the point where the thread leaves the mutex
  `url_cache_mutex`, or makes a request.
* `State.getUrlsForRequest`, `State.setUrls`, `State.releaseUrls`, `State.releaseBadUrls`: the
  functions, under the mutex.
* `Action`, `step`: the system, in which the threads take their steps in any order.
-/

namespace Pclsync.UrlCache

abbrev Hash := BitVec 64

/-- The place of a `psync_urls_t` in memory. -/
abbrev UrlsId := ℕ

/-- The place of a `binresult` with URLs in memory. -/
abbrev ResId := ℕ

/-- The `status` of an entry: `0`, `1` and `2`. -/
inductive Status
  | loading
  | ready
  | bad
  deriving DecidableEq

/-- `psync_urls_t`. -/
structure Urls where
  hash : Hash
  urls : Option ResId
  refcnt : ℕ
  status : Status

/-- An entry in the tree. -/
structure Node where
  hash : Hash
  id : UrlsId

/-- Where a request thread is. -/
inductive Pc
  /-- At the label `retry` of `psync_pagecache_read_unmodified_thread`. -/
  | retry
  /-- Waiting for the URLs in `get_urls_for_request`. -/
  | waiting (u : UrlsId)
  /-- It has created the entry, and looks in the cache of the process. -/
  | created (u : UrlsId)
  /-- In `get_urls`. -/
  | fetching (u : UrlsId)
  /-- About to call `set_urls`. -/
  | fetched (u : UrlsId) (res : Option ResId)
  /-- `get_urls_for_request` gave it the entry. -/
  | holding (u : UrlsId)
  /-- About to free an entry that it was the last one to release, with a retry after it or not. -/
  | freeing (u : UrlsId) (again : Bool)
  | ended
  deriving DecidableEq

structure Thread where
  hash : Hash
  needkey : Bool
  tries : ℕ
  pc : Pc

/-- URLs in the cache of the process, until a timer frees them: its callback may be waiting for the
lock (`fired`). -/
structure Cached where
  hash : Hash
  res : ResId
  fired : Bool

structure State where
  threads : List Thread
  memory : List (Option Urls)
  tree : Tree Node
  cache : List Cached
  /-- The number of results received so far. -/
  results : ℕ
  freedUrls : UrlsId → ℕ
  freedRes : ResId → ℕ
  /-- A thread used an entry after it was freed. -/
  failed : Bool

/-- The increment and the decrement of a counter of 32 bits. -/
def incr (n : ℕ) : ℕ := (n + 1) % 2 ^ 32

def decr (n : ℕ) : ℕ := (n + (2 ^ 32 - 1)) % 2 ^ 32

namespace State

variable (s : State)

def entry (u : UrlsId) : Option Urls := s.memory[u]?.join

def setThread (t : ℕ) (th : Thread) : State := { s with threads := s.threads.set t th }

def setEntry (u : UrlsId) (e : Option Urls) : State := { s with memory := s.memory.set u e }

def fail : State := { s with failed := true }

/-- `psync_free` of an entry. -/
def free (u : UrlsId) : State :=
  { s.setEntry u none with
    freedUrls := Function.update s.freedUrls u (s.freedUrls u + 1) }

/-- `psync_free` of a result, which may be `NULL`. -/
def freeRes : Option ResId → State
  | none => s
  | some r => { s with freedRes := Function.update s.freedRes r (s.freedRes r + 1) }

/-- `psync_tree_del` of an entry. -/
def treeDel (u : UrlsId) : State :=
  match s.tree.toList.findIdx? (·.id = u) with
  | none => s.fail
  | some k => { s with tree := s.tree.removeAt k }

/-- `psync_cache_add`, which keeps two results for a key. -/
def cacheAdd (hash : Hash) (res : Option ResId) : State :=
  match res with
  | none => s
  | some r =>
    if s.cache.countP (·.hash = hash) < 2 then
      { s with cache := ⟨hash, r, false⟩ :: s.cache }
    else s.freeRes (some r)

/-! ## Functions -/

/-- The end of `get_urls_for_request` for a thread that has a reference to an entry: the entry is
    ready or bad. -/
def gotUrls (t : ℕ) (th : Thread) (u : UrlsId) (e : Urls) : State :=
  if e.status = .ready then s.setThread t { th with pc := .holding u }
  else
    let s := s.setThread t { th with pc := .ended }
    if decr e.refcnt = 0 then s.free u
    else s.setEntry u (some { e with refcnt := decr e.refcnt })

/-- `get_urls_for_request`, up to the first time that it leaves the mutex. -/
def getUrlsForRequest (t : ℕ) (th : Thread) : State :=
  match s.tree.locate (fun n => diffCompare th.hash n.hash) with
  | .found _ n => match s.entry n.id with
    | none => s.fail
    | some e =>
      let e := { e with refcnt := incr e.refcnt }
      let s := s.setEntry n.id (some e)
      if e.status = .loading then s.setThread t { th with pc := .waiting n.id }
      else s.gotUrls t th n.id e
  | .vacant k =>
    let u := s.memory.length
    ({ s with
      memory := s.memory ++ [some ⟨th.hash, none, 0, .loading⟩]
      tree := s.tree.insertAt k ⟨th.hash, u⟩ } : State).setThread t { th with pc := .created u }

/-- `psync_cache_get`, for the thread that created the entry. -/
def cacheGet (t : ℕ) (th : Thread) (u : UrlsId) : State :=
  match s.cache.findIdx? (fun c => c.hash = th.hash ∧ c.fired = false) with
  | none => s.setThread t { th with pc := .fetching u }
  | some i =>
    ({ s with cache := s.cache.eraseIdx i } : State).setThread t
      { th with pc := .fetched u (s.cache[i]?.map Cached.res) }

/-- The answer of the server arrives in `get_urls`, or all tries have failed. -/
def fetch (t : ℕ) (th : Thread) (u : UrlsId) (ok : Bool) : State :=
  if ok = true then
    ({ s with results := s.results + 1 } : State).setThread t
      { th with pc := .fetched u (some s.results) }
  else s.setThread t { th with pc := .fetched u none }

/-- `set_urls`. -/
def setUrls (t : ℕ) (th : Thread) (u : UrlsId) (res : Option ResId) : State :=
  match s.entry u, res with
  | none, _ => s.fail
  | some e, some r =>
    let e := { e with status := .ready, urls := some r, refcnt := incr e.refcnt }
    (s.setEntry u (some e)).setThread t { th with pc := .holding u }
  | some e, none =>
    let s := (s.treeDel u).setThread t { th with pc := .ended }
    if e.refcnt ≠ 0 then s.setEntry u (some { e with status := .bad }) else s.free u

/-- `release_urls`, when the URLs are still valid for more than an hour (`valid`) or not. -/
def releaseUrls (t : ℕ) (th : Thread) (u : UrlsId) (valid : Bool) : State :=
  match s.entry u with
  | none => s.fail
  | some e =>
    let e' := { e with refcnt := decr e.refcnt }
    if e'.refcnt = 0 then
      let s := s.setThread t { th with pc := .freeing u false }
      if e.status = .ready then
        let s := s.treeDel u
        if valid = true then (s.cacheAdd e.hash e.urls).setEntry u (some { e' with urls := none })
        else s.setEntry u (some e')
      else s.setEntry u (some e')
    else (s.setEntry u (some e')).setThread t { th with pc := .ended }

/-- `release_bad_urls`, before a retry. -/
def releaseBadUrls (t : ℕ) (th : Thread) (u : UrlsId) : State :=
  match s.entry u with
  | none => s.fail
  | some e =>
    let s := if e.status = .ready then s.treeDel u else s
    let e := { e with
      status := if e.status = .ready then .bad else e.status
      refcnt := decr e.refcnt }
    let s := s.setEntry u (some e)
    if e.refcnt = 0 then s.setThread t { th with pc := .freeing u true }
    else s.setThread t { th with pc := .retry }

/-- The end of `release_urls` and `release_bad_urls` for the last thread, without the mutex. -/
def freeUrls (t : ℕ) (th : Thread) (u : UrlsId) (again : Bool) : State :=
  match s.entry u with
  | none => s.fail
  | some e =>
    ((s.freeRes e.urls).free u).setThread t
      { th with pc := if again = true then .retry else .ended }

end State

/-! ## Steps -/

inductive Action
  /-- A thread is started for a request. -/
  | spawn (hash : Hash) (needkey : Bool)
  | getUrlsForRequest (t : ℕ)
  | cacheGet (t : ℕ)
  | fetch (t : ℕ) (ok : Bool)
  | setUrls (t : ℕ)
  /-- A waiting thread gets the mutex again, when the entry is no longer loading. -/
  | wake (t : ℕ)
  /-- The key that a thread needs is there, or can not be had. -/
  | encoder (t : ℕ) (ok : Bool)
  /-- The request is done, or fails for good. -/
  | releaseUrls (t : ℕ) (valid : Bool)
  /-- The connection fails while a request for a range is sent. -/
  | sendFailed (t : ℕ)
  /-- The server rejects the URLs when a range is read. -/
  | readFailed (t : ℕ)
  | freeUrls (t : ℕ)
  /-- The timer of the `i`-th cached result runs out. -/
  | timerFires (i : ℕ)
  /-- The `i`-th cached result is freed, by its timer or when the cache is cleaned. -/
  | cacheFree (i : ℕ)

/-- The step of a thread. A request that failed is tried again `5` times. -/
def threadStep (s : State) (t : ℕ) (th : Thread) : Action → Option State
  | .getUrlsForRequest _ =>
    if th.pc = .retry then some (s.getUrlsForRequest t th) else none
  | .cacheGet _ => match th.pc with
    | .created u => some (s.cacheGet t th u)
    | _ => none
  | .fetch _ ok => match th.pc with
    | .fetching u => some (s.fetch t th u ok)
    | _ => none
  | .setUrls _ => match th.pc with
    | .fetched u res => some (s.setUrls t th u res)
    | _ => none
  | .wake _ => match th.pc with
    | .waiting u => match s.entry u with
      | none => some s.fail
      | some e => if e.status = .loading then none else some (s.gotUrls t th u e)
    | _ => none
  | .encoder _ ok => match th.pc with
    | .holding _ =>
      if th.needkey = false then none
      else if ok = true then some (s.setThread t { th with needkey := false })
      else some (s.setThread t { th with pc := .ended })
    | _ => none
  | .releaseUrls _ valid => match th.pc with
    | .holding u => if th.needkey = true then none else some (s.releaseUrls t th u valid)
    | _ => none
  | .sendFailed _ => match th.pc with
    | .holding _ =>
      if th.needkey = true ∨ 5 ≤ th.tries then none
      else some (s.setThread t { th with tries := th.tries + 1, pc := .retry })
    | _ => none
  | .readFailed _ => match th.pc with
    | .holding u =>
      if th.needkey = true ∨ 5 ≤ th.tries then none
      else some (s.releaseBadUrls t { th with tries := th.tries + 1 } u)
    | _ => none
  | .freeUrls _ => match th.pc with
    | .freeing u again => some (s.freeUrls t th u again)
    | _ => none
  | _ => none

/-- The thread that takes a step. -/
def Action.thread : Action → Option ℕ
  | getUrlsForRequest t | cacheGet t | fetch t _ | setUrls t | wake t | encoder t _
  | releaseUrls t _ | sendFailed t | readFailed t | freeUrls t => some t
  | _ => none

def step (s : State) (a : Action) : Option State :=
  if s.failed = true then none
  else match a with
  | .spawn hash needkey => some { s with threads := s.threads ++ [⟨hash, needkey, 0, .retry⟩] }
  | .timerFires i => s.cache[i]?.map fun c =>
    { s with cache := s.cache.set i { c with fired := true } }
  | .cacheFree i => s.cache[i]?.map fun c =>
    ({ s with cache := s.cache.eraseIdx i } : State).freeRes (some c.res)
  | a => a.thread.bind fun t => s.threads[t]?.bind fun th => threadStep s t th a

end Pclsync.UrlCache
