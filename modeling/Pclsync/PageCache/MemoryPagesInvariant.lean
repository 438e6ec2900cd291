import Pclsync.Counting
import Pclsync.PageCache.MemoryPages

/-!
# The counts of the pages in memory

A page is free, or in the hash, or in the hands of one thread, and the counters agree with the
lists, as long as none of a few things happens (`Sound`): a flush that returns early, a page taken
by `psync_pagecache_get_free_page_if_available`, a row which the database does not accept, and a
page which is dropped while a flush is about to free it.

* `Inv`: the invariant. The count of the pages in the hash is late by those that a flush has freed
  and not yet counted (`Pc.moved`).
* `Inv.of_thread`: what a step of one thread has to keep; `Inv.step` for every action.
* `pages_correct`: what holds in the states of the runs in which no flush leaves the lock in the
  middle of its loop.
-/

namespace Pclsync.PageCache.MemoryPages

open List Option

/-! ## What threads have to do with pages and flushes -/

/-- The page in the hands of a thread. -/
def Pc.held : Pc → Option PageRef
  | hold page => some page
  | _ => none

/-- A flush is in progress. -/
def Pc.inFlush : Pc → Bool
  | flush _ _ pc => pc ≠ .start ∧ pc ≠ .ended
  | _ => false

/-- The thread holds `flush_cache_mutex`. -/
def Pc.locked : Pc → Bool
  | flush _ _ pc => pc ≠ .start ∧ pc ≠ .enter
  | _ => false

/-- The thread is counted in `free_page_waiters`. -/
def Pc.waiting : Pc → Bool
  | asleep _ | woken _ => true
  | _ => false

def FlushPc.toFlush : FlushPc → List PageRef
  | discard l | write l | transaction l | update l _ _ => l
  | _ => []

/-- The list `pages_to_flush` of a flush. -/
def Pc.toFlush : Pc → List PageRef
  | flush _ _ pc => pc.toFlush
  | _ => []

/-- The pages that a flush has freed, but which still count as pages in the hash. -/
def Pc.moved : Pc → ℕ
  | flush _ _ (.update _ pagecnt _) => pagecnt
  | _ => 0

@[simp] theorem Pc.held_wake (pc : Pc) : pc.wake.held = pc.held := by cases pc <;> rfl

@[simp] theorem Pc.inFlush_wake (pc : Pc) : pc.wake.inFlush = pc.inFlush := by cases pc <;> rfl

@[simp] theorem Pc.locked_wake (pc : Pc) : pc.wake.locked = pc.locked := by cases pc <;> rfl

@[simp] theorem Pc.waiting_wake (pc : Pc) : pc.wake.waiting = pc.waiting := by cases pc <;> rfl

@[simp] theorem Pc.toFlush_wake (pc : Pc) : pc.wake.toFlush = pc.toFlush := by cases pc <;> rfl

@[simp] theorem Pc.moved_wake (pc : Pc) : pc.wake.moved = pc.moved := by cases pc <;> rfl

/-- The thread neither flushes nor waits. -/
def Pc.plain : Pc → Bool
  | idle | take | retry _ | hold _ => true
  | _ => false

theorem Pc.plain_spec {pc : Pc} (h : pc.plain = true) : pc.moved = 0 ∧ pc.inFlush = false ∧
    pc.waiting = false ∧ pc.locked = false ∧ pc.toFlush = [] := by
  cases pc <;> first | exact ⟨rfl, rfl, rfl, rfl, rfl⟩ | exact absurd h (by simp [plain])

theorem Cont.pc_spec (cont : Cont) : cont.pc.plain = true ∧ cont.pc.held = none := by
  cases cont <;> exact ⟨rfl, rfl⟩

theorem Pc.wake_ne_asleep (pc : Pc) (run : Bool) : pc.wake ≠ .asleep run := by
  cases pc <;> simp [Pc.wake]

theorem Pc.locked_of_moved {pc : Pc} (h : pc.locked = false) : pc.moved = 0 := by
  rcases pc with _ | _ | _ | _ | _ | _ | ⟨_, _, pc⟩ <;> try rfl
  cases pc <;> simp_all [Pc.moved, Pc.locked]

theorem Pc.locked_of_toFlush {pc : Pc} (h : pc.locked = false) : pc.toFlush = [] := by
  rcases pc with _ | _ | _ | _ | _ | _ | ⟨_, _, pc⟩ <;> try rfl
  cases pc <;> simp_all [Pc.toFlush, FlushPc.toFlush, Pc.locked]

theorem toFlush_nil {l : List PageRef} :
    ([] : List PageRef).Nodup ∧ ∀ p ∈ ([] : List PageRef), p ∈ l :=
  ⟨nodup_nil, forall_mem_nil _⟩

/-! ## The invariant -/

/-- A truth value as a number. -/
def one (b : Bool) : ℕ := if b then 1 else 0

@[simp] theorem one_true : one true = 1 := rfl

@[simp] theorem one_false : one false = 0 := rfl

structure Inv (n : ℕ) (s : State) : Prop where
  places : ∀ p, s.freePages.count p + s.cacheHash.count p +
    s.threads.countP (fun pc => pc.held = some p) = if p < n then 1 else 0
  free : s.cachePagesFree = s.freePages.length
  inHash : s.cachePagesInHash = s.cacheHash.length + ((s.threads.map Pc.moved).sum : ℕ)
  running : s.flushPageRunning = s.threads.countP Pc.inFlush
  waiters : s.freePageWaiters = s.threads.countP Pc.waiting
  asleep : ∀ run, .asleep run ∈ s.threads → 0 < s.threads.countP Pc.inFlush
  mutex : s.threads.countP Pc.locked = one s.flushCacheMutex
  toFlush : ∀ pc ∈ s.threads, pc.toFlush.Nodup ∧ ∀ p ∈ pc.toFlush, p ∈ s.cacheHash

namespace Inv

variable {n t : ℕ} {s s' : State} {pc pc' : Pc}

theorem start (n : ℕ) : Inv n (start n) where
  places p := by
    simp [MemoryPages.start, count_range]
  free := by simp [MemoryPages.start]
  inHash := rfl
  running := rfl
  waiters := rfl
  asleep run h := absurd h (by simp [MemoryPages.start])
  mutex := rfl
  toFlush pc h := absurd h (by simp [MemoryPages.start])

theorem of_thread (h : Inv n s) (ht : s.threads[t]? = some pc)
    (hthreads : s'.threads = s.threads.set t pc')
    (places : ∀ p, s'.freePages.count p + s'.cacheHash.count p + one (pc'.held = some p) =
      s.freePages.count p + s.cacheHash.count p + one (pc.held = some p))
    (free : s'.cachePagesFree - s'.freePages.length = s.cachePagesFree - s.freePages.length)
    (inHash : s'.cachePagesInHash - s'.cacheHash.length - pc'.moved =
      s.cachePagesInHash - s.cacheHash.length - pc.moved)
    (running : s'.flushPageRunning - one pc'.inFlush = s.flushPageRunning - one pc.inFlush)
    (waiters : s'.freePageWaiters - one pc'.waiting = s.freePageWaiters - one pc.waiting)
    (asleep : ∀ run, pc' = .asleep run → s'.flushPageRunning ≠ 0)
    (leaves : pc.inFlush = true → pc'.inFlush = false → ∀ run, .asleep run ∉ s.threads)
    (mutex : one pc'.locked + one s.flushCacheMutex = one pc.locked + one s'.flushCacheMutex)
    (toFlush : pc'.toFlush.Nodup ∧ ∀ p ∈ pc'.toFlush, p ∈ s'.cacheHash)
    (hash : pc.locked = true ∨ ∀ p ∈ s.cacheHash, p ∈ s'.cacheHash) : Inv n s' := by
  have hcount := fun f : Pc → Bool => countP_set_add ht pc' f
  have hsum := sum_map_set_add ht pc' Pc.moved
  have hinFlush := hcount Pc.inFlush
  have hrunning : s'.flushPageRunning = s'.threads.countP Pc.inFlush := by
    have := h.running
    rw [hthreads]
    unfold one at running
    omega
  refine ⟨fun p => ?_, ?_, ?_, hrunning, ?_, fun run hmem => ?_, ?_, fun pc₂ hmem => ?_⟩
  · have := places p
    have := h.places p
    have := hcount fun pc => pc.held = some p
    rw [hthreads]
    unfold one at *
    omega
  · have := h.free
    omega
  · have := h.inHash
    rw [hthreads]
    omega
  · have := h.waiters
    have := hcount Pc.waiting
    rw [hthreads]
    unfold one at waiters
    omega
  · -- Somebody is asleep: this thread now, or another one, and then there is another flush.
    rw [hthreads] at hmem hrunning ⊢
    rcases mem_or_eq_of_mem_set hmem with hmem | heq
    · have hpos := h.asleep run hmem
      rcases hb : pc.inFlush with _ | _ <;> rcases hb' : pc'.inFlush with _ | _ <;>
        simp only [hb, hb', if_true, Bool.false_eq_true, if_false] at hinFlush
      · omega
      · omega
      · exact absurd hmem (leaves hb hb' run)
      · omega
    · have := asleep run heq.symm
      omega
  · have := h.mutex
    have := hcount Pc.locked
    rw [hthreads]
    unfold one at *
    omega
  · rw [hthreads] at hmem
    rcases eq_or_getElem?_of_mem_set hmem with rfl | ⟨j, hj, hpc2⟩
    · exact toFlush
    · obtain ⟨hnodup, hsub⟩ := h.toFlush pc₂ (mem_of_getElem? hpc2)
      refine ⟨hnodup, fun p hp => ?_⟩
      rcases hash with hlocked | hhash
      · -- Only one flush has pages to flush.
        have hle : s.threads.countP Pc.locked ≤ 1 := by
          rw [h.mutex, one]
          split_ifs <;> omega
        rw [Pc.locked_of_toFlush (eq_false_of_countP_le_one ht hlocked hle hj hpc2)] at hp
        exact absurd hp not_mem_nil
      · exact hhash p (hsub p hp)

/-- A thread goes on without a page, a counter or a lock. -/
theorem goto (h : Inv n s) (ht : s.threads[t]? = some pc) (held : pc'.held = pc.held)
    (moved : pc'.moved = pc.moved) (inFlush : pc'.inFlush = pc.inFlush)
    (waiting : pc'.waiting = pc.waiting) (locked : pc'.locked = pc.locked)
    (asleep : ∀ run, pc' ≠ .asleep run)
    (toFlush : pc'.toFlush.Nodup ∧ ∀ p ∈ pc'.toFlush, p ∈ s.cacheHash) :
    Inv n (s.setThread t pc') := by
  refine h.of_thread ht rfl (fun p => by rw [held]; rfl) rfl ?_ ?_ ?_
    (fun run hrun => absurd hrun (asleep run)) (fun h1 h2 => ?_) ?_ toFlush (.inr fun _ hp => hp)
  · rw [moved]; rfl
  · rw [inFlush]; rfl
  · rw [waiting]; rfl
  · rw [inFlush, h1] at h2
    exact absurd h2 (by decide)
  · rw [locked]; rfl

theorem hash_nodup (h : Inv n s) : s.cacheHash.Nodup := by
  refine nodup_iff_count_le_one.2 fun p => ?_
  have := h.places p
  split_ifs at this <;> omega

theorem moved_eq (h : Inv n s) (ht : s.threads[t]? = some pc) (hl : pc.locked = true) :
    (s.threads.map Pc.moved).sum = pc.moved := by
  have hadd := sum_map_set_add ht .idle Pc.moved
  have hle : s.threads.countP Pc.locked ≤ 1 := by
    rw [h.mutex, one]
    split_ifs <;> omega
  have hzero : ((s.threads.set t .idle).map Pc.moved).sum = 0 := by
    refine sum_eq_zero fun m hm => ?_
    obtain ⟨pc₂, hpc2, rfl⟩ := mem_map.1 hm
    rcases eq_or_getElem?_of_mem_set hpc2 with rfl | ⟨j, hj, hpc2⟩
    · rfl
    · exact Pc.locked_of_moved (eq_false_of_countP_le_one ht hl hle hj hpc2)
  rw [hzero, Nat.zero_add] at hadd
  exact hadd.symm

/-! ## Signals and new threads -/

theorem countP_map_wake {f : Pc → Bool} (hf : ∀ pc, f pc.wake = f pc) (l : List Pc) :
    (l.map Pc.wake).countP f = l.countP f := by
  rw [countP_map]
  exact congrArg (countP · l) (funext hf)

theorem broadcast (h : Inv n s) : Inv n s.broadcast := by
  unfold State.broadcast
  split_ifs with hw
  · refine ⟨fun p => ?_, h.free, ?_, ?_, ?_, fun run hmem => ?_, ?_, fun pc hmem => ?_⟩
    · rw [countP_map_wake (by simp)]
      exact h.places p
    · rw [List.map_map, show Pc.moved ∘ Pc.wake = Pc.moved from funext Pc.moved_wake]
      exact h.inHash
    · rw [countP_map_wake Pc.inFlush_wake]
      exact h.running
    · rw [countP_map_wake Pc.waiting_wake]
      exact h.waiters
    · obtain ⟨pc, -, heq⟩ := mem_map.1 hmem
      exact absurd heq (pc.wake_ne_asleep run)
    · rw [countP_map_wake Pc.locked_wake]
      exact h.mutex
    · obtain ⟨pc, hpc, rfl⟩ := mem_map.1 hmem
      rw [Pc.toFlush_wake]
      exact h.toFlush pc hpc
  · exact h

theorem not_asleep_broadcast (h : Inv n s) (run : Bool) : .asleep run ∉ s.broadcast.threads := by
  unfold State.broadcast
  split_ifs with hw
  · rintro hmem
    obtain ⟨pc, -, heq⟩ := mem_map.1 hmem
    exact pc.wake_ne_asleep run heq
  · -- Nobody is counted, so that nobody waits.
    rw [ne_eq, not_not, h.waiters, Nat.cast_eq_zero, countP_eq_zero] at hw
    exact fun hmem => hw _ hmem rfl

theorem broadcast_setThread (hpc : pc.wake = pc) :
    (s.setThread t pc).broadcast = s.broadcast.setThread t pc := by
  simp only [State.broadcast, State.setThread, map_set, hpc]
  split_ifs <;> rfl

theorem create (h : Inv n s) (hheld : pc.held = none) (hmoved : pc.moved = 0)
    (hflush : pc.inFlush = false) (hwaiting : pc.waiting = false) (hlocked : pc.locked = false) :
    Inv n { s with threads := s.threads ++ [pc] } where
  places p := by simpa [countP_append, hheld] using h.places p
  free := h.free
  inHash := by simpa [hmoved] using h.inHash
  running := by simpa [countP_append, hflush] using h.running
  waiters := by simpa [countP_append, hwaiting] using h.waiters
  asleep run hmem := by
    rcases mem_append.1 hmem with hmem | hmem
    · simpa [countP_append, hflush] using h.asleep run hmem
    · rw [← mem_singleton.1 hmem] at hwaiting
      exact absurd hwaiting (by simp [Pc.waiting])
  mutex := by simpa [countP_append, hlocked] using h.mutex
  toFlush pc₂ hmem := by
    rcases mem_append.1 hmem with hmem | hmem
    · exact h.toFlush pc₂ hmem
    · rw [mem_singleton.1 hmem, Pc.locked_of_toFlush hlocked]
      exact ⟨nodup_nil, by simp⟩

theorem runThread (h : Inv n s) (run : Bool) : Inv n (s.runThread run) := by
  unfold State.runThread
  split_ifs
  · exact h.create rfl rfl rfl rfl rfl
  · exact h

/-! ## Taking and returning pages -/

/-- A step between two places where the thread neither flushes nor waits: it can only move pages. -/
theorem of_plain (h : Inv n s) (ht : s.threads[t]? = some pc)
    (hthreads : s'.threads = s.threads.set t pc') (hpc : pc.plain = true) (hpc' : pc'.plain = true)
    (places : ∀ p, s'.freePages.count p + s'.cacheHash.count p + one (pc'.held = some p) =
      s.freePages.count p + s.cacheHash.count p + one (pc.held = some p))
    (free : s'.cachePagesFree - s'.freePages.length = s.cachePagesFree - s.freePages.length)
    (inHash : s'.cachePagesInHash - s'.cacheHash.length = s.cachePagesInHash - s.cacheHash.length)
    (running : s'.flushPageRunning = s.flushPageRunning)
    (waiters : s'.freePageWaiters = s.freePageWaiters)
    (mutex : s'.flushCacheMutex = s.flushCacheMutex)
    (hash : ∀ p ∈ s.cacheHash, p ∈ s'.cacheHash) : Inv n s' := by
  obtain ⟨moved, inFlush, waiting, locked, toFlush⟩ := Pc.plain_spec hpc
  obtain ⟨moved', inFlush', waiting', locked', toFlush'⟩ := Pc.plain_spec hpc'
  refine h.of_thread ht hthreads places free ?_ ?_ ?_ (fun run hrun => ?_) (fun hin => ?_) ?_ ?_
    (.inr hash)
  · rw [moved, moved', inHash]
  · rw [inFlush, inFlush', running]
  · rw [waiting, waiting', waiters]
  · rw [hrun] at hpc'
    exact absurd hpc' (by simp [Pc.plain])
  · rw [inFlush] at hin
    exact absurd hin (by decide)
  · rw [locked, locked', mutex]
  · rw [toFlush']
    exact toFlush_nil

theorem takePage (h : Inv n s) (ht : s.threads[t]? = some pc) (hpc : pc.plain = true)
    (held : pc.held = none) (run : Bool) : Inv n (s.takePage t run) := by
  unfold State.takePage
  rcases hfree : s.freePages with _ | ⟨page, rest⟩
  · exact h
  refine runThread (s := { s with
      freePages := rest
      cachePagesFree := s.cachePagesFree - 1 }.setThread t (.hold page)) ?_ run
  refine h.of_plain ht rfl hpc rfl (fun p => ?_) ?_ rfl rfl rfl rfl fun _ hp => hp
  · have hhold : (Pc.hold page).held = some page := rfl
    simp only [State.setThread, hfree, held, hhold, one, count_cons, some_inj,
      beq_iff_eq, decide_eq_true_eq, reduceCtorEq, if_false]
    omega
  · simp only [State.setThread, hfree, length_cons]
    omega

theorem flushStart (h : Inv n s) (ht : s.threads[t]? = some pc) (hpc : pc.plain = true)
    (held : pc.held = none) (nosleep : ℕ) (cont : Cont) :
    Inv n (s.setThread t (.flush nosleep cont .start)) := by
  obtain ⟨moved, inFlush, waiting, locked, -⟩ := Pc.plain_spec hpc
  exact h.goto ht held.symm moved.symm inFlush.symm waiting.symm locked.symm
    (fun _ => Pc.noConfusion) toFlush_nil

theorem retryPage (h : Inv n s) (ht : s.threads[t]? = some pc) (hpc : pc.plain = true)
    (held : pc.held = none) (run : Bool) : Inv n (s.retryPage t run) := by
  unfold State.retryPage
  split_ifs
  · exact h.flushStart ht hpc held 1 (.retry run)
  · exact h.takePage ht hpc held run

theorem findPage (h : Inv n s) (ht : s.threads[t]? = some pc) (hpc : pc.plain = true)
    (held : pc.held = none) (run : Bool) : Inv n (s.findPage t run) := by
  unfold State.findPage
  split_ifs with hwait
  · -- A flush is in progress when the thread starts to wait.
    obtain ⟨moved, inFlush, waiting, locked, -⟩ := Pc.plain_spec hpc
    refine h.of_thread ht rfl (fun p => by rw [held]; rfl) rfl (by rw [moved]; rfl)
      (by rw [inFlush]; rfl) ?_ (fun _ _ => hwait.2) (fun hin => ?_) (by rw [locked]; rfl) ?_
      (.inr fun _ hp => hp)
    · have hasleep : (Pc.asleep run).waiting = true := rfl
      simp [State.waitFreePage, State.setThread, hasleep, waiting]
    · exact absurd hin (by rw [inFlush]; decide)
    · exact toFlush_nil
  · exact h.retryPage ht hpc held run

theorem getFreePage (h : Inv n s) (ht : s.threads[t]? = some .idle) (inside : Bool) :
    Inv n (s.getFreePage n t inside) := by
  have hrun : Inv n { s with flushcacherun := true } := { h with }
  unfold State.getFreePage
  split_ifs
  · exact hrun.flushStart ht rfl rfl 2 .take
  · exact hrun.findPage ht rfl rfl true
  · exact h.findPage ht rfl rfl false

theorem getElem?_setThread (ht : s.threads[t]? = some pc) :
    (s.setThread t pc').threads[t]? = some pc' := by
  simp [State.setThread, (List.getElem?_eq_some_iff.1 ht).1]

theorem findPage_setThread {run : Bool} : (s.setThread t pc).findPage t run = s.findPage t run := by
  rcases hfree : s.freePages with _ | ⟨page, rest⟩ <;>
    simp [State.findPage, State.waitFreePage, State.retryPage, State.takePage, State.setThread,
      hfree]

/-- A thread that wakes up looks for a page as one that has just come. -/
theorem waited (h : Inv n s) (ht : s.threads[t]? = some pc) (hpc : pc.waiting = true)
    (run : Bool) : Inv n (s.waited t run) := by
  have hback : Inv n ({ s with freePageWaiters := s.freePageWaiters - 1 }.setThread t .take) := by
    cases pc with
    | asleep | woken =>
      refine h.of_thread ht rfl (fun p => rfl) rfl rfl rfl ?_ (fun _ => Pc.noConfusion)
        (fun hin => absurd hin (by simp [Pc.inFlush])) rfl
        toFlush_nil (.inr fun _ hp => hp)
      simp [State.setThread, Pc.waiting]
    | _ => exact absurd hpc (by simp [Pc.waiting])
  have hfind := hback.findPage (getElem?_setThread ht) rfl rfl run
  rwa [findPage_setThread] at hfind

theorem getFreePageIfAvailable (h : Inv n s) (hfree : s.freePages = []) :
    Inv n (s.getFreePageIfAvailable n t) := by
  have hrun : ∀ b, Inv n { s with flushcacherun := b } := fun _ => { h with }
  have heq : s.getFreePageIfAvailable n t =
      { s with flushcacherun := s.flushcacherun || decide (s.FewFree n) }.runThread
        (s.FewFree n) := by
    simp [State.getFreePageIfAvailable, hfree]
  rw [heq]
  exact (hrun _).runThread _

theorem returnFreePage {page : PageRef} (h : Inv n s) (ht : s.threads[t]? = some (.hold page)) :
    Inv n (s.returnFreePage t page) := by
  refine h.of_plain ht rfl rfl rfl (fun p => ?_) ?_ rfl rfl rfl rfl fun _ hp => hp
  · simp only [State.returnFreePage, State.returnFreePageLocked, State.setThread, Pc.held, one,
      count_cons, some_inj, beq_iff_eq, decide_eq_true_eq, reduceCtorEq, if_false]
    omega
  · simp only [State.returnFreePage, State.returnFreePageLocked, State.setThread, length_cons]
    omega

theorem addPage {page : PageRef} (h : Inv n s) (ht : s.threads[t]? = some (.hold page))
    (info : Info) : Inv n (s.addPage t page info) := by
  refine h.of_plain ht rfl rfl rfl (fun p => ?_) rfl ?_ rfl rfl rfl
    fun _ hp => mem_append_left _ hp
  · simp only [State.addPage, State.setThread, Pc.held, one, count_append, count_cons,
      count_nil, some_inj, beq_iff_eq, decide_eq_true_eq, reduceCtorEq, if_false]
    omega
  · simp only [State.addPage, State.setThread, length_append, length_singleton]
    omega

theorem addPageIfNotExists {page : PageRef} (h : Inv n s)
    (ht : s.threads[t]? = some (.hold page)) (hash : Hash) (pageid : ℕ) (inDb waiting : Bool) :
    Inv n (s.addPageIfNotExists t page hash pageid inDb waiting) := by
  unfold State.addPageIfNotExists
  split_ifs
  · exact h.returnFreePage ht
  · exact h.returnFreePage ht
  · exact h.addPage ht _

/-! ## The hash -/

/-- Dropping a page, which no flush is about to free. -/
theorem checkPageInMemoryByHash (h : Inv n s) (hash : Hash) (pageid : ℕ) (bad : PageRef → Bool)
    (hdrop : ∀ page ∈ s.badPage hash pageid bad, ∀ pc ∈ s.threads, page ∉ pc.toFlush) :
    Inv n (s.checkPageInMemoryByHash hash pageid bad) := by
  unfold State.checkPageInMemoryByHash
  rcases hbad : s.badPage hash pageid bad with _ | page
  · exact h
  have hperm := perm_cons_erase (mem_of_find?_eq_some hbad)
  refine ⟨fun p => ?_, ?_, ?_, h.running, h.waiters, h.asleep, h.mutex, fun pc hpc => ?_⟩
  · have := h.places p
    have hcount := hperm.count_eq p
    simp only [State.returnFreePageLocked, count_cons] at hcount ⊢
    omega
  · have := h.free
    simp only [State.returnFreePageLocked, length_cons]
    omega
  · have := h.inHash
    have hlen := hperm.length_eq
    rw [length_cons] at hlen
    simp only [State.returnFreePageLocked]
    omega
  · obtain ⟨hnodup, hsub⟩ := h.toFlush pc hpc
    refine ⟨hnodup, fun p hp => (mem_erase_of_ne ?_).2 (hsub p hp)⟩
    rintro rfl
    exact hdrop _ hbad pc hpc hp

theorem switchMemoryPageToHash (h : Inv n s) (oldhash newhash : Hash) (pageid : ℕ) :
    Inv n (s.switchMemoryPageToHash oldhash newhash pageid) := by
  unfold State.switchMemoryPageToHash
  rcases hfind : s.cacheHash.find? fun page => s.info page = ⟨oldhash, pageid, .read⟩ with _ | page
  · exact h
  have hperm : (s.cacheHash.erase page ++ [page]).Perm s.cacheHash :=
    (perm_append_singleton _ _).trans
      (perm_cons_erase (mem_of_find?_eq_some hfind)).symm
  refine ⟨fun p => ?_, h.free, ?_, h.running, h.waiters, h.asleep, h.mutex, fun pc hpc => ?_⟩
  · rw [hperm.count_eq]
    exact h.places p
  · rw [hperm.length_eq]
    exact h.inHash
  · obtain ⟨hnodup, hsub⟩ := h.toFlush pc hpc
    exact ⟨hnodup, fun p hp => hperm.mem_iff.2 (hsub p hp)⟩

/-! ## Flushing -/

theorem foldl_freePage (pages : List PageRef) (s : State) : pages.foldl State.freePage s = { s with
      cacheHash := s.cacheHash.diff pages
      freePages := pages.reverse ++ s.freePages
      cachePagesFree := s.cachePagesFree + pages.length } := by
  induction pages generalizing s with
  | nil => simp
  | cons page pages ih =>
    rw [foldl_cons, ih]
    simp [State.freePage, add_comm, add_left_comm]

theorem discardPages_eq (pages : List PageRef) (s : State) : s.discardPages pages = { s with
      cacheHash := s.cacheHash.diff pages
      freePages := pages.reverse ++ s.freePages
      cachePagesFree := s.cachePagesFree + pages.length
      cachePagesInHash := s.cachePagesInHash - pages.length } := by
  induction pages generalizing s with
  | nil => simp [State.discardPages]
  | cons page pages ih =>
    rw [State.discardPages, foldl_cons]
    refine (ih _).trans ?_
    simp [State.freePage]
    omega

/-- Pages of the hash that are freed, and what remains. -/
theorem diff_perm {pages : List PageRef} (hnodup : pages.Nodup)
    (hsub : ∀ p ∈ pages, p ∈ s.cacheHash) :
    (pages ++ s.cacheHash.diff pages).Perm s.cacheHash := by
  refine subperm_append_diff_self_of_count_le fun p hp => ?_
  rw [count_eq_one_of_mem hnodup hp]
  exact count_pos_iff.2 (hsub p hp)

theorem ofType_nodup (h : Inv n s) (type : PageType) : (s.ofType type).Nodup :=
  h.hash_nodup.filter _

theorem mem_of_mem_ofType {type : PageType} {p : PageRef} (hp : p ∈ s.ofType type) :
    p ∈ s.cacheHash := (mem_filter.1 hp).1

variable {nosleep : ℕ} {cont : Cont}

theorem set_self (ht : s.threads[t]? = some pc) : s.threads.set t pc = s.threads := by
  obtain ⟨hlt, rfl⟩ := List.getElem?_eq_some_iff.1 ht
  exact set_getElem_self hlt

theorem discardPages (h : Inv n s) (ht : s.threads[t]? = some (.flush nosleep cont .locked))
    {pages : List PageRef} (hnodup : pages.Nodup) (hsub : ∀ p ∈ pages, p ∈ s.cacheHash) :
    Inv n (s.discardPages pages) := by
  have hperm := diff_perm hnodup hsub
  rw [discardPages_eq]
  refine h.of_thread ht (set_self ht).symm (fun p => ?_) ?_ ?_ rfl rfl (fun _ => Pc.noConfusion)
    (fun h1 h2 => absurd (h1.symm.trans h2) (by decide)) rfl
    toFlush_nil (.inl rfl)
  · have hcount := hperm.count_eq p
    simp only [count_append, count_reverse] at hcount ⊢
    omega
  · simp only [length_append, length_reverse]
    omega
  · have hlen := hperm.length_eq
    simp only [length_append] at hlen ⊢
    omega

theorem diff_ofType (h : Inv n s) : s.cacheHash.diff (s.ofType .cache) = s.ofType .read := by
  rw [h.hash_nodup.sdiff_eq_filter]
  refine filter_congr fun p hp => ?_
  rcases htype : (s.info p).type <;> simp [State.ofType, htype, hp]

theorem gather (h : Inv n s) (ht : s.threads[t]? = some (.flush nosleep cont .locked)) :
    Inv n (s.gather t nosleep cont) := by
  unfold State.gather
  split_ifs
  · -- The count is set to the number of pages that remain.
    have hmoved := h.moved_eq ht rfl
    have hinHash := h.inHash
    have hperm := diff_perm (h.ofType_nodup .cache) fun p hp => mem_of_mem_ofType hp
    have hpc : ∀ pc : FlushPc, (Pc.flush nosleep cont pc).moved = 0 →
        (Pc.flush nosleep cont pc).inFlush = true → (Pc.flush nosleep cont pc).locked = true →
        (pc.toFlush.Nodup ∧ ∀ p ∈ pc.toFlush, p ∈ s.ofType .read) →
        Inv n ({ s.freeCached with
          cachePagesInHash := ((s.ofType .read).length : ℕ) }.setThread t
          (.flush nosleep cont pc)) := by
      intro pc moved inFlush locked toFlush
      rw [State.freeCached, foldl_freePage, h.diff_ofType]
      rw [h.diff_ofType] at hperm
      refine h.of_thread ht rfl (fun p => ?_) ?_ ?_ ?_ rfl (fun _ => Pc.noConfusion)
        (fun _ h2 => ?_) ?_ toFlush (.inl rfl)
      · have hcount := hperm.count_eq p
        simp only [State.setThread, Pc.held, count_append, count_reverse, reduceCtorEq,
          decide_false] at hcount ⊢
        omega
      · simp only [State.setThread, length_append, length_reverse]
        omega
      · rw [moved]
        simp only [State.setThread]
        omega
      · rw [inFlush]
        rfl
      · rw [inFlush] at h2
        exact absurd h2 (by decide)
      · rw [locked]
        rfl
    dsimp only
    split_ifs
    · exact hpc _ rfl rfl rfl toFlush_nil
    · exact hpc _ rfl rfl rfl ⟨h.ofType_nodup .read, fun _ hp => hp⟩
  · exact h.goto ht rfl rfl rfl rfl rfl (fun _ => Pc.noConfusion)
      toFlush_nil

theorem freePage_update {page : PageRef} {pages : List PageRef} {pagecnt updates : ℕ}
    (h : Inv n s) (ht : s.threads[t]? = some (.flush nosleep cont
      (.update (page :: pages) pagecnt updates))) :
    Inv n ((s.freePage page).setThread t
      (.flush nosleep cont (.update pages (pagecnt + 1) (updates + 1)))) := by
  obtain ⟨hnodup, hsub⟩ := h.toFlush _ (mem_of_getElem? ht)
  obtain ⟨hpage, hnodup⟩ := nodup_cons.1 hnodup
  have hperm := perm_cons_erase (hsub page mem_cons_self)
  refine h.of_thread ht rfl (fun p => ?_) ?_ ?_ rfl rfl (fun _ => Pc.noConfusion)
    (fun h1 h2 => absurd (h1.symm.trans h2) (by decide)) rfl ⟨hnodup, fun p hp => ?_⟩ (.inl rfl)
  · have hcount := hperm.count_eq p
    simp only [State.setThread, State.freePage, Pc.held, count_cons, reduceCtorEq,
      decide_false] at hcount ⊢
    omega
  · simp only [State.setThread, State.freePage, length_cons]
    omega
  · have hlen := hperm.length_eq
    rw [length_cons] at hlen
    simp only [State.setThread, State.freePage, Pc.moved]
    omega
  · refine (mem_erase_of_ne ?_).2 (hsub p (mem_cons_of_mem _ hp))
    rintro rfl
    exact hpage hp

/-- The loop frees all its pages, as far as it comes. -/
theorem updateLoop {accepted : PageRef → Bool} {pages : List PageRef} {pagecnt updates : ℕ}
    (hlt : t < s.threads.length)
    (h : Inv n (s.setThread t (.flush nosleep cont (.update pages pagecnt updates))))
    (haccepted : ∀ page ∈ pages, accepted page = true) :
    Inv n (State.updateLoop t nosleep cont accepted pages pagecnt updates s) := by
  have hself : ∀ {s : State} {pc}, t < s.threads.length →
      (s.setThread t pc).threads[t]? = some pc := fun hlt => by simp [State.setThread, hlt]
  induction pages generalizing pagecnt updates s with
  | nil =>
    rw [State.updateLoop]
    have hthreads : (s.threads.set t (.flush nosleep cont .finish)) =
        (s.setThread t (.flush nosleep cont (.update [] pagecnt updates))).threads.set t
          (.flush nosleep cont .finish) := by
      simp [State.setThread]
    refine h.of_thread (hself hlt) hthreads (fun p => rfl) rfl ?_ rfl rfl
      (fun _ => Pc.noConfusion) (fun h1 h2 => absurd (h1.symm.trans h2) (by decide)) rfl
      toFlush_nil (.inl rfl)
    simp only [State.setThread, Pc.moved]
    omega
  | cons page pages ih =>
    have hpage := h.freePage_update (hself hlt)
    replace hpage : Inv n ((s.freePage page).setThread t
        (.flush nosleep cont (.update pages (pagecnt + 1) (updates + 1)))) := by
      simpa [State.setThread, State.freePage] using hpage
    rw [State.updateLoop, if_pos (haccepted page mem_cons_self),
      if_pos (haccepted page mem_cons_self)]
    split_ifs
    · rw [← broadcast_setThread rfl]
      exact hpage.broadcast
    · exact ih hlt hpage fun p hp => haccepted p (mem_cons_of_mem _ hp)

theorem getElem?_broadcast (ht : s.threads[t]? = some pc) (hpc : pc.wake = pc) :
    s.broadcast.threads[t]? = some pc := by
  unfold State.broadcast
  split_ifs
  · rw [getElem?_map, ht, map_some, hpc]
  · exact ht

theorem discardPages_setThread (pages : List PageRef) :
    (s.setThread t pc).discardPages pages = (s.discardPages pages).setThread t pc := by
  rw [discardPages_eq, discardPages_eq]
  rfl

theorem gather_setThread : (s.setThread t pc).gather t nosleep cont = s.gather t nosleep cont := by
  simp only [State.gather, State.freeCached, foldl_freePage, State.setThread, State.ofType, set_set]
  split_ifs <;> rfl

theorem mutex_of_locked (h : Inv n s) (ht : s.threads[t]? = some pc) (hl : pc.locked = true) :
    s.flushCacheMutex = true := by
  have hpos : 0 < s.threads.countP Pc.locked :=
    countP_pos_iff.2 ⟨pc, mem_of_getElem? ht, hl⟩
  rw [h.mutex] at hpos
  by_contra hfalse
  rw [Bool.not_eq_true] at hfalse
  rw [hfalse, one_false] at hpos
  exact absurd hpos (lt_irrefl 0)

/-- A flush ends, and wakes those who wait. -/
theorem finish (h : Inv n s) (ht : s.threads[t]? = some (.flush nosleep cont .finish)) :
    Inv n ({ s with
      flushcacherun := false
      flushPageRunning := s.flushPageRunning - 1 }.broadcast.setThread t
      (.flush nosleep cont .ended)) := by
  have heq : ({ s with
      flushcacherun := false
      flushPageRunning := s.flushPageRunning - 1 } : State).broadcast = { s.broadcast with
      flushcacherun := false
      flushPageRunning := s.broadcast.flushPageRunning - 1 } := by
    unfold State.broadcast
    split_ifs <;> rfl
  rw [heq]
  refine h.broadcast.of_thread (getElem?_broadcast ht rfl) rfl (fun p => rfl) rfl rfl ?_ rfl
    (fun _ => Pc.noConfusion) (fun _ _ => h.not_asleep_broadcast) rfl
    toFlush_nil (.inl rfl)
  simp [State.setThread, Pc.inFlush]

/-- A flush goes on, when its pages are written and the database accepts its rows. -/
theorem flushStep {pc : FlushPc} {o : Outcome} (h : Inv n s)
    (ht : s.threads[t]? = some (.flush nosleep cont pc))
    (hwritten : ∀ l, pc = .write l → o.written = true)
    (haccepted : ∀ l c u, pc = .update l c u → ∀ page ∈ l, o.accepted page = true)
    (hstep : s.flushStep n t nosleep cont o pc = some s') : Inv n s' := by
  have hlt := (List.getElem?_eq_some_iff.1 ht).1
  cases pc with
  | start =>
    obtain ⟨⟩ := hstep
    refine h.of_thread ht rfl (fun p => rfl) rfl rfl ?_ rfl (fun _ => Pc.noConfusion)
      (fun h1 _ => absurd h1 (by simp [Pc.inFlush])) rfl toFlush_nil (.inr fun _ hp => hp)
    simp [State.setThread, Pc.inFlush]
  | enter =>
    rw [State.flushStep] at hstep
    split_ifs at hstep with hmutex
    obtain ⟨⟩ := hstep
    refine h.of_thread ht rfl (fun p => rfl) rfl rfl rfl rfl (fun _ => Pc.noConfusion)
      (fun _ h2 => absurd h2 (by simp [Pc.inFlush])) ?_ toFlush_nil (.inr fun _ hp => hp)
    simp [State.setThread, Pc.locked, hmutex]
  | locked =>
    rw [State.flushStep] at hstep
    split_ifs at hstep with hdiscard
    · obtain ⟨⟩ := hstep
      have hcached := h.discardPages ht (h.ofType_nodup .cache) fun p hp => mem_of_mem_ofType hp
      have hread := h.diff_ofType
      rw [discardPages_eq] at hcached ⊢
      refine hcached.goto ht rfl rfl rfl rfl rfl (fun _ => Pc.noConfusion)
        ⟨h.ofType_nodup .read, fun p hp => ?_⟩
      dsimp only
      rwa [hread]
    · obtain ⟨⟩ := hstep
      exact h.gather ht
  | discard l =>
    obtain ⟨hperm, ⟨⟩⟩ := ite_none_right_eq_some.1 hstep
    obtain ⟨hnodup, hsub⟩ := h.toFlush _ (mem_of_getElem? ht)
    -- The thread forgets its list before it frees a part of it.
    have hlocked : Inv n (s.setThread t (.flush nosleep cont .locked)) :=
      h.goto ht rfl rfl rfl rfl rfl (fun _ => Pc.noConfusion) toFlush_nil
    have hpages := hlocked.discardPages (getElem?_setThread ht)
      ((hperm.nodup_iff.2 hnodup).sublist (take_sublist (max 1 (n / 2)) _))
      fun p hp => hsub p (hperm.mem_iff.1 (mem_of_mem_take hp))
    rw [discardPages_setThread] at hpages
    have ht' : ((s.discardPages (o.sorted.take (max 1 (n / 2)))).setThread t
        (.flush nosleep cont .locked)).threads[t]? = some (.flush nosleep cont .locked) := by
      rw [discardPages_eq]
      exact getElem?_setThread ht
    have hgather := hpages.broadcast.gather (getElem?_broadcast ht' rfl)
    rwa [broadcast_setThread rfl, gather_setThread] at hgather
  | write l =>
    rw [State.flushStep] at hstep
    split_ifs at hstep with hperm hwr
    · obtain ⟨⟩ := hstep
      obtain ⟨hnodup, hsub⟩ := h.toFlush _ (mem_of_getElem? ht)
      refine h.goto ht rfl rfl rfl rfl rfl (fun _ => Pc.noConfusion)
        ⟨(hperm.nodup_iff.2 hnodup).sublist (take_sublist ..), fun p hp => ?_⟩
      exact hsub p (hperm.mem_iff.1 (mem_of_mem_take hp))
    · exact absurd (hwritten l rfl) hwr
  | transaction l =>
    obtain ⟨⟩ := hstep
    exact h.goto ht rfl rfl rfl rfl rfl (fun _ => Pc.noConfusion)
      (h.toFlush (.flush nosleep cont (.transaction l)) (mem_of_getElem? ht))
  | update l c u =>
    obtain ⟨⟩ := hstep
    refine updateLoop hlt ?_ (haccepted l c u rfl)
    rw [State.setThread, set_self ht]
    exact h
  | finish =>
    obtain ⟨⟩ := hstep
    exact h.finish ht
  | ended =>
    obtain ⟨⟩ := hstep
    obtain ⟨hplain, hheld⟩ := cont.pc_spec
    obtain ⟨moved, inFlush, waiting, locked, toFlush⟩ := Pc.plain_spec hplain
    refine h.of_thread ht rfl (fun p => by rw [hheld]; rfl) rfl (by rw [moved]; rfl)
      (by rw [inFlush]; rfl) (by rw [waiting]; rfl) (fun run hrun => ?_)
      (fun h1 _ => absurd h1 (by simp [Pc.inFlush])) ?_ (by rw [toFlush]; exact toFlush_nil)
        (.inl rfl)
    · exact absurd hplain (by rw [hrun]; simp [Pc.plain])
    · rw [locked, h.mutex_of_locked ht rfl]
      rfl

end Inv

/-! ## Every run -/

/-- Where the functions keep the counts: a flush is not cut short by an error, no page is taken
    without being counted, the rows of a flush are accepted, and no page is dropped that a flush is
    about to free. -/
def Sound (s : State) : Action → Prop
  | .getFreePageIfAvailable _ => s.freePages = []
  | .checkPageInMemoryByHash hash pageid bad =>
    ∀ page ∈ s.badPage hash pageid bad, ∀ pc ∈ s.threads, page ∉ pc.toFlush
  | .step t o =>
    match s.threads[t]? with
    | some (.flush _ _ (.write _)) => o.written = true
    | some (.flush _ _ (.update pages _ _)) => ∀ page ∈ pages, o.accepted page = true
    | _ => True
  | _ => True

/-- The loop of a flush does not come to a 64th row, at which it would leave the lock. -/
def WholeLoop (s : State) : Action → Prop
  | .step t _ =>
    match s.threads[t]? with
    | some (.flush nosleep _ (.update pages _ updates)) =>
      nosleep = 1 ∨ updates % 64 + pages.length < 64
    | _ => True
  | _ => True

variable {n : ℕ} {s s' : State} {a : Action}

theorem Inv.step (h : Inv n s) (hok : Sound s a) (hstep : step n s a = some s') : Inv n s' := by
  cases a with
  | create =>
    obtain ⟨⟩ := hstep
    exact h.create rfl rfl rfl rfl rfl
  | getFreePage t inside =>
    obtain ⟨ht, ⟨⟩⟩ := ite_none_right_eq_some.1 hstep
    exact h.getFreePage ht inside
  | getFreePageIfAvailable t =>
    obtain ⟨ht, ⟨⟩⟩ := ite_none_right_eq_some.1 hstep
    exact h.getFreePageIfAvailable hok
  | returnFreePage t =>
    rw [MemoryPages.step] at hstep
    split at hstep
    · rename_i page ht
      obtain ⟨⟩ := hstep
      exact h.returnFreePage ht
    · exact absurd hstep (by simp)
  | addPage t info =>
    rw [MemoryPages.step] at hstep
    split at hstep
    · rename_i page ht
      obtain ⟨⟩ := hstep
      exact h.addPage ht info
    · exact absurd hstep (by simp)
  | addPageIfNotExists t hash pageid inDb waiting =>
    rw [MemoryPages.step] at hstep
    split at hstep
    · rename_i page ht
      obtain ⟨⟩ := hstep
      exact h.addPageIfNotExists ht hash pageid inDb waiting
    · exact absurd hstep (by simp)
  | checkPageInMemoryByHash hash pageid bad =>
    obtain ⟨⟩ := hstep
    exact h.checkPageInMemoryByHash hash pageid bad hok
  | switchMemoryPageToHash oldhash newhash pageid =>
    obtain ⟨⟩ := hstep
    exact h.switchMemoryPageToHash oldhash newhash pageid
  | flushPages t nosleep =>
    obtain ⟨ht, ⟨⟩⟩ := ite_none_right_eq_some.1 hstep
    exact h.flushStart ht rfl rfl nosleep .done
  | step t o =>
    rw [MemoryPages.step] at hstep
    rw [Sound] at hok
    rcases ht : s.threads[t]? with _ | pc
    · rw [ht] at hstep
      exact absurd hstep (by simp)
    rw [ht] at hstep hok
    cases pc with
    | take =>
      obtain ⟨⟩ := hstep
      exact h.findPage ht rfl rfl false
    | asleep run | woken run =>
      obtain ⟨⟩ := hstep
      exact h.waited ht rfl run
    | retry run =>
      obtain ⟨⟩ := hstep
      exact h.retryPage ht rfl rfl run
    | flush nosleep cont pc =>
      refine h.flushStep ht ?_ ?_ hstep
      · rintro l rfl
        exact hok
      · rintro l c u rfl
        exact hok
    | idle | hold => exact absurd hstep (by simp)

/-! ## Flushes that are not interrupted -/

/-- No flush has freed pages that it has not counted. -/
def NoneMoved (s : State) : Prop := ∀ pc ∈ s.threads, pc.moved = 0

namespace NoneMoved

variable {t : ℕ} {pc : Pc} {run : Bool}

theorem of_set (h : NoneMoved s) (hthreads : s'.threads = s.threads.set t pc)
    (hpc : pc.moved = 0) : NoneMoved s' := by
  intro pc' hpc'
  rw [hthreads] at hpc'
  rcases mem_or_eq_of_mem_set hpc' with hmem | rfl
  · exact h pc' hmem
  · exact hpc

theorem setThread (h : NoneMoved s) (hpc : pc.moved = 0) : NoneMoved (s.setThread t pc) :=
  h.of_set rfl hpc

theorem create (h : NoneMoved s) (hpc : pc.moved = 0) :
    NoneMoved { s with threads := s.threads ++ [pc] } := by
  intro pc' hpc'
  rcases mem_append.1 hpc' with hmem | hmem
  · exact h pc' hmem
  · rwa [mem_singleton.1 hmem]

theorem runThread (h : NoneMoved s) : NoneMoved (s.runThread run) := by
  unfold State.runThread
  split_ifs
  · exact h.create rfl
  · exact h

theorem broadcast (h : NoneMoved s) : NoneMoved s.broadcast := by
  unfold State.broadcast
  split_ifs
  · intro pc' hpc'
    obtain ⟨pc, hpc, rfl⟩ := mem_map.1 hpc'
    rw [Pc.moved_wake]
    exact h pc hpc
  · exact h

theorem findPage (h : NoneMoved s) :
    NoneMoved (s.findPage t run) ∧ NoneMoved (s.retryPage t run) := by
  have htake : NoneMoved (s.takePage t run) := by
    unfold State.takePage
    split
    · exact runThread (h.of_set rfl rfl)
    · exact h
  have hretry : NoneMoved (s.retryPage t run) := by
    unfold State.retryPage
    split_ifs
    · exact h.setThread rfl
    · exact htake
  refine ⟨?_, hretry⟩
  unfold State.findPage
  split_ifs
  · exact setThread h rfl
  · exact hretry

theorem gather {nosleep : ℕ} {cont : Cont} (h : NoneMoved s) :
    NoneMoved (s.gather t nosleep cont) := by
  unfold State.gather
  split_ifs
  · rw [State.freeCached, Inv.foldl_freePage]
    refine setThread h ?_
    split_ifs <;> rfl
  · exact h.setThread rfl

theorem updateLoop {nosleep : ℕ} {cont : Cont} {accepted : PageRef → Bool} {pages : List PageRef}
    {pagecnt updates : ℕ} (h : NoneMoved s) (haccepted : ∀ page ∈ pages, accepted page = true)
    (hwhole : nosleep = 1 ∨ updates % 64 + pages.length < 64) :
    NoneMoved (State.updateLoop t nosleep cont accepted pages pagecnt updates s) := by
  induction pages generalizing pagecnt updates s with
  | nil => exact setThread h rfl
  | cons page pages ih =>
    rw [State.updateLoop, if_pos (haccepted page mem_cons_self),
      if_pos (haccepted page mem_cons_self)]
    rw [length_cons] at hwhole
    rw [if_neg (by omega)]
    exact ih h (fun p hp => haccepted p (mem_cons_of_mem _ hp)) (by omega)

theorem flushStep {nosleep : ℕ} {cont : Cont} {pc : FlushPc} {o : Outcome} (h : NoneMoved s)
    (haccepted : ∀ l c u, pc = .update l c u → (∀ page ∈ l, o.accepted page = true) ∧
      (nosleep = 1 ∨ u % 64 + l.length < 64))
    (hstep : s.flushStep n t nosleep cont o pc = some s') : NoneMoved s' := by
  have hcont : cont.pc.moved = 0 := (Pc.plain_spec cont.pc_spec.1).1
  cases pc with
  | start | transaction =>
    obtain ⟨⟩ := hstep
    exact setThread h rfl
  | enter =>
    rw [State.flushStep] at hstep
    split_ifs at hstep
    obtain ⟨⟩ := hstep
    exact setThread h rfl
  | locked =>
    rw [State.flushStep] at hstep
    split_ifs at hstep <;> obtain ⟨⟩ := hstep
    · rw [Inv.discardPages_eq]
      exact setThread h rfl
    · exact h.gather
  | discard l =>
    obtain ⟨-, ⟨⟩⟩ := ite_none_right_eq_some.1 hstep
    rw [Inv.discardPages_eq]
    exact gather (broadcast h)
  | write l =>
    rw [State.flushStep] at hstep
    split_ifs at hstep <;> obtain ⟨⟩ := hstep
    · exact setThread h rfl
    · exact setThread h hcont
  | update l c u =>
    obtain ⟨⟩ := hstep
    obtain ⟨hacc, hwhole⟩ := haccepted l c u rfl
    exact h.updateLoop hacc hwhole
  | finish =>
    obtain ⟨⟩ := hstep
    exact setThread (broadcast h) rfl
  | ended =>
    obtain ⟨⟩ := hstep
    exact setThread h hcont

theorem step (h : NoneMoved s) (hok : Sound s a) (hwhole : WholeLoop s a)
    (hstep : step n s a = some s') : NoneMoved s' := by
  have hidle : ∀ t, NoneMoved (s.setThread t .idle) := fun t => h.setThread rfl
  cases a with
  | create =>
    obtain ⟨⟩ := hstep
    exact h.create rfl
  | getFreePage t inside =>
    obtain ⟨-, ⟨⟩⟩ := ite_none_right_eq_some.1 hstep
    have hrun : NoneMoved { s with flushcacherun := true } := h
    unfold State.getFreePage
    split_ifs
    · exact hrun.setThread rfl
    · exact hrun.findPage.1
    · exact h.findPage.1
  | getFreePageIfAvailable t =>
    obtain ⟨-, ⟨⟩⟩ := ite_none_right_eq_some.1 hstep
    unfold State.getFreePageIfAvailable
    dsimp only
    split
    · exact runThread (h.of_set rfl rfl)
    · exact runThread h
  | returnFreePage t =>
    rw [MemoryPages.step] at hstep
    split at hstep
    · obtain ⟨⟩ := hstep
      exact hidle t
    · exact absurd hstep (by simp)
  | addPage t info =>
    rw [MemoryPages.step] at hstep
    split at hstep
    · obtain ⟨⟩ := hstep
      exact hidle t
    · exact absurd hstep (by simp)
  | addPageIfNotExists t hash pageid inDb waiting =>
    rw [MemoryPages.step] at hstep
    split at hstep
    · obtain ⟨⟩ := hstep
      unfold State.addPageIfNotExists
      split_ifs <;> exact hidle t
    · exact absurd hstep (by simp)
  | checkPageInMemoryByHash hash pageid bad =>
    obtain ⟨⟩ := hstep
    unfold State.checkPageInMemoryByHash
    split <;> exact h
  | switchMemoryPageToHash oldhash newhash pageid =>
    obtain ⟨⟩ := hstep
    unfold State.switchMemoryPageToHash
    split <;> exact h
  | flushPages t nosleep =>
    obtain ⟨-, ⟨⟩⟩ := ite_none_right_eq_some.1 hstep
    exact h.setThread rfl
  | step t o =>
    rw [MemoryPages.step] at hstep
    rw [Sound] at hok
    rw [WholeLoop] at hwhole
    rcases ht : s.threads[t]? with _ | pc
    · rw [ht] at hstep
      exact absurd hstep (by simp)
    rw [ht] at hstep hok hwhole
    have hwoken : NoneMoved { s with freePageWaiters := s.freePageWaiters - 1 } := h
    cases pc with
    | take =>
      obtain ⟨⟩ := hstep
      exact h.findPage.1
    | asleep run | woken run =>
      obtain ⟨⟩ := hstep
      exact hwoken.findPage.1
    | retry run =>
      obtain ⟨⟩ := hstep
      exact h.findPage.2
    | flush nosleep cont pc =>
      refine h.flushStep ?_ hstep
      rintro l c u rfl
      exact ⟨hok, hwhole⟩
    | idle | hold => exact absurd hstep (by simp)

end NoneMoved

/-- What is to hold in every state. -/
structure Correct (n : ℕ) (s : State) : Prop where
  /-- a page is in one place -/
  places : ∀ page < n, s.freePages.count page + s.cacheHash.count page +
    s.threads.count (.hold page) = 1
  free : s.cachePagesFree = s.freePages.length
  inHash : s.cachePagesInHash = s.cacheHash.length
  running : s.flushPageRunning = s.threads.countP Pc.inFlush
  /-- a thread that waits for a page waits for a flush -/
  waiting : ∀ run, .asleep run ∈ s.threads → ∃ pc ∈ s.threads, pc.inFlush = true

theorem Inv.correct (h : Inv n s) (hmoved : NoneMoved s) : Correct n s where
  places page hpage := by
    have := h.places page
    rw [if_pos hpage] at this
    rw [← this, count]
    congr 1
    refine countP_congr fun pc _ => ?_
    cases pc <;> simp [Pc.held]
  free := h.free
  inHash := by
    rw [h.inHash, sum_eq_zero (by simpa [NoneMoved] using hmoved)]
    simp
  running := h.running
  waiting run hmem := countP_pos_iff.1 (h.asleep run hmem)

/-- The pages are all in one place, and all three counters are right, in every state of a run in
    which nothing unsound happens and no flush is interrupted in its loop. -/
theorem pages_correct (h : (system n).Reachable (fun s a => Sound s a ∧ WholeLoop s a) s) :
    Correct n s := by
  have hinv : Inv n s ∧ NoneMoved s := by
    refine h.invariant (P := fun s => Inv n s ∧ NoneMoved s) ?_ ?_
    · rintro _ rfl
      exact ⟨.start n, forall_mem_nil _⟩
    · rintro s a s' ⟨hinv, hmoved⟩ ⟨hok, hwhole⟩ hstep
      exact ⟨hinv.step hok hstep, hmoved.step hok hwhole hstep⟩
  exact hinv.1.correct hinv.2

/-- The outcome of a flush of the first page. -/
def written : Outcome := ⟨false, [0], 1, true, false, fun _ => true⟩

/-- A page is filled, put in the hash, and flushed. -/
def onePage : List Action :=
  [.create, .getFreePage 0 false, .addPage 0 ⟨7, 0, .read⟩, .flushPages 0 1, .step 0 written,
    .step 0 written, .step 0 written, .step 0 written, .step 0 written, .step 0 written,
    .step 0 written, .step 0 written]

/-- The state after a run from the start. -/
def after (n : ℕ) (as : List Action) : State := ((system n).run (start n) as).getD (start n)

theorem pages_correct_one_page : Correct 2 (after 2 onePage) := by
  have hruns : (system 2).Runs (fun s a => Sound s a ∧ WholeLoop s a) (start 2) onePage
      (after 2 onePage) :=
    .cons ⟨trivial, trivial⟩ rfl <| .cons ⟨trivial, trivial⟩ rfl <| .cons ⟨trivial, trivial⟩ rfl <|
    .cons ⟨trivial, trivial⟩ rfl <| .cons ⟨trivial, trivial⟩ rfl <| .cons ⟨trivial, trivial⟩ rfl <|
    .cons ⟨trivial, trivial⟩ rfl <| .cons ⟨rfl, trivial⟩ rfl <| .cons ⟨trivial, trivial⟩ rfl <|
    .cons ⟨fun _ _ => rfl, .inl rfl⟩ rfl <| .cons ⟨trivial, trivial⟩ rfl <|
    .cons ⟨trivial, trivial⟩ rfl .nil
  exact pages_correct (.runs (.init rfl) hruns)

/-! ## Defects -/

theorem getFreePageIfAvailable_eq {t : ℕ} {page : PageRef} {rest : List PageRef}
    (hfree : s.freePages = page :: rest) (hfew : ¬s.FewFree n) :
    s.getFreePageIfAvailable n t = { s with freePages := rest }.setThread t (.hold page) := by
  simp [State.getFreePageIfAvailable, hfree, hfew, State.runThread]

/-- `psync_pagecache_get_free_page_if_available` does not count the page that it takes. -/
theorem getFreePageIfAvailable_not_counted : ∃ s,
    (system cachePages).Reachable (fun _ _ => True) s ∧ ¬Correct cachePages s := by
  have hrange : range cachePages = 0 :: (range (cachePages - 1)).map Nat.succ :=
    range_succ_eq_map
  let s : State := { start cachePages with threads := [.idle] }
  have hcreate : (system cachePages).Reachable (fun _ _ => True) s :=
    .step (a := .create) (.init rfl) trivial rfl
  have hfew : ¬s.FewFree cachePages := by
    unfold State.FewFree s start
    decide
  have hfree : s.freePages = 0 :: (range (cachePages - 1)).map Nat.succ := by
    simp only [s, start, hrange]
  have htake := getFreePageIfAvailable_eq (s := s) (t := 0) hfree hfew
  refine ⟨_, .step (a := .getFreePageIfAvailable 0) hcreate trivial
    (congrArg some htake), fun h => ?_⟩
  have hcount := h.free
  simp only [State.setThread, s, start, length_map, length_range] at hcount
  exact absurd hcount (by decide)

end Pclsync.PageCache.MemoryPages
