import Pclsync.UrlCache.Invariant

/-!
# Runs of the request threads

* `system`: the machine, from no threads and no entries.
* `Correct`: what the cache of URLs is for. `urls_correct`: it is so in all states reached in sound
  steps.
* `lookup_misses`: a run after which it is not so, as the comparison of the hashes is not an order.
  Nor is it after a retry of a failed send, which takes a second reference, or when a thread that
  waited frees an entry without its URLs.
-/

namespace Pclsync.UrlCache

open List

def start : State where
  threads := []
  memory := []
  tree := .nil
  cache := []
  results := 0
  freedUrls _ := 0
  freedRes _ := 0
  failed := false

def system : Machine State Action where
  init s := s = start
  step := step

/-- There is one entry for a hash, which is found; its count is that of the threads that were
    given it or wait for it; entries and results are freed once, when nobody has them. -/
structure Correct (s : State) : Prop where
  ok : s.failed = false
  nodup : (s.tree.toList.map Node.hash).Nodup
  found : ∀ n ∈ s.tree.toList, ∃ k, s.tree.locate (fun m => diffCompare n.hash m.hash) = .found k n
  refcnt : ∀ u e, s.entry u = some e →
    e.refcnt = s.threads.countP fun th => th.pc = .waiting u ∨ th.pc = .holding u
  used : ∀ th ∈ s.threads, ∀ r u, th.pc.role = some (r, u) →
    (s.entry u).isSome ∧ s.freedUrls u = 0
  unused : ∀ u < s.memory.length, (∀ th ∈ s.threads, ∀ r, th.pc.role ≠ some (r, u)) →
    s.freedUrls u = 1
  held : ∀ th ∈ s.threads, ∀ u, th.pc = .holding u →
    ∃ e r, s.entry u = some e ∧ e.urls = some r ∧ s.freedRes r = 0
  results : ∀ r < s.results, s.owners r = 1 ∧ s.freedRes r = 0 ∨ s.owners r = 0 ∧ s.freedRes r = 1

namespace Inv

variable {s : State}

theorem start : Inv start := by
  refine ⟨rfl, Pairwise.nil, ⟨0, forall_mem_nil _⟩,
    forall_mem_nil _, fun u => ?_,
    fun r => by simp [State.owners, UrlCache.start]⟩
  exact ⟨rfl, fun r => rfl, fun h => h.elim fun n hn => absurd hn.1 not_mem_nil⟩

theorem countP_refs (l : List Thread) (u : UrlsId) :
    (l.countP fun th => th.pc = .waiting u ∨ th.pc = .holding u) =
      (l.countP fun th => th.pc.role = some (.waiter, u)) +
        l.countP fun th => th.pc.role = some (.holder, u) := by
  induction l with
  | nil => rfl
  | cons th l ih =>
    rw [countP_cons, countP_cons, countP_cons, ih]
    rcases hpc : th.pc <;> simp [Pc.role] <;> split_ifs <;> omega

theorem correct (h : Inv s) : Correct s where
  ok := h.ok
  nodup := h.ordered.nodup_keys
  found n hn := by
    obtain ⟨c, hc⟩ := h.half
    exact h.ordered.locate_of_mem ⟨c, hc n hn, hc⟩ hn
  refcnt u e he := by
    rw [countP_refs]
    change e.refcnt = s.count .waiter u + s.count .holder u
    cases (h.live he).2 <;> omega
  used th hth r u hr := by
    have hpos : 0 < s.count r u := countP_pos_iff.2 ⟨th, hth, by simpa [-Pc.role] using hr⟩
    have hu := h.entries u
    rcases he : s.entry u with _ | e
    · rw [EntryOk, he] at hu
      exact absurd (hu.2.1 r) hpos.ne'
    · rw [EntryOk, he] at hu
      exact ⟨rfl, hu.1⟩
  unused u hu hno := by
    have hzero : ∀ r, s.count r u = 0 := fun r =>
      countP_eq_zero.2 fun th hth hr => hno th hth r (by simpa [-Pc.role] using hr)
    have hok := h.entries u
    rcases he : s.entry u with _ | e
    · rw [EntryOk, he] at hok
      exact hok.1.trans (if_pos hu)
    · -- An entry in memory has a thread.
      have := (h.live he).2
      have h1 := hzero .creator; have h2 := hzero .waiter
      have h3 := hzero .holder; have h4 := hzero .freer
      cases this <;> omega
  held th hth u hpc := by
    obtain ⟨t, ht⟩ := getElem?_of_mem hth
    obtain ⟨e, he, -, -, -, -, -, -, hurls, -⟩ := h.holding ht hpc
    obtain ⟨r, hr⟩ := Option.isSome_iff_exists.1 hurls
    refine ⟨e, r, he, hr, ?_⟩
    have hown : 0 < s.owners r := by
      have : 0 < s.memory.countP fun c => c.bind Urls.urls = some r :=
        countP_pos_iff.2 ⟨some e, mem_of_getElem? (entry_eq_some.1 he),
          by simpa [-Pc.role] using hr⟩
      unfold State.owners
      omega
    have hres := h.results r
    split_ifs at hres <;> omega
  results r hr := by
    have hres := h.results r
    rw [if_pos hr] at hres
    omega

end Inv

/-- In all runs of sound steps the cache does what it is for. -/
theorem urls_correct {s : State} (h : system.Reachable Sound s) : Correct s := by
  have hinv : Inv s := by
    refine h.invariant (fun s₀ h0 => ?_) fun _ _ _ hs hok => hs.step hok
    obtain rfl : s₀ = UrlCache.start := h0
    exact Inv.start
  exact hinv.correct

/-- The state after a run from the start. -/
def after (as : List Action) : State := (system.run start as).getD start

/-- Two threads share the URLs of a file, the last one of them leaves them in the cache, and a third
    thread takes them from there. -/
def threeRequests : List Action :=
  [.spawn 7 false, .getUrlsForRequest 0, .spawn 7 false, .getUrlsForRequest 1, .cacheGet 0,
    .fetch 0 true, .setUrls 0, .wake 1, .releaseUrls 0 true, .releaseUrls 1 true, .freeUrls 1,
    .spawn 7 false, .getUrlsForRequest 2, .cacheGet 2]

/-- Everything is about one hash, and the counts have room. -/
def smallRun (s : State) : Bool :=
  s.threads.all (fun th => th.hash = 7) && s.tree.toList.all (fun n => n.hash = 7) &&
    s.memory.all fun c => c.all fun e => e.refcnt + 1 < 2 ^ 32

theorem room_of_smallRun {s : State} (h : smallRun s = true) {u : UrlsId} {e : Urls}
    (he : s.entry u = some e) : e.refcnt + 1 < 2 ^ 32 := by
  simp only [smallRun, Bool.and_eq_true, all_eq_true] at h
  have hall := h.2 _ (mem_of_getElem? (Inv.entry_eq_some.1 he))
  exact of_decide_eq_true hall

theorem sound_of_smallRun {s : State} (h : smallRun s = true) (t : ℕ) :
    Sound s (.getUrlsForRequest t) := by
  refine ⟨fun th hth => ⟨7, ?_, fun n hn => ?_⟩, fun u e => room_of_smallRun h⟩
  all_goals
    simp only [smallRun, Bool.and_eq_true, all_eq_true, decide_eq_true_eq] at h
  · rw [h.1.1 th (mem_of_getElem? hth)]
    unfold OnHalf
    decide
  · rw [h.1.2 n hn]
    unfold OnHalf
    decide

theorem urls_correct_three_requests :
    (after threeRequests).threads.map Thread.pc = [.ended, .ended, .fetched 1 (some 0)] ∧
      Correct (after threeRequests) := by
  have hruns : system.Runs Sound start threeRequests (after threeRequests) :=
    .cons trivial rfl <| .cons (sound_of_smallRun (by decide) 0) rfl <|
    .cons trivial rfl <| .cons (sound_of_smallRun (by decide) 1) rfl <|
    .cons trivial rfl <| .cons trivial rfl <| .cons (fun u e => room_of_smallRun (by decide)) rfl <|
    .cons (fun th u e hth hpc he hbad => by
      obtain ⟨⟩ := hth
      obtain rfl := Pc.waiting.inj hpc
      obtain ⟨⟩ := he
      cases hbad) rfl <|
    .cons trivial rfl <| .cons trivial rfl <| .cons trivial rfl <|
    .cons trivial rfl <| .cons (sound_of_smallRun (by decide) 2) rfl <| .cons trivial rfl .nil
  exact ⟨by decide, urls_correct (.runs (.init rfl) hruns)⟩

/-! ## Defects -/

/-- Requests for seven files, the last one of which is the first one again. The tree is balanced
    when the fifth and the sixth entry are created. -/
def sevenRequests : List Action :=
  [.spawn 0 false, .getUrlsForRequest 0, .spawn 0x3000000000000000 false, .getUrlsForRequest 1,
    .spawn 0x6000000000000000 false, .getUrlsForRequest 2,
    .spawn 0x9000000000000000 false, .getUrlsForRequest 3,
    .spawn 0xA000000000000000 false, .getUrlsForRequest 4,
    .spawn 0xA800000000000000 false, .getUrlsForRequest 5,
    .spawn 0 false, .getUrlsForRequest 6]

/-- The comparison of the hashes is not an order: a hash is after `0x9000000000000000` although it
    was before all entries on the way there. -/
theorem lookup_misses : ∃ s, system.Reachable (fun _ _ => True) s ∧ ¬ Correct s := by
  refine ⟨after sevenRequests, .of_run (.init rfl)
    (rfl : system.run start sevenRequests = some (after sevenRequests)), fun h => ?_⟩
  exact absurd h.nodup (by decide)

end Pclsync.UrlCache
