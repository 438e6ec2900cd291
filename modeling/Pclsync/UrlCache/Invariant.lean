import Pclsync.Counting
import Pclsync.UrlCache.State

/-!
# Every entry and every result is freed once

The threads that have to do with an entry are its creator, until it calls `set_urls`, those that
wait for the URLs, those that hold them, and the last one, which frees the entry. How many there are
of each is known from the status of the entry (`Live`). A result is in one place: in an entry, in
the hands of a creator, or in the cache of the process.

* `Sound`: where the functions do what they should.
* `Inv`: the invariant, and `Inv.step`, which keeps it.
-/

namespace Pclsync.UrlCache

open Function List Option

/-! ## Counting threads and results -/

/-- What a thread does with an entry. -/
inductive Role
  | creator
  | waiter
  | holder
  | freer
  deriving DecidableEq

@[simp] def Pc.role : Pc → Option (Role × UrlsId)
  | created u | fetching u | fetched u _ => some (.creator, u)
  | waiting u => some (.waiter, u)
  | holding u => some (.holder, u)
  | freeing u _ => some (.freer, u)
  | retry | ended => none

/-- The result that a thread has in its hands. -/
@[simp] def Pc.result : Pc → Option ResId
  | fetched _ res => res
  | _ => none

namespace State

variable (s : State)

def count (r : Role) (u : UrlsId) : ℕ := s.threads.countP fun th => th.pc.role = some (r, u)

/-- The number of places in which a result is. -/
def owners (r : ResId) : ℕ :=
  s.memory.countP (fun c => c.bind Urls.urls = some r) +
    s.threads.countP (fun th => th.pc.result = some r) + s.cache.countP fun c => c.res = r

def InTree (u : UrlsId) : Prop := ∃ n ∈ s.tree.toList, n.id = u

end State

/-! ## The invariant -/

/-- An entry in memory, with the numbers of its creators, waiters, holders and freers. -/
inductive Live (e : Urls) (c w h f : ℕ) (inTree : Prop) : Prop
  | loading (status : e.status = .loading) (urls : e.urls = none) (refcnt : e.refcnt = w)
      (holders : h = 0) (creators : c = 1) (freers : f = 0) (tree : inTree)
  | ready (status : e.status = .ready) (urls : e.urls.isSome) (refcnt : e.refcnt = w + h)
      (pos : 0 < e.refcnt) (creators : c = 0) (freers : f = 0) (tree : inTree)
  | bad (status : e.status = .bad) (urls : 0 < h → e.urls.isSome) (refcnt : e.refcnt = w + h)
      (pos : 0 < e.refcnt) (creators : c = 0) (freers : f = 0) (tree : ¬ inTree)
  | released (refcnt : e.refcnt = 0) (waiters : w = 0) (holders : h = 0) (creators : c = 0)
      (freers : f = 1) (tree : ¬ inTree)

/-- A place in memory is that of an entry, or no thread knows it. -/
def EntryOk (s : State) (u : UrlsId) : Prop :=
  match s.entry u with
  | some e => s.freedUrls u = 0 ∧ e.refcnt < 2 ^ 32 ∧
      Live e (s.count .creator u) (s.count .waiter u) (s.count .holder u) (s.count .freer u)
        (s.InTree u)
  | none => s.freedUrls u = (if u < s.memory.length then 1 else 0) ∧ (∀ r, s.count r u = 0) ∧
      ¬ s.InTree u

structure Inv (s : State) : Prop where
  ok : s.failed = false
  ordered : s.tree.DiffOrdered Node.hash
  half : ∃ c, ∀ n ∈ s.tree.toList, OnHalf c n.hash
  nodes : ∀ n ∈ s.tree.toList, ∃ e, s.entry n.id = some e ∧ e.hash = n.hash
  entries : ∀ u, EntryOk s u
  results : ∀ r, s.owners r + s.freedRes r = if r < s.results then 1 else 0

/-- Where the functions do what they should. -/
def Sound (s : State) : Action → Prop
  -- The comparison with the entries in the tree is an order, and the count has room.
  | .getUrlsForRequest t => (∀ th, s.threads[t]? = some th → s.tree.OnHalfWith Node.hash th.hash) ∧
      ∀ u e, s.entry u = some e → e.refcnt + 1 < 2 ^ 32
  | .setUrls _ => ∀ u e, s.entry u = some e → e.refcnt + 1 < 2 ^ 32
  -- The last one to leave a bad entry that has URLs is not one that waited for them.
  | .wake t => ∀ th u e, s.threads[t]? = some th → th.pc = .waiting u → s.entry u = some e →
      e.status = .bad → e.urls.isSome → e.refcnt ≠ 1
  -- The thread leaves without releasing the entry.
  | .encoder _ ok => ok = true
  | .sendFailed _ => False
  | _ => True

namespace Inv

variable {s s' : State} {t : ℕ} {th th' : Thread} {u : UrlsId} {e : Urls}

theorem entry_eq_some : s.entry u = some e ↔ s.memory[u]? = some (some e) := by
  unfold State.entry
  rw [join_eq_some_iff]

theorem lt_length (he : s.entry u = some e) : u < s.memory.length :=
  (List.getElem?_eq_some_iff.1 (entry_eq_some.1 he)).1

/-- The two threads have to do with no other entry. -/
@[simp] def About (u : UrlsId) (th th' : Thread) : Prop :=
  (∀ x, th.pc.role = some x → x.2 = u) ∧ ∀ x, th'.pc.role = some x → x.2 = u

/-- `n` is the number of threads with a role after `th` has become `th'`. -/
@[simp] def Counts (s : State) (th th' : Thread) (u : UrlsId) (r : Role) (n : ℕ) : Prop :=
  n + (if th.pc.role = some (r, u) then 1 else 0) =
    s.count r u + if th'.pc.role = some (r, u) then 1 else 0

section

variable (ht : s.threads[t]? = some th) (hthreads : s'.threads = s.threads.set t th')

include ht hthreads

theorem count_add (r : Role) (u : UrlsId) : Counts s th th' u r (s'.count r u) := by
  have := countP_set_add ht th' fun th => decide (th.pc.role = some (r, u))
  unfold Counts State.count
  rw [hthreads]
  simpa [-Pc.role] using this

theorem count_eq (hrole : th'.pc.role = th.pc.role) (r : Role) (u : UrlsId) :
    s'.count r u = s.count r u := by
  have := count_add ht hthreads r u
  rw [Counts, hrole] at this
  exact Nat.add_right_cancel this

/-- A step of a thread changes the entry that it has to do with, and the nodes of that entry. -/
theorem of_step (h : Inv s) (u : UrlsId) (hrole : About u th th') (hok : s'.failed = false)
    (hord : s'.tree.DiffOrdered Node.hash)
    (hhalf : ∃ c, ∀ n ∈ s'.tree.toList, OnHalf c n.hash)
    (htree : ∀ n, n.id ≠ u → (n ∈ s'.tree.toList ↔ n ∈ s.tree.toList))
    (hnodes : ∀ n ∈ s'.tree.toList, n.id = u → ∃ e, s'.entry u = some e ∧ e.hash = n.hash)
    (hmem : ∀ v, v ≠ u → s'.entry v = s.entry v)
    (hlen : ∀ v, v ≠ u → (v < s'.memory.length ↔ v < s.memory.length))
    (hfreed : ∀ v, v ≠ u → s'.freedUrls v = s.freedUrls v)
    (hentry : EntryOk s' u)
    (hresults : ∀ r, s'.owners r + s'.freedRes r = if r < s'.results then 1 else 0) : Inv s' := by
  refine ⟨hok, hord, hhalf, fun n hn => ?_, fun v => ?_, hresults⟩
  · rcases eq_or_ne n.id u with hnu | hnu
    · exact hnu ▸ hnodes n hn hnu
    · rw [hmem _ hnu]
      exact h.nodes n ((htree n hnu).1 hn)
  · rcases eq_or_ne v u with rfl | hv
    · exact hentry
    · -- No count of another entry changes.
      have hc : ∀ r, s'.count r v = s.count r v := fun r => by
        have := count_add ht hthreads r v
        rw [Counts, if_neg fun hx => hv (hrole.1 _ hx), if_neg fun hx => hv (hrole.2 _ hx)] at this
        exact this
      have hin : s'.InTree v ↔ s.InTree v := by
        refine ⟨fun ⟨n, hn, hnv⟩ => ⟨n, (htree n ?_).1 hn, hnv⟩,
          fun ⟨n, hn, hnv⟩ => ⟨n, (htree n ?_).2 hn, hnv⟩⟩ <;> exact hnv ▸ hv
      have hv' := h.entries v
      unfold EntryOk at hv' ⊢
      rw [hmem v hv, hfreed v hv]
      simp only [hc, hin, hlen v hv]
      exact hv'

/-- The places of a result, when one place in memory, one thread and the cache change. -/
theorem owners_add {c c' : Option Urls} (hu : s.memory[u]? = some c)
    (hmem : s'.memory = s.memory.set u c') (r : ResId) :
    s'.owners r + (if c.bind Urls.urls = some r then 1 else 0) +
        (if th.pc.result = some r then 1 else 0) + s.cache.countP (·.res = r) =
      s.owners r + (if c'.bind Urls.urls = some r then 1 else 0) +
        (if th'.pc.result = some r then 1 else 0) + s'.cache.countP (·.res = r) := by
  have h1 := countP_set_add hu c' fun c => decide (c.bind Urls.urls = some r)
  have h2 := countP_set_add ht th' fun th => decide (th.pc.result = some r)
  unfold State.owners
  rw [hmem, hthreads]
  simp only [decide_eq_true_eq] at h1 h2
  omega

omit ht hthreads in
/-- The numbers of threads are right for the entry when `th` has become `th'`. -/
def Becomes (s : State) (th th' : Thread) (u : UrlsId) (e : Urls) (inTree : Prop) : Prop :=
  ∀ n₁ n₂ n₃ n₄, Counts s th th' u .creator n₁ → Counts s th th' u .waiter n₂ →
    Counts s th th' u .holder n₃ → Counts s th th' u .freer n₄ → Live e n₁ n₂ n₃ n₄ inTree

/-- A step of a thread on an entry in memory. -/
theorem of_entry (h : Inv s) (c : Option Urls) (he : s.entry u = some e) (hrole : About u th th')
    (hmem : s'.memory = s.memory.set u c) (hsub : s'.tree.toList.Sublist s.tree.toList)
    (htree : ∀ n, n.id ≠ u → (n ∈ s'.tree.toList ↔ n ∈ s.tree.toList)) (hok : s'.failed = false)
    (hfreed : ∀ v, s'.freedUrls v = s.freedUrls v + if v = u ∧ c = none then 1 else 0)
    (hhash : ∀ e', c = some e' → e'.hash = e.hash)
    (hlive : match c with
      | some e' => e'.refcnt < 2 ^ 32 ∧ Becomes s th th' u e' (s'.InTree u)
      | none => (∀ r n, Counts s th th' u r n → n = 0) ∧ ¬ s'.InTree u)
    (hresults : ∀ r n, n + (if e.urls = some r then 1 else 0) +
        (if th.pc.result = some r then 1 else 0) + s.cache.countP (·.res = r) =
      s.owners r + (if c.bind Urls.urls = some r then 1 else 0) +
        (if th'.pc.result = some r then 1 else 0) + s'.cache.countP (·.res = r) →
      n + s'.freedRes r = if r < s'.results then 1 else 0) : Inv s' := by
  have hu := lt_length he
  have hentry : ∀ v, s'.entry v = if v = u then c else s.entry v := fun v => by
    unfold State.entry
    rw [hmem, getElem?_set]
    split_ifs with h1 h2 h3
    · rfl
    · exact absurd h1.symm h2
    · exact absurd h3.symm h1
    · rfl
  have hlength : s'.memory.length = s.memory.length := by rw [hmem, length_set]
  have hfu : s.freedUrls u = 0 := by
    have := h.entries u
    rw [EntryOk, he] at this
    exact this.1
  obtain ⟨c₀, hc0⟩ := h.half
  have hcount := fun r => count_add ht hthreads r u
  have hentryOk : EntryOk s' u := by
    unfold EntryOk
    rw [hentry, if_pos rfl, hfreed, hfu]
    cases c with
    | some e' =>
      exact ⟨by simp, hlive.1, hlive.2 _ _ _ _ (hcount _) (hcount _) (hcount _) (hcount _)⟩
    | none => exact ⟨by simp [hlength, hu], fun r => hlive.1 r _ (hcount r), hlive.2⟩
  refine h.of_step ht hthreads u hrole hok (h.ordered.sublist hsub)
    ⟨c₀, fun n hn => hc0 n (hsub.mem hn)⟩ htree (fun n hn hnu => ?_)
    (fun v hv => by rw [hentry, if_neg hv]) (fun v _ => by rw [hlength])
    (fun v hv => by rw [hfreed, if_neg fun hx => hv hx.1, Nat.add_zero]) hentryOk
    fun r => hresults r _ (owners_add ht hthreads (entry_eq_some.1 he) hmem r)
  rw [hentry, if_pos rfl]
  obtain ⟨e₀, he0, hhash0⟩ := h.nodes n (hsub.mem hn)
  rw [hnu, he, some_inj] at he0
  subst he0
  cases c with
  | some e' => exact ⟨e', rfl, (hhash e' rfl).trans hhash0⟩
  | none =>
    -- The entry was freed, and is not in the tree.
    exact absurd ⟨n, hn, hnu⟩ hlive.2

end

theorem node_eq (h : Inv s) {n m : Node} (hn : n ∈ s.tree.toList) (hm : m ∈ s.tree.toList)
    (hid : n.id = m.id) : n = m := by
  obtain ⟨e, he, hen⟩ := h.nodes n hn
  obtain ⟨e', he', hem⟩ := h.nodes m hm
  rw [hid, he', some_inj] at he
  refine inj_on_of_nodup_map h.ordered.nodup_keys hn hm ?_
  rw [← hen, ← hem, he]

/-- An entry in the tree is deleted from it. -/
theorem treeDel_eq (h : Inv s) (hin : s.InTree u) : ∃ tree, s.treeDel u = { s with tree := tree } ∧
    tree.toList.Sublist s.tree.toList ∧ (∀ n ∈ tree.toList, n.id ≠ u) ∧
    ∀ n, n.id ≠ u → (n ∈ tree.toList ↔ n ∈ s.tree.toList) := by
  obtain ⟨n, hn, hnu⟩ := hin
  have hnodup := h.ordered.nodup_keys.of_map
  have honly : s.tree.toList.Pairwise fun y z =>
      ¬ (decide (y.id = u) = true ∧ decide (z.id = u) = true) := by
    refine hnodup.imp_of_mem fun {y z} hy hz hne hyz => hne (h.node_eq hy hz ?_)
    simp only [decide_eq_true_eq] at hyz
    rw [hyz.1, hyz.2]
  obtain ⟨as, bs, k, hl, hk, hdel⟩ := Tree.toList_removeAt_findIdx hn (by simpa using hnu) honly
  rw [hl] at hnodup
  have hnot : n ∉ as ++ bs := by
    rw [nodup_middle] at hnodup
    exact (nodup_cons.1 hnodup).1
  refine ⟨s.tree.removeAt k, ?_, Tree.toList_removeAt_sublist k s.tree, fun m hm hmu => ?_,
    fun m hm => ?_⟩
  · unfold State.treeDel
    rw [hk]
  · obtain rfl := h.node_eq ((Tree.toList_removeAt_sublist k s.tree).mem hm) hn (hmu.trans hnu.symm)
    exact hnot (hdel ▸ hm)
  · have hmn : m ≠ n := by
      rintro rfl
      exact hm hnu
    rw [hdel, hl, mem_append, mem_append, mem_cons, or_congr_right]
    rw [or_iff_right hmn]

theorem treeDel_setThread : (s.setThread t th).treeDel u = (s.treeDel u).setThread t th := by
  unfold State.treeDel State.setThread
  dsimp only
  rcases hk : s.tree.toList.findIdx? (·.id = u) with _ | k <;> simp only [hk]
  · rfl

theorem live (h : Inv s) (he : s.entry u = some e) : e.refcnt < 2 ^ 32 ∧
    Live e (s.count .creator u) (s.count .waiter u) (s.count .holder u) (s.count .freer u)
      (s.InTree u) := by
  have := h.entries u
  rw [EntryOk, he] at this
  exact this.2

/-- An entry with which a thread has to do is in memory. -/
theorem exists_entry (h : Inv s) (ht : s.threads[t]? = some th) {r : Role}
    (hr : th.pc.role = some (r, u)) : 0 < s.count r u ∧ ∃ e, s.entry u = some e := by
  have hpos : 0 < s.count r u :=
    countP_pos_iff.2 ⟨th, mem_of_getElem? ht, by simpa [-Pc.role] using hr⟩
  refine ⟨hpos, ?_⟩
  have := h.entries u
  rcases he : s.entry u with _ | e
  · rw [EntryOk, he] at this
    exact absurd (this.2.1 r) hpos.ne'
  · exact ⟨e, rfl⟩

theorem incr_eq {n : ℕ} (hn : n + 1 < 2 ^ 32) : incr n = n + 1 := Nat.mod_eq_of_lt hn

theorem decr_eq {n : ℕ} (h0 : 0 < n) (hn : n < 2 ^ 32) : decr n = n - 1 := by
  unfold decr
  omega

/-- A step that changes no entry, and nothing that a thread does with one. -/
theorem of_frame (h : Inv s) (hcount : ∀ r u, s'.count r u = s.count r u)
    (htree : s'.tree = s.tree) (hmem : s'.memory = s.memory) (hfreed : s'.freedUrls = s.freedUrls)
    (hok : s'.failed = false)
    (hresults : ∀ r, s'.owners r + s'.freedRes r = if r < s'.results then 1 else 0) : Inv s' := by
  have hentry : ∀ u, s'.entry u = s.entry u := fun u => by
    unfold State.entry
    rw [hmem]
  refine ⟨hok, htree ▸ h.ordered, htree ▸ h.half, fun n hn => ?_, fun u => ?_, hresults⟩
  · rw [hentry]
    exact h.nodes n (htree ▸ hn)
  · have := h.entries u
    unfold EntryOk State.InTree at this ⊢
    rw [hentry, hfreed, hmem, htree]
    simp only [hcount]
    exact this

section

variable (h : Inv s) (ht : s.threads[t]? = some th)

include h

theorem results_of {n a b c : ℕ} {r : ResId} (hown : n + a + b + c = s.owners r + a + b + c) :
    n + s.freedRes r = if r < s.results then 1 else 0 := by
  rw [Nat.add_right_cancel (Nat.add_right_cancel (Nat.add_right_cancel hown))]
  exact h.results r

include ht

theorem of_set {e' : Urls} (he : s.entry u = some e) (hrole : About u th th')
    (hresult : th'.pc.result = th.pc.result) (hhash : e'.hash = e.hash) (hurls : e'.urls = e.urls)
    (hfits : e'.refcnt < 2 ^ 32) (hlive : Becomes s th th' u e' (s.InTree u)) :
    Inv ((s.setEntry u (some e')).setThread t th') := by
  refine h.of_entry ht rfl (some e') he hrole rfl (.refl _) (fun _ _ => Iff.rfl) h.ok
    (fun v => by simp [State.setThread, State.setEntry])
    (fun e'' he'' => by rw [← some_inj.1 he'', hhash]) ⟨hfits, hlive⟩ fun r n hown => ?_
  rw [hresult, bind_some, hurls] at hown
  exact h.results_of hown

omit h ht in
theorem freedUrls_free (v : UrlsId) :
    (s.free u).freedUrls v = s.freedUrls v + if v = u then 1 else 0 := by
  unfold State.free
  dsimp only
  rcases eq_or_ne v u with rfl | hv
  · rw [update_self, if_pos rfl]
  · rw [update_of_ne hv, if_neg hv, Nat.add_zero]

/-- An entry without URLs is freed by the last thread that has to do with it. -/
theorem of_free (he : s.entry u = some e) (hrole : About u th th')
    (hresult : th'.pc.result = th.pc.result) (hurls : e.urls = none) (htree : ¬ s.InTree u)
    (hcount : ∀ r n, Counts s th th' u r n → n = 0) : Inv ((s.setThread t th').free u) := by
  refine h.of_entry ht rfl none he hrole rfl (.refl _) (fun _ _ => Iff.rfl) h.ok
    (fun v => by rw [freedUrls_free]; simp [State.setThread]) (fun e' he' => by simp at he')
    ⟨hcount, htree⟩ fun r n hown => ?_
  rw [hresult, hurls, bind_none] at hown
  exact h.results_of hown

omit h in
/-- The places of a result, when one thread and the cache change. -/
theorem owners_add_thread (s' : State) (hmem : s'.memory = s.memory)
    (hthreads : s'.threads = s.threads.set t th') (r : ResId) :
    s'.owners r + (if th.pc.result = some r then 1 else 0) + s.cache.countP (·.res = r) =
      s.owners r + (if th'.pc.result = some r then 1 else 0) + s'.cache.countP (·.res = r) := by
  have hadd := countP_set_add ht th' fun th => decide (th.pc.result = some r)
  unfold State.owners
  rw [hmem, hthreads]
  simp only [decide_eq_true_eq] at hadd
  omega

omit h ht in
theorem setEntry_self (he : s.entry u = some e) : s.setEntry u (some e) = s := by
  unfold State.setEntry
  have hset : s.memory.set u (some e) = s.memory := by
    obtain ⟨hu, heq⟩ := List.getElem?_eq_some_iff.1 (entry_eq_some.1 he)
    rw [← heq, set_getElem_self]
  rw [hset]

/-! ## Looking an entry up -/

/-- A thread that has a reference to an entry gets it, or leaves. -/
theorem gotUrls (hpc : th.pc = .waiting u) (he : s.entry u = some e) (hstatus : e.status ≠ .loading)
    (hs : e.status = .bad → e.urls.isSome → e.refcnt ≠ 1) : Inv (s.gotUrls t th u e) := by
  obtain ⟨hfits, hlive⟩ := h.live he
  have hpos := (h.exists_entry ht (show th.pc.role = some (.waiter, u) by rw [hpc]; rfl)).1
  unfold State.gotUrls
  cases hlive with
  | loading status => exact absurd status hstatus
  | ready status urls refcnt pos creators freers tree =>
    rw [if_pos status, ← setEntry_self he]
    refine h.of_set ht he (by simp [hpc]) (by simp [hpc]) rfl rfl hfits
      fun n₁ n₂ n₃ n₄ h1 h2 h3 h4 => ?_
    simp [hpc] at h1 h2 h3 h4
    exact .ready status urls (by omega) pos (by omega) (by omega) tree
  | bad status urls refcnt pos creators freers tree =>
    rw [if_neg (by simp [status])]
    dsimp only
    rw [decr_eq pos hfits]
    split_ifs with hlast
    · -- The entry has no URLs to free.
      have hnone : e.urls = none := by
        by_contra hne
        exact hs status (isSome_iff_ne_none.2 hne) (by omega)
      refine h.of_free ht he (by simp [hpc]) (by simp [hpc]) hnone tree fun r n hn => ?_
      cases r <;> simp [hpc] at hn <;> omega
    · refine h.of_set ht he (by simp [hpc]) (by simp [hpc]) rfl rfl (by dsimp only; omega)
        fun n₁ n₂ n₃ n₄ h1 h2 h3 h4 => ?_
      simp [hpc] at h1 h2 h3 h4
      exact .bad status (fun h0 => urls (by omega)) (by dsimp only; omega) (by dsimp only; omega)
        (by omega) (by omega) tree
  | released => omega

theorem reference (hpc : th.pc = .retry) (he : s.entry u = some e) (hin : s.InTree u)
    (hroom : e.refcnt + 1 < 2 ^ 32) :
    Inv (if e.status = .loading then
        (s.setEntry u (some { e with refcnt := incr e.refcnt })).setThread t
          { th with pc := .waiting u }
      else (s.setEntry u (some { e with refcnt := incr e.refcnt })).gotUrls t th u
        { e with refcnt := incr e.refcnt }) := by
  rw [incr_eq hroom]
  cases (h.live he).2 with
  | loading status urls refcnt holders creators freers tree =>
    rw [if_pos status]
    refine h.of_set ht he (by simp [hpc]) (by simp [hpc]) rfl rfl hroom
      fun n₁ n₂ n₃ n₄ h1 h2 h3 h4 => ?_
    simp [hpc] at h1 h2 h3 h4
    exact .loading status urls (by dsimp only; omega) (by omega) (by omega) (by omega) tree
  | ready status urls refcnt pos creators freers tree =>
    unfold State.gotUrls
    rw [if_neg (by simp [status]), if_pos status]
    refine h.of_set ht he (by simp [hpc]) (by simp [hpc]) rfl rfl hroom
      fun n₁ n₂ n₃ n₄ h1 h2 h3 h4 => ?_
    simp [hpc] at h1 h2 h3 h4
    exact .ready status urls (by dsimp only; omega) (by dsimp only; omega) (by omega) (by omega)
      tree
  | bad _ _ _ _ _ _ tree | released _ _ _ _ _ tree => exact absurd hin tree

theorem create {k : ℕ} (hpc : th.pc = .retry) (hhalf : s.tree.OnHalfWith Node.hash th.hash)
    (hl : s.tree.locate (fun n => diffCompare th.hash n.hash) = .vacant k)
    (hs' : s' = ({ s with
      memory := s.memory ++ [some ⟨th.hash, none, 0, .loading⟩]
      tree := s.tree.insertAt k ⟨th.hash, s.memory.length⟩ } : State).setThread t
        { th with pc := .created s.memory.length }) : Inv s' := by
  have hmem : s'.memory = s.memory ++ [some ⟨th.hash, none, 0, .loading⟩] := hs' ▸ rfl
  have htree : s'.tree = s.tree.insertAt k ⟨th.hash, s.memory.length⟩ := hs' ▸ rfl
  have hthreads : s'.threads = s.threads.set t { th with pc := .created s.memory.length } :=
    hs' ▸ rfl
  have hord : (s.tree.insertAt k ⟨th.hash, s.memory.length⟩).DiffOrdered Node.hash :=
    Tree.DiffOrdered.insertAt (x := (⟨th.hash, s.memory.length⟩ : Node)) h.ordered hhalf hl
  have hnodes : ∀ n, n ∈ s'.tree.toList ↔ n = ⟨th.hash, s.memory.length⟩ ∨ n ∈ s.tree.toList := by
    obtain ⟨as, bs, hsplit, rfl, -, -⟩ := Tree.locate_vacant (h.ordered.sorted hhalf) hl
    intro n
    rw [htree, Tree.toList_insertAt _ hsplit, hsplit, mem_append, mem_cons, mem_append]
    exact or_left_comm
  -- Nothing is known of the new place before.
  have hfresh : s.entry s.memory.length = none := by
    unfold State.entry
    rw [getElem?_eq_none le_rfl]
    rfl
  have hold := h.entries s.memory.length
  rw [EntryOk, hfresh] at hold
  obtain ⟨hfreed, hcount, -⟩ := hold
  have hentry : ∀ v, s'.entry v =
      if v = s.memory.length then some ⟨th.hash, none, 0, .loading⟩ else s.entry v := fun v => by
    unfold State.entry
    rw [hmem]
    split_ifs with hv
    · simp [hv]
    · rcases lt_or_ge v s.memory.length with hlt | hge
      · rw [getElem?_append_left hlt]
      · have hlt := Nat.lt_of_le_of_ne hge (Ne.symm hv)
        rw [getElem?_eq_none (by rw [length_append]; exact hlt),
          getElem?_eq_none hge]
  obtain ⟨c, hc, hall⟩ := hhalf
  refine h.of_step ht hthreads s.memory.length (by simp [hpc]) (hs' ▸ h.ok) (htree ▸ hord)
    ⟨c, fun n hn => ?_⟩ (fun n hn => ?_) (fun n hn hnu => ?_)
    (fun v hv => (hentry v).trans (if_neg hv)) (fun v hv => ?_) (fun v _ => hs' ▸ rfl) ?_
    fun r => ?_
  · rcases (hnodes n).1 hn with rfl | hn
    · exact hc
    · exact hall n hn
  · refine (hnodes n).trans (or_iff_right ?_)
    rintro rfl
    exact hn rfl
  · rcases (hnodes n).1 hn with rfl | hn
    · exact ⟨_, (hentry _).trans (if_pos rfl), rfl⟩
    · obtain ⟨e, he, -⟩ := h.nodes n hn
      rw [hnu, hfresh] at he
      exact absurd he (by simp)
  · rw [hmem, length_append]
    exact ⟨fun hlt => lt_of_le_of_ne (Nat.lt_succ_iff.1 hlt) hv, fun hlt => hlt.trans (by simp)⟩
  · unfold EntryOk
    rw [hentry, if_pos rfl]
    have hzero : s'.freedUrls s.memory.length = 0 := by
      rw [hs']
      exact hfreed.trans (if_neg (lt_irrefl _))
    refine ⟨hzero, by simp, ?_⟩
    have hadd := fun r => count_add ht hthreads r s.memory.length
    have h1 := hadd .creator; have h2 := hadd .waiter
    have h3 := hadd .holder; have h4 := hadd .freer
    simp [hpc, hcount] at h1 h2 h3 h4
    exact .loading rfl rfl h2.symm h3 h1 h4 ⟨_, (hnodes _).2 (.inl rfl), rfl⟩
  · have hadd := countP_set_add ht { th with pc := .created s.memory.length }
      fun th => decide (th.pc.result = some r)
    rw [if_neg (by simp [hpc]), if_neg (by simp)] at hadd
    have hown : s'.owners r = s.owners r := by
      unfold State.owners
      rw [hmem, hthreads, countP_append, Nat.add_right_cancel hadd, hs']
      simp [State.setThread]
    rw [hown, hs']
    exact h.results r

theorem getUrlsForRequest (hpc : th.pc = .retry)
    (hs : Sound s (.getUrlsForRequest t)) : Inv (s.getUrlsForRequest t th) := by
  obtain ⟨hhalf, hroom⟩ := hs
  unfold State.getUrlsForRequest
  rcases hl : s.tree.locate (fun n => diffCompare th.hash n.hash) with ⟨k, n⟩ | k
  · obtain ⟨hn, -⟩ := Tree.mem_of_locate hl
    obtain ⟨e, he, -⟩ := h.nodes n hn
    simp only [hl, he]
    exact h.reference ht hpc he ⟨n, hn, rfl⟩ (hroom _ _ he)
  · simp only [hl]
    exact h.create ht hpc (hhalf th ht) hl rfl

/-! ## Getting the URLs -/

theorem cacheGet (hpc : th.pc = .created u) : Inv (s.cacheGet t th u) := by
  unfold State.cacheGet
  rcases hi : s.cache.findIdx? (fun c => c.hash = th.hash ∧ c.fired = false) with _ | i
  · simp only [hi]
    refine h.of_frame (count_eq ht rfl (by rw [hpc]; rfl)) rfl rfl rfl h.ok fun r => ?_
    have hown := owners_add_thread ht (s.setThread t { th with pc := .fetching u }) rfl rfl r
    rw [hpc] at hown
    exact h.results_of (c := 0) hown
  · simp only [hi]
    obtain ⟨c, hc⟩ : ∃ c, s.cache[i]? = some c :=
      ⟨_, getElem?_eq_getElem (findIdx?_eq_some_iff_getElem.1 hi).1⟩
    rw [hc, map_some]
    refine h.of_frame (count_eq ht rfl (by rw [hpc]; rfl)) rfl rfl rfl h.ok fun r => ?_
    -- The result goes from the cache to the thread.
    have hown := owners_add_thread ht (({ s with cache := s.cache.eraseIdx i } : State).setThread t
      { th with pc := .fetched u (some c.res) }) rfl rfl r
    have hcache := countP_eraseIdx_add hc fun c => decide (c.res = r)
    have hres := h.results r
    simp only [hpc, Pc.result, reduceCtorEq, if_false, some_inj] at hown
    simp only [decide_eq_true_eq] at hcache
    change _ + s.freedRes r = if r < s.results then 1 else 0
    change _ = _ + (s.cache.eraseIdx i).countP _ at hown
    omega

theorem fetch {ok : Bool} (hpc : th.pc = .fetching u) : Inv (s.fetch t th u ok) := by
  unfold State.fetch
  split_ifs
  · refine h.of_frame (count_eq ht rfl (by rw [hpc]; rfl)) rfl rfl rfl h.ok fun r => ?_
    have hown := owners_add_thread ht (({ s with results := s.results + 1 } : State).setThread t
      { th with pc := .fetched u (some s.results) }) rfl rfl r
    have hres := h.results r
    simp only [hpc, Pc.result, reduceCtorEq, if_false, some_inj] at hown
    change _ + s.freedRes r = if r < s.results + 1 then 1 else 0
    change _ = _ + s.cache.countP _ at hown
    rcases eq_or_ne s.results r with rfl | hne
    · -- The new result is in no other place.
      rw [if_pos rfl] at hown
      rw [if_neg (lt_irrefl _)] at hres
      rw [if_pos (Nat.lt_succ_self _)]
      omega
    · have hiff : r < s.results + 1 ↔ r < s.results :=
        ⟨fun hlt => Nat.lt_of_le_of_ne (Nat.lt_succ_iff.1 hlt) hne.symm, Nat.lt_succ_of_lt⟩
      rw [if_neg hne] at hown
      rw [if_congr hiff rfl rfl]
      omega
  · refine h.of_frame (count_eq ht rfl (by rw [hpc]; rfl)) rfl rfl rfl h.ok fun r => ?_
    have hown := owners_add_thread ht (s.setThread t { th with pc := .fetched u none }) rfl rfl r
    rw [hpc] at hown
    exact h.results_of (c := 0) hown

theorem setUrls_some {r : ResId} (hpc : th.pc = .fetched u (some r)) (hs : Sound s (.setUrls t)) :
    Inv (s.setUrls t th u (some r)) := by
  obtain ⟨hpos, e, he⟩ := h.exists_entry ht (r := .creator) (u := u) (by rw [hpc]; rfl)
  unfold State.setUrls
  simp only [he]
  rw [incr_eq (hs u e he)]
  cases (h.live he).2 with
  | loading status urls refcnt holders creators freers tree =>
    refine h.of_entry ht rfl (some _) he (by simp [hpc]) rfl (.refl _) (fun _ _ => Iff.rfl) h.ok
      (fun v => by simp [State.setThread, State.setEntry])
      (fun e' he' => by rw [← some_inj.1 he'])
      ⟨hs u e he, fun n₁ n₂ n₃ n₄ h1 h2 h3 h4 => ?_⟩ fun x n hown => ?_
    · simp [hpc] at h1 h2 h3 h4
      exact .ready rfl rfl (by dsimp only; omega) (by simp) (by omega) (by omega) tree
    · -- The result goes from the thread to the entry.
      simp only [hpc, Pc.result, urls, bind_some, reduceCtorEq, if_false] at hown
      have hres := h.results x
      change _ = _ + s.cache.countP _ at hown
      change n + s.freedRes x = if x < s.results then 1 else 0
      omega
  | ready => omega
  | bad => omega
  | released => omega

theorem setUrls_none (hpc : th.pc = .fetched u none) : Inv (s.setUrls t th u none) := by
  obtain ⟨hpos, e, he⟩ := h.exists_entry ht (r := .creator) (u := u) (by rw [hpc]; rfl)
  obtain ⟨hfits, hlive⟩ := h.live he
  unfold State.setUrls
  simp only [he]
  cases hlive with
  | loading status urls refcnt holders creators freers tree =>
    obtain ⟨tree', heq, hsub, hnot, hnodes⟩ := h.treeDel_eq tree
    rw [heq]
    have hres : ∀ (c : Option Urls) r n, c.bind Urls.urls = none →
        n + (if e.urls = some r then 1 else 0) + (if th.pc.result = some r then 1 else 0) +
          s.cache.countP (·.res = r) = s.owners r + (if c.bind Urls.urls = some r then 1 else 0) +
            (if Pc.ended.result = some r then 1 else 0) + s.cache.countP (·.res = r) →
        n + s.freedRes r = if r < s.results then 1 else 0 := fun c r n hc hown => by
      simp only [hpc, Pc.result, urls, hc, reduceCtorEq, if_false] at hown
      obtain rfl : n = s.owners r := by omega
      exact h.results r
    split_ifs with hwaiters
    · -- The waiting threads will see that there are no URLs.
      refine h.of_entry ht rfl (some _) he (by simp [hpc]) rfl hsub hnodes h.ok
        (fun v => by simp [State.setThread, State.setEntry])
        (fun e' he' => by rw [← some_inj.1 he'])
        ⟨hfits, fun n₁ n₂ n₃ n₄ h1 h2 h3 h4 => ?_⟩ fun r n => hres (some _) r n urls
      simp [hpc] at h1 h2 h3 h4
      exact .bad rfl (by omega) (by dsimp only; omega) (Nat.pos_of_ne_zero hwaiters) (by omega)
        (by omega) fun ⟨n, hn, hnu⟩ => hnot n hn hnu
    · refine h.of_entry ht rfl none he (by simp [hpc]) rfl hsub hnodes h.ok
        (fun v => by rw [freedUrls_free]; simp [State.setThread]) (fun e' he' => by simp at he')
        ⟨fun r n hn => ?_, fun ⟨n, hn, hnu⟩ => hnot n hn hnu⟩ fun r n => hres none r n rfl
      cases r <;> simp [hpc] at hn <;> omega
  | ready => omega
  | bad => omega
  | released => omega

/-! ## Releasing an entry -/

omit h ht in
/-- A result is added to the cache, or freed. -/
theorem cacheAdd_eq (s : State) (hash : Hash) (res : Option ResId) : ∃ cache freed,
    s.cacheAdd hash res = { s with cache := cache, freedRes := freed } ∧
    ∀ r, cache.countP (·.res = r) + freed r =
      s.cache.countP (·.res = r) + s.freedRes r + if res = some r then 1 else 0 := by
  rcases res with _ | r₀
  · exact ⟨s.cache, s.freedRes, rfl, fun r => by simp⟩
  · unfold State.cacheAdd
    dsimp only
    split_ifs
    · refine ⟨_, _, rfl, fun r => ?_⟩
      rw [countP_cons]
      simp only [decide_eq_true_eq, some_inj]
      omega
    · refine ⟨_, _, rfl, fun r => ?_⟩
      rcases eq_or_ne r r₀ with rfl | hne
      · rw [update_self, if_pos rfl, Nat.add_assoc]
      · rw [update_of_ne hne, if_neg fun hr => hne (some_inj.1 hr).symm,
          Nat.add_zero]

/-- What is known of an entry that a thread holds. -/
theorem holding (hpc : th.pc = .holding u) :
    ∃ e, s.entry u = some e ∧ 0 < e.refcnt ∧ e.refcnt < 2 ^ 32 ∧ 0 < s.count .holder u ∧
      e.refcnt = s.count .waiter u + s.count .holder u ∧ s.count .creator u = 0 ∧
      s.count .freer u = 0 ∧ e.urls.isSome ∧
      (e.status = .ready ∧ s.InTree u ∨ e.status = .bad ∧ ¬ s.InTree u) := by
  obtain ⟨hpos, e, he⟩ := h.exists_entry ht (r := .holder) (u := u) (by rw [hpc]; rfl)
  obtain ⟨hfits, hlive⟩ := h.live he
  refine ⟨e, he, ?_⟩
  cases hlive with
  | loading => omega
  | ready status urls refcnt pos creators freers tree =>
    exact ⟨pos, hfits, hpos, refcnt, creators, freers, urls, .inl ⟨status, tree⟩⟩
  | bad status urls refcnt pos creators freers tree =>
    exact ⟨pos, hfits, hpos, refcnt, creators, freers, urls hpos, .inr ⟨status, tree⟩⟩
  | released => omega

/-- The last thread releases an entry, which is not in the tree any more. -/
theorem of_last {e' : Urls} (th' : Thread) (again : Bool) (hpc : th.pc = .holding u)
    (hpc' : th'.pc = .freeing u again) (he : s.entry u = some e) (hone : e.refcnt - 1 = 0)
    (hmem : s'.memory = s.memory.set u (some e')) (hthreads : s'.threads = s.threads.set t th')
    (h0 : e'.refcnt = 0) (hhash : e'.hash = e.hash)
    (hsub : s'.tree.toList.Sublist s.tree.toList)
    (hnodes : ∀ n, n.id ≠ u → (n ∈ s'.tree.toList ↔ n ∈ s.tree.toList)) (hnot : ¬ s'.InTree u)
    (hok : s'.failed = false) (hfreed : s'.freedUrls = s.freedUrls)
    (hresults : ∀ r n, n + (if e.urls = some r then 1 else 0) + s.cache.countP (·.res = r) =
      s.owners r + (if e'.urls = some r then 1 else 0) + s'.cache.countP (·.res = r) →
      n + s'.freedRes r = if r < s'.results then 1 else 0) : Inv s' := by
  obtain ⟨e₀, he0, hpos, -, hh, hrefcnt, hc, hf, -, -⟩ := h.holding ht hpc
  obtain rfl : e₀ = e := some_inj.1 (he0.symm.trans he)
  refine h.of_entry ht hthreads (some e') he (by simp [hpc, hpc']) hmem hsub hnodes hok
    (fun v => by simp [hfreed]) (fun e'' he'' => by rw [← some_inj.1 he'', hhash])
    ⟨by rw [h0]; decide, fun n₁ n₂ n₃ n₄ h1 h2 h3 h4 => ?_⟩ fun r n hown => ?_
  · simp [hpc, hpc'] at h1 h2 h3 h4
    exact .released h0 (by omega) (by omega) (by omega) (by omega) hnot
  · simp only [hpc, hpc', Pc.result, reduceCtorEq, if_false, bind_some, Nat.add_zero] at hown
    exact hresults r n hown

theorem of_notLast (th' : Thread) (hpc : th.pc = .holding u)
    (hpc' : th'.pc.role = none ∧ th'.pc.result = none)
    (he : s.entry u = some e) (hlast : ¬ e.refcnt - 1 = 0) :
    Inv ((s.setEntry u (some { e with refcnt := e.refcnt - 1 })).setThread t th') := by
  obtain ⟨e₀, he0, hpos, hfits, hh, hrefcnt, hc, hfr, hurls, hcase⟩ := h.holding ht hpc
  obtain rfl : e₀ = e := some_inj.1 (he0.symm.trans he)
  have hrole : th.pc.role = some (.holder, u) := by rw [hpc]; rfl
  refine h.of_set ht he (by simp [-Pc.role, hrole, hpc'.1]) (by rw [hpc'.2, hpc]; rfl) rfl rfl
    (by dsimp only; omega) fun n₁ n₂ n₃ n₄ h1 h2 h3 h4 => ?_
  simp [-Pc.role, hrole, hpc'.1] at h1 h2 h3 h4
  rcases hcase with ⟨status, tree⟩ | ⟨status, tree⟩
  · exact .ready status hurls (by dsimp only; omega) (Nat.pos_of_ne_zero hlast) (by omega)
      (by omega) tree
  · exact .bad status (fun _ => hurls) (by dsimp only; omega) (Nat.pos_of_ne_zero hlast) (by omega)
      (by omega) tree

theorem releaseUrls {valid : Bool} (hpc : th.pc = .holding u) :
    Inv (s.releaseUrls t th u valid) := by
  obtain ⟨e, he, hpos, hfits, -, -, -, -, hurls, hcase⟩ := h.holding ht hpc
  unfold State.releaseUrls
  simp only [he, decr_eq hpos hfits]
  split_ifs with hlast hready hvalid
  · obtain ⟨tree', heq, hsub, hnot, hnodes⟩ := h.treeDel_eq
      (hcase.resolve_right fun hb => by simp [hready] at hb).2
    rw [treeDel_setThread, heq]
    obtain ⟨cache, freed, hadd, hcount⟩ :=
      cacheAdd_eq (({ s with tree := tree' } : State).setThread t
      { th with pc := .freeing u false }) e.hash e.urls
    rw [hadd]
    refine h.of_last ht { th with pc := .freeing u false } false hpc rfl he hlast rfl rfl hlast rfl
      hsub hnodes (fun ⟨n, hn, hnu⟩ => hnot n hn hnu) h.ok rfl fun r n hown => ?_
    -- The URLs go to the cache, or are freed.
    have hc := hcount r
    have hres := h.results r
    change n + freed r = if r < s.results then 1 else 0
    change _ = _ + _ + cache.countP _ at hown
    change _ = s.cache.countP _ + s.freedRes r + _ at hc
    rw [if_neg (by simp : ¬ (none : Option ResId) = some r)] at hown
    omega
  · obtain ⟨tree', heq, hsub, hnot, hnodes⟩ := h.treeDel_eq
      (hcase.resolve_right fun hb => by simp [hready] at hb).2
    rw [treeDel_setThread, heq]
    refine h.of_last ht { th with pc := .freeing u false } false hpc rfl he hlast rfl rfl hlast rfl
      hsub hnodes (fun ⟨n, hn, hnu⟩ => hnot n hn hnu) h.ok rfl fun r n hown => ?_
    exact h.results_of (c := 0) hown
  · have hnot := (hcase.resolve_left fun hr => hready hr.1).2
    refine h.of_last ht { th with pc := .freeing u false } false hpc rfl he hlast rfl rfl hlast rfl
      (.refl _) (fun _ _ => Iff.rfl) hnot h.ok rfl fun r n hown => ?_
    exact h.results_of (c := 0) hown
  · exact h.of_notLast ht { th with pc := .ended } hpc ⟨rfl, rfl⟩ he hlast

theorem releaseBadUrls {th₁ : Thread} (hpc : th.pc = .holding u) :
    Inv (s.releaseBadUrls t th₁ u) := by
  obtain ⟨e, he, hpos, hfits, hh, hrefcnt, hc, hfr, hurls, hcase⟩ := h.holding ht hpc
  unfold State.releaseBadUrls
  simp only [he, decr_eq hpos hfits]
  rcases hcase with ⟨status, tree⟩ | ⟨status, tree⟩
  · -- The first thread to find that the URLs are bad.
    obtain ⟨tree', heq, hsub, hnot, hnodes⟩ := h.treeDel_eq tree
    have hnot' : ¬ ({ s with tree := tree' } : State).InTree u := fun ⟨n, hn, hnu⟩ => hnot n hn hnu
    rw [if_pos status, if_pos status, heq]
    split_ifs with hlast
    · refine h.of_last ht { th₁ with pc := .freeing u true } true hpc rfl he hlast
        rfl rfl hlast rfl hsub hnodes hnot' h.ok rfl fun r n hown => ?_
      exact h.results_of (c := 0) hown
    · refine h.of_entry ht rfl (some _) he (by simp [hpc]) rfl hsub hnodes h.ok
        (fun v => by simp [State.setThread, State.setEntry])
        (fun e' he' => by rw [← some_inj.1 he'])
        ⟨by dsimp only; omega, fun n₁ n₂ n₃ n₄ h1 h2 h3 h4 => ?_⟩ fun r n hown => ?_
      · simp [hpc] at h1 h2 h3 h4
        exact .bad rfl (fun _ => hurls) (by dsimp only; omega) (Nat.pos_of_ne_zero hlast) (by omega)
          (by omega) hnot'
      · rw [hpc, bind_some] at hown
        exact h.results_of hown
  · have hne : e.status ≠ .ready := by simp [status]
    rw [if_neg hne, if_neg hne]
    split_ifs with hlast
    · refine h.of_last ht { th₁ with pc := .freeing u true } true hpc rfl he hlast
        rfl rfl hlast rfl (.refl _) (fun _ _ => Iff.rfl) tree h.ok rfl fun r n hown => ?_
      exact h.results_of (c := 0) hown
    · exact h.of_notLast ht { th₁ with pc := .retry } hpc ⟨rfl, rfl⟩ he hlast

theorem freeUrls {again : Bool} (hpc : th.pc = .freeing u again) :
    Inv (s.freeUrls t th u again) := by
  obtain ⟨hpos, e, he⟩ := h.exists_entry ht (r := .freer) (u := u) (by rw [hpc]; rfl)
  unfold State.freeUrls
  simp only [he]
  cases (h.live he).2 with
  | loading => omega
  | ready => omega
  | bad => omega
  | released refcnt waiters holders creators freers tree =>
    have hpc' : th.pc.role = some (.freer, u) := by rw [hpc]; rfl
    have hrole : (if again = true then Pc.retry else Pc.ended).role = none := by
      split_ifs <;> rfl
    have hresult : (if again = true then Pc.retry else Pc.ended).result = none := by
      split_ifs <;> rfl
    obtain ⟨freed, heq, hfreed⟩ : ∃ freed, s.freeRes e.urls = { s with freedRes := freed } ∧
        ∀ r, freed r = s.freedRes r + if e.urls = some r then 1 else 0 := by
      rcases e.urls with _ | r₀
      · exact ⟨_, rfl, fun r => by simp⟩
      · refine ⟨_, rfl, fun r => ?_⟩
        rcases eq_or_ne r r₀ with rfl | hne
        · rw [update_self, if_pos rfl]
        · rw [update_of_ne hne, if_neg fun hr => hne (some_inj.1 hr).symm,
            Nat.add_zero]
    rw [heq]
    refine h.of_entry ht rfl none he (by simp [-Pc.role, hpc', hrole]) rfl (.refl _)
      (fun _ _ => Iff.rfl) h.ok
      (fun v => ?_) (fun e' he' => by simp at he') ⟨fun r n hn => ?_, tree⟩ fun r n hown => ?_
    · exact (freedUrls_free v).trans (by simp)
    · rw [Counts, hrole, hpc'] at hn
      cases r <;> simp at hn <;> omega
    · dsimp only at hown
      rw [hresult, hpc] at hown
      simp only [Pc.result, bind_none, reduceCtorEq, if_false] at hown
      have hres := h.results r
      have hf := hfreed r
      change _ = _ + s.cache.countP _ at hown
      change n + freed r = if r < s.results then 1 else 0
      omega

end

/-! ## Steps -/

theorem spawn (h : Inv s) {hash : Hash} {needkey : Bool} :
    Inv { s with threads := s.threads ++ [⟨hash, needkey, 0, .retry⟩] } := by
  refine h.of_frame (fun r u => ?_) rfl rfl rfl h.ok fun r => ?_
  · unfold State.count
    rw [countP_append, countP_singleton]
    rfl
  · have hres := h.results r
    unfold State.owners at hres ⊢
    rw [countP_append, countP_singleton]
    exact hres

theorem timerFires {i : ℕ} {c : Cached} (h : Inv s) (hc : s.cache[i]? = some c) :
    Inv { s with cache := s.cache.set i { c with fired := true } } := by
  refine h.of_frame (fun _ _ => rfl) rfl rfl rfl h.ok fun r => ?_
  have hres := h.results r
  have hcache := countP_set_add hc { c with fired := true } fun c => decide (c.res = r)
  unfold State.owners at hres ⊢
  rw [Nat.add_right_cancel hcache]
  exact hres

theorem cacheFree {i : ℕ} {c : Cached} (h : Inv s) (hc : s.cache[i]? = some c) :
    Inv (({ s with cache := s.cache.eraseIdx i } : State).freeRes (some c.res)) := by
  refine h.of_frame (fun _ _ => rfl) rfl rfl rfl h.ok fun r => ?_
  have hres := h.results r
  have hcache := countP_eraseIdx_add hc fun c => decide (c.res = r)
  unfold State.owners at hres ⊢
  change _ + _ + (s.cache.eraseIdx i).countP _ +
    update s.freedRes c.res (s.freedRes c.res + 1) r = if r < s.results then 1 else 0
  change s.memory.countP _ + s.threads.countP _ + _ + _ = _
  rcases eq_or_ne r c.res with rfl | hne
  · rw [update_self]
    simp only [decide_true, if_true] at hcache
    omega
  · rw [update_of_ne hne]
    rw [if_neg (by simpa using hne.symm)] at hcache
    omega

theorem threadStep {a : Action} (h : Inv s) (hs : Sound s a) (ha : a.thread = some t)
    (ht : s.threads[t]? = some th) (heq : threadStep s t th a = some s') : Inv s' := by
  cases a with
  | getUrlsForRequest t' =>
    obtain ⟨⟩ := ha
    obtain ⟨hpc, ⟨⟩⟩ := ite_none_right_eq_some.1 heq
    exact h.getUrlsForRequest ht hpc hs
  | cacheGet t' =>
    rcases hpc : th.pc <;>
      simp only [UrlCache.threadStep, hpc, some_inj, reduceCtorEq] at heq
    exact heq ▸ h.cacheGet ht hpc
  | fetch t' ok =>
    rcases hpc : th.pc <;>
      simp only [UrlCache.threadStep, hpc, some_inj, reduceCtorEq] at heq
    exact heq ▸ h.fetch ht hpc
  | setUrls t' =>
    obtain ⟨⟩ := ha
    rcases hpc : th.pc <;>
      simp only [UrlCache.threadStep, hpc, some_inj, reduceCtorEq] at heq
    subst heq
    rename_i res
    cases res with
    | none => exact h.setUrls_none ht hpc
    | some r => exact h.setUrls_some ht hpc hs
  | wake t' =>
    obtain ⟨⟩ := ha
    rcases hpc : th.pc <;> simp only [UrlCache.threadStep, hpc, reduceCtorEq] at heq
    rename_i u
    obtain ⟨-, e, he⟩ := h.exists_entry ht (r := .waiter) (u := u) (by rw [hpc]; rfl)
    simp only [he] at heq
    split_ifs at heq with hstatus
    obtain ⟨⟩ := heq
    exact h.gotUrls ht hpc he hstatus (hs th u e ht hpc he)
  | encoder t' ok =>
    obtain rfl : ok = true := hs
    rcases hpc : th.pc <;> simp only [UrlCache.threadStep, hpc, reduceCtorEq] at heq
    split_ifs at heq
    rw [← hpc] at heq
    obtain ⟨⟩ := heq
    refine h.of_frame (count_eq ht rfl rfl) rfl rfl rfl h.ok fun r => ?_
    have hown := owners_add_thread ht (s.setThread t { th with needkey := false }) rfl rfl r
    exact h.results_of (c := 0) hown
  | releaseUrls t' valid =>
    rcases hpc : th.pc <;> simp only [UrlCache.threadStep, hpc, reduceCtorEq] at heq
    split_ifs at heq
    exact some_inj.1 heq ▸ h.releaseUrls ht hpc
  | sendFailed t' => exact hs.elim
  | readFailed t' =>
    rcases hpc : th.pc <;> simp only [UrlCache.threadStep, hpc, reduceCtorEq] at heq
    split_ifs at heq
    exact some_inj.1 heq ▸ h.releaseBadUrls ht hpc
  | freeUrls t' =>
    rcases hpc : th.pc <;>
      simp only [UrlCache.threadStep, hpc, some_inj, reduceCtorEq] at heq
    exact heq ▸ h.freeUrls ht hpc
  | spawn | timerFires | cacheFree => simp [Action.thread] at ha

theorem step {a : Action} (h : Inv s) (hs : Sound s a) (heq : step s a = some s') : Inv s' := by
  unfold UrlCache.step at heq
  rw [if_neg (by simp [h.ok])] at heq
  have hthread : (a.thread.bind fun t => s.threads[t]?.bind fun th =>
      UrlCache.threadStep s t th a) = some s' → Inv s' := fun heq => by
    obtain ⟨t, ha, heq⟩ := bind_eq_some_iff.1 heq
    obtain ⟨th, ht, heq⟩ := bind_eq_some_iff.1 heq
    exact h.threadStep hs ha ht heq
  cases a with
  | spawn hash needkey => exact some_inj.1 heq ▸ h.spawn
  | timerFires i =>
    obtain ⟨c, hc, rfl⟩ := map_eq_some_iff.1 heq
    exact h.timerFires hc
  | cacheFree i =>
    obtain ⟨c, hc, rfl⟩ := map_eq_some_iff.1 heq
    exact h.cacheFree hc
  | _ => exact hthread heq

end Inv

end Pclsync.UrlCache
