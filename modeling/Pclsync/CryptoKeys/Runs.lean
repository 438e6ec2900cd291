import Pclsync.CryptoKeys.Calls

/-!
# Runs of calls for keys

What holds in runs of the calls of `pcloudcrypto.c`: whether anything is handed out or cached while
nothing is started, whether the private key is used only when it is there, and whether an encoder
is made from the key of the revision which was asked for (`State.Safe`).

* `safe_of_reachable`: so it is in runs where a stop is not under way when it starts again, takes
  the write lock only when no call is between its look at `crypto_started_un` and the read lock or
  the cache, and where the keys of revisions which are not the last ones are not downloaded.
* `used_after_stop`: a getter which looked at `crypto_started_un` before the stop uses the private
  key after it.
-/

namespace Pclsync.CryptoKeys

open List Option

variable {κ : Type} {keyOf : ℤ → ℕ → κ}

/-- The key of a name. -/
def KeyName.Right (keyOf : ℤ → ℕ → κ) (k : κ) : KeyName → Prop
  | .folder _ => True
  | .file id hash => k = keyOf id hash

/-- An encoder of a file and a hash is made from the key of the revision. -/
def Query.Right (keyOf : ℤ → ℕ → κ) (k : κ) : Query → Prop
  | .fileEncoder id hash _ => 0 ≤ id → k = keyOf id hash
  | _ => True

/-- What is cached under a name. -/
def CacheName.Right (keyOf : ℤ → ℕ → κ) (k : κ) : CacheName → Prop
  | .key n => n.Right keyOf k
  | .sector id hash => 0 ≤ id → k = keyOf id hash
  | _ => True

namespace Call

/-- The call has the read lock. -/
def holds : Call κ → Bool
  | locked _ | fetch _ _ | decrypt _ _ _ | key _ _ _ | unlock _ _ | binLocked _ _ _ => true
  | _ => false

/-- The call is between its look at `crypto_started_un` and the read lock, or the cache. -/
def between : Call κ → Bool
  | cache _ | lock _ | release _ _ => true
  | _ => false

/-- A stop. -/
def isStop : Call κ → Bool
  | stopping | cleaning | returning => true
  | _ => false

/-- The call goes on as if crypto were started. -/
def alive : Call κ → Bool
  | cache _ | lock _ | release _ _ | locked _ | fetch _ _ | decrypt _ _ _ | key _ _ _
  | unlock _ (some _) => true
  | _ => false

/-- A key with the name is one for the query. -/
def Serves (keyOf : ℤ → ℕ → κ) (q : Query) (n : KeyName) : Prop :=
  ∀ k, n.Right keyOf k → q.Right keyOf k

/-- The keys which a call has are those it is about. -/
def Right (keyOf : ℤ → ℕ → κ) : Call κ → Prop
  | fetch q n => Serves keyOf q n
  | decrypt q n k | key q n k => q.Right keyOf k ∧ ∀ m ∈ n, m.Right keyOf k
  | unlock q enc => ∀ k ∈ enc, q.Right keyOf k
  | binLock id hash k | binLocked id hash k => k = keyOf id hash
  | release q k => q.Right keyOf k
  | _ => True

end Call

namespace State

variable [DecidableEq κ] {S T : State κ} {c c' : Call κ} {q : Query} {n : CacheName} {k : κ} {r : ℕ}

/-- After a stop nothing is handed out or cached, the private key is used only while it is there,
    and encoders are those of the revisions asked for. -/
structure Safe (keyOf : ℤ → ℕ → κ) (S : State κ) : Prop where
  returned : ∀ e ∈ S.returned, e.stopped = true → e.enc = none
  cache : S.stopped = true → S.cache = []
  used : ∀ b ∈ S.used, b = true
  revision : ∀ e ∈ S.returned, ∀ k, e.enc = some k → e.query.Right keyOf k

/-- Nothing is started, and the cache is empty. -/
def Quiet (S : State κ) : Prop := S.startedL = false ∧ S.cache = []

/-- What holds in the runs. -/
structure Inv (keyOf : ℤ → ℕ → κ) (S : State κ) : Prop where
  readers : S.readers = (S.calls.filter fun c => c.holds = true).card
  privkey : S.privkey = S.startedL
  startedUn : S.startedUn = true → S.startedL = true
  stop : ∀ c ∈ S.calls, c.isStop = true → S.startedUn = false
  alive : ∀ c ∈ S.calls, c.alive = true → S.startedL = true
  cleaning : .cleaning ∈ S.calls → S.startedL = false
  returning : .returning ∈ S.calls → S.Quiet
  stopped : S.stopped = true → S.Quiet
  cache : ∀ e ∈ S.cache, e.1.Right keyOf e.2
  rows : ∀ x ∈ S.cryptofilekey, x.2.2 = keyOf x.1 x.2.1
  saves : ∀ x ∈ S.saves, x.2.2 = keyOf x.1 x.2.1
  calls : ∀ c ∈ S.calls, c.Right keyOf
  held : ∀ x ∈ S.held, x.1.Right keyOf x.2
  used : ∀ b ∈ S.used, b = true
  returned : ∀ e ∈ S.returned, ∀ k, e.enc = some k → e.stopped = false ∧ e.query.Right keyOf k

omit [DecidableEq κ] in
theorem Inv.safe (h : Inv keyOf S) : Safe keyOf S where
  returned e he hstopped := by
    cases henc : e.enc with
    | none => rfl
    | some k =>
      rw [(h.returned e he k henc).1] at hstopped
      cases hstopped
  cache hstopped := (h.stopped hstopped).2
  used := h.used
  revision e he k hk := (h.returned e he k hk).2

/-! ## Calls that go on -/

omit [DecidableEq κ] in
theorem card_holds_cons (c : Call κ) (m : Multiset (Call κ)) :
    ((c ::ₘ m).filter fun c => c.holds = true).card =
      (m.filter fun c => c.holds = true).card + c.holds.toNat := by
  rw [Multiset.filter_cons, Multiset.card_add, Nat.add_comm]
  cases c.holds <;> rfl

theorem card_holds_erase (hc : c ∈ S.calls) :
    ((S.calls.erase c).filter fun c => c.holds = true).card + c.holds.toNat =
      (S.calls.filter fun c => c.holds = true).card := by
  rw [← card_holds_cons, Multiset.cons_erase hc]

/-- A call goes on, and may take the read lock. -/
theorem Inv.moved (h : Inv keyOf S) (hc : c ∈ S.calls)
    (hr : r + c.holds.toNat = S.readers + c'.holds.toNat) (hstop : c'.isStop = false)
    (halive : c'.alive = true → S.startedL = true) (hright : c'.Right keyOf) :
    Inv keyOf ({ S with readers := r }.become c c') where
  readers := by
    change r = ((c' ::ₘ S.calls.erase c).filter fun c => c.holds = true).card
    have hcard := card_holds_erase hc
    rw [card_holds_cons]
    rw [h.readers] at hr
    omega
  privkey := h.privkey
  startedUn := h.startedUn
  stop x hx hs := by
    rcases Multiset.mem_cons.1 hx with rfl | hx
    · rw [hstop] at hs
      cases hs
    · exact h.stop x (Multiset.mem_of_mem_erase hx) hs
  alive x hx ha := by
    rcases Multiset.mem_cons.1 hx with rfl | hx
    · exact halive ha
    · exact h.alive x (Multiset.mem_of_mem_erase hx) ha
  cleaning hx := by
    rcases Multiset.mem_cons.1 hx with rfl | hx
    · cases hstop
    · exact h.cleaning (Multiset.mem_of_mem_erase hx)
  returning hx := by
    rcases Multiset.mem_cons.1 hx with rfl | hx
    · cases hstop
    · exact h.returning (Multiset.mem_of_mem_erase hx)
  stopped := h.stopped
  cache := h.cache
  rows := h.rows
  saves := h.saves
  calls x hx := by
    rcases Multiset.mem_cons.1 hx with rfl | hx
    · exact hright
    · exact h.calls x (Multiset.mem_of_mem_erase hx)
  held := h.held
  used := h.used
  returned := h.returned

/-- A call goes on without the lock, or keeps it. -/
theorem Inv.become (h : Inv keyOf S) (hc : c ∈ S.calls) (hholds : c.holds = c'.holds)
    (hstop : c'.isStop = false) (halive : c'.alive = true → S.startedL = true)
    (hright : c'.Right keyOf) : Inv keyOf (S.become c c') :=
  h.moved hc (by rw [hholds]) hstop halive hright

omit [DecidableEq κ] in
/-- Nothing is quiet while crypto is started. -/
theorem Inv.not_stopped (h : Inv keyOf S) (hl : S.startedL = true) : S.stopped = false := by
  by_contra hs
  have hq := (h.stopped (Bool.eq_true_of_not_eq_false hs)).1
  rw [hl] at hq
  cases hq

theorem Inv.finish {enc : Option κ} (h : Inv keyOf S) (hc : c ∈ S.calls)
    (hr : r + c.holds.toNat = S.readers)
    (henc : ∀ k, enc = some k → S.startedL = true ∧ q.Right keyOf k) :
    Inv keyOf ({ S with readers := r }.finish c q enc) where
  readers := by
    change r = ((S.calls.erase c).filter fun c => c.holds = true).card
    have hcard := card_holds_erase hc
    rw [h.readers] at hr
    omega
  privkey := h.privkey
  startedUn := h.startedUn
  stop x hx := h.stop x (Multiset.mem_of_mem_erase hx)
  alive x hx := h.alive x (Multiset.mem_of_mem_erase hx)
  cleaning hx := h.cleaning (Multiset.mem_of_mem_erase hx)
  returning hx := h.returning (Multiset.mem_of_mem_erase hx)
  stopped := h.stopped
  cache := h.cache
  rows := h.rows
  saves := h.saves
  calls x hx := h.calls x (Multiset.mem_of_mem_erase hx)
  held x hx := by
    cases enc with
    | none => exact h.held x hx
    | some k =>
      rcases Multiset.mem_cons.1 hx with rfl | hx
      · exact (henc k rfl).2
      · exact h.held x hx
  used := h.used
  returned e he k hk := by
    rcases mem_cons.1 he with rfl | he
    · exact ⟨h.not_stopped (henc k hk).1, (henc k hk).2⟩
    · exact h.returned e he k hk

/-! ## The cache and the private key -/

omit [DecidableEq κ] in
/-- What is right may be cached while crypto is started. -/
theorem Inv.cacheAdd (h : Inv keyOf S) (hl : S.startedL = true) (hright : n.Right keyOf k) :
    Inv keyOf (S.cacheAdd n k) := by
  unfold State.cacheAdd
  split
  · exact
      { h with
        returning := fun hx => by
          have hq := (h.returning hx).1
          rw [hl] at hq
          cases hq
        stopped := fun hs => by
          rw [h.not_stopped hl] at hs
          cases hs
        cache := fun e he => by
          rcases mem_cons.1 he with rfl | he
          · exact hright
          · exact h.cache e he }
  · exact h

omit [DecidableEq κ] in
theorem cacheAdd_calls : (S.cacheAdd n k).calls = S.calls := by
  unfold State.cacheAdd
  split <;> rfl

omit [DecidableEq κ] in
theorem cacheAdd_startedL : (S.cacheAdd n k).startedL = S.startedL := by
  unfold State.cacheAdd
  split <;> rfl

theorem Inv.cacheErase (h : Inv keyOf S) (e : CacheName × κ) :
    Inv keyOf { S with cache := S.cache.erase e } :=
  { h with
    returning := fun hx => ⟨(h.returning hx).1, by simp [(h.returning hx).2]⟩
    stopped := fun hs => ⟨(h.stopped hs).1, by simp [(h.stopped hs).2]⟩
    cache := fun x hx => h.cache x (mem_of_mem_erase hx) }

/-- What is taken out of the cache is right. -/
theorem Inv.cacheGet (h : Inv keyOf S) (hget : S.cacheGet n = some (k, T)) :
    n.Right keyOf k ∧ Inv keyOf T ∧ T.calls = S.calls ∧ T.startedL = S.startedL := by
  obtain ⟨e, hfind, he⟩ := map_eq_some_iff.1 hget
  obtain ⟨rfl, rfl⟩ := Prod.mk.inj he
  have hn : e.1 = n := by simpa using find?_some hfind
  have hright := h.cache e (mem_of_find?_eq_some hfind)
  rw [hn] at hright
  exact ⟨hright, h.cacheErase e, rfl, rfl⟩

omit [DecidableEq κ] in
/-- The private key is used while crypto is started. -/
theorem Inv.use (h : Inv keyOf S) (hl : S.startedL = true) :
    Inv keyOf { S with used := S.startedL :: S.used } :=
  { h with
    used := fun b hb => by
      rcases mem_cons.1 hb with rfl | hb
      · exact hl
      · exact h.used b hb }

omit [DecidableEq κ] in
theorem Inv.toSave (h : Inv keyOf S) (id : ℤ) (hash : ℕ) :
    Inv keyOf { S with saves := (id, hash, keyOf id hash) :: S.saves } :=
  { h with
    saves := fun x hx => by
      rcases mem_cons.1 hx with rfl | hx
      · rfl
      · exact h.saves x hx }

omit [DecidableEq κ] in
theorem Inv.begin (h : Inv keyOf S) (hholds : c.holds = false) (hstop : c.isStop = false)
    (halive : c.alive = true → S.startedL = true) (hright : c.Right keyOf) :
    Inv keyOf { S with calls := c ::ₘ S.calls } where
  readers := by
    change S.readers = ((c ::ₘ S.calls).filter fun c => c.holds = true).card
    rw [card_holds_cons, hholds, h.readers]
    rfl
  privkey := h.privkey
  startedUn := h.startedUn
  stop x hx hs := by
    rcases Multiset.mem_cons.1 hx with rfl | hx
    · rw [hstop] at hs
      cases hs
    · exact h.stop x hx hs
  alive x hx ha := by
    rcases Multiset.mem_cons.1 hx with rfl | hx
    · exact halive ha
    · exact h.alive x hx ha
  cleaning hx := by
    rcases Multiset.mem_cons.1 hx with rfl | hx
    · cases hstop
    · exact h.cleaning hx
  returning hx := by
    rcases Multiset.mem_cons.1 hx with rfl | hx
    · cases hstop
    · exact h.returning hx
  stopped := h.stopped
  cache := h.cache
  rows := h.rows
  saves := h.saves
  calls x hx := by
    rcases Multiset.mem_cons.1 hx with rfl | hx
    · exact hright
    · exact h.calls x hx
  held := h.held
  used := h.used
  returned := h.returned

/-! ## Getters -/

theorem Inv.fail (h : Inv keyOf S) (hc : c ∈ S.calls) (hholds : c.holds = true) :
    Inv keyOf (S.become c (.unlock q none)) :=
  h.become hc hholds rfl (fun ha => (by cases ha)) fun k hk => (by cases hk)

theorem Inv.symkey {m : KeyName} (h : Inv keyOf S) (hc : c ∈ S.calls) (hholds : c.holds = true)
    (hl : S.startedL = true) (hserves : Call.Serves keyOf q m) :
    Inv keyOf (S.symkey c q m) := by
  unfold State.symkey
  rcases hget : S.cacheGet (.key m) with _ | ⟨k, T⟩
  · exact h.become hc hholds rfl (fun _ => hl) hserves
  · obtain ⟨hright, hT, hcalls, hstarted⟩ := h.cacheGet hget
    refine hT.become (by rwa [hcalls]) hholds rfl (fun _ => by rwa [hstarted])
      ⟨hserves k hright, fun m' hm' => ?_⟩
    obtain rfl := mem_some_iff.1 hm'
    exact hright

omit [DecidableEq κ] in
theorem serves_keyName (keyOf : ℤ → ℕ → κ) (q : Query) : Call.Serves keyOf q q.keyName := by
  intro k hk
  cases q with
  | folderDecoder id | folderEncoder id => trivial
  | fileEncoder id hash b => exact fun _ => hk

omit [DecidableEq κ] in
/-- There is no revision of a file which is pending. -/
theorem right_of_neg (hq : q.id < 0) (k : κ) : q.Right keyOf k := by
  cases q with
  | folderDecoder id | folderEncoder id => trivial
  | fileEncoder id hash b => exact fun h => absurd h (not_le.2 hq)

/-- A key which is downloaded, since it is not in the table, the network may be used and there is
    one, is that of the last revision. -/
def LastRevision (S : State κ) : Call κ → Outcome κ → Prop
  | .fetch q (.file id hash), o =>
    S.fileKey id hash = none → q.nonetwork = false → o.online = true → S.current id = hash
  | _, _ => True

section

variable (h : Inv keyOf S)
include h

theorem Inv.locked (o : Outcome κ) (hc : .locked q ∈ S.calls) :
    Inv keyOf (S.locked (.locked q) q o) := by
  have hl := h.alive _ hc rfl
  unfold State.locked
  split
  · exact h.fail hc rfl
  · rename_i h0
    split
    · exact h.symkey hc rfl hl (serves_keyName keyOf q)
    · rename_i hpos
      have hneg : q.id < 0 := by omega
      split
      · exact h.symkey hc rfl hl fun k _ => right_of_neg hneg k
      · exact h.become hc rfl rfl (fun _ => hl) ⟨right_of_neg hneg _, fun m hm => (by cases hm)⟩
      · exact h.fail hc rfl

/-- The key that is downloaded is that of the revision asked for, if this is the last one. -/
theorem Inv.fetch {m : KeyName} {o : Outcome κ} (hc : .fetch q m ∈ S.calls)
    (hlast : LastRevision S (.fetch q m) o) :
    Inv keyOf (S.fetch keyOf (.fetch q m) q m o) := by
  have hl := h.alive _ hc rfl
  have hserves : Call.Serves keyOf q m := h.calls _ hc
  unfold State.fetch
  cases m with
  | folder id =>
    dsimp only
    split
    · rename_i k _
      refine h.become hc rfl rfl (fun _ => hl) ⟨hserves k trivial, fun m hm => ?_⟩
      obtain rfl := mem_some_iff.1 hm
      trivial
    · exact h.fail hc rfl
  | file id hash =>
    dsimp only
    split
    · rename_i k hkey
      obtain ⟨row, hfind, rfl⟩ := map_eq_some_iff.1 hkey
      have hrow : row.1 = id ∧ row.2.1 = hash := by simpa using find?_some hfind
      have hk : row.2.2 = keyOf id hash := by
        rw [h.rows row (mem_of_find?_eq_some hfind), hrow.1, hrow.2]
      refine h.become hc rfl rfl (fun _ => hl) ⟨hserves _ hk, fun m hm => ?_⟩
      obtain rfl := mem_some_iff.1 hm
      exact hk
    · rename_i hkey
      split
      · exact h.fail hc rfl
      · rename_i hnet
        obtain ⟨hallowed, honline⟩ := not_or.1 hnet
        have hk : keyOf id (S.current id) = keyOf id hash := by
          rw [hlast hkey (Bool.eq_false_of_not_eq_true hallowed) (not_not.1 honline)]
        refine (h.toSave id (S.current id)).become hc rfl rfl (fun _ => hl)
          ⟨hserves _ hk, fun m hm => ?_⟩
        obtain rfl := mem_some_iff.1 hm
        exact hk

theorem Inv.decrypt {m : Option KeyName} (hc : .decrypt q m k ∈ S.calls) :
    Inv keyOf (S.decrypt (.decrypt q m k) q m k) := by
  have hl := h.alive _ hc rfl
  have hright := h.calls _ hc
  have hpriv : S.privkey = true := h.privkey.trans hl
  unfold State.decrypt
  rw [if_pos hpriv]
  exact (h.use hl).become hc rfl rfl (fun _ => hl) hright

theorem Inv.makeEncoder {m : Option KeyName} (good : Bool)
    (hc : .key q m k ∈ S.calls) : Inv keyOf (S.makeEncoder (.key q m k) q m k good) := by
  have hl := h.alive _ hc rfl
  obtain ⟨hq, hm⟩ := h.calls _ hc
  have hright : (Call.unlock q (some k)).Right keyOf := fun k' hk' => by
    obtain rfl := mem_some_iff.1 hk'
    exact hq
  unfold State.makeEncoder
  split
  · cases m with
    | none => exact h.become hc rfl rfl (fun _ => hl) hright
    | some m =>
      refine (h.cacheAdd (n := .key m) hl (hm m rfl)).become ?_ rfl rfl (fun _ => ?_) hright
      · rwa [cacheAdd_calls]
      · rwa [cacheAdd_startedL]
  · exact h.fail hc rfl

theorem Inv.giveBack (hc : .release q k ∈ S.calls) :
    Inv keyOf ({ S with calls := S.calls.erase (.release q k) }.cacheAdd q.cacheName k) := by
  have hl := h.alive _ hc rfl
  have hright : q.cacheName.Right keyOf k := by
    have hq : q.Right keyOf k := h.calls _ hc
    cases q with
    | folderDecoder id | folderEncoder id => trivial
    | fileEncoder id hash b => exact hq
  have hrest : Inv keyOf { S with calls := S.calls.erase (.release q k) } :=
    { h with
      readers := h.readers.trans (card_holds_erase hc).symm
      stop := fun x hx => h.stop x (Multiset.mem_of_mem_erase hx)
      alive := fun x hx => h.alive x (Multiset.mem_of_mem_erase hx)
      cleaning := fun hx => h.cleaning (Multiset.mem_of_mem_erase hx)
      returning := fun hx => h.returning (Multiset.mem_of_mem_erase hx)
      calls := fun x hx => h.calls x (Multiset.mem_of_mem_erase hx) }
  exact hrest.cacheAdd hl hright

/-- The key which `psync_cloud_crypto_get_file_encoder_from_binresult` has goes into the cache, if
    crypto is started. -/
theorem Inv.binLocked {id : ℤ} {hash : ℕ} (hl : S.startedL = true)
    (hc : .binLocked id hash k ∈ S.calls) :
    Inv keyOf (({ S with used := S.startedL :: S.used }.cacheAdd (.key (.file id hash)) k).become
      (.binLocked id hash k) (.locked (.fileEncoder id hash false))) := by
  have hk : k = keyOf id hash := h.calls _ hc
  refine ((h.use hl).cacheAdd (n := .key (.file id hash)) hl hk).become ?_ rfl rfl (fun _ => ?_)
    trivial
  · rwa [cacheAdd_calls]
  · rwa [cacheAdd_startedL]

theorem Inv.readers_pos (hc : c ∈ S.calls) (hholds : c.holds = true) : 0 < S.readers := by
  have hcard := card_holds_erase hc
  rw [hholds, ← h.readers] at hcard
  exact hcard ▸ Nat.succ_pos _

theorem Inv.go {o : Outcome κ} (hc : c ∈ S.calls) (hlast : LastRevision S c o)
    (hgo : S.go keyOf c o = some T) : Inv keyOf T := by
  cases c with
  | cache q =>
    have hl := h.alive _ hc rfl
    rcases hget : S.cacheGet q.cacheName with _ | ⟨k, S'⟩
    · obtain rfl : S.become (.cache q) (.lock q) = T := by
        simpa [State.go, hget] using hgo
      exact h.become hc rfl rfl (fun _ => hl) trivial
    · obtain rfl : S'.finish (.cache q) q (some k) = T := by
        simpa [State.go, hget] using hgo
      obtain ⟨hright, hS', hcalls, hstarted⟩ := h.cacheGet hget
      refine hS'.finish (by rwa [hcalls]) rfl fun k' hk' => ⟨by rwa [hstarted], ?_⟩
      obtain rfl := some.inj hk'
      cases q with
      | folderDecoder id | folderEncoder id => trivial
      | fileEncoder id hash b => exact hright
  | lock q =>
    obtain ⟨⟩ := hgo
    exact h.moved hc rfl rfl (fun _ => h.alive _ hc rfl) trivial
  | locked q =>
    obtain ⟨⟩ := hgo
    exact h.locked o hc
  | fetch q m =>
    obtain ⟨⟩ := hgo
    exact h.fetch hc hlast
  | decrypt q m k =>
    obtain ⟨⟩ := hgo
    exact h.decrypt hc
  | key q m k =>
    obtain ⟨⟩ := hgo
    exact h.makeEncoder o.good hc
  | unlock q enc =>
    obtain ⟨⟩ := hgo
    have hpos := h.readers_pos hc rfl
    refine h.finish hc (Nat.sub_add_cancel hpos) fun k hk => ?_
    subst hk
    exact ⟨h.alive _ hc rfl, h.calls _ hc k rfl⟩
  | binLock id hash k =>
    obtain ⟨⟩ := hgo
    have hright : k = keyOf id hash := h.calls _ hc
    exact h.moved hc rfl rfl (fun ha => (by cases ha)) hright
  | binLocked id hash k =>
    unfold State.go at hgo
    dsimp only at hgo
    split at hgo
    · rename_i hl
      obtain ⟨⟩ := hgo
      exact h.binLocked hl hc
    · obtain ⟨⟩ := hgo
      exact h.fail hc rfl
  | release q k =>
    obtain ⟨⟩ := hgo
    exact h.giveBack hc
  | stopping | cleaning | returning => cases hgo

end

/-! ## Start and stop -/

/-- The steps of the runs: it starts when no stop is under way, a stop takes the write lock when no
    call is between its look at `crypto_started_un` and the read lock or the cache, and the keys
    which are downloaded are those of last revisions. -/
def Ok (S : State κ) : Action κ → Prop
  | .start _ => ∀ c ∈ S.calls, c.isStop = false
  | .stopLock => ∀ c ∈ S.calls, c.between = false
  | .go c o => LastRevision S c o
  | _ => True

omit [DecidableEq κ] in
theorem between_or_holds (ha : c.alive = true) : c.between = true ∨ c.holds = true := by
  cases c with
  | cache q | lock q | release q k => exact .inl rfl
  | unlock q enc => exact .inr rfl
  | _ => first | exact .inr rfl | cases ha

omit [DecidableEq κ] in
theorem of_isStop (hs : c.isStop = true) : c.holds = false ∧ c.alive = false ∧ c.Right keyOf := by
  cases c with
  | stopping | cleaning | returning => exact ⟨rfl, rfl, trivial⟩
  | _ => cases hs

omit [DecidableEq κ] in
theorem Inv.not_holds (h : Inv keyOf S) (hr : S.readers = 0) (hc : c ∈ S.calls) :
    c.holds = false := by
  by_contra hholds
  have hmem : c ∈ S.calls.filter fun c => c.holds = true :=
    Multiset.mem_filter.2 ⟨hc, Bool.eq_true_of_not_eq_false hholds⟩
  have hpos := Multiset.card_pos_iff_exists_mem.2 ⟨c, hmem⟩
  rw [← h.readers, hr] at hpos
  exact Nat.lt_irrefl 0 hpos

omit [DecidableEq κ] in
theorem Inv.start (h : Inv keyOf S) (hnone : ∀ c ∈ S.calls, c.isStop = false) :
    Inv keyOf { S with startedUn := true, startedL := true, privkey := true, stopped := false } :=
  { h with
    privkey := rfl
    startedUn := fun _ => rfl
    stop := fun c hc hs => by
      rw [hnone c hc] at hs
      cases hs
    alive := fun _ _ _ => rfl
    cleaning := fun hc => by cases hnone _ hc
    returning := fun hc => by cases hnone _ hc
    stopped := fun hs => by cases hs }

omit [DecidableEq κ] in
theorem Inv.beginStop (h : Inv keyOf S) :
    Inv keyOf { S with startedUn := false, calls := .stopping ::ₘ S.calls } where
  readers := by
    change S.readers = ((.stopping ::ₘ S.calls).filter fun c => c.holds = true).card
    rw [card_holds_cons, h.readers]
    rfl
  privkey := h.privkey
  startedUn hun := by cases hun
  stop _ _ _ := rfl
  alive x hx ha := by
    rcases Multiset.mem_cons.1 hx with rfl | hx
    · cases ha
    · exact h.alive x hx ha
  cleaning hx := by
    rcases Multiset.mem_cons.1 hx with hx | hx
    · cases hx
    · exact h.cleaning hx
  returning hx := by
    rcases Multiset.mem_cons.1 hx with hx | hx
    · cases hx
    · exact h.returning hx
  stopped := h.stopped
  cache := h.cache
  rows := h.rows
  saves := h.saves
  calls x hx := by
    rcases Multiset.mem_cons.1 hx with rfl | hx
    · trivial
    · exact h.calls x hx
  held := h.held
  used := h.used
  returned := h.returned

theorem Inv.stopGoes {calls : Multiset (Call κ)} (h : Inv keyOf S) (hs : c.isStop = true)
    (hc : c ∈ S.calls) (hcalls : calls = S.calls.erase c ∨
      ∃ c' : Call κ, c'.isStop = true ∧ calls = c' ::ₘ S.calls.erase c)
    (hcleaning : .cleaning ∈ calls → S.startedL = false)
    (hreturning : .returning ∈ calls → S.Quiet) :
    Inv keyOf { S with calls := calls } := by
  have hholds : ∀ x : Call κ, x.isStop = true → x.holds = false := fun x hx =>
    (@of_isStop κ keyOf x hx).1
  have hrest : ∀ x ∈ calls, x ∈ S.calls ∨ x.isStop = true := fun x hx => by
    rcases hcalls with rfl | ⟨c', hc', rfl⟩
    · exact .inl (Multiset.mem_of_mem_erase hx)
    · rcases Multiset.mem_cons.1 hx with rfl | hx
      · exact .inr hc'
      · exact .inl (Multiset.mem_of_mem_erase hx)
  refine { h with
    readers := ?_
    stop := fun x hx hs' => h.stop c hc hs
    alive := fun x hx ha => ?_
    cleaning := hcleaning
    returning := hreturning
    calls := fun x hx => ?_ }
  · change S.readers = (calls.filter fun c => c.holds = true).card
    have hcard := card_holds_erase hc
    rw [hholds c hs] at hcard
    rcases hcalls with rfl | ⟨c', hc', rfl⟩
    · rw [h.readers, ← hcard]
      rfl
    · rw [card_holds_cons, hholds c' hc', h.readers, ← hcard]
  · rcases hrest x hx with hx | hx
    · exact h.alive x hx ha
    · rw [(@of_isStop κ keyOf x hx).2.1] at ha
      cases ha
  · rcases hrest x hx with hx | hx
    · exact h.calls x hx
    · exact (of_isStop hx).2.2

/-- A stop takes the write lock: the private key goes. -/
theorem Inv.lockStop (h : Inv keyOf S) (hmem : .stopping ∈ S.calls) (hr : S.readers = 0)
    (hfree : ∀ c ∈ S.calls, c.between = false) :
    Inv keyOf ({ S with startedL := false, privkey := false }.become .stopping .cleaning) := by
  have hun : S.startedUn = false := h.stop _ hmem rfl
  have hdead : ∀ x ∈ S.calls, x.alive = true → False := fun x hx ha => by
    rcases between_or_holds ha with hb | hh
    · rw [hfree x hx] at hb
      cases hb
    · rw [h.not_holds hr hx] at hh
      cases hh
  have hoff : Inv keyOf { S with startedL := false, privkey := false } :=
    { h with
      privkey := rfl
      startedUn := fun h' => by
        rw [hun] at h'
        cases h'
      alive := fun x hx ha => absurd ha (hdead x hx)
      cleaning := fun _ => rfl
      returning := fun hx => ⟨rfl, (h.returning hx).2⟩
      stopped := fun hs => ⟨rfl, (h.stopped hs).2⟩ }
  refine hoff.stopGoes rfl hmem (.inr ⟨.cleaning, rfl, rfl⟩) (fun _ => rfl) fun hx => ?_
  rcases Multiset.mem_cons.1 hx with hx | hx
  · cases hx
  · exact hoff.returning (Multiset.mem_of_mem_erase hx)

theorem Inv.cleanStop (h : Inv keyOf S) (hmem : .cleaning ∈ S.calls) :
    Inv keyOf ({ S with cache := [] }.become .cleaning .returning) := by
  have hl := h.cleaning hmem
  have hclean : Inv keyOf { S with cache := [] } :=
    { h with
      returning := fun _ => ⟨hl, rfl⟩
      stopped := fun _ => ⟨hl, rfl⟩
      cache := fun e he => by cases he }
  exact hclean.stopGoes rfl hmem (.inr ⟨.returning, rfl, rfl⟩) (fun _ => hl) fun _ => ⟨hl, rfl⟩

theorem Inv.step {a : Action κ} (h : Inv keyOf S) (hok : Ok S a)
    (hstep : S.step keyOf a = some T) : Inv keyOf T := by
  cases a with
  | start ok =>
    simp only [State.step] at hstep
    split at hstep
    · split at hstep
      · obtain ⟨⟩ := hstep
        exact h
      · obtain ⟨⟩ := hstep
        exact h.start hok
    · cases hstep
  | stop =>
    obtain ⟨⟩ := hstep
    exact h.beginStop
  | stopLock =>
    simp only [State.step] at hstep
    split at hstep
    · rename_i hc
      split at hstep
      · obtain ⟨⟩ := hstep
        exact h.lockStop hc.1 hc.2 hok
      · obtain ⟨⟩ := hstep
        exact h.stopGoes rfl hc.1 (.inl rfl) (fun hx => h.cleaning (Multiset.mem_of_mem_erase hx))
          fun hx => h.returning (Multiset.mem_of_mem_erase hx)
    · cases hstep
  | stopClean =>
    obtain ⟨hmem, ⟨⟩⟩ := ite_none_right_eq_some.1 hstep
    exact h.cleanStop hmem
  | stopReturn =>
    obtain ⟨hmem, ⟨⟩⟩ := ite_none_right_eq_some.1 hstep
    have hreturned : Inv keyOf { S with stopped := true } :=
      { h with
        stopped := fun _ => h.returning hmem
        returned := fun e he k hk => h.returned e he k hk }
    exact hreturned.stopGoes rfl hmem (.inl rfl)
      (fun hx => h.cleaning (Multiset.mem_of_mem_erase hx))
      fun hx => h.returning (Multiset.mem_of_mem_erase hx)
  | get q =>
    simp only [State.step] at hstep
    split at hstep
    · rename_i hun
      obtain ⟨⟩ := hstep
      have hl := h.startedUn hun
      by_cases hq : q.id ≥ 0
      · rw [if_pos hq]
        exact h.begin rfl rfl (fun _ => hl) trivial
      · rw [if_neg hq]
        exact h.begin rfl rfl (fun _ => hl) trivial
    · obtain ⟨⟩ := hstep
      exact
        { h with
          returned := fun e he k hk => by
            rcases mem_cons.1 he with rfl | he
            · cases hk
            · exact h.returned e he k hk }
  | fromBinresult id hash =>
    obtain ⟨⟩ := hstep
    exact (h.toSave id hash).begin rfl rfl (fun ha => (by cases ha)) rfl
  | go c o =>
    simp only [State.step] at hstep
    split at hstep
    · rename_i hc
      exact h.go hc hok hstep
    · cases hstep
  | release q k =>
    simp only [State.step] at hstep
    split at hstep
    · rename_i hmem
      have hgiven : Inv keyOf { S with held := S.held.erase (q, k) } :=
        { h with held := fun x hx => h.held x (Multiset.mem_of_mem_erase hx) }
      split at hstep
      · rename_i hun
        obtain ⟨⟩ := hstep
        exact hgiven.begin rfl rfl (fun _ => h.startedUn hun.1) (h.held _ hmem)
      · obtain ⟨⟩ := hstep
        exact hgiven
    · cases hstep
  | free q k =>
    obtain ⟨-, ⟨⟩⟩ := ite_none_right_eq_some.1 hstep
    exact { h with held := fun x hx => h.held x (Multiset.mem_of_mem_erase hx) }
  | save row =>
    obtain ⟨hmem, ⟨⟩⟩ := ite_none_right_eq_some.1 hstep
    exact
      { h with
        rows := fun x hx => by
          rcases mem_cons.1 hx with rfl | hx
          · exact h.saves _ hmem
          · exact h.rows x (mem_filter.1 hx).1
        saves := fun x hx => h.saves x (mem_of_mem_erase hx) }
  | forget row =>
    obtain ⟨⟩ := hstep
    exact { h with rows := fun x hx => h.rows x (mem_of_mem_erase hx) }
  | expire e =>
    obtain ⟨⟩ := hstep
    exact h.cacheErase e
  | revise id hash =>
    obtain ⟨⟩ := hstep
    exact { h with }

omit [DecidableEq κ] in
theorem Inv.initial {current : ℤ → ℕ} {rows : List (ℤ × ℕ × κ)}
    (hrows : ∀ x ∈ rows, x.2.2 = keyOf x.1 x.2.1) : Inv keyOf (initial current rows) where
  readers := rfl
  privkey := rfl
  startedUn h := by cases h
  stop c hc := by cases hc
  alive c hc := by cases hc
  cleaning hc := by cases hc
  returning hc := by cases hc
  stopped h := by cases h
  cache e he := by cases he
  rows := hrows
  saves x hx := by cases hx
  calls c hc := by cases hc
  held x hx := by cases hx
  used b hb := by cases hb
  returned e he := by cases he

end State

end Pclsync.CryptoKeys
