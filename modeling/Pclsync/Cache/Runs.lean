import Mathlib.Data.List.Perm.Basic
import Mathlib.Data.List.Nodup
import Pclsync.Cache.System

/-!
# Runs of the cache

The elements of a bucket are taken out by the thread which has its mutex, or by the callback of a
timer, which needs the mutex too; what a thread is still to visit is part of its bucket. A timer
which waits is stopped by one of them, and a timer which was picked by none.

* `System.runs_ownedOnce`: each value which was added is in the cache, was handed out by one
  `psync_cache_get` for its key, or was freed, and only one of these, once; no timer is stopped
  which was freed; who adds a value leaves at most `maxkeys` of the key.
* `System.more_than_maxkeys`: not so when the value is refused, as others may have added more.
-/

namespace Pclsync.Cache

open Function List

theorem hashToLock_eq (h : UInt32) : hashToLock h = bucketToLock (hashToBucket h) := by
  rw [hashToLock, bucketToLock, hashToBucket, UInt32.toNat_mul, cacheHashSize, cacheLocks]
  have hlt := h.toNat_lt
  have h8 : (8 : UInt32).toNat = 8 := rfl
  rw [h8]
  omega

theorem Op.lock_eq (seed : UInt32) (op : Op) : op.lock seed = bucketToLock (op.bucket seed) := by
  cases op with
  | get key | del key | add key _ => exact hashToLock_eq _
  | clean _ b => rfl

namespace System

variable {ι : Type} {seed : UInt32} {S S' : System ι} {i j : ι} {op : Op}
  {he : HashElement} {rest : List HashElement}

/-! ## The invariant -/

/-- What holds of the elements. -/
structure Elements (seed : UInt32) (S : System ι) : Prop where
  hash : ∀ he ∈ S.elements, he.hash = hashFunc seed he.key
  timers : ∀ he ∈ S.elements, S.timers he.value = .waiting ∧ he ∉ S.queue ∨
    (∃ b, S.timers he.value = .running b) ∧ he ∈ S.queue
  queue : S.queue.Nodup
  queued : ∀ he ∈ S.queue, he ∈ S.elements
  once : (S.elements.map HashElement.value ++ S.handed.map (fun p => p.2.value) ++ S.freed).Perm
    (range S.adds)
  handed : ∀ p ∈ S.handed, p.2.key = p.1
  added : ∀ a ∈ S.added, a.stored = true → a.maxkeys ≠ 0 → a.count ≤ a.maxkeys
  valid : S.invalid = false

/-- What holds of the threads which have a mutex. -/
structure Visits (seed : UInt32) (S : System ι) : Prop where
  locked : ∀ i op r, S.threads i = some ⟨op, some r⟩ → S.mutexes (op.lock seed) = some i
  /-- What is still to be visited is in the bucket. -/
  rest : ∀ i op r, S.threads i = some ⟨op, some r⟩ → r.Sublist (S.bucket (op.bucket seed))
  scans : ∀ i key maxkeys r, S.threads i ≠ some ⟨.add key maxkeys, some r⟩

/-- The invariant. -/
structure Inv (seed : UInt32) (S : System ι) : Prop where
  elements : S.Elements seed
  visits : S.Visits seed

theorem inv_start : Inv seed (start : System ι) where
  elements := by
    refine ⟨fun he h => ?_, fun he h => ?_, nodup_nil, fun he h => ?_, List.Perm.refl _,
      fun p h => ?_, fun a h => ?_, rfl⟩ <;> cases h
  visits := by
    refine ⟨fun i op r h => ?_, fun i op r h => ?_, fun i key maxkeys r h => ?_⟩ <;> cases h

theorem Elements.nodup (h : S.Elements seed) : (S.elements.map HashElement.value).Nodup := by
  have hall := h.once.nodup_iff.2 nodup_range
  exact (nodup_append.1 (nodup_append.1 hall).1).1

theorem Elements.eq_of_value (h : S.Elements seed) {he' : HashElement} (hm : he ∈ S.elements)
    (hm' : he' ∈ S.elements) (hv : he.value = he'.value) : he = he' :=
  inj_on_of_nodup_map h.nodup hm hm' hv

/-- Who has a mutex is the only one in its buckets. -/
theorem Visits.eq_of_bucket (h : S.Visits seed) {op' : Op} {r r' : List HashElement}
    (hi : S.threads i = some ⟨op, some r⟩) (hj : S.threads j = some ⟨op', some r'⟩)
    (hb : op'.bucket seed = op.bucket seed) : j = i := by
  have hmi := h.locked i op r hi
  have hmj := h.locked j op' r' hj
  rw [Op.lock_eq, hb, ← Op.lock_eq, hmi] at hmj
  exact (Option.some_inj.1 hmj).symm

theorem Visits.mem (h : S.Visits seed) (hi : S.threads i = some ⟨op, some (he :: rest)⟩) :
    he ∈ S.elements ∧ hashToBucket he.hash = op.bucket seed := by
  have hmem := (h.rest i op _ hi).subset mem_cons_self
  obtain ⟨hm, hb⟩ := mem_filter.1 hmem
  exact ⟨hm, of_decide_eq_true hb⟩

theorem bucket_listDel (b : ℕ) : (S.listDel he).bucket b = (S.bucket b).erase he :=
  erase_filter.symm

theorem bucket_listDel_of_ne {b : ℕ} (hb : b ≠ hashToBucket he.hash) :
    (S.listDel he).bucket b = S.bucket b := by
  rw [bucket_listDel]
  refine erase_of_not_mem fun hm => hb ?_
  exact (of_decide_eq_true (mem_filter.1 hm).2).symm

/-! ## Elements -/

/-- An element whose timer does not wait any more, and which is not in the queue, is taken out: its
    value is handed out, or freed. -/
theorem Elements.take (h : S.Elements seed) (hm : he ∈ S.elements) (helements : S'.elements =
    S.elements.erase he) (htimers : ∀ v, v ≠ he.value → S'.timers v = S.timers v)
    (hqueue : S'.queue = S.queue.erase he)
    (hhanded : ∀ p ∈ S'.handed, p.2.key = p.1)
    (honce : ((he.value :: S.handed.map (fun p => p.2.value)) ++ S.freed).Perm
      (S'.handed.map (fun p => p.2.value) ++ S'.freed))
    (hadds : S'.adds = S.adds) (hadded : S'.added = S.added) (hvalid : S'.invalid = S.invalid) :
    S'.Elements seed := by
  have hsub : ∀ he' ∈ S'.elements, he' ∈ S.elements ∧ he' ≠ he := by
    intro he' hm'
    rw [helements] at hm'
    refine ⟨mem_of_mem_erase hm', fun hc => ?_⟩
    subst hc
    exact Nodup.not_mem_erase (Nodup.of_map _ h.nodup) hm'
  refine ⟨fun he' hm' => h.hash he' (hsub he' hm').1, fun he' hm' => ?_, ?_, fun he' hq => ?_, ?_,
    hhanded, ?_, ?_⟩
  · obtain ⟨hm0, hne⟩ := hsub he' hm'
    rw [htimers _ fun hv => hne (h.eq_of_value hm0 hm hv), hqueue]
    rcases h.timers he' hm0 with ⟨hw, hq⟩ | ⟨hr, hq⟩
    · exact .inl ⟨hw, fun hc => hq (mem_of_mem_erase hc)⟩
    · exact .inr ⟨hr, (mem_erase_of_ne hne).2 hq⟩
  · rw [hqueue]
    exact h.queue.erase he
  · rw [hqueue] at hq
    rw [helements]
    have hne : he' ≠ he := fun hc => by
      subst hc
      exact h.queue.not_mem_erase hq
    exact (mem_erase_of_ne hne).2 (h.queued he' (mem_of_mem_erase hq))
  · rw [hadds]
    refine Perm.trans ?_ h.once
    rw [helements, append_assoc, append_assoc]
    refine (honce.symm.append_left _).trans ?_
    have hperm := ((perm_cons_erase hm).map HashElement.value).append_right
      (S.handed.map (fun p => p.2.value) ++ S.freed)
    refine Perm.trans ?_ hperm.symm
    rw [map_cons, cons_append, cons_append]
    exact perm_middle
  · rw [hadded]
    exact h.added
  · rw [hvalid]
    exact h.valid

/-- The timer of an element which is not taken out changes from waiting to running with it being put
    in the queue, or is marked. -/
theorem Elements.setTimer (h : S.Elements seed) (hm : he ∈ S.elements) {b : Bool}
    (hrun : (∃ b, S.timers he.value = .running b) ∧ he ∈ S.queue) :
    (S.setTimer he (.running b)).Elements seed := by
  refine ⟨h.hash, fun he' hm' => ?_, h.queue, h.queued, h.once, h.handed, h.added, h.valid⟩
  change update S.timers he.value (.running b) he'.value = .waiting ∧ _ ∨
    (∃ c, update S.timers he.value (.running b) he'.value = .running c) ∧ _
  by_cases hv : he'.value = he.value
  · rw [h.eq_of_value hm' hm hv, update_self]
    exact .inr ⟨⟨b, rfl⟩, hrun.2⟩
  · rw [update_of_ne hv]
    exact h.timers he' hm'

theorem Elements.pick (h : S.Elements seed) (hm : he ∈ S.elements)
    (hw : S.timers he.value = .waiting) :
    Elements seed { S.setTimer he (.running false) with queue := S.queue ++ [he] } := by
  have hq : he ∉ S.queue := by
    rcases h.timers he hm with ⟨-, hq⟩ | ⟨⟨b, hr⟩, -⟩
    · exact hq
    · rw [hw] at hr
      cases hr
  refine ⟨h.hash, fun he' hm' => ?_, ?_, fun he' hq' => ?_, h.once, h.handed, h.added, h.valid⟩
  · change update S.timers he.value (.running false) he'.value = .waiting ∧ _ ∨
      (∃ c, update S.timers he.value (.running false) he'.value = .running c) ∧ _
    by_cases hv : he'.value = he.value
    · rw [h.eq_of_value hm' hm hv, update_self]
      exact .inr ⟨⟨false, rfl⟩, mem_append_right _ mem_cons_self⟩
    · have hne : he' ≠ he := fun hc => hv (congrArg _ hc)
      rw [update_of_ne hv]
      rcases h.timers he' hm' with ⟨hw', hq'⟩ | ⟨hr, hq'⟩
      · refine .inl ⟨hw', fun hc => ?_⟩
        rcases mem_append.1 hc with hc | hc
        · exact hq' hc
        · exact hne (mem_singleton.1 hc)
      · exact .inr ⟨hr, mem_append_left _ hq'⟩
  · exact nodup_append.2 ⟨h.queue, nodup_singleton he, fun a ha b hb => by
      rw [mem_singleton.1 hb]
      rintro rfl
      exact hq ha⟩
  · rcases mem_append.1 hq' with hq' | hq'
    · exact h.queued he' hq'
    · rw [mem_singleton.1 hq']
      exact hm

/-! ## Threads -/

/-- A step of a thread: the others find their mutexes and buckets as before. -/
theorem Visits.of (h : S.Visits seed) (hothers : ∀ j, j ≠ i → S'.threads j = S.threads j)
    (hkept : ∀ j, j ≠ i → ∀ op r, S.threads j = some ⟨op, some r⟩ →
      S'.mutexes (op.lock seed) = S.mutexes (op.lock seed) ∧
        S'.bucket (op.bucket seed) = S.bucket (op.bucket seed))
    (hself : ∀ op r, S'.threads i = some ⟨op, some r⟩ → S'.mutexes (op.lock seed) = some i ∧
      r.Sublist (S'.bucket (op.bucket seed)) ∧ ∀ key maxkeys, op ≠ .add key maxkeys) :
    S'.Visits seed := by
  refine ⟨fun j op r hj => ?_, fun j op r hj => ?_, fun j key maxkeys r hj => ?_⟩
  · by_cases hij : j = i
    · subst hij
      exact (hself op r hj).1
    · rw [hothers j hij] at hj
      rw [(hkept j hij op r hj).1]
      exact h.locked j op r hj
  · by_cases hij : j = i
    · subst hij
      exact (hself op r hj).2.1
    · rw [hothers j hij] at hj
      rw [(hkept j hij op r hj).2]
      exact h.rest j op r hj
  · by_cases hij : j = i
    · subst hij
      exact (hself _ r hj).2.2 key maxkeys rfl
    · rw [hothers j hij] at hj
      exact h.scans j key maxkeys r hj

/-- The thread which has the mutex of a bucket takes an element out of it, and goes on: it keeps the
    mutex or releases it. -/
theorem Visits.visited (h : S.Visits seed) (hi : S.threads i = some ⟨op, some (he :: rest)⟩)
    (hothers : ∀ j, j ≠ i → S'.threads j = S.threads j)
    (hmutex : ∀ l, l ≠ op.lock seed → S'.mutexes l = S.mutexes l)
    (hbucket : ∀ b, b ≠ op.bucket seed → S'.bucket b = S.bucket b)
    (hself : ∀ op' r, S'.threads i = some ⟨op', some r⟩ → op' = op ∧
      S'.mutexes (op.lock seed) = some i ∧ r.Sublist (S'.bucket (op.bucket seed))) :
    S'.Visits seed := by
  refine h.of hothers (fun j hij op' r hj => ?_) fun op' r hj => ?_
  · have hb : op'.bucket seed ≠ op.bucket seed := fun hb => hij (h.eq_of_bucket hi hj hb)
    refine ⟨hmutex _ fun hl => ?_, hbucket _ hb⟩
    have hmi := h.locked i op _ hi
    rw [← hl, h.locked j op' r hj] at hmi
    exact hij (Option.some_inj.1 hmi)
  · obtain ⟨rfl, hm, hr⟩ := hself op' r hj
    refine ⟨hm, hr, fun key maxkeys hc => ?_⟩
    rw [hc] at hi
    exact h.scans i key maxkeys _ hi

/-- Nobody visits a bucket whose mutex is free. -/
theorem Visits.bucket_ne (h : S.Visits seed) {b : ℕ} (hfree : S.mutexes (bucketToLock b) = none)
    {r : List HashElement} (hj : S.threads j = some ⟨op, some r⟩) : op.bucket seed ≠ b := by
  intro hb
  have hm := h.locked j op r hj
  rw [Op.lock_eq, hb, hfree] at hm
  cases hm

theorem Elements.count_eq (h : S.Elements seed) (key : Key) :
    ((S.bucket (hashToBucket (hashFunc seed key))).filter fun he2 =>
      he2.hash == hashFunc seed key && key == he2.key).length = S.count key := by
  rw [bucket, count, filter_filter]
  refine congrArg length (filter_congr fun he hm => ?_)
  have hhash := h.hash he hm
  by_cases hkey : he.key = key
  · simp [hkey, hhash]
  · simp [hkey, Ne.symm hkey]

variable [DecidableEq ι]

theorem Elements.setThread (h : S.Elements seed) (pc : Option Pc) :
    (S.setThread i pc).Elements seed :=
  ⟨h.hash, h.timers, h.queue, h.queued, h.once, h.handed, h.added, h.valid⟩

theorem Elements.unlock (h : S.Elements seed) (l : ℕ) (next : Option Op) :
    (S.unlock i l next).Elements seed :=
  ⟨h.hash, h.timers, h.queue, h.queued, h.once, h.handed, h.added, h.valid⟩

theorem unlock_threads_self {l : ℕ} {next : Option Op} {r : List HashElement} :
    (S.unlock i l next).threads i ≠ some ⟨op, some r⟩ := by
  have hself : (S.unlock i l next).threads i = next.map fun op => ⟨op, none⟩ :=
    update_self i _ _
  rw [hself]
  cases next with
  | none | some op => exact fun hc => by cases hc

/-! ## Steps -/

section

variable (h : S.Inv seed)
include h

section

variable (hi : S.threads i = some ⟨op, some (he :: rest)⟩)
include hi

/-- An element which was not taken out is left behind. -/
theorem Inv.pass
    {T : System ι} (hT : T.Elements seed) (hthreads : T.threads = S.threads)
    (hmutexes : T.mutexes = S.mutexes) (helements : T.elements = S.elements) :
    (T.setThread i (some ⟨op, some rest⟩)).Inv seed := by
  have hbucket : ∀ b, (T.setThread i (some ⟨op, some rest⟩)).bucket b = S.bucket b := fun b => by
    rw [bucket, bucket, ← helements]
    rfl
  refine ⟨hT.setThread _, h.visits.visited hi (fun j hij => ?_) (fun l _ => ?_)
    (fun b _ => hbucket b) fun op' r hj => ?_⟩
  · rw [← hthreads]
    exact update_of_ne hij _ _
  · rw [← hmutexes]
    rfl
  · have hself : (T.setThread i (some ⟨op, some rest⟩)).threads i = some ⟨op, some rest⟩ :=
      update_self i _ _
    rw [hself] at hj
    cases hj
    refine ⟨rfl, ?_, ?_⟩
    · have hm := h.visits.locked i op _ hi
      rw [← hmutexes] at hm
      exact hm
    · rw [hbucket]
      exact (sublist_cons_self he rest).trans (h.visits.rest i op _ hi)

theorem Inv.taken
    (hwants : op.wants seed he = true) (hw : S.timers he.value = .waiting) :
    (((S.setTimer he .freed).listDel he).taken seed i op he rest).Inv seed := by
  obtain ⟨hm, hb⟩ := h.visits.mem hi
  have hq : he ∉ S.queue := by
    rcases h.elements.timers he hm with ⟨-, hq⟩ | ⟨⟨b, hr⟩, -⟩
    · exact hq
    · rw [hw] at hr
      cases hr
  have htimers : ∀ v, v ≠ he.value → (S.setTimer he .freed).timers v = S.timers v :=
    fun v hv => update_of_ne hv _ _
  have hqueue : S.queue = S.queue.erase he := (erase_of_not_mem hq).symm
  have hbucket : ∀ b, b ≠ op.bucket seed →
      ((S.setTimer he .freed).listDel he).bucket b = S.bucket b := fun b hne =>
    bucket_listDel_of_ne (S := S.setTimer he .freed) (hb ▸ hne)
  have hfreed : ∀ T : System ι, T.elements = S.elements.erase he →
      T.timers = (S.setTimer he .freed).timers → T.queue = S.queue → T.handed = S.handed →
      T.freed = S.freed ++ [he.value] → T.adds = S.adds → T.added = S.added →
      T.invalid = S.invalid → T.Elements seed := by
    intro T h1 h2 h3 h4 h5 h6 h7 h₈
    refine h.elements.take hm h1 (fun v hv => ?_) (h3.trans hqueue) ?_ ?_ h6 h7 h₈
    · rw [h2]
      exact htimers v hv
    · rw [h4]
      exact h.elements.handed
    · rw [h4, h5, ← append_assoc]
      exact (perm_append_singleton _ _).symm
  cases op with
  | get key =>
    have hkey : he.key = key := by
      rw [Op.wants, Bool.and_eq_true] at hwants
      exact (eq_of_beq hwants.2).symm
    refine ⟨?_, ?_⟩
    · refine h.elements.take hm rfl htimers hqueue (fun p hp => ?_) ?_ rfl rfl rfl
      · rcases mem_append.1 hp with hp | hp
        · exact h.elements.handed p hp
        · rw [mem_singleton.1 hp]
          exact hkey
      · have hmap : (S.handed ++ [(key, he)]).map (fun p => p.2.value) =
            S.handed.map (fun p => p.2.value) ++ [he.value] := map_append
        refine Perm.append_right _ ?_
        exact hmap ▸ (perm_append_singleton he.value _).symm
    · exact h.visits.visited hi (fun j hij => update_of_ne hij _ _)
        (fun l hl => update_of_ne hl _ _) hbucket
        fun op' r hj => absurd hj unlock_threads_self
  | del key =>
    exact ⟨hfreed _ rfl rfl rfl rfl rfl rfl rfl rfl,
      h.visits.visited hi (fun j hij => update_of_ne hij _ _)
        (fun l hl => update_of_ne hl _ _) hbucket
        fun op' r hj => absurd hj unlock_threads_self⟩
  | clean prefixes b =>
    refine ⟨hfreed _ rfl rfl rfl rfl rfl rfl rfl rfl,
      h.visits.visited hi (fun j hij => update_of_ne hij _ _) (fun l hl => rfl) hbucket
        fun op' r hj => ?_⟩
    have hself : (((S.setTimer he .freed).listDel he).taken seed i (.clean prefixes b) he
        rest).threads i = some ⟨.clean prefixes b, some rest⟩ := update_self i _ _
    rw [hself] at hj
    cases hj
    refine ⟨rfl, h.visits.locked i _ _ hi, ?_⟩
    have hsub := (h.visits.rest i _ _ hi).erase he
    rw [erase_cons_head] at hsub
    exact (bucket_listDel (S := S.setTimer he .freed) b) ▸ hsub
  | add key maxkeys => exact absurd hi (h.visits.scans i key maxkeys _)

theorem Inv.visit : (S.visit seed i op he rest).Inv seed := by
  obtain ⟨hm, -⟩ := h.visits.mem hi
  rw [System.visit]
  by_cases hwants : op.wants seed he = true
  · rw [if_pos hwants]
    rcases h.elements.timers he hm with ⟨hw, -⟩ | hrun
    · rw [hw]
      exact h.taken hi hwants hw
    · obtain ⟨⟨b, hr⟩, hq⟩ := hrun
      rw [hr]
      exact h.pass hi (h.elements.setTimer hm ⟨⟨b, hr⟩, hq⟩) rfl rfl rfl
  · rw [if_neg hwants]
    exact h.pass hi h.elements rfl rfl rfl

end

theorem Inv.unlock (hi : S.threads i = some ⟨op, some []⟩) :
    (S.unlock i (op.lock seed) op.next).Inv seed := by
  refine ⟨h.elements.unlock _ _, h.visits.of (i := i) (fun j hij => update_of_ne hij _ _)
    (fun j hij op' r hj => ⟨update_of_ne (fun hl => ?_) _ _, rfl⟩)
    fun op' r hj => absurd hj unlock_threads_self⟩
  have hmi := h.visits.locked i op _ hi
  rw [← hl, h.visits.locked j op' r hj] at hmi
  exact hij (Option.some_inj.1 hmi)

theorem Inv.call : (S.setThread i (some ⟨op, none⟩)).Inv seed := by
  refine ⟨h.elements.setThread _, h.visits.of (i := i)
    (fun j hij => update_of_ne hij _ _) (fun j _ op' r _ => ⟨rfl, rfl⟩)
    fun op' r hj => ?_⟩
  have hself : (S.setThread i (some ⟨op, none⟩)).threads i = some ⟨op, none⟩ :=
    update_self i _ _
  rw [hself] at hj
  cases hj

theorem Inv.cacheAdd {key : Key} {maxkeys : ℕ}
    (hfree : S.mutexes ((Op.add key maxkeys).lock seed) = none) :
    (S.cacheAdd seed i key maxkeys).Inv seed := by
  rw [System.cacheAdd]
  dsimp only
  rw [h.elements.count_eq key]
  rw [Op.lock_eq] at hfree
  have hfresh : ∀ he ∈ S.elements, he.value ≠ S.adds := by
    intro he hm hv
    have hmem := h.elements.once.subset (mem_append_left _ (mem_append_left _
      (mem_map_of_mem (f := HashElement.value) hm)))
    rw [hv] at hmem
    exact absurd (mem_range.1 hmem) (Nat.lt_irrefl _)
  have honce := perm_iff_count.1 h.elements.once
  by_cases hfull : maxkeys ≠ 0 ∧ maxkeys ≤ S.count key
  · rw [if_pos hfull]
    refine ⟨⟨h.elements.hash, h.elements.timers, h.elements.queue, h.elements.queued, ?_,
      h.elements.handed, fun a ha hs => ?_, h.elements.valid⟩, h.visits.of (i := i)
        (fun j hij => update_of_ne hij _ _) (fun j _ op' r _ => ⟨rfl, rfl⟩)
        fun op' r hj => ?_⟩
    · refine perm_iff_count.2 fun a => ?_
      have hcount := honce a
      simp only [System.setThread, count_append, range_succ] at hcount ⊢
      omega
    · rcases mem_append.1 ha with ha | ha
      · exact h.elements.added a ha hs
      · rw [mem_singleton.1 ha] at hs
        cases hs
    · have hself : none = some (Pc.mk op' (some r)) := (update_self i _ _).symm.trans hj
      cases hself
  · rw [if_neg hfull]
    refine ⟨⟨fun he hm => ?_, fun he hm => ?_, h.elements.queue, fun he hq => ?_, ?_,
      h.elements.handed, fun a ha hs hmax => ?_, h.elements.valid⟩, h.visits.of (i := i)
        (fun j hij => update_of_ne hij _ _) (fun j _ op' r hj => ⟨rfl, ?_⟩)
        fun op' r hj => ?_⟩
    · rcases mem_cons.1 hm with rfl | hm
      · rfl
      · exact h.elements.hash he hm
    · change update S.timers S.adds .waiting he.value = .waiting ∧ _ ∨
        (∃ b, update S.timers S.adds .waiting he.value = .running b) ∧ _
      rcases mem_cons.1 hm with rfl | hm
      · refine .inl ⟨update_self _ _ _, fun hq => ?_⟩
        exact hfresh _ (h.elements.queued _ hq) rfl
      · rw [update_of_ne (hfresh he hm)]
        exact h.elements.timers he hm
    · exact mem_cons_of_mem _ (h.elements.queued he hq)
    · refine perm_iff_count.2 fun a => ?_
      have hcount := honce a
      simp only [System.setThread, setTimer, map_cons, count_append, count_cons,
        range_succ, count_nil] at hcount ⊢
      omega
    · rcases mem_append.1 ha with ha | ha
      · exact h.elements.added a ha hs hmax
      · rw [mem_singleton.1 ha] at hmax ⊢
        have hlt : S.count key < maxkeys := Nat.lt_of_not_le fun hc => hfull ⟨hmax, hc⟩
        have hcons := filter_cons_of_pos (p := fun he : HashElement => decide (he.key = key))
          (a := ⟨S.adds, hashFunc seed key, key⟩) (l := S.elements) (decide_eq_true rfl)
        exact (congrArg length hcons).trans_le hlt
    · have hne := h.visits.bucket_ne hfree hj
      refine filter_cons_of_neg fun hc => hne ?_
      exact (of_decide_eq_true hc).symm
    · have hself : none = some (Pc.mk op' (some r)) := (update_self i _ _).symm.trans hj
      cases hself

theorem Inv.enter (hfree : S.mutexes (op.lock seed) = none) : (S.enter seed i op).Inv seed := by
  by_cases hadd : ∃ key maxkeys, op = .add key maxkeys
  · obtain ⟨key, maxkeys, rfl⟩ := hadd
    exact h.cacheAdd hfree
  · have henter : S.enter seed i op = { S with
        mutexes := update S.mutexes (op.lock seed) (some i) }.setThread i
          (some ⟨op, some (S.bucket (op.bucket seed))⟩) := by
      cases op with
      | add key maxkeys => exact absurd ⟨key, maxkeys, rfl⟩ hadd
      | get key | del key | clean prefixes b => rfl
    rw [henter]
    refine ⟨⟨h.elements.hash, h.elements.timers, h.elements.queue, h.elements.queued,
      h.elements.once, h.elements.handed, h.elements.added, h.elements.valid⟩, h.visits.of (i := i)
        (fun j hij => update_of_ne hij _ _)
        (fun j _ op' r hj => ⟨update_of_ne (fun hl => ?_) _ _, rfl⟩) fun op' r hj => ?_⟩
    · have hm := h.visits.locked j op' r hj
      rw [hl, hfree] at hm
      cases hm
    · have hself : some (Pc.mk op (some (S.bucket (op.bucket seed)))) = some (Pc.mk op' (some r)) :=
        (update_self i _ _).symm.trans hj
      cases hself
      exact ⟨update_self _ _ _, Sublist.refl _, fun key maxkeys hc =>
        hadd ⟨key, maxkeys, hc⟩⟩

end

omit [DecidableEq ι] in
theorem Inv.pick (h : S.Inv seed) (hm : he ∈ S.elements) (hw : S.timers he.value = .waiting) :
    Inv seed { S.setTimer he (.running false) with queue := S.queue ++ [he] } :=
  ⟨h.elements.pick hm hw, ⟨h.visits.locked, h.visits.rest, h.visits.scans⟩⟩

omit [DecidableEq ι] in
/-- The callback of the timer which was picked first takes its element out of the bucket. -/
theorem Inv.cacheTimer {queue : List HashElement} (h : S.Inv seed) (hq : S.queue = he :: queue)
    (hfree : S.mutexes (hashToLock he.hash) = none) : (S.cacheTimer he queue).Inv seed := by
  have hmq : he ∈ S.queue := hq ▸ mem_cons_self
  have hm := h.elements.queued he hmq
  rw [System.cacheTimer, if_pos hm]
  rcases h.elements.timers he hm with ⟨-, hno⟩ | ⟨⟨b, hr⟩, -⟩
  · exact absurd hmq hno
  · rw [hr]
    refine ⟨h.elements.take hm rfl (fun v hv => update_of_ne hv _ _) ?_
      h.elements.handed ?_ rfl rfl rfl, ⟨h.visits.locked, fun j op r hj => ?_, h.visits.scans⟩⟩
    · rw [hq, erase_cons_head]
      rfl
    · refine Perm.trans ?_ (Perm.append_left _ (perm_append_singleton _ _).symm)
      exact perm_middle.symm
    · rw [hashToLock_eq] at hfree
      have hne := h.visits.bucket_ne hfree hj
      have hbucket : ((S.listDel he).setTimer he (timerProcess (.running true))).bucket
          (op.bucket seed) = S.bucket (op.bucket seed) := bucket_listDel_of_ne hne
      exact hbucket ▸ h.visits.rest j op r hj

theorem Inv.step {a : Action ι} (h : S.Inv seed) (hs : S.step seed a = some S') : S'.Inv seed := by
  cases a with
  | call i op =>
    rw [System.step] at hs
    by_cases hc : (S.threads i).isSome = true
    · rw [if_pos hc] at hs
      cases hs
    · rw [if_neg hc] at hs
      cases hs
      exact h.call
  | run i =>
    obtain ⟨⟨op, rest⟩, hi, hs⟩ := Option.bind_eq_some_iff.1 hs
    rcases rest with - | (- | ⟨he, rest⟩)
    · dsimp only at hs
      by_cases hc : (S.mutexes (op.lock seed)).isSome = true
      · rw [if_pos hc] at hs
        cases hs
      · rw [if_neg hc] at hs
        cases hs
        exact h.enter (Option.not_isSome_iff_eq_none.1 hc)
    · cases hs
      exact h.unlock hi
    · cases hs
      exact h.visit hi
  | pick value =>
    obtain ⟨he, hfind, hs⟩ := Option.bind_eq_some_iff.1 hs
    have hv := find?_some hfind
    have hv : he.value = value := of_decide_eq_true hv
    subst hv
    by_cases hw : S.timers he.value = .waiting
    · rw [if_pos hw] at hs
      cases hs
      exact h.pick (mem_of_find?_eq_some hfind) hw
    · rw [if_neg hw] at hs
      cases hs
  | fire =>
    rw [System.step] at hs
    cases hq : S.queue with
    | nil =>
      rw [hq] at hs
      cases hs
    | cons he queue =>
      rw [hq] at hs
      dsimp only at hs
      by_cases hc : (S.mutexes (hashToLock he.hash)).isSome = true
      · rw [if_pos hc] at hs
        cases hs
      · rw [if_neg hc] at hs
        cases hs
        exact h.cacheTimer hq (Option.not_isSome_iff_eq_none.1 hc)

/-! ## Runs -/

/-- What the users of the cache rely on. -/
structure Safe (S : System ι) : Prop where
  /-- Each value is in the cache, or was handed out or freed, and only one of them, once. -/
  once : (S.elements.map HashElement.value ++ S.handed.map (fun p => p.2.value) ++ S.freed).Perm
    (range S.adds)
  /-- A value is handed out for its own key. -/
  handed : ∀ p ∈ S.handed, p.2.key = p.1
  /-- Who adds a value leaves at most `maxkeys` values of the key. -/
  added : ∀ a ∈ S.added, a.stored = true → a.maxkeys ≠ 0 → a.count ≤ a.maxkeys
  valid : S.invalid = false

/-- The cache is safe in every run. -/
theorem runs_ownedOnce : ∀ S : System ι,
    (machine ι seed).Reachable (fun _ _ => True) S → S.Safe := by
  intro S h
  have hinv : S.Inv seed := Machine.Reachable.invariant (P := Inv seed)
    (fun S hS => ?_) (fun S a S' hi _ hs => hi.step hs) h
  · exact ⟨hinv.elements.once, hinv.elements.handed, hinv.elements.added, hinv.elements.valid⟩
  · rw [hS]
    exact inv_start

/-- A value is added and taken out. -/
theorem runs_ownedOnce_get : ∃ S : System (Fin 1), S.handed = [([], ⟨0, hashFunc 0 [], []⟩)] ∧
    S.Safe := by
  have h : (machine (Fin 1) 0).Reachable (fun _ _ => True) _ :=
    .step (a := .call 0 (.add [] 1)) (.init rfl) trivial rfl
  replace h := h.next (.run 0) trivial rfl
  replace h := h.next (.call 0 (.get [])) trivial rfl
  replace h := h.next (.run 0) trivial rfl
  replace h := h.next (.run 0) trivial rfl
  exact ⟨_, rfl, runs_ownedOnce _ h⟩

/-- Two values are added where two are allowed, and a third one where one is. -/
def addThree : List (Action (Fin 1)) :=
  [.call 0 (.add [] 2), .run 0, .call 0 (.add [] 2), .run 0, .call 0 (.add [] 1), .run 0]

theorem more_than_maxkeys : ¬ ∀ S : System (Fin 1),
    (machine (Fin 1) 0).Reachable (fun _ _ => True) S → ∀ a ∈ S.added, a.count ≤ a.maxkeys := by
  intro h
  obtain ⟨S, hS, hadded⟩ : ∃ S, (machine (Fin 1) 0).run start addThree = some S ∧
      S.added = [⟨2, 1, true⟩, ⟨2, 2, true⟩, ⟨1, 2, false⟩] := ⟨_, rfl, rfl⟩
  have hle := h S (.of_run (.init rfl) hS) ⟨1, 2, false⟩ (by simp [hadded])
  exact absurd hle (by decide)

end System

end Pclsync.Cache
