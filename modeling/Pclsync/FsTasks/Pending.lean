import Pclsync.FsTasks.Orderly

/-!
# What is pending, by folder id

The file system reads the folder objects of `pfstasks.c` through their ids: `State.pending` is what
is pending in the folder with an id, whichever object carries it, and nothing when there is no
object. Two states with the same `pending` show the same overlay; they may differ in references
and in objects without tasks.

* `Objects H`: the folder objects are in the order of their ids and have different addresses, and
  the references `H`, each with the id of its folder, are among those counted.
* `Overlay H`: moreover a folder to which nobody else holds a reference, and whose counter is zero,
  has no tasks, so that it may be freed. The counter needs not be right.
* Taking a reference changes nothing that is pending: `Overlay.get`, `Overlay.getOrCreate`. An edit
  changes it at one id: `Objects.pending_modify`. Giving a reference back changes nothing:
  `Overlay.release`; without the condition on the counter it may lose all that is pending at one
  id: `Objects.release`.
-/

namespace Pclsync

open Function List

/-- What is pending in a folder, without the object that carries it. -/
def Folder.pending (f : Folder) : Folder := { f with ptr := 0, folderid := 0, refcnt := 0 }

/-- Nothing is pending. -/
def Folder.nothing : Folder := { ptr := 0, folderid := 0 }

theorem Folder.pending_eq_nothing {f : Folder} (h : f.NoTasks) (hc : f.taskscnt = 0) :
    f.pending = nothing := by
  obtain ⟨hm, hr, hcr, hu⟩ := h
  rw [pending, nothing, hm, hr, hcr, hu, hc]

namespace State

/-- What is pending in the folder with an id. -/
def pending (s : State) (folderid : ℤ) : Folder :=
  ((s.folders.toList.find? fun f => f.folderid = folderid).map Folder.pending).getD Folder.nothing

/-- The folder objects, and references to them with the ids of the folders. -/
structure Objects (H : Multiset (ℕ × ℤ)) (s : State) : Prop where
  sorted : s.ids.Pairwise (· < ·)
  addresses : (s.folders.toList.map Folder.ptr).Nodup
  fresh : ∀ f ∈ s.folders.toList, f.ptr < s.next
  held : ∀ r ∈ H, ∃ f ∈ s.folders.toList, f.ptr = r.1 ∧ f.folderid = r.2 ∧ H.count r ≤ f.refcnt

/-- The references `H` are held by the operation; a folder without other references whose counter
    is zero has no tasks. -/
structure Overlay (H : Multiset (ℕ × ℤ)) (s : State) : Prop extends Objects H s where
  idle : ∀ f ∈ s.folders.toList, f.refcnt ≤ H.count (f.ptr, f.folderid) → f.taskscnt = 0 →
    f.NoTasks

variable {s t : State} {p q k : ℕ} {i j : ℤ} {H : Multiset (ℕ × ℤ)} {f e : Folder}
  {g : Folder → Folder}

/-- The counters being right, a counter is zero only without tasks. -/
theorem Overlay.of_inv {H : Multiset ℕ} (h : Inv k noDrift H s) : Overlay 0 s where
  sorted := h.sorted
  addresses := h.addresses
  fresh := h.fresh
  held r hr := absurd hr (Multiset.notMem_zero r)
  idle f hf _ hc := by
    have hn := congrArg UInt32.toNat (h.counted f hf)
    have hroom := h.room f hf
    rw [hc, noDrift, UInt32.toNat_ofNat', Nat.mod_eq_of_lt (by omega)] at hn
    exact Folder.noTasks_iff.2 hn.symm

/-! ## Reading -/

theorem pending_of_mem (hs : s.ids.Pairwise (· < ·)) (hf : f ∈ s.folders.toList) :
    s.pending f.folderid = f.pending := by
  obtain ⟨e, he⟩ : ∃ e, s.folders.toList.find? (fun e => e.folderid = f.folderid) = some e :=
    Option.isSome_iff_exists.1 (find?_isSome.2 ⟨f, hf, by simp⟩)
  have hid : e.folderid = f.folderid := by simpa using find?_some he
  have hnd : s.ids.Nodup := hs.imp fun hlt => hlt.ne
  have hef : e = f := inj_on_of_nodup_map hnd (mem_of_find?_eq_some he) hf hid
  rw [pending, he, hef]
  rfl

theorem pending_of_forall_ne (h : ∀ f ∈ s.folders.toList, f.folderid ≠ i) :
    s.pending i = Folder.nothing := by
  have hnone : s.folders.toList.find? (fun f => f.folderid = i) = none :=
    find?_eq_none.2 fun f hf => by simpa using h f hf
  rw [pending, hnone]
  rfl

/-- What holds of every folder object, and where nothing is pending, holds at every id. -/
theorem forall_pending {P : Folder → Prop} (hnone : P Folder.nothing)
    (hmem : ∀ f ∈ s.folders.toList, P f.pending) (i : ℤ) : P (s.pending i) := by
  rw [pending]
  rcases hf : s.folders.toList.find? fun f => f.folderid = i with _ | f
  · rw [hf]
    exact hnone
  · rw [hf]
    exact hmem f (mem_of_find?_eq_some hf)

/-- What is pending is known from the objects that are there and the ids that are not. -/
theorem pending_eq_of (hs : s.ids.Pairwise (· < ·)) {P : ℤ → Folder}
    (hmem : ∀ f ∈ s.folders.toList, P f.folderid = f.pending)
    (hout : ∀ i, (∀ f ∈ s.folders.toList, f.folderid ≠ i) → P i = Folder.nothing) :
    s.pending = P := by
  funext i
  by_cases hi : ∃ f ∈ s.folders.toList, f.folderid = i
  · obtain ⟨f, hf, rfl⟩ := hi
    rw [pending_of_mem hs hf, hmem f hf]
  · have hne : ∀ f ∈ s.folders.toList, f.folderid ≠ i := fun f hf he => hi ⟨f, hf, he⟩
    rw [pending_of_forall_ne hne, hout i hne]

/-- The object at a held address. -/
structure HeldAt (s : State) (p : ℕ) (i : ℤ) (f : Folder) : Prop where
  mem : f ∈ s.folders.toList
  ptr : f.ptr = p
  folderid : f.folderid = i
  folder : s.folder p = f
  pending : s.pending i = f.pending

theorem Objects.heldAt (h : Objects H s) (hf : f ∈ s.folders.toList) :
    HeldAt s f.ptr f.folderid f :=
  ⟨hf, rfl, rfl, folder_eq_of_nodup h.addresses hf rfl, pending_of_mem h.sorted hf⟩

theorem Objects.of_held (h : Objects H s) (hp : (p, i) ∈ H) :
    HeldAt s p i (s.folder p) ∧ H.count (p, i) ≤ (s.folder p).refcnt := by
  obtain ⟨f, hf, hptr, hid, hr⟩ := h.held _ hp
  obtain rfl : f.ptr = p := hptr
  obtain rfl : f.folderid = i := hid
  rw [(h.heldAt hf).folder]
  exact ⟨h.heldAt hf, hr⟩

/-! ## Edits -/

theorem mem_modify_of_nodup (hn : (s.folders.toList.map Folder.ptr).Nodup)
    (hf : f ∈ s.folders.toList) : e ∈ (s.modify f.ptr g).folders.toList ↔
      e = g f ∨ e ∈ s.folders.toList ∧ e.ptr ≠ f.ptr := by
  rw [toList_modify, mem_map]
  constructor
  · rintro ⟨e', he', rfl⟩
    split_ifs with hp
    · exact .inl (by rw [inj_on_of_nodup_map hn he' hf hp])
    · exact .inr ⟨he', hp⟩
  · rintro (rfl | ⟨he, hne⟩)
    · exact ⟨f, hf, if_pos rfl⟩
    · exact ⟨e, he, if_neg hne⟩

/-- What is read of the folders is unchanged by an assignment which keeps it. -/
theorem map_modify_of_nodup {β : Type} (hn : (s.folders.toList.map Folder.ptr).Nodup)
    (hf : f ∈ s.folders.toList) (φ : Folder → β) (hφ : φ (g f) = φ f) :
    (s.modify f.ptr g).folders.toList.map φ = s.folders.toList.map φ := by
  rw [toList_modify, map_map]
  refine map_congr_left fun e he => ?_
  rw [comp_apply]
  split_ifs with hp
  · rw [inj_on_of_nodup_map hn he hf hp, hφ]
  · rfl

theorem folderid_ne_of_ptr_ne (hs : s.ids.Pairwise (· < ·)) (he : e ∈ s.folders.toList)
    (hf : f ∈ s.folders.toList) (hne : e.ptr ≠ f.ptr) : e.folderid ≠ f.folderid := by
  intro hid
  have hnd : s.ids.Nodup := hs.imp fun hlt => hlt.ne
  exact hne (congrArg Folder.ptr (inj_on_of_nodup_map hnd he hf hid))

/-- The references to one folder and its records change; the other references are unchanged. -/
theorem Objects.modify {H' : Multiset (ℕ × ℤ)} (h : Objects H s) (hf : f ∈ s.folders.toList)
    (hptr : (g f).ptr = f.ptr) (hid : (g f).folderid = f.folderid)
    (hr : H'.count (f.ptr, f.folderid) ≤ (g f).refcnt)
    (hH : ∀ r, r ≠ (f.ptr, f.folderid) → H'.count r = H.count r) :
    Objects H' (s.modify f.ptr g) := by
  constructor
  · rw [ids, map_modify_of_nodup h.addresses hf _ hid]
    exact h.sorted
  · rw [map_modify_of_nodup h.addresses hf _ hptr]
    exact h.addresses
  · intro e he
    rcases (mem_modify_of_nodup h.addresses hf).1 he with rfl | ⟨he, -⟩
    · rw [hptr]
      exact h.fresh f hf
    · exact h.fresh e he
  · intro r hrH
    by_cases hrf : r = (f.ptr, f.folderid)
    · subst hrf
      exact ⟨g f, (mem_modify_of_nodup h.addresses hf).2 (.inl rfl), hptr, hid, hr⟩
    · have hmem : r ∈ H := Multiset.count_pos.1 (hH r hrf ▸ Multiset.count_pos.2 hrH)
      obtain ⟨e, he, hep, hei, hle⟩ := h.held r hmem
      refine ⟨e, (mem_modify_of_nodup h.addresses hf).2 (.inr ⟨he, fun hne => ?_⟩), hep, hei,
        (hH r hrf).trans_le hle⟩
      have hef : e = f := inj_on_of_nodup_map h.addresses he hf hne
      subst hef
      exact hrf (Prod.ext hep.symm hei.symm)

theorem Objects.pending_modify (h : Objects H s) (hf : f ∈ s.folders.toList)
    (hptr : (g f).ptr = f.ptr) (hid : (g f).folderid = f.folderid) :
    (s.modify f.ptr g).pending = update s.pending f.folderid (g f).pending := by
  have hmod : Objects 0 (s.modify f.ptr g) :=
    Objects.modify (H := 0) ⟨h.sorted, h.addresses, h.fresh, fun r hr => absurd hr (by simp)⟩ hf
      hptr hid (by simp) fun _ _ => rfl
  refine pending_eq_of hmod.sorted (fun e he => ?_) fun i hi => ?_
  · rcases (mem_modify_of_nodup h.addresses hf).1 he with rfl | ⟨he, hne⟩
    · rw [hid, update_self]
    · rw [update_of_ne (folderid_ne_of_ptr_ne h.sorted he hf hne), pending_of_mem h.sorted he]
  · have hne : i ≠ f.folderid := fun he =>
      hi (g f) ((mem_modify_of_nodup h.addresses hf).2 (.inl rfl)) (hid.trans he.symm)
    rw [update_of_ne hne]
    refine pending_of_forall_ne fun e he hei => ?_
    by_cases hp : e.ptr = f.ptr
    · exact hne (by rw [← hei, inj_on_of_nodup_map h.addresses he hf hp])
    · exact hi e ((mem_modify_of_nodup h.addresses hf).2 (.inr ⟨he, hp⟩)) hei

/-- An assignment that keeps what is pending. -/
theorem Objects.pending_modify_eq (h : Objects H s) (hf : f ∈ s.folders.toList)
    (hptr : (g f).ptr = f.ptr) (hid : (g f).folderid = f.folderid)
    (hg : (g f).pending = f.pending) : (s.modify f.ptr g).pending = s.pending := by
  rw [h.pending_modify hf hptr hid, hg, ← pending_of_mem h.sorted hf, update_eq_self]

theorem Objects.edit (h : Objects H s) (hp : (p, i) ∈ H)
    (hg : ∀ f, Folder.SameObject f (g f)) : Objects H (s.modify p g) ∧
      (s.modify p g).pending = update s.pending i (g (s.folder p)).pending := by
  obtain ⟨ha, hr⟩ := h.of_held hp
  obtain ⟨f, hf⟩ : ∃ f, s.folder p = f := ⟨_, rfl⟩
  rw [hf] at ha hr ⊢
  obtain ⟨hmem, rfl, rfl, -, -⟩ := ha
  exact ⟨h.modify hmem (hg f).ptr (hg f).folderid (by rwa [(hg f).refcnt]) fun _ _ => rfl,
    h.pending_modify hmem (hg f).ptr (hg f).folderid⟩

/-- An edit of a folder that is held. When it leaves the counter at zero, there are no tasks, if
    there have been none before with the counter at zero. -/
theorem Overlay.edit (h : Overlay H s) (hp : (p, i) ∈ H) (hg : ∀ f, Folder.SameObject f (g f))
    (hc : ∀ f, f = s.folder p → (f.taskscnt = 0 → f.NoTasks) → (g f).taskscnt = 0 →
      (g f).NoTasks) : Overlay H (s.modify p g) := by
  refine ⟨(h.toObjects.edit hp hg).1, fun e he hr hz => ?_⟩
  obtain ⟨ha, -⟩ := h.toObjects.of_held hp
  have hmem := ha.mem
  rw [← ha.ptr] at he
  rcases (mem_modify_of_nodup h.addresses hmem).1 he with rfl | ⟨he, -⟩
  · rw [(hg _).refcnt, (hg _).ptr, (hg _).folderid] at hr
    exact hc _ rfl (h.idle _ hmem hr) hz
  · exact h.idle e he hr hz

/-! ## References -/

theorem Objects.getRef (h : Objects H s) (hf : f ∈ s.folders.toList) :
    Objects ((f.ptr, f.folderid) ::ₘ H) (s.getRef f.ptr) ∧
      (s.getRef f.ptr).pending = s.pending := by
  refine ⟨h.modify hf rfl rfl ?_ fun r hr => Multiset.count_cons_of_ne hr H,
    h.pending_modify_eq hf rfl rfl rfl⟩
  rw [Multiset.count_cons_self]
  refine Nat.succ_le_succ ?_
  by_cases hm : (f.ptr, f.folderid) ∈ H
  · obtain ⟨ha, hr⟩ := h.of_held hm
    rwa [folder_eq_of_nodup h.addresses hf rfl] at hr
  · rw [Multiset.count_eq_zero_of_notMem hm]
    exact Nat.zero_le _

theorem Overlay.getRef (h : Overlay H s) (hf : f ∈ s.folders.toList) :
    Overlay ((f.ptr, f.folderid) ::ₘ H) (s.getRef f.ptr) := by
  refine ⟨(h.toObjects.getRef hf).1, fun e he hr hz => ?_⟩
  rcases (mem_modify_of_nodup h.addresses hf).1 he with rfl | ⟨he, hne⟩
  · rw [Multiset.count_cons_self] at hr
    exact h.idle f hf (Nat.le_of_succ_le_succ hr) hz
  · have hef : (e.ptr, e.folderid) ≠ (f.ptr, f.folderid) := fun hc => hne (congrArg Prod.fst hc)
    rw [Multiset.count_cons_of_ne hef] at hr
    exact h.idle e he hr hz

/-- A folder is looked for: the reference is to the folder with the id. -/
theorem Objects.get (h : Objects H s) (hg : s.getFolderTasks i = (some p, t)) :
    Objects ((p, i) ::ₘ H) t ∧ t.pending = s.pending := by
  obtain ⟨f, hf, rfl, rfl⟩ := getFolderTasks_some hg
  obtain ⟨hmem, rfl⟩ := getFolderTasksRdlocked_mem hf
  exact h.getRef hmem

theorem Overlay.get (h : Overlay H s) (hg : s.getFolderTasks i = (some p, t)) :
    Overlay ((p, i) ::ₘ H) t := by
  obtain ⟨f, hf, rfl, rfl⟩ := getFolderTasks_some hg
  obtain ⟨hmem, rfl⟩ := getFolderTasksRdlocked_mem hf
  exact h.getRef hmem

theorem Objects.cmp_sorted (h : Objects H s) (i : ℤ) : s.folders.Sorted (cmp i) := by
  refine (pairwise_map.1 h.sorted).imp fun {f g} hfg => ⟨fun hf => ?_, fun hg => ?_⟩
  · exact compare_lt_iff_lt.2 ((not_lt.1 fun hlt => hf (compare_gt_iff_gt.2 hlt)).trans_lt hfg)
  · exact compare_gt_iff_gt.2 (hfg.trans_le (not_lt.1 fun hlt => hg (compare_lt_iff_lt.2 hlt)))

/-- What `getOrCreateFolderTasks` does: a reference to the folder that is there, or a new one
    without tasks, in its place. -/
theorem Objects.getOrCreate_cases (h : Objects H s) (hg : s.getOrCreateFolderTasks i = (p, t)) :
    (∃ f ∈ s.folders.toList, f.ptr = p ∧ f.folderid = i ∧ t = s.getRef p) ∨
    p = s.next ∧ t.next = s.next + 1 ∧ ∃ as bs, s.folders.toList = as ++ bs ∧
      t.folders.toList = as ++ { ptr := p, folderid := i, refcnt := 1 } :: bs ∧
      (∀ f ∈ as, f.folderid < i) ∧ ∀ f ∈ bs, i < f.folderid := by
  rw [getOrCreateFolderTasks] at hg
  split at hg
  · next hl =>
    cases hg
    obtain ⟨hmem, hc⟩ := Tree.mem_of_locate hl
    exact .inl ⟨_, hmem, rfl, (compare_eq_iff_eq.1 hc).symm, rfl⟩
  · next hl =>
    obtain ⟨as, bs, hL, rfl, has, hbs⟩ := Tree.locate_vacant (h.cmp_sorted i) hl
    cases hg
    refine .inr ⟨rfl, rfl, as, bs, hL, Tree.toList_insertAt _ hL, fun f hf => ?_, fun f hf => ?_⟩
    · exact compare_gt_iff_gt.1 (has f hf)
    · exact compare_lt_iff_lt.1 (hbs f hf)

/-- A new folder without tasks shows nothing. -/
theorem Objects.create {as bs : List Folder} (h : Objects H s)
    (hs : s.folders.toList = as ++ bs) (hnext : t.next = s.next + 1)
    (ht : t.folders.toList = as ++ { ptr := s.next, folderid := i, refcnt := 1 } :: bs)
    (has : ∀ f ∈ as, f.folderid < i) (hbs : ∀ f ∈ bs, i < f.folderid) :
    Objects ((s.next, i) ::ₘ H) t ∧ t.pending = s.pending := by
  have hmem : ∀ {f}, f ∈ t.folders.toList ↔
      f = { ptr := s.next, folderid := i, refcnt := 1 } ∨ f ∈ s.folders.toList := by
    intro f
    rw [ht, hs, mem_append, mem_cons, mem_append]
    tauto
  have hsort := h.sorted
  rw [ids, hs, map_append, pairwise_append] at hsort
  have hnew : t.ids.Pairwise (· < ·) := by
    rw [ids, ht, map_append, map_cons, pairwise_append, pairwise_cons]
    refine ⟨hsort.1, ⟨forall_mem_map.2 hbs, hsort.2.1⟩, fun a ha b hb => ?_⟩
    rcases mem_cons.1 hb with rfl | hb
    · obtain ⟨f, hf, rfl⟩ := mem_map.1 ha
      exact has f hf
    · exact hsort.2.2 a ha b hb
  have hne : ∀ f ∈ s.folders.toList, f.folderid ≠ i := by
    intro f hf
    rw [hs] at hf
    rcases mem_append.1 hf with hf | hf
    · exact (has f hf).ne
    · exact (hbs f hf).ne'
  have hfree : (s.next, i) ∉ H := fun hm => by
    obtain ⟨f, hf, hp, -⟩ := h.held _ hm
    exact (h.fresh f hf).ne hp
  refine ⟨⟨hnew, ?_, fun f hf => ?_, fun r hr => ?_⟩, pending_eq_of hnew (fun f hf => ?_) ?_⟩
  · have hnd := h.addresses
    rw [hs, map_append] at hnd
    rw [ht, map_append, map_cons, nodup_middle, nodup_cons]
    refine ⟨?_, hnd⟩
    rw [← map_append, ← hs, mem_map]
    rintro ⟨f, hf, hp⟩
    exact (h.fresh f hf).ne hp
  · rw [hnext]
    rcases hmem.1 hf with rfl | hf
    · exact Nat.lt_succ_self _
    · exact (h.fresh f hf).trans (Nat.lt_succ_self _)
  · by_cases hri : r = (s.next, i)
    · subst hri
      refine ⟨_, hmem.2 (.inl rfl), rfl, rfl, ?_⟩
      rw [Multiset.count_cons_self, Multiset.count_eq_zero_of_notMem hfree]
    · obtain ⟨f, hf, hp, hi, hle⟩ := h.held r ((Multiset.mem_cons.1 hr).resolve_left hri)
      exact ⟨f, hmem.2 (.inr hf), hp, hi, by rwa [Multiset.count_cons_of_ne hri]⟩
  · rcases hmem.1 hf with rfl | hf
    · exact pending_of_forall_ne hne
    · exact pending_of_mem h.sorted hf
  · exact fun j hj => pending_of_forall_ne fun f hf => hj f (hmem.2 (.inr hf))

theorem Objects.getOrCreate (h : Objects H s) (hg : s.getOrCreateFolderTasks i = (p, t)) :
    Objects ((p, i) ::ₘ H) t ∧ t.pending = s.pending := by
  rcases h.getOrCreate_cases hg with ⟨f, hf, rfl, rfl, rfl⟩ | ⟨rfl, hnext, as, bs, hs, ht, has, hbs⟩
  · exact h.getRef hf
  · exact h.create hs hnext ht has hbs

theorem Overlay.getOrCreate (h : Overlay H s) (hg : s.getOrCreateFolderTasks i = (p, t)) :
    Overlay ((p, i) ::ₘ H) t := by
  refine ⟨(h.toObjects.getOrCreate hg).1, ?_⟩
  rcases h.toObjects.getOrCreate_cases hg with
    ⟨f, hf, rfl, rfl, rfl⟩ | ⟨rfl, -, as, bs, hs, ht, -, -⟩
  · exact (h.getRef hf).idle
  · intro f hf hr hz
    rw [ht, mem_append, mem_cons] at hf
    by_cases hnew : f = { ptr := s.next, folderid := i, refcnt := 1 }
    · subst hnew
      exact ⟨rfl, rfl, rfl, rfl⟩
    · have hf : f ∈ s.folders.toList := by
        rw [hs, mem_append]
        tauto
      have hne : (f.ptr, f.folderid) ≠ (s.next, i) := fun hc =>
        (h.fresh f hf).ne (congrArg Prod.fst hc)
      rw [Multiset.count_cons_of_ne hne] at hr
      exact h.idle f hf hr hz

/-- A reference that may be missing, with the id of its folder. -/
def refOf : Option ℕ → ℤ → Multiset (ℕ × ℤ)
  | some p, i => {(p, i)}
  | none, _ => 0

theorem Objects.getOption {c : Option ℕ} (h : Objects H s) (hg : s.getFolderTasks i = (c, t)) :
    Objects (refOf c i + H) t ∧ t.pending = s.pending := by
  cases c with
  | none =>
    rw [getFolderTasks_none hg, refOf, Multiset.zero_add]
    exact ⟨h, rfl⟩
  | some p => exact h.get hg

theorem Overlay.getOption {c : Option ℕ} (h : Overlay H s) (hg : s.getFolderTasks i = (c, t)) :
    Overlay (refOf c i + H) t := by
  cases c with
  | none =>
    rw [getFolderTasks_none hg, refOf, Multiset.zero_add]
    exact h
  | some p => exact h.get hg

/-! ## Giving back -/

/-- An object is taken out: nothing is pending any more at its id. -/
theorem Objects.remove {as bs : List Folder} (h : Objects H s)
    (hs : s.folders.toList = as ++ f :: bs) (ht : t.folders.toList = as ++ bs)
    (hnext : t.next = s.next) (hH : (f.ptr, f.folderid) ∉ H) :
    Objects H t ∧ t.pending = update s.pending f.folderid Folder.nothing := by
  have hsub : t.folders.toList.Sublist s.folders.toList := by
    rw [hs, ht]
    exact (List.Sublist.refl as).append (sublist_cons_self f bs)
  have hf : f ∈ s.folders.toList := hs ▸ mem_append_right _ mem_cons_self
  have hmem : ∀ {e}, e ∈ t.folders.toList ↔ e ∈ s.folders.toList ∧ e.ptr ≠ f.ptr := by
    intro e
    have hnd := h.addresses
    rw [hs, map_append, map_cons, nodup_middle, nodup_cons, ← map_append, mem_map] at hnd
    constructor
    · intro he
      exact ⟨hsub.subset he, fun hp => hnd.1 ⟨e, ht ▸ he, hp⟩⟩
    · rintro ⟨he, hne⟩
      rw [hs, mem_append, mem_cons] at he
      rw [ht, mem_append]
      rcases he with he | rfl | he
      · exact .inl he
      · exact absurd rfl hne
      · exact .inr he
  have hsort := h.sorted.sublist (hsub.map Folder.folderid)
  refine ⟨⟨hsort, h.addresses.sublist (hsub.map _), ?_, fun r hr => ?_⟩, pending_eq_of hsort
    (fun e he => ?_) fun i hi => ?_⟩
  · rw [hnext]
    exact fun e he => h.fresh e (hsub.subset he)
  · obtain ⟨e, he, hp, hi, hle⟩ := h.held r hr
    refine ⟨e, hmem.2 ⟨he, fun hef => hH ?_⟩, hp, hi, hle⟩
    obtain rfl : e = f := inj_on_of_nodup_map h.addresses he hf hef
    rwa [show (e.ptr, e.folderid) = r from Prod.ext hp hi]
  · obtain ⟨he, hne⟩ := hmem.1 he
    rw [update_of_ne (folderid_ne_of_ptr_ne h.sorted he hf hne), pending_of_mem h.sorted he]
  · by_cases hif : i = f.folderid
    · rw [hif, update_self]
    · rw [update_of_ne hif]
      refine pending_of_forall_ne fun e he hei => hi e (hmem.2 ⟨he, fun hp => hif ?_⟩) hei
      rw [← hei, inj_on_of_nodup_map h.addresses he hf hp]

/-- What `releaseFolderTasks` does: after the reference is given back, the object is kept, or it is
    taken out when it was the last one and the counter is zero. -/
theorem Objects.release_cases (h : Objects ((p, i) ::ₘ H) s) :
    Objects H (s.releaseFolderTasks p) ∧ ((s.releaseFolderTasks p).pending = s.pending ∧
      (s.releaseFolderTasks p).folders.toList = (s.modify p fun f =>
        { f with refcnt := f.refcnt - 1 }).folders.toList ∨
    (s.folder p).refcnt = 1 ∧ (s.folder p).taskscnt = 0 ∧
      (s.releaseFolderTasks p).pending = update s.pending i Folder.nothing ∧
      (s.releaseFolderTasks p).folders.toList.Sublist (s.modify p fun f =>
        { f with refcnt := f.refcnt - 1 }).folders.toList) := by
  obtain ⟨ha, hr⟩ := h.of_held (Multiset.mem_cons_self _ _)
  obtain ⟨f, hf⟩ : ∃ f, s.folder p = f := ⟨_, rfl⟩
  rw [hf] at ha hr ⊢
  obtain ⟨hmem, rfl, rfl, -, -⟩ := ha
  rw [Multiset.count_cons_self] at hr
  have hmod : Objects H (s.modify f.ptr fun f => { f with refcnt := f.refcnt - 1 }) :=
    h.modify hmem rfl rfl (Nat.le_sub_one_of_lt hr) fun r hr =>
      (Multiset.count_cons_of_ne hr H).symm
  have hpend := h.pending_modify_eq (g := fun f => { f with refcnt := f.refcnt - 1 }) hmem rfl rfl
    rfl
  have hnew : ({ f with refcnt := f.refcnt - 1 } : Folder) ∈
      (s.modify f.ptr fun f => { f with refcnt := f.refcnt - 1 }).folders.toList :=
    (mem_modify_of_nodup h.addresses hmem).2 (.inl rfl)
  have hfold := folder_eq_of_nodup hmod.addresses hnew rfl
  rw [releaseFolderTasks]
  dsimp only at hfold ⊢
  rw [← hpend]
  generalize (s.modify f.ptr fun f => { f with refcnt := f.refcnt - 1 }) = t at *
  rw [hfold]
  split_ifs with hz
  · have hlive : t.Live f.ptr := ⟨hfold ▸ hnew, by rw [hfold]⟩
    obtain ⟨as, bs, hs, hrem⟩ := removeAt_position_of_nodup hmod.addresses hlive
    rw [hfold] at hs
    have hnot : (f.ptr, f.folderid) ∉ H := by
      rw [← Multiset.count_eq_zero]
      have hz := hz.1
      dsimp only at hz
      omega
    have hrest := hmod.remove (t := { t with
      folders := t.folders.removeAt (t.position f.ptr)
      freed := { f with refcnt := f.refcnt - 1 } :: t.freed }) hs hrem rfl hnot
    refine ⟨hrest.1, .inr ⟨?_, hz.2, hrest.2, ?_⟩⟩
    · have hz := hz.1
      dsimp only at hz
      omega
    · exact Tree.toList_removeAt_sublist _ _
  · exact ⟨hmod, .inl ⟨rfl, rfl⟩⟩

/-- What is pending at an id stays, or all of it is lost. -/
def Loses (s t : State) : Prop := ∀ j, t.pending j = s.pending j ∨ t.pending j = Folder.nothing

theorem Loses.of_eq (h : t.pending = s.pending) : Loses s t := fun j => .inl (by rw [h])

theorem Loses.trans {u : State} (h : Loses s t) (h' : Loses t u) : Loses s u := fun j => by
  rcases h' j with hj | hj
  · rw [hj]
    exact h j
  · exact .inr hj

/-- A reference is given back, whatever the counter. -/
theorem Objects.release (h : Objects ((p, i) ::ₘ H) s) :
    Objects H (s.releaseFolderTasks p) ∧ Loses s (s.releaseFolderTasks p) := by
  obtain ⟨hobj, ⟨hp, -⟩ | ⟨-, -, hp, -⟩⟩ := h.release_cases
  · exact ⟨hobj, .of_eq hp⟩
  · refine ⟨hobj, fun j => ?_⟩
    rw [hp]
    by_cases hj : j = i
    · exact .inr (by rw [hj, update_self])
    · exact .inl (update_of_ne hj _ _)

/-- A reference is given back, and a folder freed with it has no tasks. -/
theorem Overlay.release (h : Overlay ((p, i) ::ₘ H) s) : Overlay H (s.releaseFolderTasks p) ∧
    (s.releaseFolderTasks p).pending = s.pending := by
  obtain ⟨ha, -⟩ := h.toObjects.of_held (Multiset.mem_cons_self _ _)
  have hidle : ∀ f ∈ (s.modify p fun f => { f with refcnt := f.refcnt - 1 }).folders.toList,
      f.refcnt ≤ H.count (f.ptr, f.folderid) → f.taskscnt = 0 → f.NoTasks := by
    obtain ⟨f, hf⟩ : ∃ f, s.folder p = f := ⟨_, rfl⟩
    rw [hf] at ha
    obtain ⟨hmem, rfl, rfl, -, -⟩ := ha
    intro e he hr hz
    rcases (mem_modify_of_nodup h.addresses hmem).1 he with rfl | ⟨he, hne⟩
    · refine h.idle f hmem ?_ hz
      rw [Multiset.count_cons_self]
      dsimp only at hr
      omega
    · refine h.idle e he ?_ hz
      have hef : (e.ptr, e.folderid) ≠ (f.ptr, f.folderid) := fun hc => hne (congrArg Prod.fst hc)
      rwa [Multiset.count_cons_of_ne hef]
  obtain ⟨hobj, ⟨hp, hl⟩ | ⟨hone, hz, hp, hsub⟩⟩ := h.toObjects.release_cases
  · exact ⟨⟨hobj, hl ▸ hidle⟩, hp⟩
  · refine ⟨⟨hobj, fun f hf => hidle f (hsub.subset hf)⟩, ?_⟩
    -- the folder freed has shown nothing
    have hle : (s.folder p).refcnt ≤
        ((p, i) ::ₘ H).count ((s.folder p).ptr, (s.folder p).folderid) := by
      rw [ha.ptr, ha.folderid, Multiset.count_cons_self, hone]
      exact Nat.succ_le_succ (Nat.zero_le _)
    have hnone := h.idle _ ha.mem hle hz
    rw [hp, ← Folder.pending_eq_nothing hnone hz, ← ha.pending, update_eq_self]

theorem Objects.releaseOption {c : Option ℕ} (h : Objects (refOf c i + H) s) :
    Objects H (s.releaseOption c) ∧ Loses s (s.releaseOption c) := by
  cases c with
  | none =>
    rw [refOf, Multiset.zero_add] at h
    exact ⟨h, .of_eq rfl⟩
  | some p => exact Objects.release h

theorem Overlay.releaseOption {c : Option ℕ} (h : Overlay (refOf c i + H) s) :
    Overlay H (s.releaseOption c) ∧ (s.releaseOption c).pending = s.pending := by
  cases c with
  | none =>
    rw [refOf, Multiset.zero_add] at h
    exact ⟨h, rfl⟩
  | some p => exact Overlay.release h

end State

end Pclsync
