import Pclsync.FsTasks.Folder
import Mathlib.Data.Multiset.Filter

/-!
# The tree of folders and its references

The folder objects of `pfstasks.c`, in the tree `folders` ordered by folder id. Operations find an
object by id, take a reference to it, and release the reference; an object without references whose
counter says that it has no tasks is freed.

`State.Inv` is what holds of the tree between the edits of an operation, given the references held
at that point: the ids are increasing, the counters are right, but for what each folder owes, and
every held reference counts. It is kept by taking a reference (`Inv.get`, `Inv.getOrCreate`,
`Inv.getRef`), by an edit of a held folder (`Inv.modify`), and by giving a reference back
(`Inv.release`), which frees only folders without tasks.
-/

namespace Pclsync

open List

/-- The state of `pfstasks.c`. -/
structure State where
  /-- `folders`, ordered by folder id. -/
  folders : Tree Folder
  /-- `psync_local_taskid`. -/
  localTaskid : ℕ
  /-- The next address `psync_new` returns. -/
  next : ℕ
  /-- The folder objects freed, as they were when freed. -/
  freed : List Folder

namespace State

/-- The object at an address. -/
def folder (s : State) (p : ℕ) : Folder := (s.folders.toList.find? fun f => f.ptr = p).getD default

/-- The ids of the folders in the tree. -/
def ids (s : State) : List ℤ := s.folders.toList.map Folder.folderid

/-- Assign to the object at an address. -/
def modify (s : State) (p : ℕ) (g : Folder → Folder) : State :=
  { s with folders := s.folders.map fun f => if f.ptr = p then g f else f }

/-- The comparison of the descents of `folders`. -/
def cmp (folderid : ℤ) (f : Folder) : Ordering := compare folderid f.folderid

/-- `psync_fstask_get_folder_tasks_rdlocked`. -/
def getFolderTasksRdlocked (s : State) (folderid : ℤ) : Option Folder :=
  match s.folders.locate (cmp folderid) with
  | .found _ f => some f
  | .vacant _ => none

/-- `psync_fstask_get_ref_locked`. -/
def getRef (s : State) (p : ℕ) : State := s.modify p fun f => { f with refcnt := f.refcnt + 1 }

/-- `psync_fstask_get_folder_tasks_locked`. -/
def getFolderTasks (s : State) (folderid : ℤ) : Option ℕ × State :=
  match s.getFolderTasksRdlocked folderid with
  | some f => (some f.ptr, s.getRef f.ptr)
  | none => (none, s)

/-- `psync_fstask_get_or_create_folder_tasks_locked`. -/
def getOrCreateFolderTasks (s : State) (folderid : ℤ) : ℕ × State :=
  match s.folders.locate (cmp folderid) with
  | .found _ f => (f.ptr, s.getRef f.ptr)
  | .vacant k =>
    (s.next, { s with
      folders := s.folders.insertAt k { ptr := s.next, folderid := folderid, refcnt := 1 }
      next := s.next + 1 })

/-- The position of the object at an address. -/
def position (s : State) (p : ℕ) : ℕ := s.folders.toList.findIdx fun f => f.ptr = p

/-- `psync_fstask_release_folder_tasks_locked`. -/
def releaseFolderTasks (s : State) (p : ℕ) : State :=
  let s := s.modify p fun f => { f with refcnt := f.refcnt - 1 }
  if (s.folder p).refcnt = 0 ∧ (s.folder p).taskscnt = 0 then
    { s with folders := s.folders.removeAt (s.position p), freed := s.folder p :: s.freed }
  else s

/-- The comparison of `folder_cmp`. -/
def before (folderid : ℤ) (f : Folder) : Bool := cmp folderid f == .lt

/-- The object at an address is taken out of the tree, gets a new id, and is added again. -/
def setFolderid (s : State) (p : ℕ) (folderid : ℤ) : State :=
  let folders := s.folders.removeAt (s.position p)
  { s with
    folders := folders.insertAt (folders.placeBy (before folderid))
      { s.folder p with folderid := folderid } }

/-! ## The invariant -/

/-- Every counter is right. -/
def noDrift : ℕ → UInt32 := fun _ => 0

/-- The counter of one folder is short. -/
def driftAt (p : ℕ) (d : UInt32) : ℕ → UInt32 := fun q => if q = p then d else 0

/-- `H` are the references held, `D p` is what the counter of the folder at `p` is short of, and
    every folder has room for `k` more records. -/
structure Inv (k : ℕ) (D : ℕ → UInt32) (H : Multiset ℕ) (s : State) : Prop where
  sorted : s.ids.Pairwise (· < ·)
  addresses : (s.folders.toList.map Folder.ptr).Nodup
  fresh : ∀ f ∈ s.folders.toList, f.ptr < s.next
  counted : ∀ f ∈ s.folders.toList, f.taskscnt + D f.ptr = UInt32.ofNat f.nodes
  room : ∀ f ∈ s.folders.toList, f.nodes + k < 2 ^ 32
  refs : ∀ f ∈ s.folders.toList, f.refcnt = H.count f.ptr
  held : ∀ p ∈ H, ∃ f ∈ s.folders.toList, f.ptr = p
  freed : ∀ f ∈ s.freed, f.NoTasks

variable {s t : State} {k n p : ℕ} {D : ℕ → UInt32} {d : UInt32} {H : Multiset ℕ} {f : Folder}
  {g : Folder → Folder} {id : ℤ}

theorem Inv.mono (h : Inv k D H s) (hn : n ≤ k) : Inv n D H s :=
  { h with room := fun f hf => (Nat.add_le_add_left hn _).trans_lt (h.room f hf) }

/-- There is an object at the address. -/
def Live (s : State) (p : ℕ) : Prop := s.folder p ∈ s.folders.toList ∧ (s.folder p).ptr = p

theorem folder_eq_of_nodup (hn : (s.folders.toList.map Folder.ptr).Nodup)
    (hf : f ∈ s.folders.toList) (hp : f.ptr = p) : s.folder p = f := by
  obtain ⟨g, hq⟩ : ∃ g, s.folders.toList.find? (fun g => g.ptr = p) = some g :=
    Option.isSome_iff_exists.1 (find?_isSome.2 ⟨f, hf, by simp [hp]⟩)
  have hg : g.ptr = p := by simpa using find?_some hq
  rw [folder, hq, Option.getD_some]
  exact inj_on_of_nodup_map hn (mem_of_find?_eq_some hq) hf (hg.trans hp.symm)

theorem Inv.folder_eq (h : Inv k D H s) (hf : f ∈ s.folders.toList) (hp : f.ptr = p) :
    s.folder p = f := folder_eq_of_nodup h.addresses hf hp

theorem Inv.live_of_mem (h : Inv k D H s) (hf : f ∈ s.folders.toList) : s.Live f.ptr := by
  rw [Live, h.folder_eq hf rfl]
  exact ⟨hf, rfl⟩

theorem Inv.live (h : Inv k D H s) (hp : p ∈ H) : s.Live p := by
  obtain ⟨f, hf, rfl⟩ := h.held p hp
  exact h.live_of_mem hf

/-! ## Assignments -/

theorem toList_modify : (s.modify p g).folders.toList =
    s.folders.toList.map fun f => if f.ptr = p then g f else f := Tree.toList_map ..

/-- What is read of the folders is unchanged by an assignment which keeps it. -/
theorem Inv.map_modify {β : Type} (h : Inv k D H s) (φ : Folder → β)
    (hφ : φ (g (s.folder p)) = φ (s.folder p)) :
    (s.modify p g).folders.toList.map φ = s.folders.toList.map φ := by
  rw [toList_modify, map_map]
  refine map_congr_left fun f hf => ?_
  rw [Function.comp_apply]
  split_ifs with hp
  · rw [← h.folder_eq hf hp, hφ]
  · rfl

theorem Inv.mem_modify (h : Inv k D H s) (hp : s.Live p) : f ∈ (s.modify p g).folders.toList ↔
      f = g (s.folder p) ∨ f ∈ s.folders.toList ∧ f.ptr ≠ p := by
  rw [toList_modify, mem_map]
  constructor
  · rintro ⟨f', hf', rfl⟩
    split_ifs with he
    · exact .inl (by rw [h.folder_eq hf' he])
    · exact .inr ⟨hf', he⟩
  · rintro (rfl | ⟨hf, hne⟩)
    · exact ⟨_, hp.1, if_pos hp.2⟩
    · exact ⟨f, hf, if_neg hne⟩

theorem Inv.folder_modify (h : Inv k D H s) (hp : s.Live p) (hg : (g (s.folder p)).ptr = p) :
    (s.modify p g).folder p = g (s.folder p) := by
  refine folder_eq_of_nodup ?_ ((h.mem_modify hp).2 (.inl rfl)) hg
  rw [h.map_modify _ (hg.trans hp.2.symm)]
  exact h.addresses

theorem Inv.folder_modify_of_ne {q : ℕ} (h : Inv k D H s) (hp : s.Live p) (hq : s.Live q)
    (hg : (g (s.folder p)).ptr = p) (hne : q ≠ p) : (s.modify p g).folder q = s.folder q := by
  refine folder_eq_of_nodup ?_ ((h.mem_modify hp).2 (.inr ⟨hq.1, hq.2.trans_ne hne⟩)) hq.2
  rw [h.map_modify _ (hg.trans hp.2.symm)]
  exact h.addresses

theorem Inv.modify_drift (h : Inv (k + n) D H s) (hp : s.Live p)
    (he : Folder.Edit n d (s.folder p) (g (s.folder p))) :
    Inv k (fun q => D q + driftAt p d q) H (s.modify p g) := by
  have hptr : (g (s.folder p)).ptr = p := he.ptr.trans hp.2
  constructor
  · rw [ids, h.map_modify _ he.folderid]
    exact h.sorted
  · rw [h.map_modify _ he.ptr]
    exact h.addresses
  · intro f hf
    rcases (h.mem_modify hp).1 hf with rfl | ⟨hf, -⟩
    · rw [he.ptr]
      exact h.fresh _ hp.1
    · exact h.fresh f hf
  · intro f hf
    rcases (h.mem_modify hp).1 hf with rfl | ⟨hf, hne⟩
    · have hc := h.counted _ hp.1
      have hd := he.drift
      rw [hptr, driftAt, if_pos rfl]
      rw [hp.2] at hc
      grind
    · rw [driftAt, if_neg hne, UInt32.add_zero]
      exact h.counted f hf
  · intro f hf
    rcases (h.mem_modify hp).1 hf with rfl | ⟨hf, -⟩
    · have := h.room _ hp.1
      have := he.nodes_le
      omega
    · have := h.room f hf
      omega
  · intro f hf
    rcases (h.mem_modify hp).1 hf with rfl | ⟨hf, -⟩
    · rw [he.refcnt, he.ptr]
      exact h.refs _ hp.1
    · exact h.refs f hf
  · intro q hq
    obtain ⟨f, hf, rfl⟩ := h.held q hq
    by_cases hqp : f.ptr = p
    · exact ⟨_, (h.mem_modify hp).2 (.inl rfl), hptr.trans hqp.symm⟩
    · exact ⟨f, (h.mem_modify hp).2 (.inr ⟨hf, hqp⟩), rfl⟩
  · exact h.freed

/-- An edit of a folder which keeps its counter right. -/
theorem Inv.modify {m : ℕ} (h : Inv m D H s) (hp : s.Live p) (hk : k + n ≤ m)
    (he : ∀ f, f = s.folder p → Folder.Edit n 0 f (g f)) : Inv k D H (s.modify p g) := by
  have h := (h.mono hk).modify_drift hp (he _ rfl)
  have hD : (fun q => D q + driftAt p 0 q) = D := by
    funext q
    rw [driftAt, ite_self, UInt32.add_zero]
  rwa [hD] at h

/-- The references to one folder change, and its count with them. -/
theorem Inv.modify_refcnt {H' : Multiset ℕ} (h : Inv k D H s) (hp : s.Live p)
    (hg : g (s.folder p) = { s.folder p with refcnt := H'.count p })
    (hH : ∀ q, q ≠ p → H'.count q = H.count q) : Inv k D H' (s.modify p g) := by
  have hnodes : (g (s.folder p)).nodes = (s.folder p).nodes := by rw [hg]; rfl
  have hptr : (g (s.folder p)).ptr = (s.folder p).ptr := by rw [hg]
  have hcnt : (g (s.folder p)).taskscnt = (s.folder p).taskscnt := by rw [hg]
  constructor
  · rw [ids, h.map_modify _ (by rw [hg])]
    exact h.sorted
  · rw [h.map_modify _ hptr]
    exact h.addresses
  · intro f hf
    rcases (h.mem_modify hp).1 hf with rfl | ⟨hf, -⟩
    · rw [hptr]
      exact h.fresh _ hp.1
    · exact h.fresh f hf
  · intro f hf
    rcases (h.mem_modify hp).1 hf with rfl | ⟨hf, -⟩
    · rw [hptr, hnodes, hcnt]
      exact h.counted _ hp.1
    · exact h.counted f hf
  · intro f hf
    rcases (h.mem_modify hp).1 hf with rfl | ⟨hf, -⟩
    · rw [hnodes]
      exact h.room _ hp.1
    · exact h.room f hf
  · intro f hf
    rcases (h.mem_modify hp).1 hf with rfl | ⟨hf, hne⟩
    · rw [hptr, hp.2, hg]
    · rw [hH _ hne]
      exact h.refs f hf
  · intro q hq
    by_cases hqp : q = p
    · exact ⟨_, (h.mem_modify hp).2 (.inl rfl), by rw [hptr, hp.2, hqp]⟩
    · have hqH : q ∈ H := Multiset.count_pos.1 (hH q hqp ▸ Multiset.count_pos.2 hq)
      obtain ⟨f, hf, rfl⟩ := h.held q hqH
      exact ⟨f, (h.mem_modify hp).2 (.inr ⟨hf, hqp⟩), rfl⟩
  · exact h.freed

/-! ## References -/

theorem Inv.getRef (h : Inv k D H s) (hp : s.Live p) : Inv k D (p ::ₘ H) (s.getRef p) :=
  h.modify_refcnt hp (by rw [Multiset.count_cons_self, ← hp.2, ← h.refs _ hp.1, hp.2])
    fun _ hq => Multiset.count_cons_of_ne hq _

theorem getFolderTasksRdlocked_mem (h : s.getFolderTasksRdlocked id = some f) :
    f ∈ s.folders.toList ∧ f.folderid = id := by
  rw [getFolderTasksRdlocked] at h
  split at h
  · next hl =>
    cases h
    obtain ⟨hf, hc⟩ := Tree.mem_of_locate hl
    exact ⟨hf, (compare_eq_iff_eq.1 hc).symm⟩
  · cases h

theorem getFolderTasks_some (hg : s.getFolderTasks id = (some p, t)) :
    ∃ f, s.getFolderTasksRdlocked id = some f ∧ f.ptr = p ∧ t = s.getRef p := by
  rw [getFolderTasks] at hg
  split at hg
  · next f hf =>
    cases hg
    exact ⟨f, hf, rfl, rfl⟩
  · cases hg

theorem Inv.get (h : Inv k D H s) (hg : s.getFolderTasks id = (some p, t)) :
    Inv k D (p ::ₘ H) t := by
  obtain ⟨f, hf, rfl, rfl⟩ := getFolderTasks_some hg
  exact h.getRef (h.live_of_mem (getFolderTasksRdlocked_mem hf).1)

/-- The object which is got differs by the reference from the one which is looked for. -/
theorem Inv.folder_get (h : Inv k D H s) (hg : s.getFolderTasks id = (some p, t)) :
    ∃ f, s.getFolderTasksRdlocked id = some f ∧ f.folderid = id ∧
      t.folder p = { f with refcnt := f.refcnt + 1 } := by
  obtain ⟨f, hf, rfl, rfl⟩ := getFolderTasks_some hg
  obtain ⟨hm, hid⟩ := getFolderTasksRdlocked_mem hf
  refine ⟨f, hf, hid, ?_⟩
  have hfold := h.folder_modify (g := fun f => { f with refcnt := f.refcnt + 1 })
    (h.live_of_mem hm) (h.live_of_mem hm).2
  rwa [h.folder_eq hm rfl] at hfold

theorem getFolderTasks_none (hg : s.getFolderTasks id = (none, t)) : t = s := by
  rw [getFolderTasks] at hg
  split at hg
  · cases hg
  · cases hg
    rfl

/-- A reference to a folder leaves the trees of all folders unchanged. -/
theorem Inv.get_trees {q : ℕ} {c : Option ℕ} (h : Inv k D H s) (hq : s.Live q)
    (hg : s.getFolderTasks id = (c, t)) :
    ∃ r, t.folder q = { s.folder q with refcnt := r } := by
  cases c with
  | none => exact ⟨_, by rw [getFolderTasks_none hg]⟩
  | some p =>
    obtain ⟨f, hf, rfl, rfl⟩ := getFolderTasks_some hg
    have hp := h.live_of_mem (getFolderTasksRdlocked_mem hf).1
    by_cases hne : q = f.ptr
    · subst hne
      exact ⟨_, h.folder_modify (g := fun f => { f with refcnt := f.refcnt + 1 }) hp hp.2⟩
    · exact ⟨_, h.folder_modify_of_ne (g := fun f => { f with refcnt := f.refcnt + 1 })
        hp hq hp.2 hne⟩

/-- The sequence of folders is sorted for the descents. -/
theorem Inv.cmp_sorted (h : Inv k D H s) (id : ℤ) : s.folders.Sorted (cmp id) := by
  refine (pairwise_map.1 h.sorted).imp fun {f g} hfg => ⟨fun hf => ?_, fun hg => ?_⟩
  · exact compare_lt_iff_lt.2 ((not_lt.1 fun hlt => hf (compare_gt_iff_gt.2 hlt)).trans_lt hfg)
  · exact compare_gt_iff_gt.2 (hfg.trans_le (not_lt.1 fun hlt => hg (compare_lt_iff_lt.2 hlt)))

/-- A folder object is added where its id fits, at an address without an object. -/
theorem Inv.insert {H' : Multiset ℕ} {as bs : List Folder} (h : Inv k D H s)
    (hs : s.folders.toList = as ++ bs) (ht : t.folders.toList = as ++ f :: bs)
    (hfreed : t.freed = s.freed) (hnext : s.next ≤ t.next) (hf : f.ptr < t.next)
    (hnew : ∀ g ∈ s.folders.toList, g.ptr ≠ f.ptr) (has : ∀ g ∈ as, g.folderid < f.folderid)
    (hbs : ∀ g ∈ bs, f.folderid < g.folderid) (hcount : f.taskscnt + D f.ptr = UInt32.ofNat f.nodes)
    (hroom : f.nodes + k < 2 ^ 32) (href : f.refcnt = H'.count f.ptr)
    (hH : ∀ q, q ≠ f.ptr → H'.count q = H.count q) : Inv k D H' t := by
  have hmem : ∀ {g}, g ∈ t.folders.toList ↔ g = f ∨ g ∈ s.folders.toList := by
    intro g
    rw [ht, hs, mem_append, mem_cons, mem_append]
    tauto
  have hsort := h.sorted
  have hnd := h.addresses
  constructor
  · rw [ids, hs, map_append, pairwise_append] at hsort
    rw [ids, ht, map_append, map_cons, pairwise_append, pairwise_cons]
    refine ⟨hsort.1, ⟨?_, hsort.2.1⟩, ?_⟩
    · exact forall_mem_map.2 hbs
    · intro a ha b hb
      rcases mem_cons.1 hb with rfl | hb
      · obtain ⟨g, hg, rfl⟩ := mem_map.1 ha
        exact has g hg
      · exact hsort.2.2 a ha b hb
  · rw [hs, map_append] at hnd
    rw [ht, map_append, map_cons, nodup_middle, nodup_cons]
    refine ⟨?_, hnd⟩
    rw [← map_append, ← hs, mem_map]
    rintro ⟨g, hg, hgf⟩
    exact hnew g hg hgf
  · intro g hg
    rcases hmem.1 hg with rfl | hg
    · exact hf
    · exact (h.fresh g hg).trans_le hnext
  · intro g hg
    rcases hmem.1 hg with rfl | hg
    · exact hcount
    · exact h.counted g hg
  · intro g hg
    rcases hmem.1 hg with rfl | hg
    · exact hroom
    · exact h.room g hg
  · intro g hg
    rcases hmem.1 hg with rfl | hg
    · exact href
    · rw [hH _ (hnew g hg)]
      exact h.refs g hg
  · intro q hq
    by_cases hqf : q = f.ptr
    · exact ⟨f, hmem.2 (.inl rfl), hqf.symm⟩
    · obtain ⟨g, hg, rfl⟩ := h.held q (Multiset.count_pos.1 (hH q hqf ▸ Multiset.count_pos.2 hq))
      exact ⟨g, hmem.2 (.inr hg), rfl⟩
  · rw [hfreed]
    exact h.freed

theorem Inv.mem_others {as bs : List Folder} {g : Folder} (h : Inv k D H s)
    (hs : s.folders.toList = as ++ f :: bs) (hg : g ∈ as ++ bs) :
    g ∈ s.folders.toList ∧ g.ptr ≠ f.ptr := by
  have hnd := h.addresses
  rw [hs, map_append, map_cons, nodup_middle, nodup_cons, ← map_append, mem_map] at hnd
  rw [hs]
  exact ⟨mem_append.2 ((mem_append.1 hg).imp_right (mem_cons_of_mem _)),
    fun he => hnd.1 ⟨g, hg, he⟩⟩

/-- A folder object is taken out of the tree, with the references to it. -/
theorem Inv.remove {as bs : List Folder} (h : Inv k D H s) (hs : s.folders.toList = as ++ f :: bs)
    (ht : t.folders.toList = as ++ bs) (hnext : t.next = s.next)
    (hfreed : ∀ g ∈ t.freed, g.NoTasks) : Inv k D (H.filter (· ≠ f.ptr)) t := by
  have hsub : t.folders.toList.Sublist s.folders.toList := by
    rw [hs, ht]
    exact (List.Sublist.refl as).append (sublist_cons_self f bs)
  have hne : ∀ g ∈ t.folders.toList, g.ptr ≠ f.ptr := fun g hg => (h.mem_others hs (ht ▸ hg)).2
  constructor
  · exact h.sorted.sublist (hsub.map _)
  · exact h.addresses.sublist (hsub.map _)
  · rw [hnext]
    exact fun g hg => h.fresh g (hsub.subset hg)
  · exact fun g hg => h.counted g (hsub.subset hg)
  · exact fun g hg => h.room g (hsub.subset hg)
  · intro g hg
    rw [Multiset.count_filter_of_pos (p := (· ≠ f.ptr)) (hne g hg)]
    exact h.refs g (hsub.subset hg)
  · intro q hq
    obtain ⟨hqH, hqf⟩ := Multiset.mem_filter.1 hq
    obtain ⟨g, hg, rfl⟩ := h.held q hqH
    refine ⟨g, ?_, rfl⟩
    rw [hs] at hg
    rw [ht]
    rcases mem_append.1 hg with hg | hg
    · exact mem_append_left _ hg
    · rcases mem_cons.1 hg with rfl | hg
      · exact absurd rfl hqf
      · exact mem_append_right _ hg
  · exact hfreed

theorem Inv.getOrCreate (h : Inv k noDrift H s) (hk : k < 2 ^ 32)
    (hg : s.getOrCreateFolderTasks id = (p, t)) : Inv k noDrift (p ::ₘ H) t := by
  rw [getOrCreateFolderTasks] at hg
  split at hg
  · next hl =>
    cases hg
    exact h.getRef (h.live_of_mem (Tree.mem_of_locate hl).1)
  · next j hl =>
    obtain ⟨as, bs, hL, rfl, has, hbs⟩ := Tree.locate_vacant (h.cmp_sorted id) hl
    cases hg
    have hfree : s.next ∉ H := fun hm => by
      obtain ⟨g, hg, hgp⟩ := h.held _ hm
      exact (h.fresh g hg).ne hgp
    have has' : ∀ g ∈ as, g.folderid < id := fun g hg => compare_gt_iff_gt.1 (has g hg)
    have hbs' : ∀ g ∈ bs, id < g.folderid := fun g hg => compare_lt_iff_lt.1 (hbs g hg)
    refine h.insert hL (Tree.toList_insertAt { ptr := s.next, folderid := id, refcnt := 1 } hL) rfl
      (Nat.le_succ _) (Nat.lt_succ_self _) (fun g hg => (h.fresh g hg).ne) has' hbs' rfl
      (by simpa [Folder.nodes, Tree.size] using hk) ?_ fun q hq => Multiset.count_cons_of_ne hq _
    rw [Multiset.count_cons_self, Multiset.count_eq_zero_of_notMem hfree]

/-- The folder object is the one which is looked for, or it is new and has no tasks. -/
theorem Inv.folder_getOrCreate (h : Inv k noDrift H s) (hk : k < 2 ^ 32)
    (hg : s.getOrCreateFolderTasks id = (p, t)) :
    (∃ f, s.getFolderTasksRdlocked id = some f ∧ t = s.getRef p ∧
      t.folder p = { f with refcnt := f.refcnt + 1 }) ∨
    t.folder p = { ptr := p, folderid := id, refcnt := 1 } := by
  have ht := h.getOrCreate hk hg
  rw [getOrCreateFolderTasks] at hg
  split at hg
  · next f hl =>
    cases hg
    have hf : s.getFolderTasksRdlocked id = some f := by rw [getFolderTasksRdlocked, hl]
    have hm := (getFolderTasksRdlocked_mem hf).1
    have hfold := h.folder_modify (g := fun f => { f with refcnt := f.refcnt + 1 })
      (h.live_of_mem hm) (h.live_of_mem hm).2
    rw [h.folder_eq hm rfl] at hfold
    exact .inl ⟨f, hf, rfl, hfold⟩
  · next hl =>
    obtain ⟨as, bs, hL, rfl, -, -⟩ := Tree.locate_vacant (h.cmp_sorted id) hl
    cases hg
    refine .inr (ht.folder_eq ?_ rfl)
    have hins := Tree.toList_insertAt { ptr := s.next, folderid := id, refcnt := 1 } hL
    exact hins ▸ mem_append_right _ mem_cons_self

/-- The object at an address is taken out of the tree. -/
theorem removeAt_position_of_nodup (hn : (s.folders.toList.map Folder.ptr).Nodup)
    (hp : s.Live p) : ∃ as bs, s.folders.toList = as ++ s.folder p :: bs ∧
      (s.folders.removeAt (s.position p)).toList = as ++ bs := by
  have hlt : s.position p < s.folders.toList.length :=
    findIdx_lt_length_of_exists ⟨_, hp.1, by simp [hp.2]⟩
  have hptr : s.folders.toList[s.position p].ptr = p :=
    of_decide_eq_true (@findIdx_getElem Folder (fun f => decide (f.ptr = p)) _ hlt)
  have hget : s.folders.toList[s.position p] = s.folder p :=
    (folder_eq_of_nodup hn (getElem_mem hlt) hptr).symm
  have hsplit : s.folders.toList = s.folders.toList.take (s.position p) ++
      s.folder p :: s.folders.toList.drop (s.position p + 1) := by
    rw [← hget]
    simp
  refine ⟨_, _, hsplit, ?_⟩
  have := Tree.toList_removeAt hsplit
  rwa [length_take_of_le hlt.le] at this

theorem Inv.removeAt_position (h : Inv k D H s) (hp : s.Live p) :
    ∃ as bs, s.folders.toList = as ++ s.folder p :: bs ∧
      (s.folders.removeAt (s.position p)).toList = as ++ bs :=
  removeAt_position_of_nodup h.addresses hp

/-- A reference is given back, and the folder with it when it was the last and the counter is
    zero: then, if the counter is right, it has no tasks. -/
theorem Inv.release (h : Inv k noDrift (p ::ₘ H) s) : Inv k noDrift H (s.releaseFolderTasks p) := by
  have hp := h.live (Multiset.mem_cons_self p H)
  have hr : (s.folder p).refcnt - 1 = H.count p := by
    rw [h.refs _ hp.1, hp.2, Multiset.count_cons_self, Nat.add_sub_cancel]
  have hf := h.folder_modify (g := fun f => { f with refcnt := f.refcnt - 1 }) hp hp.2
  have hlive : (s.modify p fun f => { f with refcnt := f.refcnt - 1 }).Live p :=
    ⟨hf ▸ (h.mem_modify hp).2 (.inl rfl), by rw [hf]; exact hp.2⟩
  have h : Inv k noDrift H (s.modify p fun f => { f with refcnt := f.refcnt - 1 }) :=
    h.modify_refcnt hp (by rw [hr]) fun q hq => (Multiset.count_cons_of_ne hq _).symm
  rw [releaseFolderTasks]
  generalize (s.modify p fun f => { f with refcnt := f.refcnt - 1 }) = t at *
  split_ifs with hz
  · obtain ⟨as, bs, hs, hrem⟩ := h.removeAt_position hlive
    have hcount : H.count p = 0 := by
      rw [← hr, ← hz.1, hf]
    have hempty : (t.folder p).NoTasks := by
      have hc := h.counted _ hlive.1
      have hroom := h.room _ hlive.1
      rw [hz.2, noDrift, UInt32.add_zero] at hc
      have hn := congrArg UInt32.toNat hc
      rw [UInt32.toNat_ofNat', Nat.mod_eq_of_lt (by omega)] at hn
      exact Folder.noTasks_iff.2 hn.symm
    have hrest := h.remove (t := { t with
      folders := t.folders.removeAt (t.position p), freed := t.folder p :: t.freed }) hs hrem rfl
      (forall_mem_cons.2 ⟨hempty, h.freed⟩)
    rwa [hlive.2, Multiset.filter_eq_self.2] at hrest
    rintro q hq rfl
    exact Multiset.count_eq_zero.1 hcount hq
  · exact h

/-- A folder object gets an id which no other one has. -/
theorem Inv.setFolderid (h : Inv k noDrift H s) (hp : s.Live p)
    (hid : ∀ f ∈ s.folders.toList, f.folderid = id → f.ptr = p) :
    Inv k noDrift H (s.setFolderid p id) := by
  obtain ⟨as, bs, hs, hrem⟩ := h.removeAt_position hp
  have hrest := h.remove (t := { s with folders := s.folders.removeAt (s.position p) }) hs hrem rfl
    h.freed
  have hothers : ∀ f ∈ as ++ bs, f ∈ s.folders.toList ∧ f.ptr ≠ p := fun f hf =>
    hp.2 ▸ h.mem_others hs hf
  have hle : (as ++ bs).Pairwise fun f g => before id f = true → before id g = true := by
    rw [← hrem]
    refine (pairwise_map.1 hrest.sorted).imp fun {f g} hfg hf => ?_
    have hf : id < f.folderid := compare_lt_iff_lt.1 (beq_iff_eq.1 hf)
    exact beq_iff_eq.2 (compare_lt_iff_lt.2 (hf.trans hfg))
  obtain ⟨cs, ds, hcd, hlen, hcs, hds⟩ := Tree.placeBy_spec (hrem.symm ▸ hle)
  have hmem : ∀ f ∈ cs ++ ds, f ∈ s.folders.toList ∧ f.ptr ≠ p := by
    rw [← hcd, hrem]
    exact hothers
  have hlt : ∀ f ∈ cs, f.folderid < id := by
    intro f hf
    -- not before the new id, and not equal to it: no other folder has it
    have hge : ¬ id < f.folderid := fun hlt =>
      Bool.eq_false_iff.1 (hcs f hf) (beq_iff_eq.2 (compare_lt_iff_lt.2 hlt))
    have hm := hmem f (mem_append_left _ hf)
    exact lt_of_le_of_ne (not_lt.1 hge) fun he => hm.2 (hid f hm.1 he)
  have hgt : ∀ f ∈ ds, id < f.folderid := fun f hf =>
    compare_lt_iff_lt.1 (beq_iff_eq.1 (hds f hf))
  have hadd := Tree.toList_insertAt { s.folder p with folderid := id } hcd
  rw [hlen] at hadd
  have hfresh := h.fresh (s.folder p) hp.1
  have hcounted := h.counted (s.folder p) hp.1
  have hroom := h.room (s.folder p) hp.1
  have hrefs := h.refs (s.folder p) hp.1
  refine hrest.insert hcd hadd rfl le_rfl hfresh ?_ hlt hgt hcounted hroom hrefs fun q hq => ?_
  · intro f hf
    rw [hp.2]
    exact (hothers f (hrem ▸ hf)).2
  · exact (Multiset.count_filter_of_pos (p := (· ≠ (s.folder p).ptr)) hq).symm

end State

end Pclsync
