import Pclsync.PathStatus.System

/-!
# The entries of the folders with tasks are right

While the move of a folder is pending, the folder is counted under its old parent, though its row
has the new one. The counts are right for these parents (`State.par`) in every state, and for those
of the tables when no move is pending.

* `Proper`: what the callers keep to, so that the tables hold trees of folders.
* `Sound`: where the functions do what they should.
* `Inv`: the invariant, and `Inv.step`, which keeps it.
-/

namespace Pclsync.PathStatus

open Tracker Function List Option

/-! ## Parents while moves are pending -/

/-- The parent under which a folder is counted: the old one of its first pending move. -/
def parAfter (tree : Table → Forest FolderId) : List Move → Key → FolderId → Option FolderId
  | [], k, f => (tree k.table).parent f
  | m :: rest, k, f =>
    if m.oldKey = k ∧ m.folderid = f then some m.oldParent else parAfter tree rest k f

def State.par (s : State) (k : Key) (f : FolderId) : Option FolderId :=
  parAfter s.tree s.pending k f

/-- No move of the folder is pending. -/
def NotPending (pending : List Move) (k : Key) (f : FolderId) : Prop :=
  ∀ m ∈ pending, ¬ (m.oldKey = k ∧ m.folderid = f)

/-- Each pending move goes to the parent that the folder has after it. -/
def Chained (tree : Table → Forest FolderId) : List Move → Prop
  | [] => True
  | m :: rest => parAfter tree rest m.oldKey m.folderid = some m.newParent ∧ Chained tree rest

section Parents

variable {tree tree' : Table → Forest FolderId} {pending : List Move} {m : Move} {k : Key}
  {f : FolderId}

theorem parAfter_of_notPending (h : NotPending pending k f) :
    parAfter tree pending k f = (tree k.table).parent f := by
  induction pending with
  | nil => rfl
  | cons m rest ih =>
    rw [parAfter, if_neg (h m mem_cons_self)]
    exact ih fun m' hm' => h m' (mem_cons_of_mem _ hm')

/-- The parents only depend on those in the tables for folders that are not moved. -/
theorem parAfter_congr (h : NotPending pending k f → (tree' k.table).parent f =
    (tree k.table).parent f) : parAfter tree' pending k f = parAfter tree pending k f := by
  induction pending with
  | nil => exact h (forall_mem_nil _)
  | cons m rest ih =>
    rw [parAfter, parAfter]
    split_ifs with hm
    · rfl
    · refine ih fun hnp => h fun m' hm' => ?_
      rcases mem_cons.1 hm' with rfl | hm'
      · exact hm
      · exact hnp m' hm'

/-- A new move leaves its folder counted where it was. -/
theorem parAfter_append (hf : m.oldKey = k ∧ m.folderid = f →
      (tree k.table).parent f = some m.oldParent)
    (hne : ¬ (m.oldKey = k ∧ m.folderid = f) → NotPending pending k f →
      (tree' k.table).parent f = (tree k.table).parent f) :
    parAfter tree' (pending ++ [m]) k f = parAfter tree pending k f := by
  induction pending with
  | nil =>
    rw [nil_append, parAfter, parAfter, parAfter]
    split_ifs with hm
    · exact (hf hm).symm
    · exact hne hm (forall_mem_nil _)
  | cons m' rest ih =>
    rw [cons_append, parAfter, parAfter]
    split_ifs with hm'
    · rfl
    · refine ih fun hm hnp => hne hm fun m'' hm'' => ?_
      rcases mem_cons.1 hm'' with rfl | hm''
      · exact hm'
      · exact hnp m'' hm''

theorem Chained.congr (h : Chained tree pending)
    (ht : ∀ m ∈ pending, (tree' m.oldKey.table).parent m.folderid =
      (tree m.oldKey.table).parent m.folderid) : Chained tree' pending := by
  induction pending with
  | nil => trivial
  | cons m rest ih =>
    refine ⟨?_, ih h.2 fun m' hm' => ht m' (mem_cons_of_mem _ hm')⟩
    rw [parAfter_congr fun _ => ht m mem_cons_self]
    exact h.1

theorem Chained.append (h : Chained tree pending)
    (hnew : (tree' m.oldKey.table).parent m.folderid = some m.newParent)
    (hold : (tree m.oldKey.table).parent m.folderid = some m.oldParent)
    (ht : ∀ m' ∈ pending, ¬ (m.oldKey = m'.oldKey ∧ m.folderid = m'.folderid) →
      (tree' m'.oldKey.table).parent m'.folderid = (tree m'.oldKey.table).parent m'.folderid) :
    Chained tree' (pending ++ [m]) := by
  induction pending with
  | nil => exact ⟨hnew, trivial⟩
  | cons m' rest ih =>
    rw [cons_append]
    refine ⟨?_, ih h.2 fun m'' hm'' => ht m'' (mem_cons_of_mem _ hm'')⟩
    have hpar : parAfter tree' (rest ++ [m]) m'.oldKey m'.folderid =
        parAfter tree rest m'.oldKey m'.folderid := by
      refine parAfter_append ?_ fun hne _ => ht m' mem_cons_self hne
      rintro ⟨hk, hf⟩
      rw [← hk, ← hf, hold]
    rw [hpar]
    exact h.1

end Parents

/-! ## Conditions on the steps -/

/-- The callers keep the tables trees of folders, call the functions for folders of the trees, and
    delete folders after their subfolders. A local folder belongs to one sync. -/
def Proper (s : State) : Action → Prop
  | .driveFolderChanged f _ => InTree (s.tree .folder) f
  | .folderMoved _ new => InTree (s.tree .folder) new
  | .folderDeleted f => f ≠ 0 ∧ ∀ c, (s.tree .folder).parent c ≠ some f
  | .syncFolderTaskAdded _ f => InTree (s.tree .localfolder) f
  | .syncFolderMoved f i _ new => InTree (s.tree .localfolder) new ∧
      ∀ i', i' ≠ i → (s.tracker (.sync i')).folderTasks f = none
  | .syncFolderDeleted i f => (f ≠ 0 ∧ ∀ c, (s.tree .localfolder).parent c ≠ some f) ∧
      ∀ i', i' ≠ i → (s.tracker (.sync i')).folderTasks f = none
  | .folderCreated T _ parent => InTree (s.tree T) parent
  | _ => True

/-- No folder that loses its entry with `f` has a pending move. -/
def LosesSettled (s : State) (k : Key) (f : FolderId) : Prop :=
  ∀ y, Loses (s.par k) (s.tracker k) f y → NotPending s.pending k y

/-- Where the functions do what they should. -/
def Sound (s : State) : Action → Prop
  | .driveFolderChanged f changed =>
    if changed then Room (s.tracker .drive)
    else (s.tracker .drive).folderTasks f = some ⟨0, true⟩ → LosesSettled s .drive f
  | .folderDeleted f => (∀ ft, (s.tracker .drive).folderTasks f = some ft → ft.children = 0) ∧
      (((s.tracker .drive).folderTasks f).isSome → LosesSettled s .drive f) ∧
      ∀ m ∈ s.pending, m.oldKey.table = .folder → m.newParent ≠ f
  | .syncFolderTaskAdded i _ => Room (s.tracker (.sync i))
  | .syncFolderTaskCompleted i f left => left = false →
      (s.tracker (.sync i)).folderTasks f = some ⟨0, true⟩ → LosesSettled s (.sync i) f
  -- The entry of the folder is looked for in the tree of the drive, and stays in that of the sync.
  | .syncFolderMoved f i j new => (s.created i = true →
        ((s.tracker (.sync i)).folderTasks f).isSome = ((s.tracker .drive).folderTasks f).isSome) ∧
      (((s.tracker (.sync i)).folderTasks f).isSome → i = j) ∧
      ∀ i', i' ≠ i → ∀ e ∈ (s.tracker (.sync i')).parentCache, e.1 = f → e.2 = new
  | .syncFolderDeleted i f => (∀ ft, (s.tracker (.sync i)).folderTasks f = some ft →
        ft.children = 0) ∧
      (((s.tracker (.sync i)).folderTasks f).isSome → LosesSettled s (.sync i) f) ∧
      ∀ m ∈ s.pending, m.oldKey.table = .localfolder → m.newParent ≠ f
  -- The parent of a deleted folder may still be in the cache.
  | .folderCreated T f parent => ∀ k, k.table = T →
      ∀ e ∈ (s.tracker k).parentCache, e.1 = f → e.2 = parent
  | .commitCallback => ∀ m rest, s.pending = m :: rest → Room (s.tracker m.newKey) ∧
      ∀ t, (s.tracker m.newKey).moveTo m.newKey.cacheSize (s.treeOf m.newKey) m.newParent = some t →
        t.folderTasks m.oldParent = some ⟨1, false⟩ →
        ∀ y, Loses (parAfter s.tree rest m.oldKey) t m.oldParent y → NotPending rest m.oldKey y
  | .rollbackTransaction => ∀ d, s.snapshot = some d → (∀ i, d.tasks i = s.own (.sync i)) ∧
      ∀ k, (∀ f, ((s.tracker k).folderTasks f).isSome →
          s.par k f = (d.tree k.table).parent f) ∧
        Coherent (d.tree k.table) (s.tracker k)
  | _ => True

/-! ## The invariant -/

structure Inv (s : State) : Prop where
  ok : s.failed = false
  tree : ∀ T, IsTree (s.tree T)
  tracks : ∀ k, Tracks (s.treeOf k) (s.par k) (s.own k) (s.tracker k)
  created : ∀ i, s.created i = false → s.tracker (.sync i) = Tracker.empty
  chained : Chained s.tree s.pending
  pending : ∀ m ∈ s.pending, m.newKey = m.oldKey ∧ m.oldParent ≠ m.newParent ∧
    InTree (s.treeOf m.oldKey) m.newParent ∧
    ((s.tracker m.oldKey).folderTasks m.folderid).isSome
  snapshot : ∀ d, s.snapshot = some d → ∀ T, IsTree (d.tree T)

section Trees

variable {tree tree' : Forest FolderId} {f : FolderId} {q : Option FolderId}

theorem parent_reparent (h : reparent tree f q = some tree') :
    tree'.parent = update tree.parent f q := by
  unfold reparent at h
  split_ifs at h
  rw [← some_inj.1 h]
  rfl

theorem inTree_reparent {p y : FolderId} (h : reparent tree f (some p) = some tree')
    (hy : InTree tree y) : InTree tree' y := by
  refine hy.imp_right fun hs => ?_
  rw [parent_reparent h]
  rcases eq_or_ne y f with rfl | hne
  · rw [update_self, isSome_some]
  · rwa [update_of_ne hne]

theorem isTree_reparent {p : FolderId} (ht : IsTree tree)
    (h : reparent tree f (some p) = some tree') (hf : f ≠ 0) (hp : InTree tree p) :
    IsTree tree' := by
  refine ⟨?_, fun c r hc => ?_⟩
  · rw [parent_reparent h, update_of_ne hf.symm]
    exact ht.root
  · rw [parent_reparent h] at hc
    rcases eq_or_ne c f with rfl | hne
    · rw [update_self, some_inj] at hc
      exact hc ▸ inTree_reparent h hp
    · rw [update_of_ne hne] at hc
      exact inTree_reparent h (ht.closed c r hc)

/-- A folder without subfolders is deleted. -/
theorem isTree_delete (ht : IsTree tree) (h : reparent tree f none = some tree')
    (hleaf : ∀ c, tree.parent c ≠ some f) : IsTree tree' := by
  have hp := parent_reparent h
  refine ⟨?_, fun c r hc => ?_⟩
  · rw [hp]
    rcases eq_or_ne 0 f with rfl | hne
    · rw [update_self]
    · rw [update_of_ne hne]
      exact ht.root
  · rw [hp] at hc
    have hne : c ≠ f := by
      rintro rfl
      rw [update_self] at hc
      exact absurd hc (by simp)
    rw [update_of_ne hne] at hc
    refine (ht.closed c r hc).imp_right fun hs => ?_
    rw [hp, update_of_ne]
    · exact hs
    · rintro rfl
      exact hleaf c hc

end Trees

theorem treeOf_setTree (s : State) (T : Table) (tree : Forest FolderId) (k : Key) :
    (s.setTree T tree).treeOf k = if k.table = T then tree else s.treeOf k :=
  update_apply ..

namespace Inv

variable {s s' : State} {k : Key} {f : FolderId}

theorem par_of_notPending {y : FolderId} (hy : NotPending s.pending k y) :
    s.par k y = (s.treeOf k).parent y := parAfter_of_notPending hy

section

variable (h : Inv s)
include h

/-- A folder without an entry is counted under its parent in the table. -/
theorem par_of_unmarked {y : FolderId} (hy : (s.tracker k).folderTasks y = none) :
    s.par k y = (s.treeOf k).parent y := by
  refine par_of_notPending fun m hm heq => ?_
  have := (h.pending m hm).2.2.2
  rw [heq.1, heq.2, hy] at this
  exact absurd this (by simp)

/-! ## Calls that change one tracker -/

theorem of_tracker {t' : Tracker} {own' : FolderId → Bool}
    (htree : s'.tree = s.tree) (hpend : s'.pending = s.pending) (hok : s'.failed = false)
    (hsnap : s'.snapshot = s.snapshot) (hown : s'.own = update s.own k own')
    (htr : s'.tracker = update s.tracker k t')
    (hcr : ∀ i, s'.created i = false → s.created i = false ∧ k ≠ .sync i)
    (ht : Tracks (s.treeOf k) (s.par k) own' t')
    (hkeep : ∀ m ∈ s.pending, m.oldKey = k → (t'.folderTasks m.folderid).isSome) : Inv s' := by
  have hpar : ∀ k', s'.par k' = s.par k' := fun k' => by
    unfold State.par
    rw [htree, hpend]
  have htreeOf : ∀ k', s'.treeOf k' = s.treeOf k' := fun k' => by
    unfold State.treeOf
    rw [htree]
  refine ⟨hok, fun T => htree ▸ h.tree T, fun k' => ?_, fun i hi => ?_, ?_, fun m hm => ?_,
    fun d hd => h.snapshot d (hsnap ▸ hd)⟩
  · rw [htreeOf, hpar, hown, htr]
    rcases eq_or_ne k' k with rfl | hne
    · rwa [update_self, update_self]
    · rw [update_of_ne hne, update_of_ne hne]
      exact h.tracks k'
  · rw [htr, update_of_ne (hcr i hi).2.symm]
    exact h.created i (hcr i hi).1
  · rw [htree, hpend]
    exact h.chained
  · rw [hpend] at hm
    obtain ⟨h1, h2, h3, h4⟩ := h.pending m hm
    refine ⟨h1, h2, htreeOf m.oldKey ▸ h3, ?_⟩
    rw [htr]
    rcases eq_or_ne m.oldKey k with heq | hne
    · rw [heq, update_self]
      exact hkeep m hm heq
    · rwa [update_of_ne hne]

theorem taskAdded (hf : InTree (s.treeOf k) f) (hroom : Room (s.tracker k)) :
    ∃ t', (s.tracker k).taskAdded k.cacheSize (s.treeOf k) f = some t' ∧
      Tracks (s.treeOf k) (s.par k) (update (s.own k) f true) t' ∧
      ∀ m ∈ s.pending, m.oldKey = k → (t'.folderTasks m.folderid).isSome := by
  obtain ⟨t', heq, ht', hkeep⟩ := (h.tracks k).taskAdded k.cacheSize (h.tree k.table) hf hroom
    fun y hy => h.par_of_unmarked hy
  refine ⟨t', heq, ht', fun m hm hk => hkeep _ ?_⟩
  exact hk ▸ (h.pending m hm).2.2.2

theorem taskCompleted (strict : Bool)
    (hl : (s.tracker k).folderTasks f = some ⟨0, true⟩ → LosesSettled s k f) :
    ∃ t', (s.tracker k).taskCompleted k.cacheSize (s.treeOf k) strict f = some t' ∧
      Tracks (s.treeOf k) (s.par k) (update (s.own k) f false) t' ∧
      ∀ m ∈ s.pending, m.oldKey = k → (t'.folderTasks m.folderid).isSome := by
  obtain ⟨t', heq, ht', hkeep⟩ := (h.tracks k).taskCompleted k.cacheSize strict (f := f)
    (h.tree k.table) fun hft y hy => par_of_notPending (hl hft y hy)
  refine ⟨t', heq, ht', fun m hm hk => ?_⟩
  have hmark : ((s.tracker k).folderTasks m.folderid).isSome := hk ▸ (h.pending m hm).2.2.2
  exact (hkeep _ hmark).resolve_right fun hy => hl hy.1 _ hy.2 m hm ⟨hk, rfl⟩

/-- A folder is deleted, before its row is. -/
theorem folderDeleted
    (h0 : ∀ ft, (s.tracker k).folderTasks f = some ft → ft.children = 0)
    (hl : ((s.tracker k).folderTasks f).isSome → LosesSettled s k f) :
    ∃ t', (s.tracker k).folderDeleted k.cacheSize (s.treeOf k) f = some t' ∧
      Tracks (s.treeOf k) (s.par k) (update (s.own k) f false) t' ∧
      t'.folderTasks f = none ∧
      ∀ m ∈ s.pending, m.oldKey = k → (t'.folderTasks m.folderid).isSome := by
  obtain ⟨t', heq, ht', hnone, hkeep⟩ := (h.tracks k).folderDeleted k.cacheSize (h.tree k.table) h0
    fun hft y hy => par_of_notPending (hl hft y hy)
  refine ⟨t', heq, ht', hnone, fun m hm hk => ?_⟩
  have hmark : ((s.tracker k).folderTasks m.folderid).isSome := hk ▸ (h.pending m hm).2.2.2
  exact (hkeep _ hmark).resolve_right fun hy => hl hy.1 _ hy.2 m hm ⟨hk, rfl⟩

/-! ## Changes of the tables -/

/-- The tables change, and the caches; no entry does, nor the parent of a folder with one. -/
theorem retree (hok : s'.failed = false) (hown : s'.own = s.own)
    (htasks : ∀ k, (s'.tracker k).folderTasks = (s.tracker k).folderTasks)
    (hcr : ∀ i, s'.created i = false → s'.tracker (.sync i) = Tracker.empty)
    (htree : ∀ T, IsTree (s'.tree T)) (hcoh : ∀ k, Coherent (s'.treeOf k) (s'.tracker k))
    (hin : ∀ k y, ((s.tracker k).folderTasks y).isSome → InTree (s'.treeOf k) y)
    (hpar : ∀ k y, ((s.tracker k).folderTasks y).isSome → s'.par k y = s.par k y)
    (hchained : Chained s'.tree s'.pending)
    (hpend : ∀ m ∈ s'.pending, m.newKey = m.oldKey ∧ m.oldParent ≠ m.newParent ∧
      InTree (s'.treeOf m.oldKey) m.newParent ∧
      ((s.tracker m.oldKey).folderTasks m.folderid).isSome)
    (hsnap : ∀ d, s'.snapshot = some d → ∀ T, IsTree (d.tree T)) : Inv s' := by
  refine ⟨hok, htree, fun k => ?_, hcr, hchained, fun m hm => ?_, hsnap⟩
  · have ht := h.tracks k
    have hlinks : ∀ c q, Links (s'.par k) (s'.tracker k) c q ↔ Links (s.par k) (s.tracker k) c q :=
      fun c q => by
        unfold Links
        rw [htasks]
        exact and_congr_left fun hc => by rw [hpar k c hc]
    refine ⟨?_, hcoh k, fun y ft hy => ht.fits y ft (htasks k ▸ hy),
      fun y hy => hin k y (htasks k ▸ hy)⟩
    rw [hown, htasks]
    exact ht.counts.congr hlinks
  · rw [htasks]
    exact hpend m hm

theorem deleteRow {T : Table} {tree' : Forest FolderId}
    (hre : reparent (s.tree T) f none = some tree') (hleaf : ∀ c, (s.tree T).parent c ≠ some f)
    (hf : ∀ k, k.table = T → (s.tracker k).folderTasks f = none)
    (hnew : ∀ m ∈ s.pending, m.oldKey.table = T → m.newParent ≠ f) : Inv (s.setTree T tree') := by
  have hp := parent_reparent hre
  -- The parents of folders with entries are kept.
  have hparent : ∀ k y, ((s.tracker k).folderTasks y).isSome →
      ((s.setTree T tree').treeOf k).parent y = (s.treeOf k).parent y := fun k y hy => by
    rw [treeOf_setTree]
    split_ifs with hk
    · have hne : y ≠ f := by
        rintro rfl
        simp [hf k hk] at hy
      subst hk
      rw [hp, update_of_ne hne]
      rfl
    · rfl
  have htree : ∀ k y, y ≠ f ∨ k.table ≠ T → InTree (s.treeOf k) y →
      InTree ((s.setTree T tree').treeOf k) y := fun k y hy hin => by
    rw [treeOf_setTree]
    split_ifs with hk
    · subst hk
      refine hin.imp_right fun hs => ?_
      rw [hp, update_of_ne (hy.resolve_right (not_not.2 rfl))]
      exact hs
    · exact hin
  have hmark : ∀ k y, ((s.tracker k).folderTasks y).isSome → y ≠ f ∨ k.table ≠ T := fun k y hy => by
    by_contra hno
    rw [not_or, not_not, not_not] at hno
    simp [hno.1, hf k hno.2] at hy
  refine h.retree h.ok rfl (fun k => rfl) h.created (fun T' => ?_) (fun k e he => ?_)
    (fun k y hy => htree k y (hmark k y hy) ((h.tracks k).entriesIn y hy))
    (fun k y hy => parAfter_congr fun _ => hparent k y hy)
    (h.chained.congr fun m hm => hparent m.oldKey m.folderid (h.pending m hm).2.2.2)
    (fun m hm => ?_) h.snapshot
  · unfold State.setTree
    dsimp only
    rcases eq_or_ne T' T with rfl | hT
    · rw [update_self]
      exact isTree_delete (h.tree T') hre hleaf
    · rw [update_of_ne hT]
      exact h.tree T'
  · have hc := (h.tracks k).coherent e he
    rw [treeOf_setTree]
    split_ifs with hk
    · subst hk
      rw [hp]
      rcases eq_or_ne e.1 f with hef | hef
      · rw [hef, update_self]
        exact .inr rfl
      · rw [update_of_ne hef]
        exact hc
    · exact hc
  · obtain ⟨h1, h2, h3, h4⟩ := h.pending m hm
    refine ⟨h1, h2, htree _ _ ?_ h3, h4⟩
    by_contra hno
    rw [not_or, not_not, not_not] at hno
    exact hnew m hm hno.2 hno.1

/-- A folder gets a parent, with caches that hold no other one for it. -/
theorem reparentRow {T : Table} {new : FolderId} {tree' : Forest FolderId}
    (hre : reparent (s.tree T) f (some new) = some tree') (hf : f ≠ 0)
    (hnew : InTree (s.tree T) new) (htree : s'.tree = update s.tree T tree')
    (hok : s'.failed = false) (hown : s'.own = s.own) (hsnap : s'.snapshot = s.snapshot)
    (hcr : s'.created = s.created)
    (htasks : ∀ k, (s'.tracker k).folderTasks = (s.tracker k).folderTasks)
    (hcache : ∀ k, ∀ e ∈ (s'.tracker k).parentCache,
      e ∈ (s.tracker k).parentCache ∧ (k.table = T → e.1 = f → e.2 = new))
    (hpar : ∀ k y, ((s.tracker k).folderTasks y).isSome → s'.par k y = s.par k y)
    (hchained : Chained s'.tree s'.pending)
    (hpend : ∀ m ∈ s'.pending, m ∈ s.pending ∨ (m.newKey = m.oldKey ∧ m.oldParent ≠ m.newParent ∧
      m.newParent = new ∧ m.oldKey.table = T ∧
      ((s.tracker m.oldKey).folderTasks m.folderid).isSome)) : Inv s' := by
  have hp := parent_reparent hre
  have hin : ∀ k y, InTree (s.treeOf k) y → InTree (s'.treeOf k) y := fun k y hy => by
    unfold State.treeOf
    rw [htree]
    rcases eq_or_ne k.table T with hk | hk
    · rw [hk, update_self]
      unfold State.treeOf at hy
      exact inTree_reparent hre (hk ▸ hy)
    · rwa [update_of_ne hk]
  refine h.retree hok hown htasks (fun i hi => ?_) (fun T' => ?_) (fun k e he => ?_)
    (fun k y hy => hin k y ((h.tracks k).entriesIn y hy)) hpar hchained (fun m hm => ?_)
    (fun d hd => h.snapshot d (hsnap ▸ hd))
  · -- The tracker of a sync without `sync_data_t` stays empty.
    have hempty := h.created i (hcr ▸ hi)
    have h1 := htasks (.sync i)
    have h2 : (s'.tracker (.sync i)).parentCache = [] :=
      eq_nil_iff_forall_not_mem.2 fun e he => by
        have := (hcache (.sync i) e he).1
        rw [hempty] at this
        exact not_mem_nil this
    rw [hempty] at h1
    exact Tracker.ext h1 h2
  · rw [htree]
    rcases eq_or_ne T' T with rfl | hT
    · rw [update_self]
      exact isTree_reparent (h.tree T') hre hf hnew
    · rw [update_of_ne hT]
      exact h.tree T'
  · obtain ⟨hmem, hnew'⟩ := hcache k e he
    have hc := (h.tracks k).coherent e hmem
    unfold State.treeOf at hc ⊢
    rw [htree]
    rcases eq_or_ne k.table T with hk | hk
    · rw [hk, update_self, hp]
      rcases eq_or_ne e.1 f with hef | hef
      · rw [hef, update_self, hnew' hk hef]
        exact .inl rfl
      · rw [update_of_ne hef]
        exact hk ▸ hc
    · rw [update_of_ne hk]
      exact hc
  · rcases hpend m hm with hm | ⟨h1, h2, h3, h4, h5⟩
    · obtain ⟨h1, h2, h3, h4⟩ := h.pending m hm
      exact ⟨h1, h2, hin _ _ h3, h4⟩
    · refine ⟨h1, h2, h3 ▸ hin _ _ ?_, h5⟩
      unfold State.treeOf
      exact h4 ▸ hnew

theorem createRow {T : Table} {new : FolderId} {tree' : Forest FolderId}
    (hre : reparent (s.tree T) f (some new) = some tree') (hf : f ≠ 0)
    (hnone : (s.tree T).parent f = none) (hnew : InTree (s.tree T) new)
    (hcache : ∀ k, k.table = T → ∀ e ∈ (s.tracker k).parentCache, e.1 = f → e.2 = new) :
    Inv (s.setTree T tree') := by
  have hp := parent_reparent hre
  have hparent : ∀ k y, ((s.tracker k).folderTasks y).isSome →
      ((s.setTree T tree').tree k.table).parent y = (s.tree k.table).parent y := fun k y hy => by
    unfold State.setTree
    dsimp only
    rcases eq_or_ne k.table T with rfl | hk
    · -- There was no entry for a folder that was not in the tree.
      have hne : y ≠ f := by
        rintro rfl
        rcases (h.tracks k).entriesIn y hy with h0 | h0
        · exact hf h0
        · unfold State.treeOf at h0
          simp [hnone] at h0
      rw [update_self, hp, update_of_ne hne]
    · rw [update_of_ne hk]
  exact h.reparentRow hre hf hnew rfl h.ok rfl rfl rfl (fun _ => rfl)
    (fun k e he => ⟨he, fun hk => hcache k hk e he⟩)
    (fun k y hy => parAfter_congr fun _ => hparent k y hy)
    (h.chained.congr fun m hm => hparent m.oldKey m.folderid (h.pending m hm).2.2.2)
    (fun m hm => .inl hm)

/-- A folder is moved: the move is pending when the folder has an entry. -/
theorem moveRow {old new : FolderId} {tree' : Forest FolderId}
    (hre : reparent (s.treeOf k) f (some new) = some tree')
    (hold : (s.treeOf k).parent f = some old) (hnew : InTree (s.treeOf k) new)
    (htree : s'.tree = update s.tree k.table tree')
    (hok : s'.failed = false) (hown : s'.own = s.own) (hsnap : s'.snapshot = s.snapshot)
    (hcr : s'.created = s.created)
    (htasks : ∀ k, (s'.tracker k).folderTasks = (s.tracker k).folderTasks)
    (hcache : ∀ k', ∀ e ∈ (s'.tracker k').parentCache,
      e ∈ (s.tracker k').parentCache ∧ (k'.table = k.table → e.1 = f → e.2 = new))
    (hother : ∀ k', k'.table = k.table → k' ≠ k → (s.tracker k').folderTasks f = none)
    (hpend : s'.pending = s.pending ∧ (((s.tracker k).folderTasks f).isSome → old = new) ∨
      s'.pending = s.pending ++ [⟨f, k, old, k, new⟩] ∧ old ≠ new ∧
        ((s.tracker k).folderTasks f).isSome) : Inv s' := by
  have hp := parent_reparent hre
  have hf : f ≠ 0 := by
    rintro rfl
    have hroot := (h.tree k.table).root
    unfold State.treeOf at hold
    rw [hroot] at hold
    exact absurd hold (by simp)
  -- Only the parent of the moved folder changes.
  have hparent : ∀ (k' : Key) y, ¬ (k'.table = k.table ∧ y = f) →
      (s'.tree k'.table).parent y = (s.tree k'.table).parent y := fun k' y hne => by
    rw [htree]
    rcases eq_or_ne k'.table k.table with hk | hk
    · rw [hk, update_self, hp, update_of_ne fun hy => hne ⟨hk, hy⟩]
      rfl
    · rw [update_of_ne hk]
  have hkey : ∀ (k' : Key) y, ((s.tracker k').folderTasks y).isSome → k'.table = k.table ∧ y = f →
      k' = k := fun k' y hy hk => by
    by_contra hne
    rw [hk.2, hother k' hk.1 hne] at hy
    exact absurd hy (by simp)
  rcases hpend with ⟨hpend, hsame⟩ | ⟨hpend, hne, hmark⟩
  · have hparent' : ∀ (k' : Key) y, ((s.tracker k').folderTasks y).isSome →
        (s'.tree k'.table).parent y = (s.tree k'.table).parent y := fun k' y hy => by
      by_cases hky : k'.table = k.table ∧ y = f
      · obtain rfl := hkey k' y hy hky
        obtain rfl := hky.2
        unfold State.treeOf at hold
        rw [htree, update_self, hp, update_self, hold, hsame hy]
      · exact hparent k' y hky
    refine h.reparentRow hre hf hnew htree hok hown hsnap hcr htasks hcache
      (fun k' y hy => ?_) ?_ (fun m hm => .inl (hpend ▸ hm))
    · unfold State.par
      rw [hpend]
      exact parAfter_congr fun _ => hparent' k' y hy
    · rw [hpend]
      exact h.chained.congr fun m hm => hparent' _ _ (h.pending m hm).2.2.2
  · refine h.reparentRow hre hf hnew htree hok hown hsnap hcr htasks hcache
      (fun k' y hy => ?_) ?_ (fun m hm => ?_)
    · unfold State.par
      rw [hpend]
      refine parAfter_append (fun hky => ?_) fun hky _ => hparent k' y fun hk => hky ?_
      · obtain ⟨rfl, rfl⟩ := hky
        exact hold
      · exact ⟨(hkey k' y hy hk).symm, hk.2.symm⟩
    · rw [hpend]
      refine h.chained.append ?_ hold fun m hm hne => hparent _ _ fun hk => hne ?_
      · dsimp only
        rw [htree, update_self, hp, update_self]
      · exact ⟨(hkey _ _ (h.pending m hm).2.2.2 hk).symm, hk.2.symm⟩
    · rw [hpend] at hm
      rcases mem_append.1 hm with hm | hm
      · exact .inl hm
      · obtain rfl := mem_singleton.1 hm
        exact .inr ⟨rfl, hne, rfl, rfl, hmark⟩

/-! ## The end of a transaction -/

theorem commitCallback {m : Move} {rest : List Move} (hp : s.pending = m :: rest)
    (hs : Sound s .commitCallback) :
    Inv (({ s with pending := rest } : State).movedCommit m) := by
  obtain ⟨hroom, hloses⟩ := hs m rest hp
  have hmem : m ∈ s.pending := hp ▸ mem_cons_self
  obtain ⟨hkey, hne, hin, hmark⟩ := h.pending m hmem
  have hchained := h.chained
  rw [hp] at hchained
  obtain ⟨f, k, P, k', Q⟩ := m
  obtain rfl : k' = k := hkey
  dsimp only at *
  -- The folder is counted under its new parent after the callback.
  have hparf : s.par k' f = some P := by
    unfold State.par
    rw [hp, parAfter, if_pos ⟨rfl, rfl⟩]
  have hpar' : parAfter s.tree rest k' = update (s.par k') f (some Q) := by
    funext y
    rcases eq_or_ne y f with rfl | hy
    · rw [update_self]
      exact hchained.1
    · unfold State.par
      rw [update_of_ne hy, hp, parAfter, if_neg fun hky => hy hky.2.symm]
  obtain ⟨t₁, heq1, hc1, hcoh1, hfits1, hin1, hkeep1⟩ :=
    (h.tracks k').moveTo k'.cacheSize (h.tree k'.table) hparf hne hmark hin hroom
      (fun y hy => h.par_of_unmarked hy) hpar'
  have hP : parAfter s.tree rest k' f ≠ some P := by
    rw [hpar', update_self]
    exact fun hQ => hne (some_inj.1 hQ).symm
  obtain ⟨t₂, heq2, ht2, hkeep2⟩ := Tracks.moveFrom k'.cacheSize (h.tree k'.table) hc1 hcoh1 hfits1
    hin1 hP fun hft y hy => parAfter_of_notPending (hloses t₁ heq1 hft y hy)
  -- The state after the callback.
  have hstate : ({ s with pending := rest } : State).movedCommit ⟨f, k', P, k', Q⟩ =
      { ({ s with pending := rest } : State).create k' with
        tracker := update s.tracker k' t₂ } := by
    unfold State.movedCommit
    dsimp only [State.treeOf]
    rw [heq1]
    cases k' <;>
      simp [State.put, State.create, State.exists', h.ok, heq2]
  rw [hstate]
  have hpar : ∀ l, l ≠ k' → parAfter s.tree rest l = s.par l := fun l hl => by
    funext y
    unfold State.par
    rw [hp, parAfter, if_neg fun hky => hl hky.1.symm]
  have hkeep : ∀ y, ((s.tracker k').folderTasks y).isSome → ¬ NotPending rest k' y →
      (t₂.folderTasks y).isSome := fun y hy hpend =>
    (hkeep2 y (hkeep1 y hy)).resolve_right fun hl => hpend (hloses t₁ heq1 hl.1 y hl.2)
  refine ⟨?_, ?_, fun l => ?_, fun i hi => ?_, ?_, fun m hm => ?_, ?_⟩
  · cases k' <;> exact h.ok
  · cases k' <;> exact h.tree
  · have htracks : Tracks (s.treeOf l) (parAfter s.tree rest l) (s.own l)
        (update s.tracker k' t₂ l) := by
      rcases eq_or_ne l k' with rfl | hl
      · rw [update_self]
        exact ht2
      · rw [update_of_ne hl, hpar l hl]
        exact h.tracks l
    cases k' <;> exact htracks
  · have hi' : s.created i = false ∧ k' ≠ .sync i := by
      cases k' with
      | drive => exact ⟨hi, by simp⟩
      | sync j =>
        simp only [State.create, update_apply] at hi
        split_ifs at hi with hij
        exact ⟨hi, fun hk => hij (by cases hk; rfl)⟩
    have : update s.tracker k' t₂ (.sync i) = Tracker.empty := by
      rw [update_of_ne hi'.2.symm]
      exact h.created i hi'.1
    cases k' <;> exact this
  · cases k' <;> exact hchained.2
  · have hm' : m ∈ rest := by cases k' <;> exact hm
    obtain ⟨h1, h2, h3, h4⟩ := h.pending m (hp ▸ mem_cons_of_mem _ hm')
    have hmark' : ((update s.tracker k' t₂ m.oldKey).folderTasks m.folderid).isSome := by
      rcases eq_or_ne m.oldKey k' with hk | hk
      · rw [hk, update_self]
        exact hkeep _ (hk ▸ h4) fun hnp => hnp m hm' ⟨hk, rfl⟩
      · rwa [update_of_ne hk]
    cases k' <;> exact ⟨h1, h2, h3, hmark'⟩
  · cases k' <;> exact h.snapshot

/-- A rollback to tables in which the folders with entries have the parents under which they are
    counted, and no other ones are cached. -/
theorem rollback {d : Database} (hd : s.snapshot = some d) (hs : Sound s .rollbackTransaction)
    (hs' : s' = { s with
      tree := d.tree
      own := fun | .drive => s.own .drive | .sync i => d.tasks i
      pending := [], snapshot := none }) : Inv s' := by
  obtain ⟨htasks, hk⟩ := hs d hd
  have hown : s'.own = s.own := by
    subst hs'
    funext k
    cases k with
    | drive => rfl
    | sync i => exact htasks i
  subst hs'
  refine h.retree h.ok hown (fun _ => rfl) h.created (h.snapshot d hd) (fun k => (hk k).2)
    (fun k y hy => ?_) (fun k y hy => ((hk k).1 y hy).symm) trivial
    (forall_mem_nil _) (fun d' hd' => absurd hd' (by simp))
  -- A folder with an entry is counted under a parent, so that it has one again.
  rcases (h.tracks k).entriesIn y hy with h0 | h0
  · exact .inl h0
  · refine .inr ?_
    have hpar : (s.par k y).isSome := by
      unfold State.par
      generalize s.pending = pending
      induction pending with
      | nil => exact h0
      | cons m rest ih =>
        rw [parAfter]
        split_ifs
        · rfl
        · exact ih
    rw [(hk k).1 y hy] at hpar
    exact hpar

/-! ## Steps -/

theorem driveFolderChanged {changed : Bool}
    (hp : Proper s (.driveFolderChanged f changed)) (hs : Sound s (.driveFolderChanged f changed)) :
    Inv (s.driveFolderChanged f changed) := by
  cases changed with
  | true =>
    obtain ⟨t', heq, ht', hkeep⟩ := h.taskAdded (k := .drive) hp hs
    unfold State.driveFolderChanged
    dsimp only
    rw [if_pos rfl, heq]
    exact h.of_tracker rfl rfl h.ok rfl rfl rfl (fun i hi => ⟨hi, by simp⟩) ht' hkeep
  | false =>
    obtain ⟨t', heq, ht', hkeep⟩ := h.taskCompleted (k := .drive) false hs
    unfold State.driveFolderChanged
    dsimp only
    rw [if_neg (by simp), heq]
    exact h.of_tracker rfl rfl h.ok rfl rfl rfl (fun i hi => ⟨hi, by simp⟩) ht' hkeep

theorem syncFolderTaskAdded {i : SyncId} (hp : Proper s (.syncFolderTaskAdded i f))
    (hs : Sound s (.syncFolderTaskAdded i f)) : Inv (s.syncFolderTaskAdded i f) := by
  obtain ⟨t', heq, ht', hkeep⟩ := h.taskAdded (k := .sync i) hp hs
  unfold State.syncFolderTaskAdded
  rw [heq]
  refine h.of_tracker rfl rfl h.ok rfl rfl rfl (fun j hj => ?_) ht' hkeep
  have hj' : update s.created i true j = false := hj
  rcases eq_or_ne j i with rfl | hne
  · rw [update_self] at hj'
    exact absurd hj' (by decide)
  · rw [update_of_ne hne] at hj'
    exact ⟨hj', fun hk => hne (by cases hk; rfl)⟩

end

theorem setOwn_self {b : Bool} (hb : s.own k f = b) : s.setOwn k f b = s := by
  unfold State.setOwn
  have hown : update (s.own k) f b = s.own k := update_eq_self_iff.2 hb.symm
  rw [hown, update_eq_self]

/-- The folders of a sync without `sync_data_t` have no tasks. -/
theorem own_of_not_created {i : SyncId} (h : Inv s) (hi : s.created i = false) (f : FolderId) :
    s.own (.sync i) f = false := by
  refine (h.tracks (.sync i)).counts.own_eq_false ?_
  rw [h.created i hi]
  rfl

theorem created_of_true {i : SyncId} (h : ¬ s.created i = false) :
    ∀ j, s.created j = false → s.created j = false ∧ Key.sync i ≠ .sync j := fun j hj =>
  ⟨hj, fun hk => h (by cases hk; exact hj)⟩

theorem syncFolderTaskCompleted {i : SyncId} {left : Bool} (h : Inv s)
    (hleft : ¬ (left = true ∧ s.own (.sync i) f = false))
    (hs : Sound s (.syncFolderTaskCompleted i f left)) :
    Inv (s.syncFolderTaskCompleted i f left) := by
  unfold State.syncFolderTaskCompleted
  dsimp only
  split_ifs with hc
  · -- Nothing changes when tasks are left, or there never were any.
    have hown : s.own (.sync i) f = left := by
      rcases hc with rfl | hc
      · simpa using hleft
      · rw [h.own_of_not_created hc f] at hleft ⊢
        simpa using hleft
    rw [setOwn_self hown]
    exact h
  · rw [not_or, Bool.not_eq_true] at hc
    obtain ⟨rfl, hc⟩ := hc
    obtain ⟨t', heq, ht', hkeep⟩ := h.taskCompleted (k := .sync i) true (hs rfl)
    rw [heq]
    exact h.of_tracker rfl rfl h.ok rfl rfl rfl (created_of_true hc) ht' hkeep

theorem folderDeletedStep {tree : Forest FolderId} (h : Inv s)
    (hre : reparent (s.tree .folder) f none = some tree) (hp : Proper s (.folderDeleted f))
    (hs : Sound s (.folderDeleted f)) : Inv ((s.folderDeleted f).setTree .folder tree) := by
  obtain ⟨t', heq, ht', hnone, hkeep⟩ := h.folderDeleted (k := .drive) hs.1 hs.2.1
  unfold State.folderDeleted
  rw [heq]
  have h' : Inv ((s.setOwn .drive f false).put .drive (some t')) :=
    h.of_tracker rfl rfl h.ok rfl rfl rfl (fun i hi => ⟨hi, by simp⟩) ht' hkeep
  refine h'.deleteRow hre hp.2 (fun k hk => ?_) fun m hm hk => hs.2.2 m hm hk
  cases k with
  | drive => simpa [State.put] using hnone
  | sync i => exact absurd hk (by simp [Key.table])

theorem syncFolderDeletedStep {i : SyncId} {tree : Forest FolderId} (h : Inv s)
    (hre : reparent (s.tree .localfolder) f none = some tree)
    (hp : Proper s (.syncFolderDeleted i f)) (hs : Sound s (.syncFolderDeleted i f)) :
    Inv ((s.syncFolderDeleted i f).setTree .localfolder tree) := by
  obtain ⟨t', heq, ht', hnone, hkeep⟩ := h.folderDeleted (k := .sync i) hs.1 hs.2.1
  unfold State.syncFolderDeleted
  dsimp only
  split_ifs with hc
  · rw [setOwn_self (h.own_of_not_created hc f)]
    refine h.deleteRow hre hp.1.2 (fun k hk => ?_) fun m hm hk => hs.2.2 m hm hk
    cases k with
    | drive => exact absurd hk (by decide)
    | sync j =>
      rcases eq_or_ne j i with rfl | hne
      · rw [h.created j hc]
        rfl
      · exact hp.2 j hne
  · rw [heq]
    have h' : Inv ((s.setOwn (.sync i) f false).put (.sync i) (some t')) :=
      h.of_tracker rfl rfl h.ok rfl rfl rfl (created_of_true hc) ht' hkeep
    refine h'.deleteRow hre hp.1.2 (fun k hk => ?_) fun m hm hk => hs.2.2 m hm hk
    cases k with
    | drive => exact absurd hk (by decide)
    | sync j =>
      rcases eq_or_ne j i with rfl | hne
      · simpa [State.put] using hnone
      · have : (update s.tracker (.sync i) t' (.sync j)).folderTasks f = none := by
          rw [update_of_ne (by simpa using hne)]
          exact hp.2 j hne
        exact this

theorem eq_of_cached {e : FolderId × FolderId} {old : FolderId} (h : Inv s)
    (hold : (s.treeOf k).parent f = some old) (he : e ∈ (s.tracker k).parentCache)
    (hef : e.1 = f) : e.2 = old := by
  rcases (h.tracks k).coherent e he with hc | hc
  · rw [hef, hold] at hc
    exact (some_inj.1 hc).symm
  · rw [hef, hold] at hc
    exact absurd hc (by simp)

/-- The parent of a folder is deleted from one of the caches. -/
theorem del_spec (s : State) (k : Key) (f : FolderId) (k' : Key) :
    ((update s.tracker k ((s.tracker k).delFromParentCache f) k').folderTasks =
      (s.tracker k').folderTasks) ∧
    ∀ e ∈ (update s.tracker k ((s.tracker k).delFromParentCache f) k').parentCache,
      e ∈ (s.tracker k').parentCache ∧ (k' = k → e.1 ≠ f) := by
  rcases eq_or_ne k' k with rfl | hne
  · rw [update_self]
    refine ⟨rfl, fun e he => ?_⟩
    have he' := mem_filter.1 he
    exact ⟨he'.1, fun _ => by simpa using he'.2⟩
  · rw [update_of_ne hne]
    exact ⟨rfl, fun e he => ⟨he, fun hk => absurd hk hne⟩⟩

theorem folderMovedStep {old new : FolderId} {tree : Forest FolderId} (h : Inv s)
    (hold : (s.tree .folder).parent f = some old)
    (hre : reparent (s.tree .folder) f (some new) = some tree)
    (hp : Proper s (.folderMoved f new)) :
    Inv ((s.setTree .folder tree).folderMoved f old new) := by
  -- No other tracker uses this table.
  have hother : ∀ k', k'.table = Key.drive.table → k' ≠ .drive →
      (s.tracker k').folderTasks f = none := fun k' hk hne => by
    cases k' with
    | drive => exact absurd rfl hne
    | sync i => exact absurd hk (by simp [Key.table])
  unfold State.folderMoved
  split_ifs with heq
  · refine h.moveRow (k := .drive) hre hold hp rfl h.ok rfl rfl rfl (fun _ => rfl)
      (fun k' e he => ⟨he, fun hk hef => ?_⟩) hother (.inl ⟨rfl, fun _ => heq⟩)
    cases k' with
    | drive => exact (h.eq_of_cached (k := .drive) hold he hef).trans heq
    | sync i => exact absurd hk (by simp [Key.table])
  · have hcache : ∀ k', ∀ e ∈ (update s.tracker .drive
          ((s.tracker .drive).delFromParentCache f) k').parentCache,
        e ∈ (s.tracker k').parentCache ∧ (k'.table = Key.drive.table → e.1 = f → e.2 = new) :=
      fun k' e he => by
        obtain ⟨hmem, hne⟩ := (del_spec s .drive f k').2 e he
        refine ⟨hmem, fun hk hef => ?_⟩
        cases k' with
        | drive => exact absurd hef (hne rfl)
        | sync i => exact absurd hk (by simp [Key.table])
    have htasks := fun k' => (del_spec s .drive f k').1
    simp only [State.put, State.setTree, update_self]
    rcases hft : ((s.tracker .drive).delFromParentCache f).folderTasks f with _ | ft
    · have hnone : (s.tracker .drive).folderTasks f = none := hft
      exact h.moveRow (k := .drive) hre hold hp rfl h.ok rfl rfl rfl htasks hcache hother
        (.inl ⟨rfl, fun hs => by simp [hnone] at hs⟩)
    · have hsome : (s.tracker .drive).folderTasks f = some ft := hft
      exact h.moveRow (k := .drive) hre hold hp rfl h.ok rfl rfl rfl htasks hcache hother
        (.inr ⟨rfl, heq, by simp [hsome]⟩)

theorem syncFolderMovedStep {i j : SyncId} {old new : FolderId} {tree : Forest FolderId} (h : Inv s)
    (hold : (s.tree .localfolder).parent f = some old)
    (hre : reparent (s.tree .localfolder) f (some new) = some tree)
    (hp : Proper s (.syncFolderMoved f i j new)) (hs : Sound s (.syncFolderMoved f i j new)) :
    Inv ((s.setTree .localfolder tree).syncFolderMoved f i old j new) := by
  obtain ⟨hnew, hentry⟩ := hp
  obtain ⟨hdrive, hij, hcached⟩ := hs
  have hother : ∀ k', k'.table = (Key.sync i).table → k' ≠ .sync i →
      (s.tracker k').folderTasks f = none := fun k' hk hne => by
    cases k' with
    | drive => exact absurd hk (by simp [Key.table])
    | sync i' => exact hentry i' fun hi => hne (hi ▸ rfl)
  have hcacheOther : ∀ k', k' ≠ .sync i → ∀ e ∈ (s.tracker k').parentCache,
      k'.table = (Key.sync i).table → e.1 = f → e.2 = new := fun k' hne e he hk hef => by
    cases k' with
    | drive => exact absurd hk (by simp [Key.table])
    | sync i' => exact hcached i' (fun hi => hne (hi ▸ rfl)) e he hef
  unfold State.syncFolderMoved
  split_ifs with heq hc
  · refine h.moveRow (k := .sync i) hre hold hnew rfl h.ok rfl rfl rfl (fun _ => rfl)
      (fun k' e he => ⟨he, fun hk hef => ?_⟩) hother (.inl ⟨rfl, fun _ => heq.1⟩)
    rcases eq_or_ne k' (.sync i) with rfl | hne
    · exact (h.eq_of_cached (k := .sync i) hold he hef).trans heq.1
    · exact hcacheOther k' hne e he hk hef
  · -- A sync without `sync_data_t` has neither entries nor cached parents.
    have hempty := h.created i hc
    refine h.moveRow (k := .sync i) hre hold hnew rfl h.ok rfl rfl rfl (fun _ => rfl)
      (fun k' e he => ⟨he, fun hk hef => ?_⟩) hother
      (.inl ⟨rfl, fun hsome => by simp [hempty, Tracker.empty] at hsome⟩)
    rcases eq_or_ne k' (.sync i) with rfl | hne
    · have he' : e ∈ (s.tracker (.sync i)).parentCache := he
      rw [hempty] at he'
      exact absurd he' not_mem_nil
    · exact hcacheOther k' hne e he hk hef
  · have hcr : s.created i = true := by simpa [State.setTree] using hc
    have hcache : ∀ k', ∀ e ∈ (update s.tracker (.sync i)
          ((s.tracker (.sync i)).delFromParentCache f) k').parentCache,
        e ∈ (s.tracker k').parentCache ∧ (k'.table = (Key.sync i).table → e.1 = f → e.2 = new) :=
      fun k' e he => by
        obtain ⟨hmem, hne⟩ := (del_spec s (.sync i) f k').2 e he
        refine ⟨hmem, fun hk hef => ?_⟩
        rcases eq_or_ne k' (.sync i) with heq' | hk'
        · exact absurd hef (hne heq')
        · exact hcacheOther k' hk' e hmem hk hef
    have htasks := fun k' => (del_spec s (.sync i) f k').1
    simp only [State.put, State.setTree]
    rw [update_of_ne (by simp : Key.drive ≠ .sync i)]
    rcases hft : (s.tracker .drive).folderTasks f with _ | ft
    · refine h.moveRow (k := .sync i) hre hold hnew rfl h.ok rfl rfl rfl htasks hcache hother
        (.inl ⟨rfl, fun hsome => ?_⟩)
      simp [hdrive hcr, hft] at hsome
    · have hmark : ((s.tracker (.sync i)).folderTasks f).isSome := by simp [hdrive hcr, hft]
      obtain rfl := hij hmark
      exact h.moveRow (k := .sync i) hre hold hnew rfl h.ok rfl rfl rfl htasks hcache hother
        (.inr ⟨rfl, fun hon => heq ⟨hon, rfl⟩, hmark⟩)

theorem step {a : Action} (h : Inv s) (hp : Proper s a) (hs : Sound s a)
    (heq : step s a = some s') : Inv s' := by
  unfold PathStatus.step at heq
  rw [if_neg (by simp [h.ok])] at heq
  by_cases hc : s.committing = true
  · rw [if_pos hc] at heq
    rcases hpend : s.pending with _ | ⟨m, rest⟩
    · cases a <;> simp only [hpend, some_inj, reduceCtorEq] at heq
      subst heq
      refine h.retree h.ok rfl (fun _ => rfl) h.created h.tree (fun k => (h.tracks k).coherent)
        (fun k => (h.tracks k).entriesIn) (fun k y _ => ?_) trivial
        (forall_mem_nil _) (fun d hd => absurd hd (by simp))
      unfold State.par
      rw [hpend]
    · cases a <;> simp only [hpend, some_inj, reduceCtorEq] at heq
      subst heq
      exact h.commitCallback hpend hs
  rw [if_neg hc] at heq
  cases a with
  | driveFolderChanged f changed =>
    obtain ⟨⟩ := heq
    exact h.driveFolderChanged hp hs
  | folderMoved f new =>
    dsimp only at heq
    rcases hold : (s.tree .folder).parent f with _ | old
    · simp [hold] at heq
    · simp only [hold] at heq
      split_ifs at heq
      obtain ⟨tree, hre, rfl⟩ := map_eq_some_iff.1 heq
      exact h.folderMovedStep hold hre hp
  | folderDeleted f =>
    obtain ⟨tree, hre, rfl⟩ := map_eq_some_iff.1 heq
    exact h.folderDeletedStep hre hp hs
  | syncFolderTaskAdded i f =>
    obtain ⟨⟩ := heq
    exact h.syncFolderTaskAdded hp hs
  | syncFolderTaskCompleted i f left =>
    dsimp only at heq
    split_ifs at heq with hleft
    obtain ⟨⟩ := heq
    exact h.syncFolderTaskCompleted hleft hs
  | syncFolderMoved f i j new =>
    dsimp only at heq
    rcases hold : (s.tree .localfolder).parent f with _ | old
    · simp [hold] at heq
    · simp only [hold] at heq
      split_ifs at heq
      obtain ⟨tree, hre, rfl⟩ := map_eq_some_iff.1 heq
      exact h.syncFolderMovedStep hold hre hp hs
  | syncFolderDeleted i f =>
    obtain ⟨tree, hre, rfl⟩ := map_eq_some_iff.1 heq
    exact h.syncFolderDeletedStep hre hp hs
  | folderCreated T f parent =>
    dsimp only at heq
    split_ifs at heq with hf
    obtain ⟨tree, hre, rfl⟩ := map_eq_some_iff.1 heq
    rw [not_or] at hf
    exact h.createRow hre hf.1 (by simpa using hf.2) hp hs
  | startTransaction =>
    dsimp only at heq
    split_ifs at heq
    obtain ⟨⟩ := heq
    refine h.retree h.ok rfl (fun _ => rfl) h.created h.tree (fun k => (h.tracks k).coherent)
      (fun k => (h.tracks k).entriesIn) (fun _ _ _ => rfl) h.chained h.pending fun d hd T => ?_
    obtain ⟨⟩ := hd
    exact h.tree T
  | commitTransaction =>
    dsimp only at heq
    split_ifs at heq
    obtain ⟨⟩ := heq
    exact h.retree h.ok rfl (fun _ => rfl) h.created h.tree (fun k => (h.tracks k).coherent)
      (fun k => (h.tracks k).entriesIn) (fun _ _ _ => rfl) h.chained h.pending h.snapshot
  | commitCallback | commitEnd => simp at heq
  | rollbackTransaction =>
    obtain ⟨d, hd, rfl⟩ := map_eq_some_iff.1 heq
    exact h.rollback hd hs rfl

end Inv

end Pclsync.PathStatus
