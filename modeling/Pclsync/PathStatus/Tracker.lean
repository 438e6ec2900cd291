import Pclsync.MarkedForest

/-!
# Folders with tasks

The drive, and every sync, keeps a tree of the folders that have tasks or contain folders that do
(`folder_tasks`), and a cache of the parents that were looked up in the database. The functions of
both are copies of each other; they are modelled here for one such pair, with the size of its cache
and the table of parents as parameters.

* `Tracker.getParentFolder`: the parent of a folder, through the cache.
* `Tracker.markParents`, `Tracker.unmarkParents`: the walks up from a folder that got its entry, or
  lost it. A failed assertion, or a walk without end, is `none`.
* `Tracker.taskAdded`, `Tracker.taskCompleted`, `Tracker.folderDeleted`, `Tracker.moveTo`,
  `Tracker.moveFrom`: the functions built on them.
* `Tracker.Tracks`: the invariant, which each function keeps (`Tracks.taskAdded` and so on).
-/

namespace Pclsync.PathStatus

open Function Option List

abbrev FolderId := ℕ

/-- `folder_tasks_t`: `children` is `child_task_cnt` and `own` is `own_tasks`. -/
abbrev FolderTasks := Mark

/-- The folders with entries in `folder_tasks`, and the cached parents, from the least to the most
recently used. -/
@[ext]
structure Tracker where
  folderTasks : FolderId → Option FolderTasks
  parentCache : List (FolderId × FolderId)

namespace Tracker

def empty : Tracker := ⟨fun _ => none, []⟩

/-! ## The parent cache -/

section Code

variable (cacheSize : ℕ) (tree : Forest FolderId)

/-- `get_parent_folder`: `none` is `PSYNC_INVALID_FOLDERID`. A lookup that is not in the cache
    replaces its least recently used entry. -/
def getParentFolder (t : Tracker) (folderid : FolderId) : Option FolderId × Tracker :=
  if folderid = 0 then (none, t)
  else match t.parentCache.find? (·.1 = folderid) with
    | some p => (some p.2, { t with parentCache := t.parentCache.erase p ++ [p] })
    | none => match tree.parent folderid with
      | none => (none, t)
      | some p =>
        let rest := if t.parentCache.length < cacheSize then t.parentCache else t.parentCache.tail
        (some p, { t with parentCache := rest ++ [(folderid, p)] })

/-- `psync_path_status_del_from_parent_cache`. -/
def delFromParentCache (t : Tracker) (folderid : FolderId) : Tracker :=
  { t with parentCache := t.parentCache.filter (·.1 ≠ folderid) }

def setFolderTasks (t : Tracker) (folderid : FolderId) (ft : Option FolderTasks) : Tracker :=
  { t with folderTasks := update t.folderTasks folderid ft }

@[simp] theorem folderTasks_setFolderTasks (t : Tracker) (f : FolderId) (ft : Option FolderTasks) :
    (t.setFolderTasks f ft).folderTasks = update t.folderTasks f ft := rfl

/-- The entry of a folder, created if there is none, with its `child_task_cnt` incremented. -/
def incremented (t : Tracker) (folderid : FolderId) : FolderTasks :=
  let ft := (t.folderTasks folderid).getD ⟨0, false⟩
  { ft with children := (ft.children + 1) % 2 ^ 32 }

def decremented (ft : FolderTasks) : FolderTasks :=
  { ft with children := (ft.children + (2 ^ 32 - 1)) % 2 ^ 32 }

/-- A bound on the number of iterations of the walks that end. -/
def fuel : ℕ := tree.height * (cacheSize + 1) + 1

/-! ## Walks -/

/-- The loop up from a folder whose entry was created. -/
def markParents : ℕ → Tracker → FolderId → Option Tracker
  | 0, _, _ => none
  | n + 1, t, folderid =>
    let r := t.getParentFolder cacheSize tree folderid
    match r.1 with
    | none => some r.2
    | some p =>
      let ft := r.2.incremented p
      let t' := r.2.setFolderTasks p (some ft)
      if 1 < ft.children ∨ ft.own = true then some t' else markParents n t' p

/-- The loop up from a folder whose entry was freed: the result has the folder at which it stops.
    That of `psync_path_status_sync_folder_task_completed` also asserts that the count is not zero
    (`strict`). -/
def unmarkParents (strict : Bool) : ℕ → Tracker → FolderId → Option (Tracker × Option FolderId)
  | 0, _, _ => none
  | n + 1, t, folderid =>
    let r := t.getParentFolder cacheSize tree folderid
    match r.1 with
    | none => some (r.2, none)
    | some p => match r.2.folderTasks p with
      | none => none
      | some ft =>
        if strict = true ∧ ft.children = 0 then none
        else if (decremented ft).children ≠ 0 ∨ ft.own = true then
          some (r.2.setFolderTasks p (some (decremented ft)), some p)
        else unmarkParents strict n (r.2.setFolderTasks p none) p

/-! ## Functions -/

/-- A folder gets tasks: `psync_path_status_drive_folder_changed` when it has tasks, and
    `psync_path_status_sync_folder_task_added_locked`. -/
def taskAdded (t : Tracker) (folderid : FolderId) : Option Tracker :=
  match t.folderTasks folderid with
  | some ft =>
    if ft.own = true ∨ ft.children ≠ 0 then
      some (t.setFolderTasks folderid (some { ft with own := true }))
    else
      markParents cacheSize tree (fuel cacheSize tree)
        (t.setFolderTasks folderid (some { ft with own := true })) folderid
  | none =>
    markParents cacheSize tree (fuel cacheSize tree)
      (t.setFolderTasks folderid (some ⟨0, true⟩)) folderid

/-- A folder is left without tasks: `psync_path_status_drive_folder_changed` when it has none, and
    `psync_path_status_sync_folder_task_completed` (`strict`). The former asserts that an entry
    without children has own tasks. -/
def taskCompleted (strict : Bool) (t : Tracker) (folderid : FolderId) : Option Tracker :=
  match t.folderTasks folderid with
  | none => some t
  | some ft =>
    if ft.children ≠ 0 then some (t.setFolderTasks folderid (some { ft with own := false }))
    else if strict = false ∧ ft.own = false then none
    else (unmarkParents cacheSize tree strict (fuel cacheSize tree)
      (t.setFolderTasks folderid none) folderid).map Prod.fst

/-- `psync_path_status_folder_deleted` and `psync_path_status_sync_folder_deleted`: the variable
    with the id of the folder is the one of the loop, so that the parent that is deleted from the
    cache is that of the folder at which the loop stopped. -/
def folderDeleted (t : Tracker) (folderid : FolderId) : Option Tracker :=
  match t.folderTasks folderid with
  | none => some (t.delFromParentCache folderid)
  | some _ =>
    (unmarkParents cacheSize tree false (fuel cacheSize tree) (t.setFolderTasks folderid none)
      folderid).map fun r => match r.2 with
        | none => r.1
        | some p => r.1.delFromParentCache p

/-- The first half of `folder_moved` and of `sync_folder_moved`: the new parent gets a child with
    an entry. -/
def moveTo (t : Tracker) (parent : FolderId) : Option Tracker :=
  let ft := t.incremented parent
  let t' := t.setFolderTasks parent (some ft)
  if ft.children = 1 ∧ ft.own = false then
    markParents cacheSize tree (fuel cacheSize tree) t' parent
  else some t'

/-- Their second half: the old parent loses a child with an entry. -/
def moveFrom (t : Tracker) (parent : FolderId) : Option Tracker :=
  match t.folderTasks parent with
  | none => none
  | some ft =>
    if (decremented ft).children = 0 ∧ ft.own = false then
      (unmarkParents cacheSize tree false (fuel cacheSize tree) (t.setFolderTasks parent none)
        parent).map Prod.fst
    else some (t.setFolderTasks parent (some (decremented ft)))

end Code

/-! ## The parent cache holds the parents of the database -/

section Invariant

variable (cacheSize : ℕ) {tree : Forest FolderId} {t : Tracker} {f x p : FolderId}

/-- The folders of a tree: the root, and those that have a parent. -/
def InTree (tree : Forest FolderId) (f : FolderId) : Prop := f = 0 ∨ (tree.parent f).isSome

/-- A tree of folders: the root has no parent, and all parents are in the tree. -/
structure IsTree (tree : Forest FolderId) : Prop where
  root : tree.parent 0 = none
  closed : ∀ f p, tree.parent f = some p → InTree tree p

/-- The cached parents of folders that are in the table are their parents. -/
def Coherent (tree : Forest FolderId) (t : Tracker) : Prop :=
  ∀ e ∈ t.parentCache, tree.parent e.1 = some e.2 ∨ tree.parent e.1 = none

theorem Coherent.sublist {t' : Tracker} (h : Coherent tree t)
    (hs : ∀ e ∈ t'.parentCache, e ∈ t.parentCache) : Coherent tree t' := fun e he => h e (hs e he)

theorem Coherent.delFromParentCache (h : Coherent tree t) :
    Coherent tree (t.delFromParentCache f) :=
  h.sublist fun _ he => (mem_filter.1 he).1

/-- Looking up the parent of a folder of the tree gives the parent in the database, and changes
    nothing but the cache. -/
theorem getParentFolder_spec (ht : IsTree tree) (hc : Coherent tree t) (hf : InTree tree f) :
    (t.getParentFolder cacheSize tree f).1 = tree.parent f ∧
      (t.getParentFolder cacheSize tree f).2.folderTasks = t.folderTasks ∧
      Coherent tree (t.getParentFolder cacheSize tree f).2 := by
  unfold getParentFolder
  rcases eq_or_ne f 0 with rfl | h0
  · rw [if_pos rfl]
    exact ⟨ht.root.symm, rfl, hc⟩
  rw [if_neg h0]
  rcases hfind : t.parentCache.find? (·.1 = f) with _ | e
  · simp only [hfind]
    rcases hp : tree.parent f with _ | p
    · exact ⟨rfl, rfl, hc⟩
    · refine ⟨rfl, rfl, fun e he => ?_⟩
      rcases mem_append.1 he with he | he
      · refine hc e ?_
        split_ifs at he
        · exact he
        · exact mem_of_mem_tail he
      · obtain rfl := mem_singleton.1 he
        exact .inl hp
  · have hmem := mem_of_find?_eq_some hfind
    have hkey : e.1 = f := by simpa using find?_some hfind
    simp only [hfind]
    refine ⟨?_, trivial, fun e' he' => ?_⟩
    · -- A cached folder that is in the tree is not a deleted one.
      rcases hc e hmem with h | h
      · rw [← hkey, h]
      · rw [hkey] at h
        rcases hf with hf | hf
        · exact absurd hf h0
        · simp [h] at hf
    · rcases mem_append.1 he' with he' | he'
      · exact hc e' (mem_of_mem_erase he')
      · obtain rfl := mem_singleton.1 he'
        exact hc _ hmem

end Invariant

/-! ## What the walks do -/

section Walks

variable (cacheSize : ℕ) {n : ℕ} {tree : Forest FolderId} {t : Tracker} {f x : FolderId}
  {own : FolderId → Bool} {par : FolderId → Option FolderId} {J : FolderId → FolderId → Prop}

/-- The links from all folders with entries to their parents. -/
def Links (par : FolderId → Option FolderId) (t : Tracker) (c p : FolderId) : Prop :=
  par c = some p ∧ (t.folderTasks c).isSome

/-- The counts fit in 32 bits. -/
def Fits (t : Tracker) : Prop := ∀ f ft, t.folderTasks f = some ft → ft.children < 2 ^ 32

/-- No folder has as many subfolders with entries as can be counted. -/
def Room (t : Tracker) : Prop := ∀ f ft, t.folderTasks f = some ft → ft.children + 1 < 2 ^ 32

theorem Room.fits (h : Room t) : Fits t := fun f ft hf => Nat.lt_of_succ_lt (h f ft hf)

/-- All entries are of folders of the tree. -/
def EntriesIn (tree : Forest FolderId) (t : Tracker) : Prop :=
  ∀ f, (t.folderTasks f).isSome → InTree tree f

theorem incremented_eq (h : Room t) (p : FolderId) :
    t.incremented p = Mark.addChild (t.folderTasks p) := by
  rcases hp : t.folderTasks p with _ | ft
  · simp [incremented, Mark.addChild, hp]
  · simp only [incremented, Mark.addChild, hp, getD_some, Nat.mod_eq_of_lt (h p ft hp)]

theorem decremented_children {ft : FolderTasks} (h : ft.children < 2 ^ 32)
    (h' : 0 < ft.children) : (decremented ft).children = ft.children - 1 := by
  unfold decremented
  dsimp only
  omega

theorem dropChild_eq {ft : FolderTasks} (h : ft.children < 2 ^ 32) (h' : 0 < ft.children)
    (hne : ¬ (ft.children = 1 ∧ ft.own = false)) : ft.dropChild = some (decremented ft) := by
  rw [Mark.dropChild, if_neg hne]
  exact congrArg some (Mark.ext (decremented_children h h').symm rfl)

/-! ### One entry is changed -/

section Entry

variable {g : FolderId → Option FolderTasks} {k l : FolderTasks} {y : FolderId}

theorem isSome_update (hy : (g y).isSome) (f : FolderId) (k : FolderTasks) :
    (update g f (some k) y).isSome := by
  rcases eq_or_ne y f with rfl | hne
  · rw [update_self, isSome_some]
  · rwa [update_of_ne hne]

theorem isSome_update_eq (hf : (g f).isSome) (k : FolderTasks) (y : FolderId) :
    (update g f (some k) y).isSome = (g y).isSome := by
  rcases eq_or_ne y f with rfl | hne
  · rw [update_self, hf, isSome_some]
  · rw [update_of_ne hne]

theorem forall_update {P : FolderTasks → Prop} (hk : P k) (h : ∀ y l, g y = some l → P l)
    (y : FolderId) (l : FolderTasks) (hy : update g f (some k) y = some l) : P l := by
  rcases eq_or_ne y f with rfl | hne
  · rw [update_self, some_inj] at hy
    exact hy ▸ hk
  · rw [update_of_ne hne] at hy
    exact h y l hy

theorem eq_of_update_none (hy : update g f none y = some l) : g y = some l := by
  rcases eq_or_ne y f with rfl | hne
  · simp at hy
  · rwa [update_of_ne hne] at hy

theorem EntriesIn.setFolderTasks (h : EntriesIn tree t) (hf : InTree tree f) (k : FolderTasks) :
    EntriesIn tree (t.setFolderTasks f (some k)) := fun y hy => by
  rcases eq_or_ne y f with rfl | hne
  · exact hf
  · rw [folderTasks_setFolderTasks, update_of_ne hne] at hy
    exact h y hy

end Entry

/-- The invariant: the entries count all links of folders with entries, by the parents `par`. They
    are the parents in the tree, but for folders whose move is not committed. -/
structure Tracks (tree : Forest FolderId) (par : FolderId → Option FolderId)
    (own : FolderId → Bool) (t : Tracker) : Prop where
  counts : Counts own (Links par t) t.folderTasks
  coherent : Coherent tree t
  fits : Fits t
  entriesIn : EntriesIn tree t

/-- The entry of a folder is changed and stays. -/
theorem Tracks.of_setEntry {k : FolderTasks} (hf : (t.folderTasks f).isSome)
    (hk : k.children < 2 ^ 32) (hcoh : Coherent tree t) (hfits : Fits t) (hin : EntriesIn tree t)
    (hc : Counts own (Links par t) (update t.folderTasks f (some k))) :
    Tracks tree par own (t.setFolderTasks f (some k)) := by
  refine ⟨hc.congr fun c q => ?_, hcoh, forall_update hk hfits, hin.setFolderTasks (hin f hf) k⟩
  simp only [Links, folderTasks_setFolderTasks, isSome_update_eq hf]

/-! ### The walks -/

/-- The walk up from a folder `x` that gets an entry: the other links are counted, and after the
    walk all links are. -/
theorem markParents_spec {k : FolderTasks} (ht : IsTree tree) (hn : Ends tree.parent n x)
    (hx : InTree tree x) (hxs : t.folderTasks x = none) (hk : k.children + 1 < 2 ^ 32)
    (hc : Coherent tree t) (hroom : Room t) (hin : EntriesIn tree t)
    (hpar : ∀ y, t.folderTasks y = none → par y = tree.parent y)
    (hJ : ∀ c q, J c q → (t.folderTasks c).isSome)
    (h : Counts own (fun c q => Links par t c q ∨ J c q)
      (update t.folderTasks x (some k))) :
    ∃ t', markParents cacheSize tree n (t.setFolderTasks x (some k)) x = some t' ∧
      Counts own (fun c q => Links par t' c q ∨ J c q) t'.folderTasks ∧
      Coherent tree t' ∧ Fits t' ∧ EntriesIn tree t' ∧
      ∀ y, (t.folderTasks y).isSome → (t'.folderTasks y).isSome := by
  induction n generalizing x t k with
  | zero => exact hn.elim
  | succ n ih =>
    obtain ⟨hp, hft, hc'⟩ :=
      getParentFolder_spec cacheSize (t := t.setFolderTasks x (some k)) ht hc hx
    set r := (t.setFolderTasks x (some k)).getParentFolder cacheSize tree x with hr
    rw [folderTasks_setFolderTasks] at hft
    have hroom' : Room r.2 := by
      rw [Room, hft]
      exact forall_update hk hroom
    have hin' : EntriesIn tree r.2 := fun y hy => hin.setFolderTasks hx k y (by rwa [hft] at hy)
    have hmono : ∀ y, (t.folderTasks y).isSome → (r.2.folderTasks y).isSome := fun y hy =>
      hft ▸ isSome_update hy x k
    have hparx := hpar x hxs
    rw [← hft] at h
    rw [markParents]
    dsimp only
    rw [← hr]
    rcases hpx : tree.parent x with _ | p
    · -- The root has no link to count.
      rw [hpx] at hp
      simp only [hp]
      refine ⟨r.2, rfl, h.congr fun c q => or_congr_left ?_, hc', hroom'.fits, hin', hmono⟩
      rcases eq_or_ne c x with rfl | hcx
      · simp [Links, hxs, hparx, hpx]
      · simp [Links, hft, hcx]
    · rw [hpx] at hp
      simp only [hp]
      have hlinks : ∀ c q, Links par r.2 c q ↔ Links par t c q ∨ c = x ∧ q = p := fun c q => by
        rcases eq_or_ne c x with rfl | hcx
        · simp [Links, hft, hxs, hparx, hpx, eq_comm]
        · simp [Links, hft, hcx]
      have hcounts : Counts own (fun c q => Links par r.2 c q ∨ J c q)
          (update r.2.folderTasks p (some (r.2.incremented p))) := by
        rw [incremented_eq hroom']
        refine (h.add_link (x := x) (p := p) ?_).congr fun c q => by rw [hlinks, or_right_comm]
        rintro (hl | hl)
        · simp [Links, hxs] at hl
        · simpa [hxs] using hJ x p hl
      rcases hmark : r.2.folderTasks p with _ | ft
      · -- The parent gets its entry, and the walk goes on.
        have hnew : r.2.incremented p = ⟨1, false⟩ := by
          rw [incremented_eq hroom', hmark]
          rfl
        rw [hnew] at hcounts ⊢
        rw [if_neg (by simp)]
        have hpar' : ∀ y, r.2.folderTasks y = none → par y = tree.parent y := fun y hy =>
          hpar y (not_isSome_iff_eq_none.1 fun hs => by simpa [hy] using hmono y hs)
        obtain ⟨t', heq, h', hcoh, hfits, hin'', hmono'⟩ := ih (hn p hpx) (ht.closed x p hpx) hmark
          (by decide) hc' hroom' hin' hpar' (fun c q hl => hmono c (hJ c q hl)) hcounts
        exact ⟨t', heq, h', hcoh, hfits, hin'', fun y hy => hmono' y (hmono y hy)⟩
      · -- The parent had its entry, for another child or its own tasks.
        have hstop : 1 < (r.2.incremented p).children ∨ (r.2.incremented p).own = true := by
          rw [incremented_eq hroom', hmark]
          rcases Nat.eq_zero_or_pos ft.children with h0 | h0
          · exact .inr (show ft.own = true from h.own_of_children_eq_zero hmark h0)
          · exact .inl (Nat.succ_lt_succ h0)
        rw [if_pos hstop]
        refine ⟨_, rfl, hcounts.congr fun c q => ?_, hc',
          forall_update (Nat.mod_lt _ (by decide)) hroom'.fits,
          hin'.setFolderTasks (ht.closed x p hpx) _, fun y hy => isSome_update (hmono y hy) _ _⟩
        simp only [Links, folderTasks_setFolderTasks,
          isSome_update_eq (show (r.2.folderTasks p).isSome by rw [hmark]; rfl)]

/-- The folders that lose their entry with the folder `x`, from `x` up: those whose only child
    with an entry is one of them, and which have no own tasks. -/
inductive Loses (par : FolderId → Option FolderId) (t : Tracker) (x : FolderId) : FolderId → Prop
  | self : Loses par t x x
  | up {y p : FolderId} : Loses par t x y → par y = some p →
      t.folderTasks p = some ⟨1, false⟩ → Loses par t x p

theorem Loses.of_up {p y : FolderId} {t' : Tracker} (hp : par x = some p)
    (hm : t.folderTasks p = some ⟨1, false⟩)
    (ht' : ∀ z, t'.folderTasks z = some ⟨1, false⟩ → t.folderTasks z = some ⟨1, false⟩)
    (h : Loses par t' p y) : Loses par t x y := by
  induction h with
  | self => exact .up .self hp hm
  | up _ hpar hmark ih => exact .up ih hpar (ht' _ hmark)

/-- The walk up from a folder `x` that loses its entry: its link is still counted, and after the
    walk it is not. -/
theorem unmarkParents_spec (strict : Bool) (ht : IsTree tree) (hn : Ends tree.parent n x)
    (hxs : (t.folderTasks x).isSome) (hc : Coherent tree t) (hfits : Fits t)
    (hin : EntriesIn tree t) (hpar : ∀ y, Loses par t x y → par y = tree.parent y)
    (h : Counts own (Links par t) (update t.folderTasks x none)) :
    ∃ t' last, unmarkParents cacheSize tree strict n (t.setFolderTasks x none) x = some (t', last) ∧
      Tracks tree par own t' ∧
      (∀ y, (t'.folderTasks y).isSome → (update t.folderTasks x none y).isSome) ∧
      ∀ y, (t.folderTasks y).isSome → (t'.folderTasks y).isSome ∨ Loses par t x y := by
  induction n generalizing x t with
  | zero => exact hn.elim
  | succ n ih =>
    obtain ⟨hp, hft, hc'⟩ :=
      getParentFolder_spec cacheSize (t := t.setFolderTasks x none) ht hc (hin x hxs)
    set r := (t.setFolderTasks x none).getParentFolder cacheSize tree x with hr
    rw [folderTasks_setFolderTasks] at hft
    have hof : ∀ y k, r.2.folderTasks y = some k → t.folderTasks y = some k := fun y k hy =>
      eq_of_update_none (hft ▸ hy)
    have hin' : EntriesIn tree r.2 := fun y hy => by
      obtain ⟨k, hk⟩ := isSome_iff_exists.1 hy
      exact hin y (by rw [hof y k hk]; rfl)
    have hfits' : Fits r.2 := fun y k hy => hfits y k (hof y k hy)
    have hkeep : ∀ y, (t.folderTasks y).isSome → (r.2.folderTasks y).isSome ∨ Loses par t x y :=
      fun y hy => by
        rcases eq_or_ne y x with rfl | hne
        · exact .inr .self
        · exact .inl (by rwa [hft, update_of_ne hne])
    have hparx : par x = tree.parent x := hpar x .self
    rw [← hft] at h
    rw [unmarkParents, ← hr]
    rcases hpx : tree.parent x with _ | p
    · rw [hpx] at hp hparx
      simp only [hp]
      refine ⟨r.2, none, rfl, ⟨h.congr fun c q => ?_, hc', hfits', hin'⟩, fun y hy =>
        hft ▸ hy, hkeep⟩
      rcases eq_or_ne c x with rfl | hcx
      · simp [Links, hparx]
      · simp [Links, hft, hcx]
    · rw [hpx] at hp hparx
      simp only [hp]
      -- The link is counted, so that the parent has an entry for it.
      obtain ⟨ft, hmark, hpos, hcounts⟩ := h.remove_link (x := x) (p := p) ⟨hparx, hxs⟩
      replace hcounts : Counts own (Links par r.2) _ := hcounts.congr fun c q => by
        rcases eq_or_ne c x with rfl | hcx
        · simp only [Links, hft, hparx, update_self, isSome_none, some_inj]
          grind
        · simp [Links, hft, hcx]
      have hchildren := decremented_children (hfits' p ft hmark) hpos
      simp only [hmark]
      rw [if_neg fun hs => absurd hs.2 hpos.ne']
      by_cases hstop : (decremented ft).children ≠ 0 ∨ ft.own = true
      · rw [if_pos hstop]
        rw [dropChild_eq (hfits' p ft hmark) hpos fun h1 => by
          rcases hstop with h0 | h0
          · exact h0 (by rw [hchildren, h1.1])
          · exact absurd (h1.2.symm.trans h0) (by decide)] at hcounts
        have hsome : (r.2.folderTasks p).isSome := by rw [hmark]; rfl
        refine ⟨_, _, rfl, .of_setEntry hsome ?_ hc' hfits' hin' hcounts, fun y hy => ?_,
          fun y hy => (hkeep y hy).imp_left fun hy => isSome_update hy p _⟩
        · exact hchildren ▸ (Nat.sub_le ..).trans_lt (hfits' p ft hmark)
        · rw [folderTasks_setFolderTasks, isSome_update_eq hsome] at hy
          exact hft ▸ hy
      · -- The parent loses its entry, and the walk goes on.
        rw [if_neg hstop]
        rw [not_or, Ne, not_not, Bool.not_eq_true, hchildren] at hstop
        have hone : ft.children = 1 := by omega
        have hmark' : r.2.folderTasks p = some ⟨1, false⟩ := by
          rw [hmark, some_inj]
          exact Mark.ext hone hstop.2
        have hdrop : ft.dropChild = none := if_pos ⟨hone, hstop.2⟩
        rw [hdrop] at hcounts
        have hup : ∀ y, Loses par r.2 p y → Loses par t x y := fun y hy =>
          hy.of_up hparx (hof p _ hmark') fun z => hof z _
        obtain ⟨t', last, heq, h', hsub, hkeep'⟩ := ih (hn p hpx) (by rw [hmark]; rfl) hc' hfits'
          hin' (fun y hy => hpar y (hup y hy)) hcounts
        refine ⟨t', last, heq, h', fun y hy => ?_, fun y hy => ?_⟩
        · obtain ⟨k, hk⟩ := isSome_iff_exists.1 (hsub y hy)
          rw [← hft, eq_of_update_none hk]
          rfl
        · rcases hkeep y hy with hy | hl
          · exact (hkeep' y hy).imp_right (hup y)
          · exact .inr hl

end Walks

/-! ## The functions -/

namespace Tracks

variable (cacheSize : ℕ) {tree : Forest FolderId} {t : Tracker} {f : FolderId}
  {own : FolderId → Bool} {par : FolderId → Option FolderId}

theorem ends_fuel (cacheSize : ℕ) (tree : Forest FolderId) (x : FolderId) :
    Ends tree.parent (fuel cacheSize tree) x :=
  (tree.bounded x).mono ((Nat.le_mul_of_pos_right _ (Nat.succ_pos _)).trans (Nat.le_succ _))

theorem taskAdded (ht : IsTree tree) (h : Tracks tree par own t) (hf : InTree tree f)
    (hroom : Room t) (hpar : ∀ y, t.folderTasks y = none → par y = tree.parent y) :
    ∃ t', t.taskAdded cacheSize tree f = some t' ∧
      Tracks tree par (update own f true) t' ∧
      ∀ y, (t.folderTasks y).isSome → (t'.folderTasks y).isSome := by
  unfold Tracker.taskAdded
  rcases hft : t.folderTasks f with _ | ft
  · -- The folder gets an entry, the link of which is then counted.
    obtain ⟨t', heq, hc, hcoh, hfits, hin, hkeep⟩ :=
      markParents_spec cacheSize (J := fun _ _ => False) ht (ends_fuel cacheSize tree f) hf hft
        (by decide) h.coherent hroom h.entriesIn hpar (fun _ _ => False.elim)
        ((h.counts.add_own hft).congr fun c q => by simp)
    exact ⟨t', heq, ⟨hc.congr fun c q => by simp, hcoh, hfits, hin⟩, hkeep⟩
  · have hflag : ft.own = true ∨ ft.children ≠ 0 := by
      rcases Nat.eq_zero_or_pos ft.children with h0 | h0
      · exact .inl (h.counts.own_of_children_eq_zero hft h0)
      · exact .inr h0.ne'
    dsimp only
    rw [if_pos hflag]
    exact ⟨_, rfl, .of_setEntry (by rw [hft]; rfl) (h.fits f ft hft) h.coherent h.fits h.entriesIn
      (h.counts.set_own hft (.inl rfl)), fun y hy => isSome_update hy f _⟩

/-- A folder `f` that has no own tasks any more and no child with an entry loses its entry, and is
    not counted any more. -/
theorem unmark (strict : Bool) {ft : FolderTasks} (ht : IsTree tree) (h : Tracks tree par own t)
    (hft : t.folderTasks f = some ft) (h0 : ft.children = 0)
    (hpar : ∀ y, Loses par t f y → par y = tree.parent y) :
    ∃ t' last, unmarkParents cacheSize tree strict (fuel cacheSize tree)
        (t.setFolderTasks f none) f = some (t', last) ∧
      Tracks tree par (update own f false) t' ∧ t'.folderTasks f = none ∧
      ∀ y, (t.folderTasks y).isSome → (t'.folderTasks y).isSome ∨ Loses par t f y := by
  obtain ⟨t', last, heq, h', hsub, hkeep⟩ := unmarkParents_spec cacheSize strict ht
    (ends_fuel cacheSize tree f) (by rw [hft]; rfl) h.coherent h.fits h.entriesIn hpar
    (h.counts.remove_own hft h0)
  refine ⟨t', last, heq, h', not_isSome_iff_eq_none.1 fun hf => ?_, hkeep⟩
  simpa using hsub f hf

theorem taskCompleted (strict : Bool) (ht : IsTree tree) (h : Tracks tree par own t)
    (hpar : t.folderTasks f = some ⟨0, true⟩ → ∀ y, Loses par t f y → par y = tree.parent y) :
    ∃ t', t.taskCompleted cacheSize tree strict f = some t' ∧
      Tracks tree par (update own f false) t' ∧
      ∀ y, (t.folderTasks y).isSome → (t'.folderTasks y).isSome ∨
        t.folderTasks f = some ⟨0, true⟩ ∧ Loses par t f y := by
  unfold Tracker.taskCompleted
  rcases hft : t.folderTasks f with _ | ft
  · have hown : update own f false = own :=
      update_eq_self_iff.2 (h.counts.own_eq_false hft).symm
    exact ⟨t, rfl, hown.symm ▸ h, fun y hy => .inl hy⟩
  · dsimp only
    by_cases h0 : ft.children = 0
    · have hown : ft.own = true := h.counts.own_of_children_eq_zero hft h0
      have hft' : t.folderTasks f = some ⟨0, true⟩ := by
        rw [hft, some_inj]
        exact Mark.ext h0 hown
      rw [if_neg (not_not.2 h0), if_neg (by simp [hown])]
      obtain ⟨t', last, heq, h', -, hkeep⟩ := h.unmark cacheSize strict ht
        hft h0 (hpar hft')
      refine ⟨t', by rw [heq]; rfl, h', fun y hy => (hkeep y hy).imp_right fun hl => ⟨?_, hl⟩⟩
      rw [← hft, hft']
    · rw [if_pos h0]
      exact ⟨_, rfl, .of_setEntry (by rw [hft]; rfl) (h.fits f ft hft) h.coherent h.fits h.entriesIn
        (h.counts.set_own hft (.inr h0)), fun y hy => .inl (isSome_update hy f _)⟩

theorem delFromParentCache (h : Tracks tree par own t) :
    Tracks tree par own (t.delFromParentCache f) :=
  ⟨h.counts, h.coherent.delFromParentCache, h.fits, h.entriesIn⟩

/-- A folder without children with entries is deleted, with its tasks. -/
theorem folderDeleted (ht : IsTree tree) (h : Tracks tree par own t)
    (h0 : ∀ ft, t.folderTasks f = some ft → ft.children = 0)
    (hpar : (t.folderTasks f).isSome → ∀ y, Loses par t f y → par y = tree.parent y) :
    ∃ t', t.folderDeleted cacheSize tree f = some t' ∧
      Tracks tree par (update own f false) t' ∧ t'.folderTasks f = none ∧
      ∀ y, (t.folderTasks y).isSome → (t'.folderTasks y).isSome ∨
        (t.folderTasks f).isSome ∧ Loses par t f y := by
  unfold Tracker.folderDeleted
  rcases hft : t.folderTasks f with _ | ft
  · have hown : update own f false = own :=
      update_eq_self_iff.2 (h.counts.own_eq_false hft).symm
    exact ⟨_, rfl, hown.symm ▸ h.delFromParentCache, hft, fun y hy => .inl hy⟩
  · obtain ⟨t', last, heq, h', hnone, hkeep⟩ := h.unmark cacheSize false ht
      hft (h0 ft hft) (hpar (by simp [hft]))
    have hkeep' : ∀ y, (t.folderTasks y).isSome → (t'.folderTasks y).isSome ∨
        (some ft).isSome ∧ Loses par t f y := fun y hy =>
      (hkeep y hy).imp_right fun hl => ⟨rfl, hl⟩
    dsimp only
    rw [heq]
    cases last with
    | none => exact ⟨t', rfl, h', hnone, hkeep'⟩
    | some p => exact ⟨_, rfl, h'.delFromParentCache, hnone, hkeep'⟩

/-! ### Moves -/

variable {P Q : FolderId} {par' : FolderId → Option FolderId}

/-- The first half of a move of `f` from `P` to `Q`: the links to both are counted. -/
theorem moveTo (ht : IsTree tree) (h : Tracks tree par own t) (hP : par f = some P) (hPQ : P ≠ Q)
    (hf : (t.folderTasks f).isSome) (hQ : InTree tree Q) (hroom : Room t)
    (hpar : ∀ y, t.folderTasks y = none → par y = tree.parent y)
    (hpar' : par' = update par f (some Q)) :
    ∃ t', t.moveTo cacheSize tree Q = some t' ∧
      Counts own (fun c q => Links par' t' c q ∨ c = f ∧ q = P) t'.folderTasks ∧
      Coherent tree t' ∧ Fits t' ∧ EntriesIn tree t' ∧
      ∀ y, (t.folderTasks y).isSome → (t'.folderTasks y).isSome := by
  have hnl : ¬ Links par t f Q := fun hl => hPQ (some_inj.1 (hP.symm.trans hl.1))
  have hc := h.counts.add_link hnl
  have hinc := incremented_eq hroom Q
  rw [← hinc] at hc
  -- The links by the new parents are those by the old ones, but for that of `f`.
  replace hc : Counts own (fun c q => Links par' t c q ∨ c = f ∧ q = P) _ := hc.congr fun c q => by
    rw [hpar']
    rcases eq_or_ne c f with rfl | hne
    · simp [Links, hP, hf, eq_comm, or_comm]
    · simp [Links, hne]
  unfold Tracker.moveTo
  dsimp only
  rcases hmark : t.folderTasks Q with _ | ft
  · have hnew : t.incremented Q = ⟨1, false⟩ := by rw [hinc, hmark]; rfl
    rw [hnew] at hc ⊢
    rw [if_pos ⟨rfl, rfl⟩]
    have hpar'' : ∀ y, t.folderTasks y = none → par' y = tree.parent y := fun y hy => by
      have hyf : y ≠ f := by
        rintro rfl
        simp [hy] at hf
      rw [hpar', update_of_ne hyf]
      exact hpar y hy
    exact markParents_spec cacheSize (J := fun c q => c = f ∧ q = P) ht (ends_fuel cacheSize tree Q)
      hQ hmark (by decide) h.coherent hroom h.entriesIn hpar'' (fun c q hl => hl.1 ▸ hf) hc
  · have hflag : ¬ ((t.incremented Q).children = 1 ∧ (t.incremented Q).own = false) := by
      rw [hinc, hmark]
      rintro ⟨h1, h2⟩
      have h0 : ft.children = 0 := Nat.succ_injective h1
      have hown : ft.own = true := h.counts.own_of_children_eq_zero hmark h0
      exact absurd (h2.symm.trans hown) (by decide)
    rw [if_neg hflag]
    refine ⟨_, rfl, hc.congr fun c q => ?_, h.coherent,
      forall_update (Nat.mod_lt _ (by decide)) h.fits, h.entriesIn.setFolderTasks hQ _,
      fun y hy => isSome_update hy Q _⟩
    simp only [Links, folderTasks_setFolderTasks,
      isSome_update_eq (show (t.folderTasks Q).isSome by rw [hmark]; rfl)]

/-- Its second half: the link to the old parent is not counted any more. -/
theorem moveFrom (ht : IsTree tree)
    (hc : Counts own (fun c q => Links par' t c q ∨ c = f ∧ q = P) t.folderTasks)
    (hcoh : Coherent tree t) (hfits : Fits t) (hin : EntriesIn tree t) (hP : par' f ≠ some P)
    (hpar : t.folderTasks P = some ⟨1, false⟩ → ∀ y, Loses par' t P y → par' y = tree.parent y) :
    ∃ t', t.moveFrom cacheSize tree P = some t' ∧ Tracks tree par' own t' ∧
      ∀ y, (t.folderTasks y).isSome → (t'.folderTasks y).isSome ∨
        t.folderTasks P = some ⟨1, false⟩ ∧ Loses par' t P y := by
  obtain ⟨ft, hft, hpos, hdrop⟩ := hc.remove_link (x := f) (p := P) (.inr ⟨rfl, rfl⟩)
  replace hdrop : Counts own (Links par' t) _ := hdrop.congr fun c q => by
    rcases eq_or_ne c f with rfl | hne
    · rcases eq_or_ne q P with rfl | hq
      · simp [Links, hP]
      · simp [hq]
    · simp [hne]
  have hchildren := decremented_children (hfits P ft hft) hpos
  have hsome : (t.folderTasks P).isSome := by rw [hft]; rfl
  unfold Tracker.moveFrom
  simp only [hft]
  by_cases hlast : ft.children = 1 ∧ ft.own = false
  · have hft1 : some ft = some (⟨1, false⟩ : FolderTasks) :=
      congrArg some (Mark.ext hlast.1 hlast.2)
    have hnone : ft.dropChild = none := if_pos hlast
    rw [if_pos ⟨by rw [hchildren, hlast.1], hlast.2⟩]
    rw [hnone] at hdrop
    obtain ⟨t', last, heq, h', -, hkeep⟩ := unmarkParents_spec cacheSize false ht
      (ends_fuel cacheSize tree P) hsome hcoh hfits hin (hpar (hft.trans hft1)) hdrop
    exact ⟨t', by rw [heq]; rfl, h', fun y hy => (hkeep y hy).imp_right fun hl => ⟨hft1, hl⟩⟩
  · have hneg : ¬ ((decremented ft).children = 0 ∧ ft.own = false) := fun h0 =>
      hlast ⟨by omega, h0.2⟩
    rw [if_neg hneg]
    rw [dropChild_eq (hfits P ft hft) hpos hlast] at hdrop
    exact ⟨_, rfl, .of_setEntry hsome (hchildren ▸ (Nat.sub_le ..).trans_lt (hfits P ft hft)) hcoh
      hfits hin hdrop, fun y hy => .inl (isSome_update hy P _)⟩

end Tracks

end Tracker

end Pclsync.PathStatus
