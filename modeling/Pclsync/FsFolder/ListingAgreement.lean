import Pclsync.FsFolder.Listing
import Pclsync.FsFolder.Resolvers
import Pclsync.FsTasks.Orderly

/-!
# The listing of a folder and its children

`psync_fs_readdir` goes through sets of names, `psync_fs_getattr` asks for one name after another.
Where the pending changes are orderly (`Folder.Orderly`), both find the same records:

* `Drive.getattrAt_eq_ok_iff`: the four kinds of records which `psync_fs_getattr` finds, with what
  keeps the ones before from being found.
* `Drive.mem_children`: the same for the children that `psync_fs_readdir` goes through.
* `Drive.mem_children_iff`: in a folder whose names are in order (`Drive.Clean`), they are the same
  records; and no two of them have the same name (`Drive.nodup_children`).

`Drive.readdir_matches` says it of the names as they are shown.
-/

namespace Pclsync.FsFolder

open List

/-! ## Records found by name -/

/-- Among records without equal names, the one with a name is found. -/
theorem find?_eq_some_of_nodup {α β : Type} {l : List α} {φ : α → β} {p q : α → Bool} {x : α}
    (hn : ((l.filter p).map φ).Nodup) (hq : ∀ y, q y = true ↔ p y = true ∧ φ y = φ x)
    (hx : x ∈ l) (hp : p x = true) : l.find? q = some x := by
  have hsome : (l.find? q).isSome := find?_isSome.2 ⟨x, hx, (hq x).2 ⟨hp, rfl⟩⟩
  obtain ⟨y, hy⟩ := Option.isSome_iff_exists.1 hsome
  obtain ⟨hpy, hφ⟩ := (hq y).1 (find?_some hy)
  have hmem : y ∈ l.filter p := mem_filter.2 ⟨mem_of_find?_eq_some hy, hpy⟩
  rw [hy, inj_on_of_nodup_map hn hmem (mem_filter.2 ⟨hx, hp⟩) hφ]

namespace Drive

section
variable {e : Name} {x : Option Folder} {τ : Type} [TaskRecord τ] {K : TaskTree τ}

theorem has_eq : has x K e = (x.bind fun f => f.find K e 0).isSome := by
  cases x <;> rfl

theorem has_iff (hK : ∀ f, x = some f → Ordered (K.get f)) :
    has x K e = true ↔ ∃ f, x = some f ∧ ∃ t ∈ (K.get f).toList, TaskRecord.name t = e := by
  rw [has_eq]
  cases x with
  | none => simp
  | some f =>
    rw [Option.bind_some, Folder.find, searchTree_zero_isSome (hK f rfl)]
    simp

theorem mem_of_find {k : ℕ} {t : τ} (h : (x.bind fun f => f.find K e 0) = some (k, t)) :
    ∃ f, x = some f ∧ t ∈ (K.get f).toList ∧ TaskRecord.name t = e := by
  obtain ⟨f, rfl, hf⟩ := Option.bind_eq_some_iff.1 h
  exact ⟨f, rfl, name_of_searchTree_zero hf⟩

/-- In a tree without equal names, a record is found by its name. -/
theorem find_of_mem {f : Folder} {t : τ} (hK : Increasing (K.get f)) (ht : t ∈ (K.get f).toList) :
    ∃ k, ((some f).bind fun f => f.find K (TaskRecord.name t) 0) = some (k, t) := by
  obtain ⟨k, hk, -⟩ := searchTree_of_mem hK ht (.inl rfl)
  exact ⟨k, hk⟩

end

variable (d : Drive) (s : State)

/-! ## The names in a folder -/

/-- A pending folder has the name, or one of the database which is not removed. -/
def FolderNamed (id : ℤ) (e : Name) : Prop :=
  has (s.getFolderTasksRdlocked id) .mkdirs e = true ∨
    has (s.getFolderTasksRdlocked id) .rmdirs e = false ∧ (d.folderRow id e).isSome

/-- A pending file has the name, or one of the database which is not deleted. -/
def FileNamed (id : ℤ) (e : Name) : Prop :=
  has (s.getFolderTasksRdlocked id) .creats e = true ∨
    has (s.getFolderTasksRdlocked id) .unlinks e = false ∧ (d.fileRow id e).isSome

/-- A name that a user can ask for. -/
def IsName (n : Name) : Prop := n ≠ [] ∧ 47 ∉ n ∧ n ≠ [46] ∧ n ≠ [46, 46]

instance (n : Name) : Decidable (IsName n) := inferInstanceAs (Decidable (_ ∧ _ ∧ _ ∧ _))

/-- The path of a child of a folder. -/
def childPath (dir : List UInt8) (n : Name) : List UInt8 :=
  if dir = [47] then 47 :: n else dir ++ 47 :: n

/-- What is listed of a folder: nothing when `psync_fs_readdir` fails. -/
def listed (dir : List UInt8) : List (Name × Option Stat) :=
  match d.readdir s dir with
  | .ok l => l
  | .error _ => []

/-- What is listed of a folder is what is found in it. -/
structure Matches (dir : List UInt8) : Prop where
  nodup : ((d.listed s dir).map Prod.fst).Nodup
  found : ∀ n, IsName n → (n ∈ (d.listed s dir).map Prod.fst ↔
    ∃ st, d.getattr s (childPath dir n) = .ok st)
  kind : ∀ n st st', IsName n → (n, some st) ∈ d.listed s dir →
    d.getattr s (childPath dir n) = .ok st' → st.isDir = st'.isDir

/-- The names in a folder are in order: the database gives none to two folders or to two files, none
    is both that of a folder and of a file, all are short enough and can be shown, and a name is
    stored as the one which is shown as it. -/
structure Clean (w : Place) : Prop where
  decoder : w.flags &&& encryptedFlag ≠ 0 → d.decoderError w.cfolderid = none
  parents : (∀ r ∈ d.folder, 0 ≤ r.parentfolderid) ∧ ∀ r ∈ d.file, 0 ≤ r.parentfolderid
  folders : ((d.folder.filter fun r => r.parentfolderid = w.cfolderid).map FolderRow.name).Nodup
  files : ((d.file.filter fun r => r.parentfolderid = w.cfolderid).map FileRow.name).Nodup
  kinds : ∀ e, ¬ (d.FolderNamed s w.cfolderid e ∧ d.FileNamed s w.cfolderid e)
  made : ∀ r ∈ d.file, r.parentfolderid = w.cfolderid → d.fakePrefix.isPrefixOf r.name = false
  short : ∀ e, d.FolderNamed s w.cfolderid e ∨ d.FileNamed s w.cfolderid e →
    e ≠ [] ∧ e.length ≤ maxAcceptableFilenameLen
  shown : ∀ e, d.FolderNamed s w.cfolderid e ∨ d.FileNamed s w.cfolderid e →
    ∃ n, d.shown w e = some n ∧ IsName n
  stored : ∀ e n, d.FolderNamed s w.cfolderid e ∨ d.FileNamed s w.cfolderid e → IsName n →
    (d.storedName w n = .ok e ↔ d.shown w e = some n)

variable {d s} {id : ℤ} {e : Name} {st : Stat} {w : Place}

/-! ## `psync_fs_getattr` -/

theorem creatToFileStat_eq {cr : Creat} (h : d.creatToFileStat cr = some st) : st = .creat cr := by
  rw [creatToFileStat] at h
  split_ifs at h <;> cases h <;> rfl

/-- The records which `psync_fs_getattr` finds. -/
theorem getattrAt_eq_ok_iff : d.getattrAt s id e = .ok st ↔
    (∃ k mk, ((s.getFolderTasksRdlocked id).bind fun f => f.find .mkdirs e 0) = some (k, mk) ∧
      mk.flags &&& invisibleFlag = 0 ∧ st = .mkdir mk) ∨
    (has (s.getFolderTasksRdlocked id) .mkdirs e = false ∧
      has (s.getFolderTasksRdlocked id) .rmdirs e = false ∧
      ∃ r, d.folderRow id e = some r ∧ st = .folderRow r) ∨
    (¬ d.FolderNamed s id e ∧ has (s.getFolderTasksRdlocked id) .unlinks e = false ∧
      ∃ r, d.fileRow id e = some r ∧ st = .fileRow r) ∨
    (¬ d.FolderNamed s id e ∧
      ¬ (has (s.getFolderTasksRdlocked id) .unlinks e = false ∧ (d.fileRow id e).isSome) ∧
      ∃ k cr, ((s.getFolderTasksRdlocked id).bind fun f => f.find .creats e 0) = some (k, cr) ∧
        d.creatToFileStat cr = some st) := by
  rw [getattrAt, FolderNamed, @has_eq e (s.getFolderTasksRdlocked id) Mkdir _ .mkdirs]
  cases (s.getFolderTasksRdlocked id).bind fun f => f.find .mkdirs e 0 with
  | some x =>
    obtain ⟨k, mk⟩ := x
    by_cases hv : mk.flags &&& invisibleFlag = 0
    · simpa [hv] using eq_comm
    · simp [hv]
  | none =>
    cases has (s.getFolderTasksRdlocked id) .rmdirs e <;> cases d.folderRow id e
    case false.some r => simpa using eq_comm
    all_goals
      cases has (s.getFolderTasksRdlocked id) .unlinks e <;> cases d.fileRow id e
      case false.some r => simpa using eq_comm
      all_goals
        cases (s.getFolderTasksRdlocked id).bind fun f => f.find .creats e 0 with
        | none => simp
        | some x =>
          obtain ⟨k, cr⟩ := x
          cases hst : d.creatToFileStat cr <;> simp [hst]

/-! ## `psync_fs_readdir` -/

/-- The children which `psync_fs_readdir` goes through. -/
theorem mem_children : (e, st) ∈ d.children s id ↔
    (∃ r ∈ d.listFolderRows (s.getFolderTasksRdlocked id) id, 0 ≤ id ∧ r.name = e ∧
      st = .folderRow r) ∨
    (∃ r ∈ d.listFileRows (s.getFolderTasksRdlocked id) id, 0 ≤ id ∧ r.name = e ∧
      st = .fileRow r) ∨
    (∃ f, s.getFolderTasksRdlocked id = some f ∧ ∃ mk ∈ listMkdirs f, mk.name = e ∧
      st = .mkdir mk) ∨
    (∃ f, s.getFolderTasksRdlocked id = some f ∧ ∃ cr ∈ d.listCreats f, cr.name = e ∧
      st = .creat cr) := by
  rw [children]
  cases s.getFolderTasksRdlocked id <;> by_cases hid : 0 ≤ id <;> simp [hid, eq_comm]

theorem mem_listFolderRows {x : Option Folder} {r : FolderRow} : r ∈ d.listFolderRows x id ↔
    r ∈ d.folder ∧ r.parentfolderid = id ∧ r.name.length ≤ maxAcceptableFilenameLen ∧
      r.name ≠ [] ∧ has x .rmdirs r.name = false ∧ has x .mkdirs r.name = false := by
  simp [listFolderRows]

theorem mem_listFileRows {x : Option Folder} {r : FileRow} : r ∈ d.listFileRows x id ↔
    r ∈ d.file ∧ r.parentfolderid = id ∧ r.name.length ≤ maxAcceptableFilenameLen ∧
      r.name ≠ [] ∧ has x .unlinks r.name = false := by
  simp [listFileRows]

theorem mem_listMkdirs {f : Folder} {mk : Mkdir} : mk ∈ listMkdirs f ↔
    mk ∈ f.mkdirs.toList ∧ mk.name.length ≤ maxAcceptableFilenameLen ∧
      mk.flags &&& invisibleFlag = 0 := by
  simp [listMkdirs]

theorem mem_listCreats {f : Folder} {cr : Creat} : cr ∈ d.listCreats f ↔
    cr ∈ f.creats.toList ∧ cr.name.length ≤ maxAcceptableFilenameLen ∧
      d.creatToFileStat cr = some (.creat cr) := by
  rw [listCreats, mem_filter, decide_eq_true_iff]
  refine and_congr_right fun _ => and_congr_right fun _ => ⟨fun h => ?_, fun h => by rw [h]; rfl⟩
  obtain ⟨st, hst⟩ := Option.isSome_iff_exists.1 h
  rw [hst, creatToFileStat_eq hst]

theorem folderRow_eq_some {r : FolderRow} (h : d.folderRow id e = some r) :
    r ∈ d.folder ∧ r.parentfolderid = id ∧ r.name = e :=
  ⟨mem_of_find?_eq_some h, by simpa using find?_some h⟩

theorem fileRow_eq_some {r : FileRow} (h : d.fileRow id e = some r) :
    r ∈ d.file ∧ r.parentfolderid = id ∧ r.name = e :=
  ⟨mem_of_find?_eq_some h, by simpa using find?_some h⟩

theorem Clean.folderRow_of_mem (h : d.Clean s w) {r : FolderRow} (hr : r ∈ d.folder)
    (hp : r.parentfolderid = w.cfolderid) : d.folderRow w.cfolderid r.name = some r :=
  find?_eq_some_of_nodup h.folders (by simp) hr (by simpa using hp)

theorem Clean.fileRow_of_mem (h : d.Clean s w) {r : FileRow} (hr : r ∈ d.file)
    (hp : r.parentfolderid = w.cfolderid) : d.fileRow w.cfolderid r.name = some r :=
  find?_eq_some_of_nodup h.files (by simp) hr (by simpa using hp)

/-! ## The same records -/

/-- The folder object of the folder, if there is one, is orderly. -/
def OrderlyAt (d : Drive) (s : State) (id : ℤ) : Prop :=
  ∀ f, s.getFolderTasksRdlocked id = some f → f.Orderly d.fakePrefix

theorem OrderlyAt.has_mkdirs (h : OrderlyAt d s id) :
    has (s.getFolderTasksRdlocked id) .mkdirs e = true ↔
      ∃ f, s.getFolderTasksRdlocked id = some f ∧ ∃ mk ∈ f.mkdirs.toList, mk.name = e :=
  has_iff fun f hf => (h f hf).mkdirs.ordered

theorem OrderlyAt.has_creats (h : OrderlyAt d s id) :
    has (s.getFolderTasksRdlocked id) .creats e = true ↔
      ∃ f, s.getFolderTasksRdlocked id = some f ∧ ∃ cr ∈ f.creats.toList, cr.name = e :=
  has_iff fun f hf => (h f hf).creats.ordered

theorem OrderlyAt.has_unlinks (h : OrderlyAt d s id) :
    has (s.getFolderTasksRdlocked id) .unlinks e = true ↔
      ∃ f, s.getFolderTasksRdlocked id = some f ∧ ∃ un ∈ f.unlinks.toList, un.name = e :=
  has_iff fun f hf => (h f hf).unlinks

/-- A row of the database with the name of a pending file is deleted. -/
theorem Clean.row_deleted (h : d.Clean s w) (ho : OrderlyAt d s w.cfolderid) {f : Folder}
    {cr : Creat} (hf : s.getFolderTasksRdlocked w.cfolderid = some f) (hcr : cr ∈ f.creats.toList) :
    ¬ (has (s.getFolderTasksRdlocked w.cfolderid) .unlinks cr.name = false ∧
      (d.fileRow w.cfolderid cr.name).isSome) := by
  rintro ⟨hun, hrow⟩
  rcases (ho f hf).covered cr hcr with hfake | ⟨un, hmem, hname, -⟩
  · obtain ⟨r, hr⟩ := Option.isSome_iff_exists.1 hrow
    obtain ⟨hr, hp, hn⟩ := fileRow_eq_some hr
    have hmade := h.made r hr hp
    rw [hn, hfake] at hmade
    cases hmade
  · rw [ho.has_unlinks.2 ⟨f, hf, un, hmem, hname⟩] at hun
    cases hun

/-- The children are the records which `psync_fs_getattr` finds. -/
theorem mem_children_iff (h : d.Clean s w) (ho : OrderlyAt d s w.cfolderid) :
    (e, st) ∈ d.children s w.cfolderid ↔ d.getattrAt s w.cfolderid e = .ok st := by
  rw [mem_children, getattrAt_eq_ok_iff]
  constructor
  · rintro (⟨r, hr, -, rfl, rfl⟩ | ⟨r, hr, -, rfl, rfl⟩ | ⟨f, hf, mk, hmk, rfl, rfl⟩ |
      ⟨f, hf, cr, hcr, rfl, rfl⟩)
    · obtain ⟨hr, hp, -, -, hrm, hmk⟩ := mem_listFolderRows.1 hr
      exact .inr (.inl ⟨hmk, hrm, r, h.folderRow_of_mem hr hp, rfl⟩)
    · obtain ⟨hr, hp, -, -, hun⟩ := mem_listFileRows.1 hr
      have hrow := h.fileRow_of_mem hr hp
      have hnamed : d.FileNamed s w.cfolderid r.name := .inr ⟨hun, by rw [hrow]; rfl⟩
      exact .inr (.inr (.inl ⟨fun hdir => h.kinds _ ⟨hdir, hnamed⟩, hun, r, hrow, rfl⟩))
    · obtain ⟨hmk, -, hvis⟩ := mem_listMkdirs.1 hmk
      obtain ⟨k, hk⟩ := @find_of_mem Mkdir _ .mkdirs f mk (ho f hf).mkdirs hmk
      rw [hf]
      exact .inl ⟨k, mk, hk, hvis, rfl⟩
    · obtain ⟨hcr, -, hst⟩ := mem_listCreats.1 hcr
      have hnamed : d.FileNamed s w.cfolderid cr.name :=
        .inl (ho.has_creats.2 ⟨f, hf, cr, hcr, rfl⟩)
      have hrow := h.row_deleted ho hf hcr
      obtain ⟨k, hk⟩ := @find_of_mem Creat _ .creats f cr (ho f hf).creats hcr
      refine .inr (.inr (.inr ⟨fun hdir => h.kinds _ ⟨hdir, hnamed⟩, hrow, k, cr, ?_, hst⟩))
      rw [hf]
      exact hk
  · rintro (⟨k, mk, hk, hvis, rfl⟩ | ⟨hmk, hrm, r, hr, rfl⟩ | ⟨hdir, hun, r, hr, rfl⟩ |
      ⟨hdir, hrow, k, cr, hk, hst⟩)
    · obtain ⟨f, hf, hmk, hn⟩ := mem_of_find hk
      have hnamed : d.FolderNamed s w.cfolderid e := .inl (ho.has_mkdirs.2 ⟨f, hf, mk, hmk, hn⟩)
      have hlen := (h.short e (.inl hnamed)).2
      obtain rfl : mk.name = e := hn
      exact .inr (.inr (.inl ⟨f, hf, mk, mem_listMkdirs.2 ⟨hmk, hlen, hvis⟩, rfl, rfl⟩))
    · have hnamed : d.FolderNamed s w.cfolderid e := .inr ⟨hrm, by rw [hr]; rfl⟩
      obtain ⟨hne, hlen⟩ := h.short e (.inl hnamed)
      obtain ⟨hmem, hp, rfl⟩ := folderRow_eq_some hr
      exact .inl ⟨r, mem_listFolderRows.2 ⟨hmem, hp, hlen, hne, hrm, hmk⟩,
        hp ▸ h.parents.1 r hmem, rfl, rfl⟩
    · have hnamed : d.FileNamed s w.cfolderid e := .inr ⟨hun, by rw [hr]; rfl⟩
      obtain ⟨hne, hlen⟩ := h.short e (.inr hnamed)
      obtain ⟨hmem, hp, rfl⟩ := fileRow_eq_some hr
      exact .inr (.inl ⟨r, mem_listFileRows.2 ⟨hmem, hp, hlen, hne, hun⟩,
        hp ▸ h.parents.2 r hmem, rfl, rfl⟩)
    · obtain ⟨f, hf, hcr, hn⟩ := mem_of_find hk
      have hnamed : d.FileNamed s w.cfolderid e := .inl (ho.has_creats.2 ⟨f, hf, cr, hcr, hn⟩)
      have hlen := (h.short e (.inr hnamed)).2
      obtain rfl : cr.name = e := hn
      obtain rfl := creatToFileStat_eq hst
      exact .inr (.inr (.inr ⟨f, hf, cr, mem_listCreats.2 ⟨hcr, hlen, hst⟩, rfl, rfl⟩))

/-! ## Names listed once -/

theorem nodup_pairs {α : Type} {l : List α} {φ : α → Name} {σ : α → Stat}
    (h : (l.map φ).Nodup) : (l.map fun x => (φ x, σ x)).Nodup := by
  refine Nodup.of_map Prod.fst ?_
  rwa [map_map]

theorem nodup_names {τ : Type} [TaskRecord τ] {t : Tree τ} (h : Increasing t) (p : τ → Bool) :
    ((t.toList.filter p).map TaskRecord.name).Nodup := by
  refine Nodup.sublist (filter_sublist.map _) (h.imp fun {n m} hlt => ?_)
  rintro rfl
  cases (Std.ReflCmp.compare_self : compare n n = .eq).symm.trans hlt

theorem nodup_children (h : d.Clean s w) (ho : OrderlyAt d s w.cfolderid) :
    ((d.children s w.cfolderid).map Prod.fst).Nodup := by
  -- a name belongs to one record, so that it is enough that no record comes twice
  refine Nodup.map_on (fun c hc c' hc' heq => ?_) ?_
  · obtain ⟨e, st⟩ := c
    obtain ⟨e', st'⟩ := c'
    obtain rfl : e = e' := heq
    rw [mem_children_iff h ho] at hc hc'
    rw [Except.ok.inj (hc.symm.trans hc')]
  rw [children]
  refine Nodup.append ?_ ?_ ?_
  · split
    · refine Nodup.append (nodup_pairs ?_) (nodup_pairs ?_) ?_
      · exact h.folders.sublist ((monotone_filter_right _ (by simp; tauto)).map _)
      · exact h.files.sublist ((monotone_filter_right _ (by simp; tauto)).map _)
      · intro c hc hc'
        obtain ⟨r, -, rfl⟩ := mem_map.1 hc
        obtain ⟨r', -, heq⟩ := mem_map.1 hc'
        cases congrArg Prod.snd heq
    · exact nodup_nil
  · split
    · next f hf =>
      refine Nodup.append (nodup_pairs ?_) (nodup_pairs ?_) ?_
      · exact nodup_names (ho f hf).mkdirs _
      · exact nodup_names (ho f hf).creats _
      · intro c hc hc'
        obtain ⟨mk, -, rfl⟩ := mem_map.1 hc
        obtain ⟨cr, -, heq⟩ := mem_map.1 hc'
        cases congrArg Prod.snd heq
    · exact nodup_nil
  -- rows of the database and pending changes
  · rintro ⟨e, st⟩ hc hc'
    split at hc <;> split at hc'
    · rcases mem_append.1 hc with hc | hc <;> rcases mem_append.1 hc' with hc' | hc'
      all_goals
        obtain ⟨x, -, heq⟩ := mem_map.1 hc
        obtain ⟨y, -, heq'⟩ := mem_map.1 hc'
        cases (congrArg Prod.snd heq).trans (congrArg Prod.snd heq').symm
    all_goals simp at hc hc'

/-! ## Paths of children -/

section
variable {dir : List UInt8} {n : Name}

theorem head?_childPath (hp : dir.head? = some 47) : (childPath dir n).head? = some 47 := by
  rw [childPath]
  split
  · rfl
  · cases dir with
    | nil => cases hp
    | cons c dir => exact hp

theorem lastName_childPath (hn : 47 ∉ n) : lastName (childPath dir n) = n := by
  rw [childPath]
  split
  · exact @lastName_append [] n hn
  · exact lastName_append hn

theorem folderNames_childPath (hn : 47 ∉ n) : folderNames (childPath dir n) = components dir := by
  rw [childPath]
  split
  · next hdir =>
    rw [folderNames, ← nil_append (47 :: n), parts_append hn, dropLast_concat, hdir]
    rfl
  · rw [folderNames, parts_append hn, dropLast_concat, components]

end

/-! ## Names as they are shown -/

variable {dir : List UInt8} {n : Name} {cs : List Crossed}

theorem named_of_getattrAt (ho : OrderlyAt d s id) (h : d.getattrAt s id e = .ok st) :
    d.FolderNamed s id e ∨ d.FileNamed s id e := by
  rcases getattrAt_eq_ok_iff.1 h with ⟨k, mk, hk, -, -⟩ | ⟨-, hrm, r, hr, -⟩ |
    ⟨-, hun, r, hr, -⟩ | ⟨-, -, k, cr, hk, -⟩
  · obtain ⟨f, hf, hmk, hn⟩ := mem_of_find hk
    exact .inl (.inl (ho.has_mkdirs.2 ⟨f, hf, mk, hmk, hn⟩))
  · exact .inl (.inr ⟨hrm, by rw [hr]; rfl⟩)
  · exact .inr (.inr ⟨hun, by rw [hr]; rfl⟩)
  · obtain ⟨f, hf, hcr, hn⟩ := mem_of_find hk
    exact .inr (.inl (ho.has_creats.2 ⟨f, hf, cr, hcr, hn⟩))

/-- The children which are found: stored in the folder reached through visible folders. -/
theorem getattr_childPath (hp : dir.head? = some 47) (hn : IsName n) :
    d.getattr s (childPath dir n) = .ok st ↔ d.waitingforlogin = false ∧
      ∃ cs, d.crossed s ⟨0, 0⟩ (components dir) = .ok cs ∧ (∀ c ∈ cs, c.Visible) ∧
        ∃ e, d.storedName (lastPlace ⟨0, 0⟩ cs) n = .ok e ∧
          d.getattrAt s (lastPlace ⟨0, 0⟩ cs).cfolderid e = .ok st := by
  obtain ⟨hne, hslash, -, -⟩ := hn
  have hlast : lastName (childPath dir n) = n := lastName_childPath hslash
  have hnames : folderNames (childPath dir n) = components dir := folderNames_childPath hslash
  have hroot : childPath dir n ≠ [47] := by
    intro h
    rw [h] at hlast
    exact hne hlast.symm
  rw [getattr, if_neg hroot]
  cases d.waitingforlogin with
  | true => simp
  | false =>
    rw [if_neg Bool.false_ne_true, and_iff_right rfl]
    constructor
    · intro h
      split at h
      · cases h
      · next fpath hr =>
        obtain ⟨cs, e, hroute, hpath⟩ := Tables.resolvePath_eq_ok_iff.1 hr
        have hcs := hroute.crossed
        have he := hroute.stored
        rw [hnames] at hcs
        rw [hlast] at he
        rw [(Tables.resolvePath_place hpath).1] at h
        have hname : fpath.name = e := by rw [hpath, Tables.Walk.fspath]
        rw [hname] at h
        exact ⟨cs, hcs, hroute.visible, e, he, h⟩
    · rintro ⟨cs, hcs, hv, e, he, hst⟩
      have hroute : d.Route s (childPath dir n) cs e := by
        refine ⟨head?_childPath hp, ?_, hv, ?_, ?_⟩
        · rwa [hnames]
        · rwa [hlast]
        · rwa [hlast]
      rw [Tables.resolvePath_eq_ok_iff.2 ⟨cs, e, hroute, rfl⟩]
      dsimp only
      rw [(Tables.resolvePath_place rfl).1, Tables.Walk.fspath]
      exact hst

/-- What is listed: the children of the folder reached, under the names shown. -/
theorem listed_eq (hp : dir.head? = some 47) (hlogin : d.waitingforlogin = false)
    (hcs : d.crossed s ⟨0, 0⟩ (components dir) = .ok cs) (h : d.Clean s (lastPlace ⟨0, 0⟩ cs)) :
    d.listed s dir = dots (lastPlace ⟨0, 0⟩ cs).cfolderid ++
      (d.children s (lastPlace ⟨0, 0⟩ cs).cfolderid).filterMap fun c =>
        (d.shown (lastPlace ⟨0, 0⟩ cs) c.1).map fun n => (n, some c.2) := by
  have hdec : (if (lastPlace ⟨0, 0⟩ cs).flags &&& encryptedFlag ≠ 0 then
      d.decoderError (lastPlace ⟨0, 0⟩ cs).cfolderid else none) = none := by
    split
    · next hflag => exact h.decoder hflag
    · rfl
  rw [listed, readdir, hlogin, if_neg Bool.false_ne_true, Tables.folderidByPath_eq hp, hcs]
  dsimp only [Except.map]
  rw [hdec]

/-- Nothing is listed of a folder which is not reached. -/
theorem listed_eq_nil (hp : dir.head? = some 47) (h : d.waitingforlogin = true ∨
    ∃ code, d.crossed s ⟨0, 0⟩ (components dir) = .error code) : d.listed s dir = [] := by
  rw [listed, readdir]
  rcases h with hlogin | ⟨code, hcs⟩
  · rw [hlogin, if_pos rfl]
  · split
    · next l hl =>
      rw [Tables.folderidByPath_eq hp, hcs] at hl
      split at hl <;> cases hl
    · rfl

theorem not_isName_of_mem_dots {x : Option Stat} (h : (n, x) ∈ dots id) :
    x = none ∧ ¬ IsName n := by
  have hn : x = none ∧ (n = [46] ∨ n = [46, 46]) := by
    rw [dots] at h
    split at h <;> simp at h <;> tauto
  refine ⟨hn.1, fun ⟨_, _, h46, h4646⟩ => ?_⟩
  exact hn.2.elim h46 h4646

theorem not_isName_of_mem_listed (h : (n, none) ∈ d.listed s dir) : ¬ IsName n := by
  rw [listed] at h
  split at h
  · next l hl =>
    rw [readdir] at hl
    split at hl
    · cases hl
    · split at hl
      · cases hl
      · split at hl
        · cases hl
        · cases hl
          rcases mem_append.1 h with h | h
          · exact (not_isName_of_mem_dots h).2
          · obtain ⟨c, -, hc⟩ := mem_filterMap.1 h
            obtain ⟨m, -, ⟨⟩⟩ := Option.map_eq_some_iff.1 hc
  · cases h

theorem nodup_dots : ((dots id).map Prod.fst).Nodup := by
  rw [dots]
  split <;> simp

/-- A name and the record with it are listed if and only if the child is found to be the record. -/
theorem mem_listed_iff (hp : dir.head? = some 47) (hn : IsName n)
    (hc : ∀ cs, d.crossed s ⟨0, 0⟩ (components dir) = .ok cs → (∀ c ∈ cs, c.Visible) ∧
      d.Clean s (lastPlace ⟨0, 0⟩ cs) ∧ OrderlyAt d s (lastPlace ⟨0, 0⟩ cs).cfolderid) :
    (n, some st) ∈ d.listed s dir ↔ d.getattr s (childPath dir n) = .ok st := by
  rw [getattr_childPath hp hn]
  cases hlogin : d.waitingforlogin with
  | true => simp [listed_eq_nil hp (.inl hlogin)]
  | false =>
    rw [and_iff_right rfl]
    cases hcs : d.crossed s ⟨0, 0⟩ (components dir) with
    | error code => simp [listed_eq_nil hp (.inr ⟨code, hcs⟩)]
    | ok cs =>
      obtain ⟨hv, hclean, ho⟩ := hc cs hcs
      rw [listed_eq hp hlogin hcs hclean, mem_append, mem_filterMap]
      constructor
      · rintro (hdot | ⟨⟨e, st'⟩, hmem, hshown⟩)
        · cases (not_isName_of_mem_dots hdot).1
        · obtain ⟨n', hn', ⟨⟩⟩ := Option.map_eq_some_iff.1 hshown
          have hfound := (mem_children_iff hclean ho).1 hmem
          exact ⟨cs, rfl, hv, e, (hclean.stored e n (named_of_getattrAt ho hfound) hn).2 hn',
            hfound⟩
      · rintro ⟨cs', hcs', -, e, he, hfound⟩
        cases hcs'
        have hshown := (hclean.stored e n (named_of_getattrAt ho hfound) hn).1 he
        exact .inr ⟨(e, st), (mem_children_iff hclean ho).2 hfound, by rw [hshown]; rfl⟩

/-- The name under which a child is shown tells how it is stored. -/
theorem stored_of_shown (h : d.Clean s w) (ho : OrderlyAt d s w.cfolderid) {c : Name × Stat}
    (hc : c ∈ d.children s w.cfolderid) (hn : d.shown w c.1 = some n) :
    IsName n ∧ d.storedName w n = .ok c.1 := by
  have hnamed := named_of_getattrAt ho ((mem_children_iff h ho).1 hc)
  obtain ⟨m, hm, hname⟩ := h.shown c.1 hnamed
  obtain rfl : m = n := Option.some.inj (hm.symm.trans hn)
  exact ⟨hname, (h.stored c.1 m hnamed hname).2 hn⟩

theorem nodup_shown (h : d.Clean s w) (ho : OrderlyAt d s w.cfolderid) :
    ((d.children s w.cfolderid).filterMap fun c => d.shown w c.1).Nodup := by
  rw [Nodup, pairwise_filterMap]
  refine Pairwise.imp_of_mem ?_ (pairwise_map.1 (nodup_children h ho))
  rintro c c' hmem hmem' hne n hn _ hn' rfl
  have he := (stored_of_shown h ho hmem hn).2
  have he' := (stored_of_shown h ho hmem' hn').2
  exact hne (Except.ok.inj (he.symm.trans he'))

theorem nodup_listed (hp : dir.head? = some 47)
    (hc : ∀ cs, d.crossed s ⟨0, 0⟩ (components dir) = .ok cs →
      d.Clean s (lastPlace ⟨0, 0⟩ cs) ∧ OrderlyAt d s (lastPlace ⟨0, 0⟩ cs).cfolderid) :
    ((d.listed s dir).map Prod.fst).Nodup := by
  cases hlogin : d.waitingforlogin with
  | true =>
    rw [listed_eq_nil hp (.inl hlogin)]
    exact nodup_nil
  | false =>
    cases hcs : d.crossed s ⟨0, 0⟩ (components dir) with
    | error code =>
      rw [listed_eq_nil hp (.inr ⟨code, hcs⟩)]
      exact nodup_nil
    | ok cs =>
      obtain ⟨hclean, ho⟩ := hc cs hcs
      rw [listed_eq hp hlogin hcs hclean, map_append, map_filterMap]
      simp only [Option.map_map, Function.comp_def, Option.map_id']
      refine Nodup.append nodup_dots (nodup_shown hclean ho) fun n hdot hmem => ?_
      obtain ⟨⟨_, x⟩, hx, rfl⟩ := mem_map.1 hdot
      obtain ⟨c, hc, hshown⟩ := mem_filterMap.1 hmem
      exact (not_isName_of_mem_dots hx).2 (stored_of_shown hclean ho hc hshown).1

/-- What is listed of a folder is what is found in it, in every state reached by steps which keep
    the pending changes orderly: of a folder reached through visible folders, and whose names are in
    order. -/
theorem readdir_matches {S : System} {dir : List UInt8}
    (h : System.fsTasksMachine.Reachable (System.NamesOk d.fakePrefix) S)
    (hp : dir.head? = some 47)
    (hc : ∀ cs, d.crossed S.tasks ⟨0, 0⟩ (components dir) = .ok cs →
      (∀ c ∈ cs, c.Visible) ∧ d.Clean S.tasks (lastPlace ⟨0, 0⟩ cs)) :
    d.Matches S.tasks dir := by
  have ho : ∀ id, OrderlyAt d S.tasks id := fun id f hf =>
    (System.orderly_of_reachable h).folders f (State.getFolderTasksRdlocked_mem hf).1
  have hmem : ∀ n st, IsName n →
      ((n, some st) ∈ d.listed S.tasks dir ↔ d.getattr S.tasks (childPath dir n) = .ok st) :=
    fun n st hn => mem_listed_iff hp hn fun cs hcs => ⟨(hc cs hcs).1, (hc cs hcs).2, ho _⟩
  refine ⟨nodup_listed hp fun cs hcs => ⟨(hc cs hcs).2, ho _⟩, fun n hn => ?_,
    fun n st st' hn hl hst' => ?_⟩
  · rw [mem_map]
    constructor
    · rintro ⟨⟨n', x⟩, hx, rfl⟩
      cases x with
      | none => exact absurd hn (not_isName_of_mem_listed hx)
      | some st => exact ⟨st, (hmem n' st hn).1 hx⟩
    · rintro ⟨st, hst⟩
      exact ⟨(n, some st), (hmem n st hn).2 hst, rfl⟩
  · rw [Except.ok.inj (((hmem n st hn).1 hl).symm.trans hst')]

/-- A drive with one file in its root. -/
def oneFile (name : Name) : Drive :=
  { Tables.emptyTables with
    file := [{ id := 1, parentfolderid := 0, name := name }]
    waitingforlogin := false
    fakeFileid := 0
    localStat := fun _ => false
    decoderError := fun _ => none
    decodeFilename := fun _ _ => none }

/-- The pending changes after `mkdir /c`. -/
def mkdirInRoot : State := (State.mkdir (System.emptyDatabase 1) 0 [99] 0 System.initial.tasks).2

theorem folderNamed_mkdirInRoot (h : (oneFile [98]).FolderNamed mkdirInRoot 0 e) : e = [99] := by
  rcases h with h | ⟨-, h⟩
  · rw [has_eq] at h
    obtain ⟨⟨k, mk⟩, hk⟩ := Option.isSome_iff_exists.1 h
    obtain ⟨f, hf, hmk, rfl⟩ := mem_of_find hk
    cases hf
    cases hmk with
    | head => rfl
    | tail _ hmk => cases hmk
  · cases h

theorem fileNamed_mkdirInRoot (h : (oneFile [98]).FileNamed mkdirInRoot 0 e) : e = [98] := by
  rcases h with h | ⟨-, h⟩
  · rw [has_eq] at h
    obtain ⟨⟨k, cr⟩, hk⟩ := Option.isSome_iff_exists.1 h
    obtain ⟨f, hf, hcr, rfl⟩ := mem_of_find hk
    cases hf
    cases hcr
  · obtain ⟨r, hr⟩ := Option.isSome_iff_exists.1 h
    obtain ⟨hmem, -, rfl⟩ := fileRow_eq_some hr
    rw [mem_singleton.1 hmem]

theorem clean_mkdirInRoot : (oneFile [98]).Clean mkdirInRoot ⟨0, 0⟩ where
  decoder _ := rfl
  parents := by decide
  folders := by decide
  files := by decide
  kinds e h := by
    cases (folderNamed_mkdirInRoot h.1).symm.trans (fileNamed_mkdirInRoot h.2)
  made := by decide
  short e h := by
    rcases h with h | h
    · obtain rfl := folderNamed_mkdirInRoot h
      decide
    · obtain rfl := fileNamed_mkdirInRoot h
      decide
  shown e h := by
    refine ⟨e, rfl, ?_⟩
    rcases h with h | h
    · obtain rfl := folderNamed_mkdirInRoot h
      decide
    · obtain rfl := fileNamed_mkdirInRoot h
      decide
  stored e n _ _ := ⟨fun h => congrArg some (Except.ok.inj h).symm, fun h =>
    congrArg Except.ok (Option.some.inj h).symm⟩

/-- A file and a pending folder. -/
theorem readdir_matches_mkdirInRoot : (oneFile [98]).Matches mkdirInRoot [47] := by
  have hreach : System.fsTasksMachine.Reachable (System.NamesOk (oneFile [98]).fakePrefix)
      ⟨mkdirInRoot, 0⟩ :=
    .step (a := .operation (.mkdir (System.emptyDatabase 1) 0 [99] 0)) (.init rfl) trivial rfl
  refine @readdir_matches (oneFile [98]) ⟨mkdirInRoot, 0⟩ [47] hreach rfl fun cs hcs => ?_
  cases hcs
  exact ⟨forall_mem_nil _, clean_mkdirInRoot⟩

/-- A file whose name is too long is found, but not listed. -/
theorem not_matches_of_long (hn : IsName n) (hlen : maxAcceptableFilenameLen < n.length) :
    ¬ (oneFile n).Matches System.initial.tasks [47] := by
  intro h
  have hfolder : System.initial.tasks.getFolderTasksRdlocked 0 = none := rfl
  have hrow : (oneFile n).fileRow 0 n = some { id := 1, parentfolderid := 0, name := n } := by
    simp [fileRow, oneFile]
  have hfound : (oneFile n).getattr System.initial.tasks (childPath [47] n) =
      .ok (.fileRow { id := 1, parentfolderid := 0, name := n }) := by
    refine (getattr_childPath rfl hn).2
      ⟨rfl, [], rfl, forall_mem_nil _, n, rfl, ?_⟩
    refine getattrAt_eq_ok_iff.2 (.inr (.inr (.inl ⟨?_, rfl, _, hrow, rfl⟩)))
    rintro (hmk | ⟨-, hdir⟩)
    · cases hmk
    · cases hdir
  obtain ⟨⟨m, x⟩, hx, hm⟩ := mem_map.1 ((h.found n hn).2 ⟨_, hfound⟩)
  rw [show m = n from hm] at hx
  cases x with
  | none => exact not_isName_of_mem_listed hx hn
  | some st =>
    -- the only row is left out
    have hnone : (oneFile n).children System.initial.tasks 0 = [] := by
      simp [children, hfolder, listFolderRows, listFileRows, oneFile, Tables.emptyTables, hlen]
    have hl : (oneFile n).listed System.initial.tasks [47] = [([46], none)] := by
      change dots 0 ++ ((oneFile n).children System.initial.tasks 0).filterMap _ = _
      rw [hnone]
      rfl
    rw [hl] at hx
    cases mem_singleton.1 hx

theorem isName_replicate {k : ℕ} (hk : 2 < k) : IsName (replicate k 97) := by
  have hlen : (replicate k (97 : UInt8)).length = k := length_replicate
  refine ⟨fun h => ?_, fun hmem => ?_, fun h => ?_, fun h => ?_⟩
  case refine_2 => cases eq_of_mem_replicate hmem
  all_goals
    rw [h] at hlen
    subst hlen
    simp at hk

/-- A file of the database whose name is 256 bytes long. -/
theorem long_name_not_listed : ¬ ∀ (d : Drive) (S : System) (dir : List UInt8),
    System.fsTasksMachine.Reachable (fun _ _ => True) S → dir.head? = some 47 →
    d.Matches S.tasks dir := by
  intro h
  have hm := h (oneFile (replicate 256 97)) System.initial [47] (.init rfl) rfl
  refine not_matches_of_long (isName_replicate (by decide)) ?_ hm
  rw [length_replicate]
  decide

end Drive

end Pclsync.FsFolder
