import Pclsync.Localscan.Scanner

/-!
# What stays on the disk

`Survivors` are rows of folders and files of a sync, with every folder above them, whose entries on
the disk exist under the same parents and names during a run of the scanner, while other entries and
other rows change in any way.

* `Recorded`: the rows are where the survivors are. Deleting rows keeps this (`Recorded.shrink`),
  and so do the functions of the scanner, where what they rename is no survivor.
-/

namespace Pclsync.Localscan

open Option List

variable {Name : Type}

/-! ## Survivors -/

/-- A row of a folder or file, with the path of the folder it is in. -/
structure Survivor (Name : Type) where
  isfolder : Bool
  id : ℕ
  localparentfolderid : ℕ
  dir : List Name
  name : Name

/-- The type of its entry. -/
def Survivor.type (e : Survivor Name) : FileType := if e.isfolder then .directory else .regular

/-- Rows of a sync with all folders above them, up to the folder of the sync. -/
structure Survivors (Name : Type) where
  syncid : ℕ
  localpath : List Name
  entries : Set (Survivor Name)
  above : ∀ e ∈ entries, e.localparentfolderid = 0 ∧ e.dir = localpath ∨
    e.localparentfolderid ≠ 0 ∧ ∃ f ∈ entries, f.isfolder = true ∧ f.id = e.localparentfolderid ∧
      e.dir = f.dir ++ [f.name]

namespace Survivors

variable (S : Survivors Name)

/-- The ids of the survivors are theirs, and the rows are where the survivors are. -/
structure Recorded (db : Db Name) : Prop where
  syncs : ∀ r ∈ db.syncs, r.id = S.syncid → r.localpath = S.localpath
  folders_lt : ∀ e ∈ S.entries, e.isfolder = true → e.id < db.folders.next
  files_lt : ∀ e ∈ S.entries, e.isfolder = false → e.id < db.files.next
  folders : ∀ e ∈ S.entries, e.isfolder = true → ∀ r ∈ db.folders.rows, r.id = e.id →
    r.key = (S.syncid, e.localparentfolderid, e.name)
  files : ∀ e ∈ S.entries, e.isfolder = false → ∀ r ∈ db.files.rows, r.id = e.id →
    r.key = (S.syncid, e.localparentfolderid, e.name)

/-- The survivors exist on the disk: what is read of their folders has them, with their types. Other
threads leave their rows where they are. -/
def Exist (s : State Name) : Action Name → Prop
  | .scan (some dirents) _ => ∀ job ∈ s.jobs.head?, ∀ e ∈ S.entries, e.dir = job.localpath →
    (∃ stat, .entry e.name stat ∈ dirents) ∧
      ∀ st, .entry e.name (some st) ∈ dirents → st.type = e.type
  | .change db => S.Recorded db
  | _ => True

/-- An entry is read before an error, and its `lstat` succeeds and gives no path to ignore. -/
def Read (ignoredPaths : List (UInt64 × UInt64)) (dirents : List (Dirent Name)) (name : Name) :
    Prop :=
  ∃ before behind st, dirents = before ++ .entry name (some st) :: behind ∧ .error ∉ before ∧
    isPathToIgnore ignoredPaths st.dev st.ino = false

/-- No folder that the scanner lists has the place of the file. -/
def Single (env : Env Name) (db : Db Name) (e : Survivor Name) : Prop :=
  e.isfolder = false → ∀ r ∈ db.folders.rows, r.key = (S.syncid, e.localparentfolderid, e.name) →
    r.mtimenative.isSome → env.nameToIgnore r.name = true

/-- The entries of the survivors are read. -/
def Seen (env : Env Name) (s : State Name) : Action Name → Prop
  | .scan (some dirents) _ => ∀ job ∈ s.jobs.head?, job.syncid = S.syncid → ∀ e ∈ S.entries,
    e.localparentfolderid = job.localfolderid →
      Read s.ignoredPaths dirents e.name ∧ S.Single env s.db e
  | _ => True

/-- The row is not a survivor. -/
def Spares (isfolder : Bool) (id : ℕ) : Prop :=
  ∀ e ∈ S.entries, e.isfolder = isfolder → id ≠ e.id

/-- No remote deletion of a survivor is queued. As the folders above survivors are survivors, none
of a folder above one is. -/
def Safe (s : State Name) : Prop := ∀ d ∈ s.deletions, S.Spares d.isfolder d.localid

variable {S}

/-! ## The tables -/

/-- What is in a folder that is no survivor, is none. -/
theorem spares_parent {id : ℕ} (h : S.Spares true id) (hid : 0 < id) :
    ∀ e ∈ S.entries, e.localparentfolderid ≠ id := by
  intro e he hpar
  rcases S.above e he with ⟨h0, -⟩ | ⟨-, f, hf, hfolder, hfid, -⟩
  · omega
  · exact h f hf hfolder (hpar.symm.trans hfid.symm)

namespace Recorded

variable {db db' : Db Name}

theorem tasks (h : S.Recorded db) (tasks : List (Task Name)) :
    S.Recorded { db with tasks := tasks } :=
  ⟨h.syncs, h.folders_lt, h.files_lt, h.folders, h.files⟩

theorem addTask (h : S.Recorded db) (t : Task Name) : S.Recorded (db.addTask t) := h.tasks _

/-- The table of folders may change, where no survivor moves. -/
theorem setFolders (h : S.Recorded db)
    {t : Sql.AutoTable FolderRow.id (@FolderRow.key Name)} (hnext : db.folders.next ≤ t.next)
    (hrows : ∀ r ∈ t.rows, (∃ s ∈ db.folders.rows, s.id = r.id ∧ s.key = r.key) ∨
      S.Spares true r.id) : S.Recorded { db with folders := t } where
  syncs := h.syncs
  folders_lt e he hf := (h.folders_lt e he hf).trans_le hnext
  files_lt := h.files_lt
  folders e he hf r hr hid := by
    rcases hrows r hr with ⟨s, hs, hsid, hkey⟩ | hsp
    · exact hkey ▸ h.folders e he hf s hs (hsid.trans hid)
    · exact absurd hid (hsp e he hf)
  files := h.files

/-- The table of files may change, where no survivor moves. -/
theorem setFiles (h : S.Recorded db) {t : Sql.AutoTable FileRow.id (@FileRow.key Name)}
    (hnext : db.files.next ≤ t.next)
    (hrows : ∀ r ∈ t.rows, (∃ s ∈ db.files.rows, s.id = r.id ∧ s.key = r.key) ∨
      S.Spares false r.id) : S.Recorded { db with files := t } where
  syncs := h.syncs
  folders_lt := h.folders_lt
  files_lt e he hf := (h.files_lt e he hf).trans_le hnext
  folders := h.folders
  files e he hf r hr hid := by
    rcases hrows r hr with ⟨s, hs, hsid, hkey⟩ | hsp
    · exact hkey ▸ h.files e he hf s hs (hsid.trans hid)
    · exact absurd hid (hsp e he hf)

end Recorded

/-! ### Deleting rows -/

/-- Rows are deleted, and nothing else happens but to the tasks. -/
structure Shrinks (db db' : Db Name) : Prop where
  syncs : db'.syncs = db.syncs
  folders_next : db'.folders.next = db.folders.next
  files_next : db'.files.next = db.files.next
  folders : ∀ r ∈ db'.folders.rows, r ∈ db.folders.rows
  files : ∀ r ∈ db'.files.rows, r ∈ db.files.rows

namespace Shrinks

variable {db db' db'' : Db Name}

theorem refl (db : Db Name) : Shrinks db db := ⟨rfl, rfl, rfl, fun _ h => h, fun _ h => h⟩

theorem trans (h : Shrinks db db') (h' : Shrinks db' db'') : Shrinks db db'' where
  syncs := h'.syncs.trans h.syncs
  folders_next := h'.folders_next.trans h.folders_next
  files_next := h'.files_next.trans h.files_next
  folders r hr := h.folders r (h'.folders r hr)
  files r hr := h.files r (h'.files r hr)

end Shrinks

theorem Recorded.shrink {db db' : Db Name} (h : S.Recorded db) (hs : Shrinks db db') :
    S.Recorded db' where
  syncs := hs.syncs ▸ h.syncs
  folders_lt := hs.folders_next ▸ h.folders_lt
  files_lt := hs.files_next ▸ h.files_lt
  folders e he hf r hr := h.folders e he hf r (hs.folders r hr)
  files e he hf r hr := h.files e he hf r (hs.files r hr)

/-- What each step of a loop keeps, the loop keeps. -/
theorem foldlM_keeps {α β : Type} {f : β → α → Option β} {P : β → Prop} {l : List α} {b b' : β}
    (hstep : ∀ b a b', a ∈ l → P b → f b a = some b' → P b') (hb : P b)
    (h : l.foldlM f b = some b') : P b' := by
  induction l generalizing b with
  | nil => exact some.inj h ▸ hb
  | cons a l ih =>
    rw [foldlM_cons] at h
    obtain ⟨c, hc, h⟩ := bind_eq_some_iff.1 h
    exact ih (fun b a b' ha => hstep b a b' (mem_cons_of_mem _ ha))
      (hstep b a c mem_cons_self hb hc) h

theorem shrinks_foldl_uploads (ids : List ℕ) (db : Db Name) :
    Shrinks db (ids.foldl Db.deleteUploadTasksForFile db) := by
  induction ids generalizing db with
  | nil => exact .refl _
  | cons id ids ih =>
    have hid : Shrinks db (db.deleteUploadTasksForFile id) :=
      ⟨rfl, rfl, rfl, fun _ h => h, fun _ h => h⟩
    exact hid.trans (ih _)

theorem shrinks_deleteLocalFolderRec {n id : ℕ} {db db' : Db Name}
    (h : Db.deleteLocalFolderRec n db id = some db') : Shrinks db db' := by
  induction n generalizing db id db' with
  | zero => cases h
  | succ n ih =>
    obtain ⟨db₁, h1, h⟩ := bind_eq_some_iff.1 h
    obtain ⟨⟩ := h
    have hchildren : Shrinks db db₁ :=
      foldlM_keeps (fun b a b' _ hb hab => hb.trans (ih hab)) (.refl db) h1
    refine hchildren.trans ((shrinks_foldl_uploads _ db₁).trans ⟨rfl, rfl, rfl, ?_, ?_⟩)
    · exact fun r hr => Sql.AutoTable.mem_delete hr
    · exact fun r hr => Sql.AutoTable.mem_delete hr

theorem shrinks_deleteIgnored {env : Env Name} {syncid localfolderid : ℕ} {upgraded : ℕ → Bool}
    {db db' : Db Name} (h : db.deleteIgnored env syncid localfolderid upgraded = some db') :
    Shrinks db db' := by
  obtain ⟨db₁, h1, h⟩ := bind_eq_some_iff.1 h
  obtain ⟨⟩ := h
  have hfolders : Shrinks db db₁ :=
    foldlM_keeps (fun b a b' _ hb hab => hb.trans (shrinks_deleteLocalFolderRec hab)) (.refl db) h1
  exact hfolders.trans ⟨rfl, rfl, rfl, fun r hr => hr, fun r hr => Sql.AutoTable.mem_delete hr⟩

/-! ### The functions of the queue -/

section Queue

variable [LinearOrder Name] {db db' : Db Name}

section

variable (h : S.Recorded db)
include h

/-- A row of a folder that is no survivor is changed. -/
theorem Recorded.updateFolder {id : ℕ} (hid : S.Spares true id)
    {f : FolderRow Name → FolderRow Name} {hf : ∀ r, (f r).id = r.id} :
    S.Recorded { db with folders := db.folders.update (fun r => r.id = id) f hf } := by
  refine h.setFolders Sql.AutoTable.next_update.ge fun r hr => ?_
  rcases Sql.AutoTable.mem_update hr with hr | ⟨s, -, hs, rfl⟩
  · exact .inl ⟨r, hr, rfl, rfl⟩
  · exact .inr (by rw [hf, of_decide_eq_true hs]; exact hid)

/-- A row of a file that is no survivor is changed. -/
theorem Recorded.updateFile {id : ℕ} (hid : S.Spares false id)
    {f : FileRow Name → FileRow Name} {hf : ∀ r, (f r).id = r.id} :
    S.Recorded { db with files := db.files.update (fun r => r.id = id) f hf } := by
  refine h.setFiles Sql.AutoTable.next_update.ge fun r hr => ?_
  rcases Sql.AutoTable.mem_update hr with hr | ⟨s, -, hs, rfl⟩
  · exact .inl ⟨r, hr, rfl, rfl⟩
  · exact .inr (by rw [hf, of_decide_eq_true hs]; exact hid)

/-- A row of a folder is inserted, or its id is used up. -/
theorem Recorded.insertFolder {allowed : Bool} {row : ℕ → FolderRow Name}
    {hrow : ∀ n, (row n).id = n} :
    S.Recorded { db with folders := (db.folders.insertOrIgnore allowed row hrow).1 } := by
  refine h.setFolders Sql.AutoTable.next_le_insertOrIgnore fun r hr => ?_
  rcases Sql.AutoTable.mem_insertOrIgnore hr with hr | rfl
  · exact .inl ⟨r, hr, rfl, rfl⟩
  · exact .inr fun e he hf => (hrow _).symm ▸ (h.folders_lt e he hf).ne'

/-- A row of a file is inserted, or its id is used up. -/
theorem Recorded.insertFile {allowed : Bool} {row : ℕ → FileRow Name} {hrow : ∀ n, (row n).id = n} :
    S.Recorded { db with files := (db.files.insertOrIgnore allowed row hrow).1 } := by
  refine h.setFiles Sql.AutoTable.next_le_insertOrIgnore fun r hr => ?_
  rcases Sql.AutoTable.mem_insertOrIgnore hr with hr | rfl
  · exact .inl ⟨r, hr, rfl, rfl⟩
  · exact .inr fun e he hf => (hrow _).symm ▸ (h.files_lt e he hf).ne'

theorem Recorded.scanRenameFile {rnfr : Elem Name} (rnto : Elem Name)
    (hsp : S.Spares false rnfr.localid) : S.Recorded (db.scanRenameFile rnfr rnto) := by
  unfold Db.scanRenameFile
  split
  · exact h
  · refine addTask ?_ _
    split
    · exact h.updateFile hsp
    · exact h

theorem Recorded.scanUploadFile (fl : Elem Name) : S.Recorded (db.scanUploadFile fl) := by
  unfold Db.scanUploadFile
  dsimp only
  split
  · exact h.insertFile
  · exact addTask h.insertFile _

theorem Recorded.scanUploadModifiedFile (fl : Elem Name) :
    S.Recorded (db.scanUploadModifiedFile fl) := by
  unfold Db.scanUploadModifiedFile
  refine addTask ((h.tasks _).setFiles Sql.AutoTable.next_update.ge fun r hr => ?_) _
  rcases Sql.AutoTable.mem_update hr with hr | ⟨s, hs, -, rfl⟩
  · exact .inl ⟨r, hr, rfl, rfl⟩
  · exact .inl ⟨s, hs, rfl, rfl⟩

theorem Recorded.scanCreateFolder (fl : Elem Name) : S.Recorded (db.scanCreateFolder fl).1 := by
  unfold Db.scanCreateFolder
  dsimp only
  split
  · refine h.insertFolder.setFolders Sql.AutoTable.next_update.ge fun r hr => ?_
    rcases Sql.AutoTable.mem_update hr with hr | ⟨s, hs, -, rfl⟩
    · exact .inl ⟨r, hr, rfl, rfl⟩
    · exact .inl ⟨s, hs, rfl, rfl⟩
  · exact addTask h.insertFolder _

/-- A folder that is created gets an id under which no survivor is. -/
theorem Recorded.localid_created {fl : Elem Name} (h0 : fl.localid = 0)
    (hne : (db.scanCreateFolder fl).2.localid ≠ 0) :
    ∀ e ∈ S.entries, e.localparentfolderid ≠ (db.scanCreateFolder fl).2.localid := by
  unfold Db.scanCreateFolder at hne ⊢
  dsimp only at hne ⊢
  split at hne
  · exact absurd h0 hne
  · rename_i id hid
    obtain rfl := Sql.AutoTable.insertOrIgnore_some hid
    exact spares_parent (fun e he hf => (h.folders_lt e he hf).ne') db.folders.next_pos

theorem Recorded.updateSyncidRec {n syncid id : ℕ} (hsp : S.Spares true id)
    (hpos : 0 < id) (hdb : db.updateSyncidRec syncid n id = some db') : S.Recorded db' := by
  induction n generalizing db id db' with
  | zero => cases hdb
  | succ n ih =>
    unfold Db.updateSyncidRec at hdb
    dsimp only at hdb
    have h1 : S.Recorded { db with
        folders :=
          if db.syncs.any fun r => r.id = syncid then
            db.folders.update (fun r => r.id = id) (fun r => { r with syncid := syncid })
              (fun _ => rfl)
          else db.folders } := by
      split
      · exact h.updateFolder hsp
      · exact h
    refine foldlM_keeps (fun b c b' hc hb hbc => ?_) h1 hdb
    obtain ⟨r, hr, rfl⟩ := mem_map.1 hc
    obtain ⟨hr, hpar⟩ := mem_filter.1 hr
    have hpar := of_decide_eq_true hpar
    -- a survivor is in a folder that is a survivor
    have hchild : S.Spares true r.id := fun e he hf hid => by
      have hkey := h1.folders e he hf r hr hid
      unfold FolderRow.key at hkey
      have heq : e.localparentfolderid = r.localparentfolderid := by
        rw [Prod.mk.injEq, Prod.mk.injEq] at hkey
        exact hkey.2.1.symm
      exact spares_parent hsp hpos e he (heq.trans hpar)
    exact ih hb hchild (Sql.AutoTable.pos _ r hr) hbc

theorem Recorded.scanRenameFolder {stack : ℕ} {rnfr rnto : Elem Name}
    (hsp : S.Spares true rnfr.localid) (hpos : 0 < rnfr.localid)
    (hdb : db.scanRenameFolder stack rnfr rnto = some db') : S.Recorded db' := by
  unfold Db.scanRenameFolder at hdb
  split at hdb
  · exact some.inj hdb ▸ h
  · dsimp only at hdb
    obtain ⟨db₂, hdb2, rfl⟩ := map_eq_some_iff.1 hdb
    refine addTask ?_ _
    have h1 : S.Recorded { db with
        folders :=
          if db.allows rnto.localparentfolderid rnto.syncid then
            db.folders.update (fun r => r.id = rnfr.localid)
              (fun r => { r with
                localparentfolderid := rnto.localparentfolderid
                syncid := rnto.syncid
                name := rnto.name }) (fun _ => rfl)
          else db.folders } := by
      split
      · exact h.updateFolder hsp
      · exact h
    split at hdb2
    · exact h1.updateSyncidRec hsp hpos hdb2
    · exact some.inj hdb2 ▸ h1

end

end Queue

end Survivors

end Pclsync.Localscan
