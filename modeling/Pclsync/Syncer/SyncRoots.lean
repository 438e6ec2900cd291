import Pclsync.Syncer.PathPrefix
import Pclsync.Tools.OsPath
import Pclsync.Transition

/-!
# Roots of syncs

A sync is added by `psync_add_sync_by_folderid` or, later, from a row of `syncfolderdelayed` by
`psync_syncer_check_delayed_syncs`. Both look at the local paths of the syncs that exist, with
`psync_str_is_prefix` and with a comparison of the texts. `psync_is_folder_syncable`, which is asked
for backups, also looks at the ignored folders, with `psync_left_str_is_prefix`.

* `Roots.passThroughDelayed`: one pass of the loop over the delayed syncs.
* `machine`: the actions on the tables.
* `Recognized`: the texts of two paths which the comparisons find.
* `separate_of_reachable`: the roots are not the same and not nested when the texts of all paths
  which are inside of each other are recognized.
* `syncRoots_right`: the two tests, the runs, and the folders which are refused as ignored.
-/

namespace Pclsync.Syncer

open List

/-! ## The tables -/

/-- A row of `syncfolder`. -/
structure SyncFolder where
  id : ℕ
  /-- `NULL` when the folder was deleted. -/
  folderid : Option ℕ
  localpath : List UInt8
  synctype : ℕ

/-- A row of `syncfolderdelayed`. -/
structure DelayedSync where
  id : ℕ
  localpath : List UInt8
  remotepath : List UInt8
  synctype : ℕ

/-- The tables, with their rows in the order of the ids. -/
structure Roots where
  syncfolder : List SyncFolder
  syncfolderdelayed : List DelayedSync

/-- The `psync_error`s. -/
inductive Perror
  | localFolderNotFound
  | remoteFolderNotFound
  | localFolderAccDenied
  | remoteFolderAccDenied
  | folderAlreadySyncing
  | invalidSynctype
  | parentOrSubfolderAlreadySyncing
  | localIsOnPdrive
  | parentIsIgnored
  deriving DecidableEq

/-- What `psync_stat` gives. -/
structure Stat where
  isfolder : Bool
  /-- `psync_stat_mode_ok` -/
  modeOk : ℕ → Bool

/-- What the functions read besides the tables. -/
structure World where
  stat : List UInt8 → Option Stat
  /-- `psync_fs_getmountpoint` -/
  mountpoint : Option (List UInt8)
  /-- The permissions of the rows of `folder`. -/
  permissions : ℕ → Option ℕ

/-! ## Checks -/

/-- `PSYNC_SYNCTYPE_MIN` and `PSYNC_SYNCTYPE_MAX` -/
def validSynctype (synctype : ℕ) : Bool := 1 ≤ synctype ∧ synctype ≤ 7

/-- `synctype&PSYNC_DOWNLOAD_ONLY` -/
def downloads (synctype : ℕ) : Bool := synctype &&& 1 ≠ 0

/-- `synctype&PSYNC_UPLOAD_ONLY` -/
def uploads (synctype : ℕ) : Bool := synctype &&& 2 ≠ 0

/-- The rights on the local folder that the sync needs. -/
def neededMode (synctype : ℕ) : ℕ := if downloads synctype then 7 else 5

/-- The checks of the local folder. -/
def checkLocal (w : World) (localpath : List UInt8) (synctype : ℕ) : Option Perror :=
  match w.stat localpath with
  | none => some .localFolderNotFound
  | some st =>
    if !st.isfolder then some .localFolderNotFound
    else if !st.modeOk (neededMode synctype) then some .localFolderAccDenied
    else none

/-- The path is the mount point, or goes on behind it with a slash of one of the two kinds. -/
def onDrive (w : World) (localpath : List UInt8) : Bool :=
  match w.mountpoint with
  | none => false
  | some syncmp =>
    let c := charAt localpath syncmp.length
    syncmp == localpath.take syncmp.length && (c == 0 || c == 47 || c == 92)

/-- The loop over the syncs. -/
def checkSyncs : List SyncFolder → List UInt8 → Option Perror
  | [], _ => none
  | row :: rows, localpath =>
    if psyncStrIsPrefix row.localpath localpath then some .parentOrSubfolderAlreadySyncing
    else if row.localpath = localpath then some .folderAlreadySyncing
    else checkSyncs rows localpath

/-- `PSYNC_PERM_ALL` for the root, else the column of the row. -/
def folderPermissions (w : World) (folderid : ℕ) : Option ℕ :=
  if folderid = 0 then some 15 else w.permissions folderid

/-- The rights on the remote folder are not enough. -/
def deniedRemote (synctype perms : ℕ) : Bool :=
  (downloads synctype && perms &&& 1 ≠ 1) || (uploads synctype && perms &&& 14 ≠ 14)

/-! ## Adding syncs -/

namespace Roots

variable (db : Roots)

/-- `INSERT OR IGNORE INTO syncfolder`, with the new id. -/
def insertSync (folderid : ℕ) (localpath : List UInt8) (synctype : ℕ) : Roots × Option ℕ :=
  if db.syncfolder.any fun r => r.folderid == some folderid && r.localpath == localpath then
    (db, none)
  else
    let id := (db.syncfolder.map SyncFolder.id).max?.getD 0 + 1
    ({ db with syncfolder := db.syncfolder ++ [⟨id, some folderid, localpath, synctype⟩] }, some id)

/-- `psync_add_sync_by_folderid` -/
def psyncAddSyncByFolderid (w : World) (localpath : List UInt8) (folderid synctype : ℕ) :
    Roots × Except Perror ℕ :=
  if !validSynctype synctype then (db, .error .invalidSynctype)
  else match checkLocal w localpath synctype with
  | some err => (db, .error err)
  | none =>
    if onDrive w localpath then (db, .error .localIsOnPdrive)
    else match checkSyncs db.syncfolder localpath with
    | some err => (db, .error err)
    | none => match folderPermissions w folderid with
      | none => (db, .error .remoteFolderNotFound)
      | some perms =>
        if deniedRemote synctype perms then (db, .error .remoteFolderAccDenied)
        else match db.insertSync folderid localpath synctype with
        | (db', some ret) => (db', .ok ret)
        | (db', none) => (db', .error .folderAlreadySyncing)

/-- `psync_add_sync_by_path_delayed` -/
def psyncAddSyncByPathDelayed (w : World) (localpath remotepath : List UInt8) (synctype : ℕ) :
    Roots × Except Perror Unit :=
  if !validSynctype synctype then (db, .error .invalidSynctype)
  else match checkLocal w localpath synctype with
  | some err => (db, .error err)
  | none =>
    let id := (db.syncfolderdelayed.map DelayedSync.id).max?.getD 0 + 1
    ({ db with
       syncfolderdelayed := db.syncfolderdelayed ++ [⟨id, localpath, remotepath, synctype⟩] },
      .ok ())

/-- `delete_delayed_sync` -/
def deleteDelayedSync (id : ℕ) : Roots :=
  { db with syncfolderdelayed := db.syncfolderdelayed.filter fun d => d.id ≠ id }

/-- What comes out of `psync_get_folderid_by_path_or_create`. -/
inductive FolderLookup
  | found (folderid : ℕ)
  | offline
  | failed

/-- A pass of the loop of `psync_syncer_check_delayed_syncs`, and whether the loop goes on. -/
def passThroughDelayed (w : World) (lookup : FolderLookup) (commits : Bool) : Roots × Bool :=
  match db.syncfolderdelayed with
  | [] => (db, false)
  | row :: _ =>
    let deleted := db.deleteDelayedSync row.id
    if (checkLocal w row.localpath row.synctype).isSome then (deleted, true)
    else if (checkSyncs db.syncfolder row.localpath).isSome then (deleted, true)
    else match lookup with
    | .offline => (db, false)
    | .failed => (deleted, true)
    | .found folderid =>
      -- a transaction; when it is not committed, it changes nothing
      if (w.permissions folderid).isNone then (if commits then deleted else db, true)
      else
        let inserted := deleted.insertSync folderid row.localpath row.synctype
        if commits then (inserted.1, inserted.2.isSome) else (db, false)

/-- `DELETE FROM syncfolder WHERE id=?` -/
def deleteSync (id : ℕ) : Roots :=
  { db with syncfolder := db.syncfolder.filter fun r => r.id ≠ id }

/-- A folder is deleted: `ON DELETE SET NULL`. -/
def folderDeleted (folderid : ℕ) : Roots :=
  { db with
    syncfolder := db.syncfolder.map fun r =>
      if r.folderid = some folderid then { r with folderid := none } else r }

end Roots

/-! ## Runs -/

/-- What happens to the tables. -/
inductive Action
  | addSync (w : World) (localpath : List UInt8) (folderid synctype : ℕ)
  | addDelayed (w : World) (localpath remotepath : List UInt8) (synctype : ℕ)
  | passThroughDelayed (w : World) (lookup : Roots.FolderLookup) (commits : Bool)
  | deleteSync (id : ℕ)
  | folderDeleted (folderid : ℕ)

/-- The tables after an action. -/
def Roots.after (db : Roots) : Action → Roots
  | .addSync w localpath folderid synctype =>
    (db.psyncAddSyncByFolderid w localpath folderid synctype).1
  | .addDelayed w localpath remotepath synctype =>
    (db.psyncAddSyncByPathDelayed w localpath remotepath synctype).1
  | .passThroughDelayed w lookup commits => (db.passThroughDelayed w lookup commits).1
  | .deleteSync id => db.deleteSync id
  | .folderDeleted folderid => db.folderDeleted folderid

/-- Runs from empty tables. -/
def machine : Machine Roots Action where
  init db := db = ⟨[], []⟩
  step db a := some (db.after a)

/-- The path for which an action may add a sync. -/
def Roots.candidate (db : Roots) : Action → Option (List UInt8)
  | .addSync _ localpath _ _ => some localpath
  | .passThroughDelayed _ _ _ => db.syncfolderdelayed.head?.map DelayedSync.localpath
  | _ => none

/-- One of the paths is inside of the other one, or they are the same. -/
def Nested (p q : List UInt8) : Prop := Within p q ∨ Within q p

/-- The texts are the same, or one goes on with a slash behind the other one; slashes at the end
    of the first one do not count for this. -/
def Recognized (p q : List UInt8) : Prop :=
  p = q ∨ (trimmed p ++ [47]) <+: q ∨ (q ++ [47]) <+: trimmed p

/-- A sync which is nested with the path of the action is recognized. -/
def Fine (db : Roots) (a : Action) : Prop :=
  ∀ p ∈ db.candidate a, ∀ r ∈ db.syncfolder, Nested r.localpath p → Recognized r.localpath p

/-- No two roots are the same or nested. -/
def Separate (rows : List SyncFolder) : Prop :=
  (rows.map SyncFolder.localpath).Pairwise fun p q => ¬Nested p q

variable {db : Roots} {rows : List SyncFolder} {p q localpath : List UInt8} {w : World}
  {folderid synctype id : ℕ} {a : Action} {r : SyncFolder}

theorem checkSyncs_eq_none_iff :
    checkSyncs rows p = none ↔ ∀ r ∈ rows, ¬Recognized r.localpath p := by
  induction rows with
  | nil => exact ⟨fun _ => forall_mem_nil _, fun _ => rfl⟩
  | cons row rows ih =>
    rw [forall_mem_cons, ← ih, checkSyncs, Recognized, ← psyncStrIsPrefix_eq_true_iff]
    split
    · next htest => simp [htest]
    · next htest =>
      split
      · next heq => simp [heq]
      · next hne => simp [htest, hne]

theorem not_nested_of_checkSyncs (hcheck : checkSyncs db.syncfolder p = none)
    (hfine : ∀ r ∈ db.syncfolder, Nested r.localpath p → Recognized r.localpath p) :
    ∀ r ∈ db.syncfolder, ¬Nested r.localpath p := fun r hr hnested =>
  checkSyncs_eq_none_iff.1 hcheck r hr (hfine r hr hnested)

theorem separate_insertSync (h : Separate db.syncfolder)
    (hnew : ∀ r ∈ db.syncfolder, ¬Nested r.localpath p) :
    Separate (db.insertSync folderid p synctype).1.syncfolder := by
  rw [Roots.insertSync]
  split
  · exact h
  · change ((db.syncfolder ++ [_]).map SyncFolder.localpath).Pairwise _
    rw [map_append, pairwise_append]
    refine ⟨h, pairwise_singleton _ _, fun q hq p' hp' => ?_⟩
    obtain ⟨r, hr, rfl⟩ := mem_map.1 hq
    rw [map_singleton, mem_singleton] at hp'
    exact hp' ▸ hnew r hr

theorem separate_add (h : Separate db.syncfolder)
    (hfine : Fine db (.addSync w p folderid synctype)) :
    Separate (db.psyncAddSyncByFolderid w p folderid synctype).1.syncfolder := by
  rw [Roots.psyncAddSyncByFolderid]
  split
  · exact h
  split
  · exact h
  split
  · exact h
  split
  · exact h
  next hcheck =>
  split
  · exact h
  split
  · exact h
  have hinsert : Separate (db.insertSync folderid p synctype).1.syncfolder :=
    separate_insertSync h (not_nested_of_checkSyncs hcheck (hfine p rfl))
  split
  · next heq => rwa [heq] at hinsert
  · next heq => rwa [heq] at hinsert

theorem separate_pass {lookup : Roots.FolderLookup} {commits : Bool} (h : Separate db.syncfolder)
    (hfine : Fine db (.passThroughDelayed w lookup commits)) :
    Separate (db.passThroughDelayed w lookup commits).1.syncfolder := by
  rw [Roots.passThroughDelayed]
  split
  · exact h
  next row rest hrows =>
  have hdeleted : (db.deleteDelayedSync row.id).syncfolder = db.syncfolder := rfl
  have hcandidate : db.candidate (.passThroughDelayed w lookup commits) = some row.localpath := by
    rw [Roots.candidate, hrows]
    rfl
  dsimp only
  split
  · exact h
  split
  · exact h
  next hcheck =>
  have hcheck : checkSyncs db.syncfolder row.localpath = none := by
    rwa [Bool.not_eq_true, Option.isSome_eq_false_iff, Option.isNone_iff_eq_none] at hcheck
  cases lookup with
  | offline | failed => exact h
  | found folderid =>
    dsimp only
    split
    · split <;> exact h
    split
    · exact @separate_insertSync (db.deleteDelayedSync row.id) _ _ _ h
        (not_nested_of_checkSyncs hcheck (hfine _ hcandidate))
    · exact h

theorem separate_after (h : Separate db.syncfolder) (hfine : Fine db a) :
    Separate (db.after a).syncfolder := by
  cases a with
  | addSync w p folderid synctype => exact separate_add h hfine
  | addDelayed w p remotepath synctype =>
    have hsame : (db.psyncAddSyncByPathDelayed w p remotepath synctype).1.syncfolder =
        db.syncfolder := by
      rw [Roots.psyncAddSyncByPathDelayed]
      split
      · rfl
      · split <;> rfl
    exact hsame.symm ▸ h
  | passThroughDelayed w lookup commits => exact separate_pass h hfine
  | deleteSync id => exact Pairwise.sublist (filter_sublist.map _) h
  | folderDeleted folderid =>
    have hsame : (db.folderDeleted folderid).syncfolder.map SyncFolder.localpath =
        db.syncfolder.map SyncFolder.localpath := by
      rw [Roots.folderDeleted, map_map]
      refine map_congr_left fun r _ => ?_
      rw [Function.comp_apply]
      split <;> rfl
    rw [Separate, Roots.after, hsame]
    exact h

theorem separate_of_reachable (h : machine.Reachable Fine db) : Separate db.syncfolder := by
  refine h.invariant (P := fun db => Separate db.syncfolder) ?_ ?_
  · rintro db rfl
    exact Pairwise.nil
  · intro db a db' hdb hfine hstep
    obtain ⟨⟩ := hstep
    exact separate_after hdb hfine

/-! ## Ignored folders -/

/-- The first ignored folder that stands in the way. -/
def checkIgnored (folders : List (List UInt8)) (localPath : List UInt8) (behind : ℕ → UInt8) :
    Option (Perror × String) :=
  if folders.any fun f => psyncLeftStrIsPrefix f localPath behind then
    some (.parentIsIgnored, "This folder is a child  of a folder in your ignore folders list.")
  else none

/-- The text for an error of the loop over the syncs. -/
def syncableMessage (err : Perror) : String :=
  if err = .parentOrSubfolderAlreadySyncing then
    "There is already an active sync or backup for a parent of this folder."
  else "There is already an active sync or backup for this folder."

/-- `psync_is_folder_syncable`: nothing when the folder can be synced. The table for the ignored
    folders is not initialised. -/
def psyncIsFolderSyncable (w : World) (syncs : List SyncFolder) (ignorePaths : List UInt8)
    (uninit : Tools.FolderPath) (behind : ℕ → UInt8) (localPath : List UInt8) :
    Option (Option (Perror × String)) :=
  match checkSyncs syncs localPath with
  | some err => some (some (err, syncableMessage err))
  | none =>
    if onDrive w localPath then some (some (.localIsOnPdrive, "Folder is located on pCloud drive."))
    else
      (Tools.parseOsPath ignorePaths uninit 59 0).map fun folders =>
        checkIgnored ((range folders.cnt).map folders.folders) localPath behind

/-- The folders which the setting names. -/
def ignoredFolders (ignorePaths : List UInt8) : List (List UInt8) :=
  Tools.componentNames 59 0 ignorePaths

/-- What is asked of the check: it stays inside of its buffers, and what it refuses as ignored is
    inside of an ignored folder. -/
def IgnoredRight (w : World) (syncs : List SyncFolder) (ignorePaths localPath : List UInt8) :
    Prop :=
  ∀ uninit behind, ∃ res,
    psyncIsFolderSyncable w syncs ignorePaths uninit behind localPath = some res ∧
      (res.map Prod.fst = some .parentIsIgnored →
        ∃ f ∈ ignoredFolders ignorePaths, IsAbsolute f ∧ Within f localPath)

/-- The setting is not empty, and its parts fit into the buffer and the table. -/
structure SettingFits (ignorePaths : List UInt8) : Prop where
  ne_nil : ignorePaths ≠ []
  count : (ignoredFolders ignorePaths).length ≤ Tools.foldersSize
  names : ∀ f ∈ ignoredFolders ignorePaths, f.length < Tools.fNameSize

/-- An earlier check refuses the folder. -/
def RefusedBefore (w : World) (syncs : List SyncFolder) (localPath : List UInt8) : Prop :=
  (∃ r ∈ syncs, Recognized r.localpath localPath) ∨ onDrive w localPath = true

/-- No folder of the setting stands in the way by mistake: none is empty, and the path does not go
    on with a name where one of them ends. -/
def NoMistaken (ignorePaths localPath : List UInt8) : Prop :=
  ∀ f ∈ ignoredFolders ignorePaths, f ≠ [] ∧ ¬GoesOn f localPath

variable {ignorePaths f : List UInt8} {behind : ℕ → UInt8} {syncs : List SyncFolder}

theorem refusedBefore_iff :
    RefusedBefore w syncs p ↔ checkSyncs syncs p ≠ none ∨ onDrive w p = true := by
  rw [RefusedBefore, Ne, checkSyncs_eq_none_iff]
  simp only [not_forall, not_not, exists_prop]

theorem checkSyncs_ne_parentIsIgnored : checkSyncs rows p ≠ some .parentIsIgnored := by
  induction rows with
  | nil => exact fun h => (by cases h)
  | cons row rows ih =>
    rw [checkSyncs]
    split
    · exact fun h => (by cases h)
    · split
      · exact fun h => (by cases h)
      · exact ih

theorem psyncLeftStrIsPrefix_nil : psyncLeftStrIsPrefix [] p behind = true := by
  rw [psyncLeftStrIsPrefix]
  have htrim : trim [] ([] : List UInt8).length = 0 := rfl
  rw [htrim, if_neg (Nat.not_lt_zero _), take_zero, take_zero]
  rfl

/-- An absolute path begins with the text of absolute paths only. -/
theorem isAbsolute_of_prefix (hp : IsAbsolute p) (hne : f ≠ []) (h : trimmed f <+: p) :
    IsAbsolute f := by
  obtain ⟨t, rfl⟩ := hp
  obtain ⟨w, hw, -⟩ := exists_trimmed_append f
  cases htrimmed : trimmed f with
  | nil =>
    have hpos := trim_pos f (length_pos_of_ne_nil hne)
    rw [← length_trimmed, htrimmed] at hpos
    exact absurd hpos (Nat.lt_irrefl 0)
  | cons c u =>
    rw [htrimmed] at h hw
    rw [hw, (cons_prefix_cons.1 h).1]
    exact ⟨_, rfl⟩

theorem range_map_eq {names : List (List UInt8)} {table : ℕ → List UInt8}
    (h : ∀ i < names.length, names[i]? = some (table i)) :
    (range names.length).map table = names := by
  refine ext_getElem? fun i => ?_
  rw [getElem?_map]
  rcases Nat.lt_or_ge i names.length with hi | hi
  · rw [getElem?_range hi, h i hi]
    rfl
  · rw [getElem?_eq_none (by rwa [length_range]), getElem?_eq_none hi]
    rfl

theorem exists_parsed (h : SettingFits ignorePaths) (uninit : Tools.FolderPath) :
    ∃ folders, Tools.parseOsPath ignorePaths uninit 59 0 = some folders ∧
      (range folders.cnt).map folders.folders = ignoredFolders ignorePaths := by
  obtain ⟨table, htable, -, hat⟩ :=
    @Tools.storeNames_eq_some 0 _ uninit.folders h.names ((Nat.zero_add _).symm ▸ h.count)
  refine ⟨_, (Tools.parseOsPath_eq uninit h.ne_nil).trans htable, ?_⟩
  dsimp only
  rw [Nat.zero_add]
  exact range_map_eq fun i hi => by rw [hat i hi, Nat.zero_add]

/-- What is refused as ignored, once the earlier checks are passed. -/
theorem psyncIsFolderSyncable_eq (uninit : Tools.FolderPath) (hbefore : ¬RefusedBefore w syncs p) :
    psyncIsFolderSyncable w syncs ignorePaths uninit behind p =
      (Tools.parseOsPath ignorePaths uninit 59 0).map fun folders =>
        checkIgnored ((range folders.cnt).map folders.folders) p behind := by
  rw [refusedBefore_iff, not_or, not_not] at hbefore
  rw [psyncIsFolderSyncable, hbefore.1]
  dsimp only
  rw [if_neg hbefore.2]

theorem checkIgnored_eq_ignored_iff {folders : List (List UInt8)} :
    (checkIgnored folders p behind).map Prod.fst = some .parentIsIgnored ↔
      ∃ f ∈ folders, psyncLeftStrIsPrefix f p behind = true := by
  rw [checkIgnored, ← any_eq_true]
  split
  · next h => exact ⟨fun _ => h, fun _ => rfl⟩
  · next h => exact ⟨fun h => (by cases h), fun h' => absurd h' h⟩

theorem ignoredRight_iff (hp : IsAbsolute p) : IgnoredRight w syncs ignorePaths p ↔
    RefusedBefore w syncs p ∨ SettingFits ignorePaths ∧
      ((∃ f ∈ ignoredFolders ignorePaths, IsAbsolute f ∧ Within f p) ∨
        NoMistaken ignorePaths p) := by
  by_cases hbefore : RefusedBefore w syncs p
  · refine iff_of_true (fun uninit behind => ?_) (.inl hbefore)
    rw [refusedBefore_iff] at hbefore
    rw [psyncIsFolderSyncable]
    split
    · next err herr =>
      have hne : checkSyncs syncs p ≠ some .parentIsIgnored := checkSyncs_ne_parentIsIgnored
      rw [herr] at hne
      exact ⟨_, rfl, fun h => absurd h hne⟩
    · next hcheck =>
      rw [if_pos (hbefore.resolve_left (not_not.2 hcheck))]
      exact ⟨_, rfl, fun h => (by cases h)⟩
  rw [or_iff_right hbefore]
  constructor
  · intro h
    have hfits : SettingFits ignorePaths := by
      obtain ⟨res, hres, hright⟩ := h ⟨1, fun _ => []⟩ fun _ => 0
      rw [psyncIsFolderSyncable_eq _ hbefore] at hres
      obtain ⟨folders, hparse, rfl⟩ := Option.map_eq_some_iff.1 hres
      have hne : ignorePaths ≠ [] := by
        rintro rfl
        obtain ⟨⟩ := hparse
        obtain ⟨f, hf, -⟩ := hright (checkIgnored_eq_ignored_iff.2
          ⟨[], mem_singleton_self _, psyncLeftStrIsPrefix_nil⟩)
        exact not_mem_nil hf
      rw [Tools.parseOsPath_eq _ hne] at hparse
      obtain ⟨hnames, hsize⟩ := Tools.fits_of_storeNames hparse
      refine ⟨hne, ?_, hnames⟩
      rcases hsize with hsize | hnil
      · rwa [Nat.zero_add] at hsize
      · rw [ignoredFolders, hnil]
        exact Nat.zero_le _
    refine ⟨hfits, or_iff_not_imp_left.2 fun hnone f hf => ?_⟩
    have hpassed : psyncLeftStrIsPrefix f p (fun _ => 0) ≠ true := by
      intro htest
      obtain ⟨res, hres, hright⟩ := h ⟨0, fun _ => []⟩ fun _ => 0
      obtain ⟨folders, hparse, hfolders⟩ := exists_parsed hfits ⟨0, fun _ => []⟩
      rw [psyncIsFolderSyncable_eq _ hbefore, hparse, Option.map_some, hfolders] at hres
      obtain ⟨⟩ := hres
      exact hnone (hright (checkIgnored_eq_ignored_iff.2 ⟨f, hf, htest⟩))
    have hne : f ≠ [] := by
      rintro rfl
      exact hpassed psyncLeftStrIsPrefix_nil
    exact ⟨hne, fun hgo => hpassed ((psyncLeftStrIsPrefix_eq_true_iff hne).2 hgo.prefix)⟩
  · rintro ⟨hfits, h⟩ uninit behind
    obtain ⟨folders, hparse, hfolders⟩ := exists_parsed hfits uninit
    rw [psyncIsFolderSyncable_eq _ hbefore, hparse, Option.map_some, hfolders]
    refine ⟨_, rfl, fun hrefused => ?_⟩
    rcases h with hinside | hmistaken
    · exact hinside
    · obtain ⟨f, hf, htest⟩ := checkIgnored_eq_ignored_iff.1 hrefused
      obtain ⟨hne, hgo⟩ := hmistaken f hf
      have hpre := (psyncLeftStrIsPrefix_eq_true_iff hne).1 htest
      have habs := isAbsolute_of_prefix hp hne hpre
      exact ⟨f, hf, habs, (within_iff_of_trimmed habs hpre).2 hgo⟩

/-! ## All together -/

/-- The two tests are right where the texts of the paths repeat each other; the roots stay separate
    in runs in which nested paths are recognized; and a folder is rightly refused as ignored when
    the setting fits and no part of it stands in the way by mistake. -/
theorem syncRoots_right (p : List UInt8) (hp : IsAbsolute p) : (∀ q, IsAbsolute q →
      (StrIsPrefixRight p q ↔ RepeatsText p q) ∧ (LeftStrIsPrefixRight p q ↔ BeginsWithText p q)) ∧
    (∀ db, machine.Reachable Fine db → Separate db.syncfolder) ∧
    ∀ w syncs ignorePaths, (IgnoredRight w syncs ignorePaths p ↔
      RefusedBefore w syncs p ∨ SettingFits ignorePaths ∧
        ((∃ f ∈ ignoredFolders ignorePaths, IsAbsolute f ∧ Within f p) ∨
          NoMistaken ignorePaths p)) :=
  ⟨fun _ _ => ⟨strIsPrefixRight_iff, leftStrIsPrefixRight_iff hp⟩,
    fun _ => separate_of_reachable, fun _ _ _ => ignoredRight_iff hp⟩

/-- A file system in which every path is a folder with all rights, without a mount point. -/
def allFolders : World := ⟨fun _ => some ⟨true, fun _ => true⟩, none, fun _ => some 15⟩

/-- The syncs `/u` and `/v`. -/
def twoRoots : Roots := ⟨[⟨1, some 0, [47, 117], 3⟩, ⟨2, some 0, [47, 118], 3⟩], []⟩

/-- The texts of `/u` and `/u/a`; the run in which `/u` and `/v` are added and `/u/a` is refused;
    and `/u/a` as a part of the ignored `/u`. -/
theorem syncRoots_right_usr :
    (StrIsPrefixRight [47, 117] [47, 117, 47, 97] ↔ RepeatsText [47, 117] [47, 117, 47, 97]) ∧
    twoRoots.after (.addSync allFolders [47, 117, 47, 97] 0 3) = twoRoots ∧
    Separate twoRoots.syncfolder ∧
    (IgnoredRight allFolders [] [47, 117] [47, 117, 47, 97] ↔
      RefusedBefore allFolders [] [47, 117, 47, 97] ∨ SettingFits [47, 117] ∧
        ((∃ f ∈ ignoredFolders [47, 117], IsAbsolute f ∧ Within f [47, 117, 47, 97]) ∨
          NoMistaken [47, 117] [47, 117, 47, 97])) := by
  have huv : ¬Nested [47, 117] [47, 118] := by
    simp only [Nested, Within]
    decide
  have hva : ¬Nested [47, 118] [47, 117, 47, 97] := by
    simp only [Nested, Within]
    decide
  have hua : Recognized [47, 117] [47, 117, 47, 97] := .inr (.inl (by decide))
  have h0 : machine.Reachable Fine ⟨[], []⟩ := .init rfl
  have h1 : machine.Reachable Fine ⟨[⟨1, some 0, [47, 117], 3⟩], []⟩ :=
    h0.step (a := .addSync allFolders [47, 117] 0 3) (fun _ _ => forall_mem_nil _) rfl
  have h2 : machine.Reachable Fine twoRoots := by
    refine h1.step (a := .addSync allFolders [47, 118] 0 3) (fun p hp => ?_) rfl
    obtain rfl := Option.mem_some_iff.1 hp
    exact forall_mem_singleton.2 fun h => absurd h huv
  have h3 : machine.Reachable Fine twoRoots := by
    refine h2.step (a := .addSync allFolders [47, 117, 47, 97] 0 3) (fun p hp => ?_) rfl
    obtain rfl := Option.mem_some_iff.1 hp
    exact forall_mem_cons.2 ⟨fun _ => hua, forall_mem_singleton.2 fun h => absurd h hva⟩
  have hu : IsAbsolute [47, 117] := ⟨_, rfl⟩
  exact ⟨((syncRoots_right _ hu).1 _ ⟨_, rfl⟩).1, rfl, (syncRoots_right _ hu).2.1 _ h3,
    (syncRoots_right _ ⟨_, rfl⟩).2.2 _ _ _⟩

/-- The root is not recognized as a parent of `/a`, so that both can be added; and `/ab` is taken
    for a part of `/a`, so that it is refused when `/a` is ignored. -/
theorem syncRoots_wrong :
    ¬StrIsPrefixRight [47] [47, 97] ∧ ¬LeftStrIsPrefixRight [47, 97] [47, 97, 98] ∧
    (∃ db, machine.Reachable (fun _ _ => True) db ∧ ¬Separate db.syncfolder) ∧
    ¬IgnoredRight allFolders [] [47, 97] [47, 97, 98] := by
  have hroot : Within [47] [47, 97] := by
    rw [Within, components_cons_of_sep isSeparator_slash, components_nil]
    exact nil_prefix
  have hback : ¬Within [47, 97] [47] := by
    rw [Within, components_cons_of_sep isSeparator_slash, components_cons_of_sep isSeparator_slash,
      components_nil, prefix_nil, components_eq_nil_iff]
    exact fun h => absurd (h 97 mem_cons_self) (by decide)
  have hgo : GoesOn [47, 97] [47, 97, 98] := ⟨[47], 97, 98, [], rfl, rfl, rfl, rfl⟩
  refine ⟨fun h => ?_, fun h => ?_, ?_, fun h => ?_⟩
  · have hfound : psyncStrIsPrefix [47] [47, 97] = true := h.found (.inl ⟨hroot, hback⟩)
    revert hfound
    decide
  · exact ((leftStrIsPrefixRight_iff ⟨_, rfl⟩).1 h).ends hgo
  · have hrun : machine.run ⟨[], []⟩
        [.addSync allFolders [47] 0 3, .addSync allFolders [47, 97] 0 3] =
        some ⟨[⟨1, some 0, [47], 3⟩, ⟨2, some 0, [47, 97], 3⟩], []⟩ := rfl
    refine ⟨_, Machine.Reachable.of_run (.init rfl) hrun, fun h => ?_⟩
    have hnot := pairwise_pair.1 h
    exact hnot (.inl hroot)
  · have hnames : ignoredFolders [47, 97] = [[47, 97]] := by decide
    rw [ignoredRight_iff ⟨_, rfl⟩, NoMistaken, hnames, forall_mem_singleton] at h
    rcases h with (⟨r, hr, -⟩ | hdrive) | ⟨-, ⟨f, hf, habs, hin⟩ | ⟨-, hnot⟩⟩
    · cases hr
    · cases hdrive
    · obtain rfl := mem_singleton.1 hf
      exact (within_iff_of_trimmed habs hgo.prefix).1 hin hgo
    · exact hnot hgo

end Pclsync.Syncer
