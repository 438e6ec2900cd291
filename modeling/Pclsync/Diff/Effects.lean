import Pclsync.Diff.Batch
import Pclsync.Diff.Frame
import Pclsync.Sql.Table

/-!
# What the events do to the folders, the files and the used quota

One function on the folders, the files and the used quota (`Remote`) for each of the handlers, and
for each of the functions which enter an answer of the server before its event comes:
`psync_ops_create_folder_in_db` of `pfileops.c`, and `psync_diff_create_file`,
`psync_diff_update_file` and `psync_diff_delete_file` of `pdiff.c`.

* `triple_process_createfolder` etc.: when a handler ends, it did what its function says.
-/

namespace Pclsync.Diff

open Sql Sql.Program Sql.Table Option

/-- The id of a row of `folder`. -/
abbrev FolderRow.key (r : FolderRow) : ℕ := r.id

/-- The folders, the files and the used quota. -/
@[ext] structure Remote where
  folder : List FolderRow
  file : List File
  used_quota : UInt64

namespace Remote

/-- What a database and a memory have of it. -/
def ofTables (d : Tables) (m : Memory) : Remote := ⟨d.folder, d.file, m.used_quota⟩

/-! ## Changes of the tables -/

/-- A folder is inserted, unless it is there. -/
def insertFolder (row : Folder) (l : List FolderRow) : List FolderRow :=
  if (lookup FolderRow.key l row.id).isSome then l else l ++ [{ row with subdircnt := 0 }]

/-- A folder is updated. -/
def updateFolder (row : Folder) (l : List FolderRow) : List FolderRow :=
  update FolderRow.key l row.id fun r => { row with subdircnt := r.subdircnt }

/-- A folder is inserted, or updated. -/
def putFolder (row : Folder) (l : List FolderRow) : List FolderRow :=
  if (lookup FolderRow.key l row.id).isSome then updateFolder row l else insertFolder row l

/-- The number of subfolders of a folder is changed. -/
def addSubdircnt (n : ℤ) (mtime id : ℕ) (l : List FolderRow) : List FolderRow :=
  update FolderRow.key l id fun r => { r with mtime := mtime, subdircnt := r.subdircnt + n }

/-- A file is inserted, unless it is there. -/
def insertFile (row : File) (l : List File) : List File :=
  if (lookup File.id l row.id).isSome then l else l ++ [row]

/-- A file is updated. -/
def updateFile (row : File) (l : List File) : List File := update File.id l row.id fun _ => row

/-- A file is inserted, or updated. -/
def putFile (row : File) (l : List File) : List File :=
  if (lookup File.id l row.id).isSome then updateFile row l else insertFile row l

/-- A file that was replaced is deleted. -/
def dropFile (deletedfileid : Option ℕ) (l : List File) : List File :=
  deletedfileid.elim l (without File.id l)

/-! ## Events -/

/-- What a file adds to the used quota. -/
def amount (metadata : BinResult) : UInt64 :=
  if metadata.findBool "ismine" then UInt64.ofNat (metadata.findNum "size") else 0

/-- What a row of `file` has of the used quota. -/
def own (env : Env) (row : File) : UInt64 :=
  if row.userid = env.psync_my_userid then UInt64.ofNat row.size else 0

/-- `createfolder`. -/
def createfolder (row : Folder) (r : Remote) : Remote :=
  { r with folder := addSubdircnt 1 row.mtime row.parentfolderid (putFolder row r.folder) }

/-- `modifyfolder`. -/
def modifyfolder (row : Folder) (r : Remote) : Remote :=
  match lookup FolderRow.key r.folder row.id with
  | none => createfolder row r
  | some old =>
    { r with
      folder :=
        if old.parentfolderid ≠ row.parentfolderid then
          addSubdircnt 1 row.mtime row.parentfolderid
            (addSubdircnt (-1) row.mtime old.parentfolderid (updateFolder row r.folder))
        else updateFolder row r.folder }

/-- `deletefolder`. -/
def deletefolder (metadata : BinResult) (r : Remote) : Remote :=
  if (lookup FolderRow.key r.folder (metadata.findNum "folderid")).isSome then
    { r with
      folder :=
        addSubdircnt (-1) (metadata.findNum "modified") (metadata.findNum "parentfolderid")
          (without FolderRow.key r.folder (metadata.findNum "folderid")) }
  else r

/-- `createfile`. -/
def createfile (env : Env) (metadata : BinResult) (r : Remote) : Remote :=
  { r with
    file := putFile (fileOf env metadata) (dropFile (metadata.checkNum "deletedfileid") r.file)
    used_quota := r.used_quota + amount metadata }

/-- `modifyfile`. -/
def modifyfile (env : Env) (metadata : BinResult) (r : Remote) : Remote :=
  match lookup File.id r.file (metadata.findNum "fileid") with
  | none => createfile env metadata r
  | some old =>
    { r with
      file := updateFile (fileOf env metadata) (dropFile (metadata.checkNum "deletedfileid") r.file)
      used_quota := r.used_quota - own env old + amount metadata }

/-- `deletefile`. -/
def deletefile (metadata : BinResult) (r : Remote) : Remote :=
  if (lookup File.id r.file (metadata.findNum "fileid")).isSome then
    { r with
      file := without File.id r.file (metadata.findNum "fileid")
      used_quota := r.used_quota - amount metadata }
  else r

/-- `psync_ops_create_folder_in_db`. -/
def enterFolder (row : Folder) (r : Remote) : Remote :=
  { r with folder := insertFolder row r.folder }

/-- `psync_diff_create_file`. -/
def enterFile (env : Env) (metadata : BinResult) (r : Remote) : Remote :=
  { r with
    file := insertFile (fileOf env metadata) (dropFile (metadata.checkNum "deletedfileid") r.file) }

end Remote

/-- The row which `psync_ops_create_folder_in_db` inserts: of the flags it reads one. -/
def enteredFolder (env : Env) (metadata : BinResult) : Folder :=
  { folderOf env metadata with
    flags := if metadata.checkBool "encrypted" = some true then 1 else 0 }

/-- `psync_ops_create_folder_in_db`. -/
def psync_ops_create_folder_in_db (env : Env) (metadata : BinResult) : Handler Unit :=
  execute (.insertFolder (enteredFolder env metadata))

/-- `psync_diff_create_file`. -/
def psync_diff_create_file (env : Env) (metadata : BinResult) : Handler Unit := do
  let row := fileOf env metadata
  check_for_deletedfileid metadata
  execute (.insertFile row)
  execute (.replaceRevision row.id row.hash (metadata.findNum "modified") row.size)

/-- `create_entry`: the entry which a handler is given, without an event. -/
def create_entry (metadata : BinResult) : BinResult := .hash [("metadata", metadata)]

/-- `start_download`. -/
def start_download : Handler Unit := clearNeeddownload

/-- `psync_diff_update_file`. -/
def psync_diff_update_file (env : Env) (metadata : BinResult) : Handler Unit := do
  process_modifyfile env (create_entry metadata)
  start_download

/-- `psync_diff_delete_file`. -/
def psync_diff_delete_file (env : Env) (metadata : BinResult) : Handler Unit := do
  process_deletefile env (create_entry metadata)
  start_download

/-! ## Programs which are apart -/

/-- The database and the memory have these folders, files and used quota. -/
def At (r : Remote) (d : Tables) (m : Memory) : Prop := Remote.ofTables d m = r

theorem apart_at (r : Remote) : Apart (At r) := by
  intro d d' m m' hfolder hfile hquota h
  unfold At Remote.ofTables at h ⊢
  rw [hfolder, hfile, hquota, h]

variable {r r' : Remote} {env : Env} {metadata entry : BinResult}

/-! ## Statements -/

namespace Remote

theorem run_insertFolder (row : Folder) (d : Tables) :
    (d.insertFolder row).2 = { d with folder := insertFolder row d.folder } := by
  unfold Tables.insertFolder insertFolder
  by_cases h : ∃ r ∈ d.folder, r.id = row.id
  · rw [if_pos h, if_pos (isSome_lookup.2 h)]
  · rw [if_neg h, if_neg (mt isSome_lookup.1 h)]

theorem affected_insertFolder (row : Folder) (d : Tables) :
    (d.insertFolder row).1.affected = 0 ↔ (lookup FolderRow.key d.folder row.id).isSome := by
  unfold Tables.insertFolder
  rw [isSome_lookup]
  split
  · exact iff_of_true rfl ‹_›
  · exact iff_of_false Nat.one_ne_zero ‹_›

theorem run_insertFile (row : File) (d : Tables) :
    (d.insertFile row).2 = { d with file := insertFile row d.file } := by
  unfold Tables.insertFile insertFile
  by_cases h : ∃ r ∈ d.file, r.id = row.id
  · rw [if_pos h, if_pos (isSome_lookup.2 h)]
  · rw [if_neg h, if_neg (mt isSome_lookup.1 h)]

theorem affected_insertFile (row : File) (d : Tables) :
    (d.insertFile row).1.affected = 0 ↔ (lookup File.id d.file row.id).isSome := by
  unfold Tables.insertFile
  rw [isSome_lookup]
  split
  · exact iff_of_true rfl ‹_›
  · exact iff_of_false Nat.one_ne_zero ‹_›

end Remote

theorem At.folder {d : Tables} {m : Memory} {l : List FolderRow} (h : At r d m) :
    At { r with folder := l } { d with folder := l } m := by
  rw [← show Remote.ofTables d m = r from h]
  rfl

theorem At.file {d : Tables} {m : Memory} {l : List File} (h : At r d m) :
    At { r with file := l } { d with file := l } m := by
  rw [← show Remote.ofTables d m = r from h]
  rfl

theorem At.folder_eq {d : Tables} {m : Memory} (h : At r d m) : d.folder = r.folder :=
  congrArg Remote.folder h

theorem At.file_eq {d : Tables} {m : Memory} (h : At r d m) : d.file = r.file :=
  congrArg Remote.file h

theorem triple_addQuota (size : ℕ) : Triple Tables.engine (At r) (addQuota size) fun _ =>
      At { r with used_quota := r.used_quota + UInt64.ofNat size } := by
  refine .modifyMemory fun d m h => ?_
  rw [← show Remote.ofTables d m = r from h]
  rfl

theorem triple_subQuota (size : ℕ) : Triple Tables.engine (At r) (subQuota size) fun _ =>
      At { r with used_quota := r.used_quota - UInt64.ofNat size } := by
  refine .modifyMemory fun d m h => ?_
  rw [← show Remote.ofTables d m = r from h]
  rfl

theorem triple_updateFolder (row : Folder) :
    Triple Tables.engine (At r) (execute (.updateFolder row) : Handler Unit) fun _ =>
      At { r with folder := Remote.updateFolder row r.folder } :=
  .execute fun _ _ h => h.folder_eq ▸ h.folder

theorem triple_incSubdircnt (mtime id : ℕ) :
    Triple Tables.engine (At r) (execute (.incSubdircnt mtime id) : Handler Unit) fun _ =>
      At { r with folder := Remote.addSubdircnt 1 mtime id r.folder } :=
  .execute fun _ _ h => h.folder_eq ▸ h.folder

theorem triple_decSubdircnt (mtime id : ℕ) :
    Triple Tables.engine (At r) (execute (.decSubdircnt mtime id) : Handler Unit) fun _ =>
      At { r with folder := Remote.addSubdircnt (-1) mtime id r.folder } :=
  .execute fun _ _ h => h.folder_eq ▸ h.folder

theorem triple_updateFile (row : File) :
    Triple Tables.engine (At r) (execute (.updateFile row) : Handler Unit) fun _ =>
      At { r with file := Remote.updateFile row r.file } :=
  .execute fun _ _ h => h.file_eq ▸ h.file

/-- `INSERT OR IGNORE`, and an `UPDATE` if it did nothing. -/
theorem triple_putFolder {row : Folder} {rest : Handler Unit} {post : Unit → Tables → Memory → Prop}
    (hrest : Triple Tables.engine (At { r with folder := Remote.putFolder row r.folder }) rest
      post) :
    Triple Tables.engine (At r) (do
      let ran ← statement (.insertFolder row)
      if ran.affected = 0 then do
        execute (.updateFolder row)
        rest
      else rest) post := by
  have hstatement : Triple Tables.engine (At r) (statement (.insertFolder row) : Handler Ran)
      fun ran d m => At { r with folder := Remote.insertFolder row r.folder } d m ∧
        (ran.affected = 0 ↔ (lookup FolderRow.key r.folder row.id).isSome) := by
    refine .statement fun d m h => ⟨?_, h.folder_eq ▸ Remote.affected_insertFolder row d⟩
    change At _ (d.insertFolder row).2 m
    rw [Remote.run_insertFolder, h.folder_eq]
    exact h.folder
  refine .bind hstatement fun ran => .assuming fun hran => ?_
  unfold Remote.putFolder at hrest
  split
  · rename_i haffected
    have hthere := hran.1 haffected
    have hinsert : Remote.insertFolder row r.folder = r.folder := if_pos hthere
    rw [if_pos hthere] at hrest
    rw [hinsert]
    exact .bind (triple_updateFolder row) fun _ => hrest
  · rename_i haffected
    rwa [if_neg (mt hran.2 haffected)] at hrest

@[inherit_doc triple_putFolder]
theorem triple_putFile {row : File} {rest : Handler Unit} {post : Unit → Tables → Memory → Prop}
    (hrest : Triple Tables.engine (At { r with file := Remote.putFile row r.file }) rest post) :
    Triple Tables.engine (At r) (do
      let ran ← statement (.insertFile row)
      if ran.affected = 0 then do
        execute (.updateFile row)
        rest
      else rest) post := by
  have hstatement : Triple Tables.engine (At r) (statement (.insertFile row) : Handler Ran)
      fun ran d m => At { r with file := Remote.insertFile row r.file } d m ∧
        (ran.affected = 0 ↔ (lookup File.id r.file row.id).isSome) := by
    refine .statement fun d m h => ⟨?_, h.file_eq ▸ Remote.affected_insertFile row d⟩
    change At _ (d.insertFile row).2 m
    rw [Remote.run_insertFile, h.file_eq]
    exact h.file
  refine .bind hstatement fun ran => .assuming fun hran => ?_
  unfold Remote.putFile at hrest
  split
  · rename_i haffected
    have hthere := hran.1 haffected
    have hinsert : Remote.insertFile row r.file = r.file := if_pos hthere
    rw [if_pos hthere] at hrest
    rw [hinsert]
    exact .bind (triple_updateFile row) fun _ => hrest
  · rename_i haffected
    rwa [if_neg (mt hran.2 haffected)] at hrest

/-! ## Folder events -/

theorem triple_process_createfolder :
    Triple Tables.engine (At r) (process_createfolder env entry) fun _ =>
      At (r.createfolder (folderOf env (entry.findHash "metadata"))) := by
  have hat := apart_at (r.createfolder (folderOf env (entry.findHash "metadata")))
  unfold process_createfolder
  dsimp only
  refine triple_putFolder (.bind (triple_incSubdircnt _ _) fun _ => ?_)
  refine Keeps.bind (keeps_is_folder_in_downloadlist _) fun _ => .ite ?_ (.pure _)
  exact .bind (hat.psync_add_folder_to_downloadlist _) fun _ =>
    .bind (.query _) fun _ => .forM fun _ => hat.createSynced env _ _

theorem triple_modifyfolder {old row : Folder}
    (hold : (lookup FolderRow.key r.folder row.id).map FolderRow.toFolder = some old) :
    Triple Tables.engine (At r) (modifyfolder env old row) fun _ => At (r.modifyfolder row) := by
  obtain ⟨found, hfound, rfl⟩ := map_eq_some_iff.1 hold
  have hat := apart_at (r.modifyfolder row)
  have hrest : Keeps Tables.engine (At (r.modifyfolder row)) (do
      let oldsync ← psync_is_folder_in_downloadlist found.parentfolderid
      let newsync ← psync_is_folder_in_downloadlist row.parentfolderid
      if (oldsync ∨ newsync) ∧
          (found.parentfolderid ≠ row.parentfolderid ∨ row.name ≠ found.name) then
        moveSynced env found.toFolder row oldsync newsync : Handler Unit) :=
    .bind (keeps_is_folder_in_downloadlist _) fun _ =>
      .bind (keeps_is_folder_in_downloadlist _) fun _ =>
      .ite (hat.moveSynced env _ _ _ _) (.pure _)
  unfold modifyfolder
  dsimp only
  refine .bind (triple_updateFolder row) fun _ => ?_
  unfold Remote.modifyfolder at hrest ⊢
  simp only [hfound] at hrest ⊢
  split at hrest
  · rw [if_pos ‹_›, if_pos ‹_›]
    exact .bind (triple_decSubdircnt _ _) fun _ => .bind (triple_incSubdircnt _ _) fun _ => hrest
  · rw [if_neg ‹_›, if_neg ‹_›]
    exact hrest

theorem triple_psync_delete_backup_device {I : Tables → Memory → Prop} (folderid : ℕ) :
    Call.Triple (InTransaction I) (psync_delete_backup_device Tables.engine true folderid)
      fun _ => InTransaction I := by
  unfold psync_delete_backup_device
  refine .bind (.lift (Keeps.query _)) fun bFId => ?_
  dsimp only
  split
  · have hstart : Call.Triple (InTransaction I)
        (Call.psync_sql_start_transaction : Call Stmt Tables Memory Unit) fun _ _ => False :=
      .psync_sql_start_transaction
    exact .bind hstart fun _ _ _ _ _ h => h.elim
  · exact .pure fun _ h => h

theorem Apart.psync_delete_sync_by_folderid {I : Tables → Memory → Prop} (hI : Apart I)
    (folderid : ℕ) : Keeps Tables.engine I (psync_delete_sync_by_folderid folderid) := by
  refine .bind (.query _) fun syncid => ?_
  cases syncid with
  | none => exact .pure _
  | some syncid => exact hI.modifyMemory fun _ => rfl

theorem triple_process_modifyfolder :
    Call.Triple (InTransaction (At r)) (process_modifyfolder Tables.engine env true entry)
      fun _ => InTransaction (At (r.modifyfolder (folderOf env (entry.findHash "metadata")))) := by
  set row := folderOf env (entry.findHash "metadata") with hrow
  have hquery : Triple Tables.engine (At r) (query (.folder row.id) : Handler _) fun a d m =>
      At r d m ∧ (lookup FolderRow.key r.folder row.id).map FolderRow.toFolder = a :=
    .query fun d m h => ⟨h, h.folder_eq ▸ rfl⟩
  unfold process_modifyfolder
  refine .bind (.lift hquery) fun found => ?_
  cases found with
  | none =>
    refine .lift (.assuming fun hnone => ?_)
    have hmodify : r.modifyfolder row = r.createfolder row := by
      unfold Remote.modifyfolder
      rw [map_eq_none_iff.1 hnone]
    exact hmodify ▸ triple_process_createfolder
  | some old =>
    refine Call.Triple.assuming fun hold => ?_
    exact .bind (.onlyIf fun _ => .lift ((apart_at r).psync_delete_sync_by_folderid _)) fun _ =>
      .bind (.onlyIf fun _ => triple_psync_delete_backup_device _) fun _ =>
      .lift (triple_modifyfolder hold)

theorem triple_process_deletefolder :
    Triple Tables.engine (At r) (process_deletefolder env entry) fun _ =>
      At (r.deletefolder (entry.findHash "metadata")) := by
  set folderid := (entry.findHash "metadata").findNum "folderid" with hfolderid
  have hdelete : Triple Tables.engine (At r) (statement (.deleteFolder folderid) : Handler Ran)
      fun ran d m => At { r with folder := without FolderRow.key r.folder folderid } d m ∧
        (ran.affected = 0 ↔ (lookup FolderRow.key r.folder folderid).isSome = false) :=
    .statement fun d m h => ⟨h.folder_eq ▸ h.folder, h.folder_eq ▸ length_filter_key⟩
  have hrest : Triple Tables.engine (At r) (do
      let ran ← statement (.deleteFolder folderid)
      if ran.affected ≠ 0 then
        execute (.decSubdircnt ((entry.findHash "metadata").findNum "modified")
          ((entry.findHash "metadata").findNum "parentfolderid"))
        psync_fs_folder_deleted folderid : Handler Unit) fun _ =>
        At (r.deletefolder (entry.findHash "metadata")) := by
    refine .bind hdelete fun ran => .assuming fun hran => ?_
    unfold Remote.deletefolder
    rw [← hfolderid]
    split
    · rename_i haffected
      have hthere := Bool.of_not_eq_false (mt hran.2 haffected)
      rw [if_pos hthere]
      exact .bind (triple_decSubdircnt _ _) fun _ => (apart_at _).execute rfl
    · rename_i haffected
      have hnone := hran.1 (not_not.1 haffected)
      rw [if_neg (Bool.not_eq_true _ ▸ hnone), without_eq_self
        (isNone_iff_eq_none.1 (isSome_eq_false_iff.1 hnone))]
      exact .pure fun _ _ h => h
  unfold process_deletefolder
  dsimp only
  refine Triple.bind (keeps_is_folder_in_downloadlist _) fun _ => ?_
  split
  · exact .bind ((apart_at r).psync_del_folder_from_downloadlist _) fun _ =>
      Triple.bind (Keeps.query _) fun _ =>
      Triple.bind (Keeps.forM fun _ => (apart_at r).deleteSyncedFolder env _ _) fun _ => hrest
  · exact hrest

/-! ## File events -/

theorem triple_check_for_deletedfileid :
    Triple Tables.engine (At r) (check_for_deletedfileid metadata) fun _ =>
      At { r with file := Remote.dropFile (metadata.checkNum "deletedfileid") r.file } := by
  unfold check_for_deletedfileid
  cases metadata.checkNum "deletedfileid" with
  | none => exact .pure fun _ _ h => h
  | some delfileid =>
    have hdelete : Triple Tables.engine (At r) (execute (.deleteFile delfileid) : Handler Unit)
        fun _ => At { r with file := without File.id r.file delfileid } :=
      .execute fun d m h => h.file_eq ▸ h.file
    exact .bind hdelete fun _ => (apart_at _).execute rfl

/-- A part that is done on a condition, before the rest. -/
theorem triple_ifThen {c : Prop} [Decidable c] {p rest : Handler Unit}
    {post : Unit → Tables → Memory → Prop}
    (hp : c → Triple Tables.engine (At r) p fun _ => At r') (hn : ¬ c → r = r')
    (hrest : Triple Tables.engine (At r') rest post) :
    Triple Tables.engine (At r) (if c then do
      p
      rest
      else rest) post := by
  split
  · exact .bind (hp ‹_›) fun _ => hrest
  · exact hn ‹_› ▸ hrest

variable (r metadata) in
/-- What a file adds to the used quota is added. -/
theorem triple_addQuota_amount {rest : Handler Unit} {post : Unit → Tables → Memory → Prop}
    (hrest : Triple Tables.engine
      (At { r with used_quota := r.used_quota + Remote.amount metadata }) rest post) :
    Triple Tables.engine (At r) (if metadata.findBool "ismine" = true then do
      addQuota (metadata.findNum "size")
      rest
      else rest) post := by
  refine triple_ifThen (fun h => ?_) (fun h => ?_) hrest
  · rw [Remote.amount, if_pos h]
    exact triple_addQuota _
  · rw [Remote.amount, if_neg h, UInt64.add_zero]

theorem triple_process_createfile :
    Triple Tables.engine (At r) (process_createfile env entry) fun _ =>
      At (r.createfile env (entry.findHash "metadata")) := by
  have hat := apart_at (r.createfile env (entry.findHash "metadata"))
  unfold process_createfile
  dsimp only
  refine triple_addQuota_amount _ _ (.bind triple_check_for_deletedfileid fun _ =>
    triple_putFile (Keeps.bind (hat.execute rfl) fun _ => ?_))
  exact Keeps.bind (keeps_is_folder_in_downloadlist _) fun _ =>
    .ite (.bind (.query _) fun _ => .forM fun _ => hat.downloadUnlessThere _ _) (.pure _)

theorem triple_process_modifyfile :
    Triple Tables.engine (At r) (process_modifyfile env entry) fun _ =>
      At (r.modifyfile env (entry.findHash "metadata")) := by
  have hat := apart_at (r.modifyfile env (entry.findHash "metadata"))
  have hquery : Triple Tables.engine (At r)
      (query (.file (fileOf env (entry.findHash "metadata")).id) : Handler _) fun a d m =>
        At r d m ∧ lookup File.id r.file ((entry.findHash "metadata").findNum "fileid") = a :=
    .query fun d m h => ⟨h, h.file_eq ▸ rfl⟩
  unfold process_modifyfile
  dsimp only
  refine .bind hquery fun found => .assuming fun hfound => ?_
  cases found with
  | none =>
    have hmodify : r.modifyfile env (entry.findHash "metadata") =
        r.createfile env (entry.findHash "metadata") := by
      unfold Remote.modifyfile
      rw [hfound]
    exact hmodify ▸ triple_process_createfile
  | some old =>
    unfold Remote.modifyfile at hat ⊢
    simp only [hfound] at hat ⊢
    have hown : old.userid = env.psync_my_userid →
        Triple Tables.engine (At r) (subQuota old.size) fun _ =>
          At { r with used_quota := r.used_quota - Remote.own env old } := fun h => by
      rw [Remote.own, if_pos h]
      exact triple_subQuota _
    have hother : ¬ old.userid = env.psync_my_userid →
        r = { r with used_quota := r.used_quota - Remote.own env old } := fun h => by
      rw [Remote.own, if_neg h, UInt64.sub_zero]
    refine triple_ifThen hown hother ?_
    refine triple_ifThen (fun _ => (apart_at _).execute rfl) (fun _ => rfl) ?_
    refine triple_addQuota_amount _ _ (.bind triple_check_for_deletedfileid fun _ =>
      .bind (triple_updateFile _) fun _ => Keeps.bind (hat.execute rfl) fun _ => ?_)
    exact Keeps.bind (keeps_is_folder_in_downloadlist _) fun _ =>
      Keeps.bind (keeps_is_folder_in_downloadlist _) fun _ =>
      .ite (hat.modifySyncedFile env _ _) (.pure _)

theorem triple_process_deletefile :
    Triple Tables.engine (At r) (process_deletefile env entry) fun _ =>
      At (r.deletefile (entry.findHash "metadata")) := by
  have hat := apart_at r
  set metadata := entry.findHash "metadata" with hmetadata
  have hdelete : Triple Tables.engine (At r)
      (statement (.deleteFile (metadata.findNum "fileid")) : Handler Ran)
      fun ran d m => At { r with file := without File.id r.file (metadata.findNum "fileid") } d m ∧
        (ran.affected = 0 ↔ (lookup File.id r.file (metadata.findNum "fileid")).isSome = false) :=
    .statement fun d m h => ⟨h.file_eq ▸ h.file, h.file_eq ▸ length_filter_key⟩
  have hrest : Triple Tables.engine (At r) (do
      let ran ← statement (.deleteFile (metadata.findNum "fileid"))
      if ran.affected ≠ 0 then
        if metadata.findBool "ismine" then subQuota (metadata.findNum "size")
        psync_fs_file_deleted (metadata.findNum "fileid") : Handler Unit) fun _ =>
        At (r.deletefile metadata) := by
    refine .bind hdelete fun ran => .assuming fun hran => ?_
    unfold Remote.deletefile
    dsimp only
    split
    · rename_i haffected
      have hthere := Bool.of_not_eq_false (mt hran.2 haffected)
      rw [if_pos hthere]
      refine triple_ifThen (fun h => ?_) (fun h => ?_) ((apart_at _).execute rfl)
      · rw [Remote.amount, if_pos h]
        exact triple_subQuota _
      · rw [Remote.amount, if_neg h, UInt64.sub_zero]
    · rename_i haffected
      have hnone := hran.1 (not_not.1 haffected)
      rw [if_neg (Bool.not_eq_true _ ▸ hnone), without_eq_self
        (isNone_iff_eq_none.1 (isSome_eq_false_iff.1 hnone))]
      exact .pure fun _ _ h => h
  unfold process_deletefile
  dsimp only
  refine Triple.bind (keeps_is_folder_in_downloadlist _) fun _ => ?_
  split
  · refine Triple.bind (hat.execute rfl) fun _ =>
      Triple.bind (keeps_get_path_by_fileid env _) fun path => ?_
    split
    · exact Triple.bind (hat.execute rfl) fun _ => Triple.bind hat.setNeeddownload fun _ => hrest
    · exact hrest
  · exact hrest

/-! ## Answers of the server -/

theorem triple_psync_ops_create_folder_in_db :
    Triple Tables.engine (At r) (psync_ops_create_folder_in_db env metadata) fun _ =>
      At (r.enterFolder (enteredFolder env metadata)) := by
  refine .execute fun d m h => ?_
  change At _ (d.insertFolder _).2 m
  rw [Remote.run_insertFolder, h.folder_eq]
  exact h.folder

theorem triple_psync_diff_create_file :
    Triple Tables.engine (At r) (psync_diff_create_file env metadata) fun _ =>
      At (r.enterFile env metadata) := by
  have hinsert : ∀ r' : Remote, Triple Tables.engine (At r')
      (execute (.insertFile (fileOf env metadata)) : Handler Unit) fun _ =>
        At { r' with file := Remote.insertFile (fileOf env metadata) r'.file } := by
    refine fun r' => .execute fun d m h => ?_
    change At _ (d.insertFile _).2 m
    rw [Remote.run_insertFile, h.file_eq]
    exact h.file
  exact .bind triple_check_for_deletedfileid fun _ => .bind (hinsert _) fun _ =>
    (apart_at _).execute rfl

theorem keeps_start_download : Keeps Tables.engine (At r) start_download :=
  (apart_at r).modifyMemory fun _ => rfl

theorem triple_psync_diff_update_file :
    Triple Tables.engine (At r) (psync_diff_update_file env metadata) fun _ =>
      At (r.modifyfile env ((create_entry metadata).findHash "metadata")) :=
  .bind triple_process_modifyfile fun _ => keeps_start_download

theorem triple_psync_diff_delete_file :
    Triple Tables.engine (At r) (psync_diff_delete_file env metadata) fun _ =>
      At (r.deletefile ((create_entry metadata).findHash "metadata")) :=
  .bind triple_process_deletefile fun _ => keeps_start_download

end Pclsync.Diff
