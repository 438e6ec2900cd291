import Pclsync.Sql.AutoTable

/-!
# Rows of local folders

`psync_create_local_folder_in_db` (`psyncer.c`) gives the row of `localfolder` for a folder of the
server in a sync. In turn:

* a row of the sync which has the folder id is taken as it is;
* a row is inserted, which the index over sync, parent and name may refuse;
* the row in the way is taken: it gets the folder id, and its task counter goes up.

The statement that sets the folder id has its two parameters the wrong way round: it stores the
*row id* as the folder id of the row whose id is the *folder id*. `createLocalFolderInDb_spec` says
when what comes out is right nevertheless.
-/

namespace Pclsync.Syncer

open List

/-- A row of `localfolder`, other than the root's row 0. -/
structure LocalFolder where
  id : ℕ
  localparentfolderid : ℕ
  /-- `NULL` until the folder is known to the server. -/
  folderid : Option ℕ
  syncid : ℕ
  inode : Option ℕ
  deviceid : Option ℕ
  mtime : Option ℕ
  mtimenative : Option ℕ
  flags : ℕ
  taskcnt : Option ℕ
  name : List UInt8

/-- The columns of the index `klocalfolderpsn`. -/
def LocalFolder.key (r : LocalFolder) : ℕ × ℕ × List UInt8 :=
  (r.syncid, r.localparentfolderid, r.name)

/-- The tables. -/
structure Db where
  /-- The ids in `syncfolder`, to which `syncid` refers. -/
  syncs : List ℕ
  folders : Sql.AutoTable LocalFolder.id LocalFolder.key

/-- `psync_invalid_filename_chars`: the slash. -/
def invalidFilenameChar (c : UInt8) : Bool := c == 47

/-- The copy of the name with `_` for the characters which are invalid. -/
def validName (name : List UInt8) : List UInt8 :=
  name.map fun c => if invalidFilenameChar c then 95 else c

namespace Db

variable (db : Db)

/-- `SELECT id FROM localfolder WHERE syncid=? AND folderid=?`, the first row. -/
def findFolder (syncid folderid : ℕ) : Option LocalFolder :=
  db.folders.rows.find? fun r => r.syncid = syncid ∧ r.folderid = some folderid

/-- `SELECT id, folderid FROM localfolder WHERE localparentfolderid=? AND syncid=? AND name=?`. -/
def findName (localparentfolderid syncid : ℕ) (name : List UInt8) : Option LocalFolder :=
  db.folders.rows.find? fun r => r.key = (syncid, localparentfolderid, name)

/-- `UPDATE localfolder SET folderid=? WHERE id=?`, with its parameters in this order. -/
def setFolderid (folderid id : ℕ) : Db :=
  { db with
    folders := db.folders.update (fun r => r.id = id)
      (fun r => { r with folderid := some folderid }) fun _ => rfl }

/-- `psync_increase_local_folder_taskcnt`. -/
def increaseLocalFolderTaskcnt (lfolderid : ℕ) : Db :=
  { db with
    folders := db.folders.update (fun r => r.id = lfolderid)
      (fun r => { r with taskcnt := r.taskcnt.map (· + 1) }) fun _ => rfl }

/-- The foreign keys of a new row exist; the row 0 is there from the start. -/
def references (syncid localparentfolderid : ℕ) : Bool :=
  syncid ∈ db.syncs ∧
    (localparentfolderid = 0 ∨ localparentfolderid ∈ db.folders.rows.map LocalFolder.id)

/-- The row that is inserted. -/
def newRow (syncid folderid localparentfolderid : ℕ) (name : List UInt8) (id : ℕ) :
    LocalFolder where
  id := id
  localparentfolderid := localparentfolderid
  folderid := some folderid
  syncid := syncid
  inode := none
  deviceid := none
  mtime := none
  mtimenative := none
  flags := 0
  taskcnt := some 1
  name := name

theorem newRow_id {syncid folderid localparentfolderid : ℕ} {name : List UInt8} (id : ℕ) :
    (newRow syncid folderid localparentfolderid name id).id = id := rfl

/-- `INSERT OR IGNORE INTO localfolder …`, with the new row id. -/
def insertFolder (syncid folderid localparentfolderid : ℕ) (name : List UInt8) :
    Sql.AutoTable LocalFolder.id LocalFolder.key × Option ℕ :=
  db.folders.insertOrIgnore (db.references syncid localparentfolderid)
    (newRow syncid folderid localparentfolderid name) newRow_id

/-- `psync_create_local_folder_in_db`. -/
def createLocalFolderInDb (syncid folderid localparentfolderid : ℕ) (name : List UInt8) : Db × ℕ :=
  match db.findFolder syncid folderid with
  | some r => (db, r.id)
  | none =>
    let name := validName name
    let inserted := db.insertFolder syncid folderid localparentfolderid name
    let db := { db with folders := inserted.1 }
    match inserted.2 with
    | some lfolderid => (db, lfolderid)
    | none =>
      match db.findName localparentfolderid syncid name with
      | some r =>
        let db := if r.folderid.getD 0 ≠ folderid then db.setFolderid r.id folderid else db
        (db.increaseLocalFolderTaskcnt r.id, r.id)
      -- the row 0, which is counted instead, has no counter
      | none => (db.increaseLocalFolderTaskcnt 0, 0)

end Db

/-! ## What the row has to be -/

/-- The row given, and what else the call may change. -/
structure Created (db db' : Db) (syncid folderid localparentfolderid : ℕ) (name : List UInt8)
    (lfolderid : ℕ) : Prop where
  /-- The row has the folder id, at its place or where the sync had it before. -/
  row : ∃ r ∈ db'.folders.rows, r.id = lfolderid ∧ r.syncid = syncid ∧ r.folderid = some folderid ∧
    (r.key = (syncid, localparentfolderid, validName name) ∨
      ∃ r₀ ∈ db.folders.rows, r₀.id = lfolderid ∧ r₀.syncid = syncid ∧
        r₀.folderid = some folderid)
  /-- A row which is at the place is used again. -/
  reused : ∀ r ∈ db.folders.rows, r.key = (syncid, localparentfolderid, validName name) →
    db'.folders.rows.map LocalFolder.id = db.folders.rows.map LocalFolder.id ∧
      (db.findFolder syncid folderid = none → lfolderid = r.id)
  /-- The other rows stay. -/
  frame : ∀ r, r.id ≠ lfolderid → (r ∈ db'.folders.rows ↔ r ∈ db.folders.rows)
  /-- A row that was there gets the folder id and another counter. -/
  kept : ∀ r ∈ db.folders.rows, r.id = lfolderid → ∃ taskcnt,
    { r with folderid := some folderid, taskcnt := taskcnt } ∈ db'.folders.rows

/-- The folder is known in the sync; or its place is free; or the row there has the *row* id that is
    the folder id. -/
def Settled (db : Db) (syncid folderid localparentfolderid : ℕ) (name : List UInt8) : Prop :=
  (∃ r ∈ db.folders.rows, r.syncid = syncid ∧ r.folderid = some folderid) ∨
    ((∀ r ∈ db.folders.rows, r.key ≠ (syncid, localparentfolderid, validName name)) ∧
      db.references syncid localparentfolderid) ∨
    ∃ r ∈ db.folders.rows, r.key = (syncid, localparentfolderid, validName name) ∧ r.id = folderid

namespace Db

variable {db db' : Db} {syncid folderid localparentfolderid lfolderid : ℕ} {name : List UInt8}
  {r : LocalFolder}

/-! ## The statements -/

theorem findFolder_eq_none : db.findFolder syncid folderid = none ↔
    ∀ r ∈ db.folders.rows, r.syncid = syncid → r.folderid ≠ some folderid := by
  simp [findFolder]

theorem findFolder_eq_some (h : db.findFolder syncid folderid = some r) :
    r ∈ db.folders.rows ∧ r.syncid = syncid ∧ r.folderid = some folderid :=
  ⟨mem_of_find?_eq_some h, by simpa using find?_some h⟩

theorem findName_eq_none : db.findName localparentfolderid syncid name = none ↔
    ∀ r ∈ db.folders.rows, r.key ≠ (syncid, localparentfolderid, name) := by
  simp [findName]

theorem findName_eq_some (h : db.findName localparentfolderid syncid name = some r) :
    r ∈ db.folders.rows ∧ r.key = (syncid, localparentfolderid, name) :=
  ⟨mem_of_find?_eq_some h, by simpa using find?_some h⟩

theorem rows_setFolderid (id : ℕ) : (db.setFolderid folderid id).folders.rows =
    db.folders.rows.map fun r => if r.id = id then { r with folderid := some folderid } else r := by
  rw [setFolderid, Sql.AutoTable.rows_update (by exact fun _ => rfl)]
  simp only [decide_eq_true_eq]

theorem rows_increaseTaskcnt (id : ℕ) : (db.increaseLocalFolderTaskcnt id).folders.rows =
    db.folders.rows.map fun r =>
      if r.id = id then { r with taskcnt := r.taskcnt.map (· + 1) } else r := by
  rw [increaseLocalFolderTaskcnt, Sql.AutoTable.rows_update (by exact fun _ => rfl)]
  simp only [decide_eq_true_eq]

theorem insertFolder_new (hrefs : db.references syncid localparentfolderid)
    (hfree : ∀ r ∈ db.folders.rows, r.key ≠ (syncid, localparentfolderid, name)) :
    (db.insertFolder syncid folderid localparentfolderid name).2 = some db.folders.next ∧
      (db.insertFolder syncid folderid localparentfolderid name).1.rows =
        db.folders.rows ++ [newRow syncid folderid localparentfolderid name db.folders.next] := by
  refine Sql.AutoTable.insertOrIgnore_new hrefs fun hmem => ?_
  obtain ⟨r, hr, hkey⟩ := mem_map.1 hmem
  exact hfree r hr hkey

theorem insertFolder_ignored (h : db.references syncid localparentfolderid = false ∨
    ∃ r ∈ db.folders.rows, r.key = (syncid, localparentfolderid, name)) :
    (db.insertFolder syncid folderid localparentfolderid name).2 = none ∧
      (db.insertFolder syncid folderid localparentfolderid name).1.rows = db.folders.rows :=
  Sql.AutoTable.insertOrIgnore_ignored (h.imp_right fun ⟨r, hr, hkey⟩ => mem_map.2 ⟨r, hr, hkey⟩)

theorem findName_congr {db₁ : Db} (h : db₁.folders.rows = db.folders.rows) :
    db₁.findName localparentfolderid syncid name = db.findName localparentfolderid syncid name := by
  rw [findName, findName, h]

theorem eq_of_id {s : LocalFolder} (hr : r ∈ db.folders.rows) (hs : s ∈ db.folders.rows)
    (h : r.id = s.id) : r = s :=
  inj_on_of_nodup_map db.folders.nodup_ident hr hs h

/-! ## The three ways -/

theorem created_of_known (h : db.findFolder syncid folderid = some r) :
    Created db db syncid folderid localparentfolderid name r.id := by
  obtain ⟨hr, hsync, hfolder⟩ := findFolder_eq_some h
  refine ⟨⟨r, hr, rfl, hsync, hfolder, .inr ⟨r, hr, rfl, hsync, hfolder⟩⟩,
    fun _ _ _ => ⟨rfl, fun hnone => ?_⟩, fun _ _ => Iff.rfl, fun s hs hid => ⟨s.taskcnt, ?_⟩⟩
  · rw [h] at hnone
    cases hnone
  · rw [eq_of_id hs hr hid, ← hfolder]
    exact hr

theorem created_of_inserted
    (hfree : ∀ r ∈ db.folders.rows, r.key ≠ (syncid, localparentfolderid, validName name))
    (hrows : db'.folders.rows = db.folders.rows ++
      [newRow syncid folderid localparentfolderid (validName name) db.folders.next]) :
    Created db db' syncid folderid localparentfolderid name db.folders.next := by
  refine ⟨⟨newRow syncid folderid localparentfolderid (validName name) db.folders.next, ?_, rfl,
    rfl, rfl, .inl rfl⟩, fun r hr hkey => absurd hkey (hfree r hr),
    fun r hid => ?_, fun r hr hid => ?_⟩
  · rw [hrows]
    exact mem_append_right _ (mem_singleton_self _)
  · rw [hrows, mem_append, mem_singleton]
    exact or_iff_left fun h => hid (congrArg LocalFolder.id h)
  · exact absurd hid (Nat.ne_of_lt (db.folders.lt_next r hr))

/-- The row in the way is taken, and it is the one that the statement changes. -/
theorem created_of_taken (hr : r ∈ db.folders.rows)
    (hkey : r.key = (syncid, localparentfolderid, validName name))
    (hsame : db'.folders.rows = db.folders.rows) :
    Created db ((db'.setFolderid r.id r.id).increaseLocalFolderTaskcnt r.id) syncid r.id
      localparentfolderid name r.id := by
  have hrows : ((db'.setFolderid r.id r.id).increaseLocalFolderTaskcnt r.id).folders.rows =
      db.folders.rows.map fun s => if s.id = r.id then
        { s with folderid := some r.id, taskcnt := s.taskcnt.map (· + 1) } else s := by
    rw [rows_increaseTaskcnt, rows_setFolderid, hsame, map_map]
    refine map_congr_left fun s _ => ?_
    dsimp only [Function.comp]
    split_ifs <;> rfl
  have hmem : { r with folderid := some r.id, taskcnt := r.taskcnt.map (· + 1) } ∈
      ((db'.setFolderid r.id r.id).increaseLocalFolderTaskcnt r.id).folders.rows := by
    rw [hrows]
    exact mem_map.2 ⟨r, hr, if_pos rfl⟩
  refine ⟨⟨_, hmem, rfl, congrArg Prod.fst hkey, rfl, .inl hkey⟩, fun s hs hs' => ⟨?_, fun _ => ?_⟩,
    fun s hid => ?_, fun s hs hid => ⟨s.taskcnt.map (· + 1), ?_⟩⟩
  · rw [hrows, map_map]
    refine map_congr_left fun s _ => ?_
    dsimp only [Function.comp]
    split_ifs <;> rfl
  · rw [db.folders.eq_of_key hr hs (hkey.trans hs'.symm)]
  · rw [hrows, mem_map]
    constructor
    · rintro ⟨x, hx, rfl⟩
      split_ifs at hid ⊢ with hxid
      · exact absurd hxid hid
      · exact hx
    · exact fun hs => ⟨s, hs, if_neg hid⟩
  · rw [eq_of_id hs hr hid]
    exact hmem

/-- The row in the way is not the one that the statement changes. -/
theorem not_created_of_other (hknown : db.findFolder syncid folderid = none)
    (hr : r ∈ db.folders.rows) (hkey : r.key = (syncid, localparentfolderid, validName name))
    (hne : r.id ≠ folderid) (hdb' : db'.folders.rows = db.folders.rows ∨
      db'.folders.rows = (db.setFolderid r.id folderid).folders.rows) :
    ¬ Created db (db'.increaseLocalFolderTaskcnt r.id) syncid folderid localparentfolderid name
      r.id := by
  rintro ⟨⟨s, hs, hid, hsync, hfolder, -⟩, -, -, -⟩
  rw [rows_increaseTaskcnt] at hs
  obtain ⟨x, hx, rfl⟩ := mem_map.1 hs
  have hold : ∃ y ∈ db.folders.rows, y.id = r.id ∧ y.folderid = some folderid := by
    have hxid : x.id = r.id := by split_ifs at hid <;> exact hid
    have hxfolder : x.folderid = some folderid := by
      rw [if_pos hxid] at hfolder
      exact hfolder
    rcases hdb' with hsame | hset
    · exact ⟨x, hsame ▸ hx, hxid, hxfolder⟩
    · rw [hset, rows_setFolderid] at hx
      obtain ⟨y, hy, rfl⟩ := mem_map.1 hx
      have hyid : y.id ≠ folderid := by
        intro h
        rw [if_pos h] at hxid
        exact hne (hxid.symm.trans h)
      rw [if_neg hyid] at hxid hxfolder
      exact ⟨y, hy, hxid, hxfolder⟩
  obtain ⟨y, hy, hyid, hyfolder⟩ := hold
  rw [eq_of_id hy hr hyid] at hyfolder
  exact findFolder_eq_none.1 hknown r hr (congrArg Prod.fst hkey) hyfolder

theorem not_created_zero : ¬ Created db db' syncid folderid localparentfolderid name 0 := by
  rintro ⟨⟨r, hr, hid, -⟩, -, -, -⟩
  exact Nat.ne_of_gt (db'.folders.pos r hr) hid

/-- The row is the right one exactly when the folder id is not stored for another row. -/
theorem createLocalFolderInDb_spec :
    Created db (db.createLocalFolderInDb syncid folderid localparentfolderid name).1 syncid folderid
      localparentfolderid name
      (db.createLocalFolderInDb syncid folderid localparentfolderid name).2 ↔
    Settled db syncid folderid localparentfolderid name := by
  rw [createLocalFolderInDb]
  cases hknown : db.findFolder syncid folderid with
  | some r =>
    obtain ⟨hr, hsync, hfolder⟩ := findFolder_eq_some hknown
    exact iff_of_true (created_of_known hknown) (.inl ⟨r, hr, hsync, hfolder⟩)
  | none =>
    have hnot := findFolder_eq_none.1 hknown
    dsimp only
    cases hplace : db.findName localparentfolderid syncid (validName name) with
    | none =>
      have hfree := findName_eq_none.1 hplace
      cases hrefs : db.references syncid localparentfolderid with
      | true =>
        -- the place is free, and the row is inserted
        obtain ⟨hid, hrows⟩ := @insertFolder_new _ _ folderid _ _ hrefs hfree
        rw [hid]
        exact iff_of_true (created_of_inserted hfree hrows) (.inr (.inl ⟨hfree, hrefs⟩))
      | false =>
        obtain ⟨hnone, hsame⟩ := @insertFolder_ignored db syncid folderid localparentfolderid
          (validName name) (.inl hrefs)
        rw [hnone]
        dsimp only
        rw [findName_congr hsame, hplace]
        refine iff_of_false not_created_zero ?_
        rintro (⟨r, hr, hsync, hfolder⟩ | ⟨-, h⟩ | ⟨r, hr, hkey, -⟩)
        · exact hnot r hr hsync hfolder
        · rw [hrefs] at h
          cases h
        · exact hfree r hr hkey
    | some r =>
      obtain ⟨hr, hkey⟩ := findName_eq_some hplace
      obtain ⟨hnone, hsame⟩ := @insertFolder_ignored db syncid folderid localparentfolderid
        (validName name) (.inr ⟨r, hr, hkey⟩)
      rw [hnone]
      dsimp only
      rw [findName_congr hsame, hplace]
      dsimp only
      have hsettled : Settled db syncid folderid localparentfolderid name ↔ r.id = folderid := by
        constructor
        · rintro (⟨s, hs, hsync, hfolder⟩ | ⟨hfree, -⟩ | ⟨s, hs, hkey', hid⟩)
          · exact absurd hfolder (hnot s hs hsync)
          · exact absurd hkey (hfree r hr)
          · rwa [db.folders.eq_of_key hr hs (hkey.trans hkey'.symm)]
        · exact fun hid => .inr (.inr ⟨r, hr, hkey, hid⟩)
      rw [hsettled]
      by_cases hid : r.id = folderid
      · refine iff_of_true ?_ hid
        subst hid
        have hdiff : r.folderid.getD 0 ≠ r.id := by
          intro h
          cases hfolder : r.folderid with
          | none =>
            rw [hfolder] at h
            exact Nat.ne_of_gt (db.folders.pos r hr) h.symm
          | some n =>
            rw [hfolder] at h
            have hn : n = r.id := h
            exact hnot r hr (congrArg Prod.fst hkey) (hn ▸ hfolder)
        rw [if_pos hdiff]
        exact created_of_taken hr hkey hsame
      · refine iff_of_false (not_created_of_other hknown hr hkey hid ?_) hid
        split_ifs
        · exact .inr (by rw [rows_setFolderid, rows_setFolderid, hsame])
        · exact .inl hsame

/-- A folder `a` that was found on the disk, and the folder 9 of the server in `b`. -/
def twoFolders : Db where
  syncs := [1]
  folders :=
    { rows := [⟨5, 0, none, 1, some 50, some 1, some 100, some 100, 0, none, [97]⟩,
        ⟨7, 0, some 9, 1, some 51, some 1, some 100, some 100, 0, some 1, [98]⟩]
      next := 8
      next_pos := by decide
      pos := by decide
      lt_next := by decide
      nodup_ident := by decide
      nodup_key := by decide }

/-- The folder 7 of the server, of the name `a`: the row 5 gets no folder id, and the row 7 gets
    another one. -/
theorem createLocalFolderInDb_fails : ¬ ∀ (db : Db) (syncid folderid localparentfolderid : ℕ)
    (name : List UInt8), db.references syncid localparentfolderid →
      Created db (db.createLocalFolderInDb syncid folderid localparentfolderid name).1 syncid
        folderid localparentfolderid name
        (db.createLocalFolderInDb syncid folderid localparentfolderid name).2 := by
  intro h
  let db : Db := { twoFolders with folders := twoFolders.folders.skipId }
  have hrun : twoFolders.createLocalFolderInDb 1 7 0 [97] =
      ((db.setFolderid 5 7).increaseLocalFolderTaskcnt 5, 5) := rfl
  have hset : (db.setFolderid 5 7).folders.rows = (twoFolders.setFolderid 5 7).folders.rows := rfl
  have hcreated := h twoFolders 1 7 0 [97] rfl
  rw [hrun] at hcreated
  have hrow : (⟨5, 0, none, 1, some 50, some 1, some 100, some 100, 0, none, [97]⟩ : LocalFolder) ∈
      twoFolders.folders.rows := mem_cons_self
  exact not_created_of_other rfl hrow rfl (by decide) (.inr hset) hcreated

end Db

end Pclsync.Syncer
