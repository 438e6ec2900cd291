import Pclsync.Localscan.Survivors

/-!
# What stays on the disk is not deleted remotely

The scanner never queues the remote deletion of a survivor, or of a folder above one
(`not_deleted_of_reachable`), as long as in every reading of the folder of a survivor

* no `readdir_r` before its entry fails,
* its `lstat` succeeds, and gives no path to ignore,
* and, for a file, no folder of the same name is in the database.

A failing `opendir` is harmless, as the folder is passed over. Without the condition the remote copy
of what is on the disk is deleted: one failing `lstat` is enough (`not_safe_lstat`).
-/

namespace Pclsync.Localscan

open List Option

variable {Name : Type} [LinearOrder Name] {S : Survivors Name} {env : Env Name}

namespace Survivors

/-! ## What is read -/

section Listing

variable {db : Db Name} {syncid localfolderid : ℕ} {e : Survivor Name} {x : Elem Name}

omit [LinearOrder Name] in
theorem mem_listDirents {ds : List (Dirent Name)} {name : Name} {st : Stat}
    (h : (name, st) ∈ listDirents ds) : .entry name (some st) ∈ ds := by
  induction ds with
  | nil => cases h
  | cons d ds ih =>
    match d with
    | .error => cases h
    | .entry _ none => exact mem_cons_of_mem _ (ih h)
    | .entry n (some s) =>
      unfold listDirents at h
      split at h
      · rcases mem_cons.1 h with h | h
        · cases h
          exact mem_cons_self
        · exact mem_cons_of_mem _ (ih h)
      · exact mem_cons_of_mem _ (ih h)

omit [LinearOrder Name] in
theorem listDirents_of_before {before behind : List (Dirent Name)} {name : Name} {st : Stat}
    (hbefore : .error ∉ before) (hty : st.type = .regular ∨ st.type = .directory) :
    (name, st) ∈ listDirents (before ++ .entry name (some st) :: behind) := by
  induction before with
  | nil =>
    rw [nil_append, listDirents, if_pos hty]
    exact mem_cons_self
  | cons d ds ih =>
    have ih := ih fun h => hbefore (mem_cons_of_mem _ h)
    match d with
    | .error => exact absurd mem_cons_self hbefore
    | .entry _ none => exact ih
    | .entry _ (some _) =>
      rw [cons_append, listDirents]
      split
      · exact mem_cons_of_mem _ ih
      · exact ih

/-- A survivor that is read is the first of its name on the disk, with its type. -/
theorem filter_disk {ignoredPaths : List (UInt64 × UInt64)} {dirents : List (Dirent Name)}
    (htype : ∀ st, .entry e.name (some st) ∈ dirents → st.type = e.type)
    (hread : Read ignoredPaths dirents e.name) :
    ∃ d D, ((listDirents dirents).filterMap (scannerLocalEntry ignoredPaths)).filter
      (fun x => x.name = e.name) = d :: D ∧ d.isfolder = e.isfolder := by
  obtain ⟨before, behind, st, rfl, hbefore, hignored⟩ := hread
  have hst : st.type = e.type := htype st (mem_append_right _ mem_cons_self)
  have hty : st.type = .regular ∨ st.type = .directory := by
    rw [hst]
    unfold Survivor.type
    cases e.isfolder
    · exact .inl rfl
    · exact .inr rfl
  have hlisted : (e.name, st) ∈ listDirents (before ++ .entry e.name (some st) :: behind) :=
    listDirents_of_before hbefore hty
  set ds := before ++ .entry e.name (some st) :: behind
  set l := ((listDirents ds).filterMap (scannerLocalEntry ignoredPaths)).filter
    (fun x => x.name = e.name) with hl
  have hne : l ≠ [] := by
    have hmem : (⟨0, 0, 0, 0, st.ino, st.dev, st.mtime, st.size, 0, 0, st.type = .directory,
        e.name⟩ : Elem Name) ∈ l := by
      refine mem_filter.2 ⟨mem_filterMap.2 ⟨_, hlisted, ?_⟩, decide_eq_true rfl⟩
      unfold scannerLocalEntry
      rw [if_neg (by simp [hignored])]
    exact ne_nil_of_mem hmem
  obtain ⟨d, D, hd⟩ := exists_cons_of_ne_nil hne
  refine ⟨d, D, hd, ?_⟩
  have hdl : d ∈ l := hd ▸ mem_cons_self
  obtain ⟨hdl, hname⟩ := mem_filter.1 hdl
  obtain ⟨⟨n, s⟩, hs, hentry⟩ := mem_filterMap.1 hdl
  unfold scannerLocalEntry at hentry
  split at hentry
  · cases hentry
  · obtain ⟨⟩ := hentry
    have hn : n = e.name := of_decide_eq_true hname
    have hstype : s.type = e.type := htype s (hn ▸ mem_listDirents hs)
    dsimp only
    rw [hstype]
    unfold Survivor.type
    cases e.isfolder <;> rfl

omit [LinearOrder Name] in
theorem mem_entries (hx : x ∈ db.entries env syncid localfolderid) :
    (∃ r ∈ db.folders.rows, ∃ m, r.mtimenative = some m ∧ x = r.elem m ∧
        r.localparentfolderid = localfolderid ∧ r.syncid = syncid ∧
        env.nameToIgnore r.name = false) ∨
      ∃ r ∈ db.files.rows, x = r.elem ∧ r.localparentfolderid = localfolderid ∧
        r.syncid = syncid ∧ env.nameToIgnore r.name = false := by
  unfold Db.entries at hx
  rcases mem_append.1 hx with hx | hx
  · obtain ⟨r, hr, hx⟩ := mem_filterMap.1 hx
    obtain ⟨hr, hq⟩ := mem_filter.1 hr
    obtain ⟨m, hm, rfl⟩ := map_eq_some_iff.1 hx
    obtain ⟨hpar, hsync, hig⟩ := of_decide_eq_true hq
    exact .inl ⟨r, hr, m, hm, rfl, hpar, hsync, by simpa using hig⟩
  · obtain ⟨r, hr, rfl⟩ := mem_map.1 hx
    obtain ⟨hr, hq⟩ := mem_filter.1 hr
    obtain ⟨hpar, hsync, hig⟩ := of_decide_eq_true hq
    exact .inr ⟨r, hr, rfl, hpar, hsync, by simpa using hig⟩

theorem filter_folders (n : Name) :
    ((db.folders.rows.filter fun r => r.localparentfolderid = localfolderid ∧ r.syncid = syncid ∧
        !env.nameToIgnore r.name).filterMap (fun r => r.mtimenative.map r.elem)).filter
        (fun x => x.name = n) =
      (Sql.Table.lookup FolderRow.key db.folders.rows
        (syncid, localfolderid, n)).toList.filterMap fun r =>
          if env.nameToIgnore r.name then none else r.mtimenative.map r.elem := by
  rw [← Sql.Table.Keyed.filter_key db.folders.nodup_key, filterMap_filter,
    filter_filterMap, filterMap_filter]
  refine filterMap_congr fun r _ => ?_
  unfold FolderRow.key
  by_cases hkey : r.localparentfolderid = localfolderid ∧ r.syncid = syncid
  · obtain ⟨rfl, rfl⟩ := hkey
    cases hm : r.mtimenative with
    | none => simp
    | some m =>
      by_cases hn : r.name = n
      · subst hn
        cases env.nameToIgnore r.name <;> simp [FolderRow.elem]
      · simp [hn, FolderRow.elem]
  · rw [if_neg (by simpa using fun h h' => absurd ⟨h, h'⟩ hkey), if_neg (by
      simpa using fun h h' => absurd ⟨h', h⟩ hkey)]
    rfl

theorem filter_files (n : Name) :
    ((db.files.rows.filter fun r => r.localparentfolderid = localfolderid ∧ r.syncid = syncid ∧
        !env.nameToIgnore r.name).map FileRow.elem).filter (fun x => x.name = n) =
      ((Sql.Table.lookup FileRow.key db.files.rows (syncid, localfolderid, n)).toList.filter
        fun r => !env.nameToIgnore r.name).map FileRow.elem := by
  rw [← Sql.Table.Keyed.filter_key db.files.nodup_key, List.filter_map, List.filter_filter,
    List.filter_filter]
  congr 1
  refine filter_congr fun r _ => ?_
  unfold FileRow.key
  rw [Bool.eq_iff_iff]
  simp only [Function.comp_apply, FileRow.elem, Bool.and_eq_true, decide_eq_true_eq, Prod.mk.injEq]
  constructor
  · rintro ⟨hn, hpar, hsync, hig⟩
    exact ⟨hig, hsync, hpar, of_decide_eq_true hn⟩
  · rintro ⟨hig, hsync, hpar, hn⟩
    exact ⟨decide_eq_true hn, hpar, hsync, hig⟩

/-- The entry of a survivor is the first of its name in the database. -/
theorem filter_entries (h : S.Recorded db) (he : e ∈ S.entries) (hsingle : S.Single env db e)
    (hsync : syncid = S.syncid) (hpar : e.localparentfolderid = localfolderid)
    (hx : x ∈ db.entries env syncid localfolderid) (hty : x.isfolder = e.isfolder)
    (hid : x.localid = e.id) :
    ∃ B, (db.entries env syncid localfolderid).filter (fun x => x.name = e.name) = x :: B ∧
      x ∉ B := by
  subst hsync hpar
  unfold Db.entries
  rw [filter_append, filter_folders, filter_files]
  rcases mem_entries hx with ⟨r, hr, m, hm, rfl, -, -, hig⟩ | ⟨r, hr, rfl, -, -, hig⟩
  · have hkey := h.folders e he hty.symm r hr hid
    rw [← hkey, Sql.Table.Keyed.lookup_of_mem db.folders.nodup_key hr]
    simp only [toList_some, filterMap_cons, hig, hm, filterMap_nil,
      Bool.false_eq_true, if_false, map_some, cons_append, nil_append]
    refine ⟨_, rfl, fun hmem => ?_⟩
    obtain ⟨s, -, hs⟩ := mem_map.1 hmem
    exact absurd (congrArg Elem.isfolder hs) Bool.false_ne_true
  · have hkey := h.files e he hty.symm r hr hid
    have hnone : (Sql.Table.lookup FolderRow.key db.folders.rows
        (S.syncid, e.localparentfolderid, e.name)).toList.filterMap (fun r =>
          if env.nameToIgnore r.name then none else r.mtimenative.map r.elem) = [] := by
      rw [filterMap_eq_nil_iff]
      intro s hs
      have hlookup := mem_toList.1 hs
      have hign := hsingle hty.symm s (Sql.Table.mem_of_lookup hlookup)
        (Sql.Table.key_of_lookup hlookup)
      cases hm : s.mtimenative with
      | none => simp
      | some m => rw [if_pos (hign (by rw [hm]; rfl))]
    rw [hnone, nil_append, ← hkey, Sql.Table.Keyed.lookup_of_mem db.files.nodup_key hr]
    simp only [toList_some, filter_cons, hig, filter_nil, Bool.not_false, if_true,
      map_cons, map_nil]
    exact ⟨[], rfl, not_mem_nil⟩

end Listing

/-! ## What is found -/

/-- The scan of a folder of survivors is that of their directory. -/
def Leads (S : Survivors Name) (job : Job Name) : Prop :=
  ∀ e ∈ S.entries, e.localparentfolderid = job.localfolderid → job.syncid = S.syncid →
    job.localpath = e.dir

/-- New entries have no row yet, and deleted ones are no survivors. -/
def Harmless (S : Survivors Name) : Found Name → Prop
  | .new x => x.localid = 0
  | .deleted x => S.Spares x.isfolder x.localid ∧ 0 < x.localid
  | .modified _ => True

section Found

variable {s : State Name} {job : Job Name} {jobs : List (Job Name)} {dirents : List (Dirent Name)}
  {upgraded : ℕ → Bool} {disk : List (Elem Name)}

omit [LinearOrder Name] in
theorem localid_of_disk {ignoredPaths : List (UInt64 × UInt64)} {x : Elem Name}
    (hx : x ∈ (listDirents dirents).filterMap (scannerLocalEntry ignoredPaths)) :
    x.localid = 0 := by
  obtain ⟨p, -, hp⟩ := mem_filterMap.1 hx
  unfold scannerLocalEntry at hp
  split at hp
  · cases hp
  · rw [← some.inj hp]

omit [LinearOrder Name] in
/-- An entry of the database with the id of a survivor has its place. -/
theorem place_of_entry {db : Db Name} {syncid localfolderid : ℕ} {e : Survivor Name} {x : Elem Name}
    (h : S.Recorded db) (hx : x ∈ db.entries env syncid localfolderid) (he : e ∈ S.entries)
    (hty : x.isfolder = e.isfolder) (hid : x.localid = e.id) :
    syncid = S.syncid ∧ e.localparentfolderid = localfolderid ∧ e.name = x.name := by
  rcases mem_entries hx with ⟨r, hr, m, -, rfl, hpar, hsync, -⟩ | ⟨r, hr, rfl, hpar, hsync, -⟩
  · have hkey := h.folders e he hty.symm r hr hid
    simp only [FolderRow.key, Prod.mk.injEq] at hkey
    exact ⟨hsync.symm.trans hkey.1, hkey.2.1.symm.trans hpar, hkey.2.2.symm⟩
  · have hkey := h.files e he hty.symm r hr hid
    simp only [FileRow.key, Prod.mk.injEq] at hkey
    exact ⟨hsync.symm.trans hkey.1, hkey.2.1.symm.trans hpar, hkey.2.2.symm⟩

omit [LinearOrder Name] in
theorem localid_pos {db : Db Name} {syncid localfolderid : ℕ} {x : Elem Name}
    (hx : x ∈ db.entries env syncid localfolderid) : 0 < x.localid := by
  rcases mem_entries hx with ⟨r, hr, m, -, rfl, -⟩ | ⟨r, hr, rfl, -⟩
  · exact db.folders.pos r hr
  · exact db.files.pos r hr

/-- In the folder of a survivor that exists and is read, the survivor is not found to be deleted. -/
theorem harmless_of_found (hrec : S.Recorded s.db) (hjobs : s.jobs = job :: jobs)
    (hlead : S.Leads job) (hexist : S.Exist s (.scan (some dirents) upgraded))
    (hseen : S.Seen env s (.scan (some dirents) upgraded))
    (hdisk : disk = (listDirents dirents).filterMap (scannerLocalEntry s.ignoredPaths)) :
    ∀ f ∈ (compareFolder job.deviceid disk
      (s.db.entries env job.syncid job.localfolderid)).found, S.Harmless f := by
  intro f hf
  have hof := of_found hf
  match f with
  | .modified _ => trivial
  | .new x => exact localid_of_disk (hdisk ▸ SortedLists.mem_sort.1 hof)
  | .deleted x =>
    have hx := SortedLists.mem_sort.1 hof
    refine ⟨fun e he hty hid => ?_, localid_pos hx⟩
    obtain ⟨hsync, hpar, -⟩ := place_of_entry hrec hx he hty.symm hid
    have hhead : job ∈ s.jobs.head? := by rw [hjobs]; rfl
    obtain ⟨-, htype⟩ := hexist job hhead e he (hlead e he hpar hsync).symm
    obtain ⟨hread, hsingle⟩ := hseen job hhead hsync e he hpar
    obtain ⟨d, D, hd, hdty⟩ := filter_disk htype hread
    obtain ⟨B, hb, hB⟩ := filter_entries hrec he hsingle hsync hpar hx hty.symm hid
    exact compare_not_deleted (hdisk ▸ hd) hb hB (hdty.trans hty) hf

theorem leads_of_subfolders (hrec : S.Recorded s.db) (hlead : S.Leads job)
    (hdisk : ∀ x ∈ disk, x.localid = 0) :
    ∀ j ∈ job.subfolders (compareFolder job.deviceid disk
      (s.db.entries env job.syncid job.localfolderid)).disk, S.Leads j := by
  intro j hj e he hpar hsync
  obtain ⟨l, hl, rfl⟩ := mem_map.1 hj
  obtain ⟨hl, hq⟩ := mem_filter.1 hl
  obtain ⟨hfolder, hne, -⟩ := of_decide_eq_true hq
  dsimp only at hpar hsync ⊢
  rcases S.above e he with ⟨h0, -⟩ | ⟨-, f, hf, hff, hfid, hdir⟩
  · exact absurd (hpar.symm.trans h0) hne
  · rcases matched_of_disk hl with hmem | h0 | ⟨fdb, hfdb, hname, hty, hid⟩
    · exact absurd (hdisk l (SortedLists.mem_sort.1 hmem)) hne
    · exact absurd h0 hne
    · -- the row that was matched is that of the survivor above
      have hx := SortedLists.mem_sort.1 hfdb
      have hfolder' : fdb.isfolder = true := hty.symm.trans hfolder
      obtain ⟨-, hfpar, hfname⟩ := place_of_entry hrec hx hf (hfolder'.trans hff.symm)
        (hid.symm.trans (hpar.symm.trans hfid.symm))
      rw [hdir, hlead f hf hfpar hsync, hname, hfname]

end Found

/-! ## Runs -/

/-- What is to be created has no row yet, and what is to be renamed or deleted is no survivor. -/
structure Sparing (S : Survivors Name) (l : Lists Name) : Prop where
  newfolders : ∀ x ∈ l.newfolders, x.localid = 0
  delfiles : ∀ x ∈ l.delfiles, S.Spares false x.localid
  delfolders : ∀ x ∈ l.delfolders, S.Spares true x.localid ∧ 0 < x.localid
  renfiles : ∀ p ∈ l.renfiles, S.Spares false p.1.localid
  renfolders : ∀ p ∈ l.renfolders, S.Spares true p.1.localid ∧ 0 < p.1.localid

omit [LinearOrder Name] in
theorem sparing_empty : S.Sparing {} :=
  ⟨forall_mem_nil _, forall_mem_nil _,
    forall_mem_nil _, forall_mem_nil _,
    forall_mem_nil _⟩

omit [LinearOrder Name] in
theorem Sparing.add {l : Lists Name} (h : S.Sparing l) (job : Job Name) {f : Found Name}
    (hf : S.Harmless f) : S.Sparing (l.add env job f) := by
  unfold Lists.add
  match f with
  | .new x =>
    dsimp only
    split
    · split
      · refine { h with newfolders := fun y hy => ?_ }
        rcases mem_append.1 hy with hy | hy
        · exact h.newfolders y hy
        · exact mem_singleton.1 hy ▸ hf
      · exact { h with }
    · exact h
  | .deleted x =>
    dsimp only
    split
    · rename_i hfolder
      refine { h with delfolders := fun y hy => ?_ }
      rcases mem_append.1 hy with hy | hy
      · exact h.delfolders y hy
      · obtain rfl := mem_singleton.1 hy
        exact ⟨hfolder ▸ hf.1, hf.2⟩
    · rename_i hfile
      refine { h with delfiles := fun y hy => ?_ }
      rcases mem_append.1 hy with hy | hy
      · exact h.delfiles y hy
      · obtain rfl := mem_singleton.1 hy
        have hfile : x.isfolder = false := by simpa using hfile
        exact fun e he hty => hf.1 e he (hty.trans hfile.symm)
  | .modified x => exact { h with }

omit [LinearOrder Name] in
theorem Sparing.foldl_add (job : Job Name) {found : List (Found Name)}
    (hfound : ∀ f ∈ found, S.Harmless f) {l : Lists Name} (h : S.Sparing l) :
    S.Sparing (found.foldl (Lists.add env job) l) := by
  induction found generalizing l with
  | nil => exact h
  | cons f found ih =>
    exact ih (fun f' hf' => hfound f' (mem_cons_of_mem _ hf'))
      (h.add job (hfound f mem_cons_self))

/-- What holds in every run in which the survivors exist and are read. -/
structure Inv (S : Survivors Name) (s : State Name) : Prop where
  recorded : S.Recorded s.db
  slist : ∀ r ∈ s.slist, r.id = S.syncid → r.localpath = S.localpath
  jobs : ∀ j ∈ s.jobs, S.Leads j
  lists : S.Sparing s.lists
  newtmp : ∀ x ∈ s.newtmp, x.localid ≠ 0 → ∀ e ∈ S.entries, e.localparentfolderid ≠ x.localid
  safe : S.Safe s

namespace Inv

variable {s s' : State Name}

omit [LinearOrder Name] in
theorem stop (h : S.Inv s) : S.Inv s.stop where
  recorded := h.recorded
  slist _ hr := absurd hr not_mem_nil
  jobs _ hj := absurd hj not_mem_nil
  lists := sparing_empty
  newtmp _ hx := absurd hx not_mem_nil
  safe := h.safe

omit [LinearOrder Name] in
theorem start (h : S.Inv s) (ignoredPaths : List (UInt64 × UInt64))
    (stat : List Name → Option Stat) : S.Inv (s.start env ignoredPaths stat) where
  recorded := h.recorded
  slist r hr := h.recorded.syncs r (mem_filter.1 hr).1
  jobs _ hj := absurd hj not_mem_nil
  lists := sparing_empty
  newtmp _ hx := absurd hx not_mem_nil
  safe := h.safe

omit [LinearOrder Name] in
theorem sync (h : S.Inv s) {stat : Option Stat} (hs : s.sync stat = some s') : S.Inv s' := by
  unfold State.sync at hs
  split at hs
  · rename_i l slist hjobs hslist
    have hrest : ∀ r ∈ slist, r.id = S.syncid → r.localpath = S.localpath := fun r hr =>
      h.slist r (by rw [hslist]; exact mem_cons_of_mem _ hr)
    split at hs
    · exact some.inj hs ▸ { h with slist := hrest }
    · split at hs
      · exact some.inj hs ▸ { h with slist := hrest }
      · obtain ⟨⟩ := hs
        refine { h with slist := hrest, jobs := fun j hj e he hpar hsync => ?_ }
        obtain rfl := mem_singleton.1 hj
        -- survivors without a folder above them are in the folder of the sync
        rcases S.above e he with ⟨-, hdir⟩ | ⟨hne, -⟩
        · exact (h.slist l (by rw [hslist]; exact mem_cons_self) hsync).trans hdir.symm
        · exact absurd hpar hne
  · cases hs

theorem scan (h : S.Inv s) {dir : Directory Name} {upgraded : ℕ → Bool}
    (hexist : S.Exist s (.scan dir upgraded)) (hseen : S.Seen env s (.scan dir upgraded))
    (hs : s.scan env dir upgraded = some s') : S.Inv s' := by
  unfold State.scan at hs
  split at hs
  · cases hs
  · rename_i job jobs hjobs
    have hrest : ∀ j ∈ jobs, S.Leads j := fun j hj =>
      h.jobs j (by rw [hjobs]; exact mem_cons_of_mem _ hj)
    have hlead : S.Leads job := h.jobs job (by rw [hjobs]; exact mem_cons_self)
    split at hs
    · exact some.inj hs ▸ { h with jobs := hrest }
    · rename_i disk hdisk
      obtain ⟨db, hdb, rfl⟩ := map_eq_some_iff.1 hs
      match dir with
      | none => cases hdisk
      | some dirents =>
        have hdisk := (some.inj hdisk).symm
        have hfound := harmless_of_found h.recorded hjobs hlead hexist hseen hdisk
        have hlocalid : ∀ x ∈ disk, x.localid = 0 := fun x hx =>
          localid_of_disk (by rwa [hdisk] at hx)
        exact { h with
          recorded := h.recorded.shrink (shrinks_deleteIgnored hdb)
          jobs := fun j hj => (mem_append.1 hj).elim
            (leads_of_subfolders h.recorded hlead hlocalid j) (hrest j)
          lists := h.lists.foldl_add job hfound }

omit [LinearOrder Name] in
theorem goRound (h : S.Inv s) : S.Inv s.goRound := by
  unfold State.goRound
  split
  · exact h.stop
  · have hleft := @SortedLists.left_perm _ compareInode s.lists.delfolders s.lists.newfolders
    have hright := @SortedLists.right_perm _ compareInode s.lists.delfolders s.lists.newfolders
    refine { h with lists := { h.lists with newfolders := ?_, delfolders := ?_, renfolders := ?_ } }
    · exact fun x hx => h.lists.newfolders x (hright.subset (mem_append_left _ hx))
    · exact fun x hx => h.lists.delfolders x (hleft.subset (mem_append_left _ hx))
    · exact fun p hp => h.lists.delfolders p.1
        (hleft.subset (mem_append_right _ (mem_map_of_mem hp)))

theorem goFolders (h : S.Inv s) (hs : s.goFolders env = some s') : S.Inv s' := by
  unfold State.goFolders at hs
  split at hs
  · rename_i p renfolders hren
    obtain ⟨db, hdb, rfl⟩ := map_eq_some_iff.1 hs
    obtain ⟨hsp, hpos⟩ := h.lists.renfolders p (by rw [hren]; exact mem_cons_self)
    exact { h with
      recorded := h.recorded.scanRenameFolder hsp hpos hdb
      lists := { h.lists with
        renfolders := fun q hq =>
          h.lists.renfolders q (by rw [hren]; exact mem_cons_of_mem _ hq) } }
  · split at hs
    · rename_i fl newfolders hnew
      obtain ⟨⟩ := hs
      have hfl := h.lists.newfolders fl (by rw [hnew]; exact mem_cons_self)
      refine { h with
        recorded := h.recorded.scanCreateFolder fl
        lists := { h.lists with newfolders := fun x hx => ?_ }
        newtmp := fun x hx hne => ?_ }
      · exact h.lists.newfolders x (by rw [hnew]; exact mem_cons_of_mem _ hx)
      · rcases mem_append.1 hx with hx | hx
        · exact h.newtmp x hx hne
        · obtain rfl := mem_singleton.1 hx
          exact h.recorded.localid_created hfl hne
    · exact some.inj hs ▸ { h with }

omit [LinearOrder Name] in
theorem startQueue (h : S.Inv s) : S.Inv s.startQueue := by
  unfold State.startQueue
  split
  · exact h.stop
  · have hleft := @SortedLists.left_perm _ compareSizeinodemtime s.lists.delfiles s.lists.newfiles
    refine { h with lists := { h.lists with delfiles := ?_, renfiles := ?_ } }
    · exact fun x hx => h.lists.delfiles x (hleft.subset (mem_append_left _ hx))
    · exact fun p hp => h.lists.delfiles p.1
        (hleft.subset (mem_append_right _ (mem_map_of_mem hp)))

omit [LinearOrder Name] in
theorem goCreated (h : S.Inv s) (hs : s.goCreated = some s') : S.Inv s' := by
  unfold State.goCreated at hs
  split at hs
  · cases hs
  · rename_i fl newtmp hjobs hnew
    have hrest : ∀ x ∈ newtmp, x.localid ≠ 0 →
        ∀ e ∈ S.entries, e.localparentfolderid ≠ x.localid := fun x hx =>
      h.newtmp x (by rw [hnew]; exact mem_cons_of_mem _ hx)
    split at hs
    · exact some.inj hs ▸ { h with newtmp := hrest }
    · rename_i hne
      obtain ⟨path, -, rfl⟩ := map_eq_some_iff.1 hs
      cases path with
      | none => exact { h with newtmp := hrest }
      | some localpath =>
        refine { h with newtmp := hrest, jobs := fun j hj e he hpar _ => ?_ }
        obtain rfl := mem_singleton.1 hj
        exact absurd hpar (h.newtmp fl (by rw [hnew]; exact mem_cons_self) hne e he)
  · split at hs
    · exact some.inj hs ▸ { h with }
    · exact some.inj hs ▸ h.startQueue

omit [LinearOrder Name] in
theorem scanDeleteFile (h : S.Inv s) {fl : Elem Name} (hsp : S.Spares false fl.localid) :
    S.Inv (s.scanDeleteFile fl) := by
  have hdeleted : S.Recorded
      { s.db.deleteUploadTasksForFile fl.localid with
        files := (s.db.deleteUploadTasksForFile fl.localid).files.delete
          fun r => r.id = fl.localid } :=
    h.recorded.shrink ⟨rfl, rfl, rfl, fun r hr => hr, fun r hr => Sql.AutoTable.mem_delete hr⟩
  unfold State.scanDeleteFile
  split
  · exact h
  · dsimp only
    split
    · exact { h with recorded := hdeleted }
    · refine { h with recorded := hdeleted.addTask _, safe := fun d hd => ?_ }
      rcases mem_append.1 hd with hd | hd
      · exact h.safe d hd
      · obtain rfl := mem_singleton.1 hd
        exact hsp

omit [LinearOrder Name] in
theorem scanDeleteFolder (h : S.Inv s) {fl : Elem Name} {delfolders : List (Elem Name)}
    (hdel : s.lists.delfolders = fl :: delfolders)
    (hs : s.scanDeleteFolder env fl delfolders = some s') : S.Inv s' := by
  have hlists : S.Sparing { s.lists with delfolders := delfolders } := { h.lists with
    delfolders := fun x hx =>
      h.lists.delfolders x (by rw [hdel]; exact mem_cons_of_mem _ hx) }
  unfold State.scanDeleteFolder at hs
  dsimp only at hs
  split at hs
  · exact some.inj hs ▸ { h with lists := hlists }
  · split at hs
    · split at hs
      · exact some.inj hs ▸ { h with }
      · obtain ⟨db, hdb, rfl⟩ := map_eq_some_iff.1 hs
        have hrec := (h.recorded.tasks _).shrink (shrinks_deleteLocalFolderRec hdb)
        exact { h with recorded := hrec, lists := hlists }
    · obtain ⟨db, hdb, rfl⟩ := map_eq_some_iff.1 hs
      have hrec := h.recorded.shrink (shrinks_deleteLocalFolderRec hdb)
      refine { h with
        recorded := hrec.addTask _
        lists := hlists
        safe := fun d hd => ?_ }
      rcases mem_append.1 hd with hd | hd
      · exact h.safe d hd
      · obtain rfl := mem_singleton.1 hd
        exact (h.lists.delfolders fl (by rw [hdel]; exact mem_cons_self)).1

theorem goQueue (h : S.Inv s) (hs : s.goQueue env = some s') : S.Inv s' := by
  unfold State.goQueue at hs
  split at hs
  · rename_i p renfiles hren
    obtain ⟨⟩ := hs
    have hsp := h.lists.renfiles p (by rw [hren]; exact mem_cons_self)
    exact { h with
      recorded := h.recorded.scanRenameFile p.2 hsp
      lists := { h.lists with
        renfiles := fun q hq =>
          h.lists.renfiles q (by rw [hren]; exact mem_cons_of_mem _ hq) } }
  split at hs
  · obtain ⟨⟩ := hs
    exact { h with
      recorded := h.recorded.scanUploadFile _
      lists := { h.lists with } }
  split at hs
  · obtain ⟨⟩ := hs
    exact { h with
      recorded := h.recorded.scanUploadModifiedFile _
      lists := { h.lists with } }
  split at hs
  · rename_i fl delfiles hdel
    obtain ⟨⟩ := hs
    have h' := h.scanDeleteFile (h.lists.delfiles fl (by rw [hdel]; exact mem_cons_self))
    exact { h' with
      lists := { h.lists with
        delfiles := fun x hx =>
          h.lists.delfiles x (by rw [hdel]; exact mem_cons_of_mem _ hx) } }
  split at hs
  · rename_i fl delfolders hdel
    exact h.scanDeleteFolder hdel hs
  · exact some.inj hs ▸ h.stop

theorem step (h : S.Inv s) {a : Action Name} (hexist : S.Exist s a) (hseen : S.Seen env s a)
    (hs : s.step env a = some s') : S.Inv s' := by
  cases a with
  | change db => exact some.inj hs ▸ { h with recorded := hexist }
  | restart => exact some.inj hs ▸ { h with }
  | start ignoredPaths stat =>
    unfold State.step at hs
    dsimp only at hs
    split at hs
    · exact some.inj hs ▸ h.start ignoredPaths stat
    · cases hs
  | sync stat =>
    unfold State.step at hs
    dsimp only at hs
    split at hs
    · exact h.sync hs
    · cases hs
  | scan dir upgraded =>
    unfold State.step at hs
    dsimp only at hs
    split at hs
    · exact h.scan hexist hseen hs
    · cases hs
  | recheck stat =>
    unfold State.step at hs
    dsimp only at hs
    split at hs
    · unfold State.recheck at hs
      split at hs
      · exact some.inj hs ▸ { h with }
      · cases hs
    · cases hs
  | go =>
    unfold State.step at hs
    dsimp only at hs
    split at hs
    · exact some.inj hs ▸ h.goRound
    · exact h.goFolders hs
    · exact h.goCreated hs
    · exact h.goQueue hs
    · cases hs

end Inv

/-- In every run in which the survivors exist on the disk, and are read whenever their folders are,
no remote deletion of a survivor is queued. -/
theorem not_deleted_of_reachable {db : Db Name} (hdb : S.Recorded db) {s : State Name}
    (h : (scanner env db).Reachable (fun s a => S.Exist s a ∧ S.Seen env s a) s) : S.Safe s := by
  have hinv : S.Inv s := by
    refine h.invariant (fun s hs => ?_) fun s a s' hs hok hstep => hs.step hok.1 hok.2 hstep
    obtain rfl := hs
    exact
      { recorded := hdb
        slist := forall_mem_nil _
        jobs := forall_mem_nil _
        lists := sparing_empty
        newtmp := forall_mem_nil _
        safe := fun _ hd => absurd hd not_mem_nil }
  exact hinv.safe

end Survivors

/-! ## A failing `lstat` -/

/-- Nothing is ignored. -/
def plainEnv : Env ℕ := ⟨fun _ => false, fun _ => true, fun _ => false, 10⟩

/-- A file with a remote copy, in the folder of a sync. -/
def fileRow (id : ℕ) : FileRow ℕ where
  id := id
  localparentfolderid := 0
  fileid := 101
  syncid := 1
  size := 5
  inode := 7
  mtimenative := 3
  name := 20

/-- The database with the file. -/
def fileDb : Db ℕ where
  syncs := [⟨1, 10, [0], 2, 1, 1⟩]
  folders := .empty
  files := (Sql.AutoTable.empty.insertOrIgnore true fileRow fun _ => rfl).1
  tasks := []

/-- The file survives. -/
def theFile : Survivors ℕ where
  syncid := 1
  localpath := [0]
  entries := {⟨false, 1, 0, [0], 20⟩}
  above := by
    rintro e rfl
    exact .inl ⟨rfl, rfl⟩

theorem recorded_fileDb : theFile.Recorded fileDb where
  syncs := by
    intro r hr _
    obtain rfl := mem_singleton.1 hr
    rfl
  folders_lt := by
    rintro e rfl h
    cases h
  files_lt := by
    rintro e rfl _
    decide
  folders := by
    rintro e rfl h
    cases h
  files := by
    rintro e rfl _ r hr _
    obtain rfl := mem_singleton.1 hr
    rfl

/-- The folder of the sync. -/
def folderStat : Stat := ⟨.directory, 1, 1, 0, 0⟩

/-- The file. -/
def fileStat : Stat := ⟨.regular, 1, 7, 3, 5⟩

/-- A scan of the folder in which `lstat` fails. -/
def failingScan : List (Action ℕ) :=
  [.start [] fun _ => some folderStat, .sync (some folderStat),
    .scan (some [.entry 20 none]) fun _ => true, .recheck fun _ => some folderStat,
    .go, .go, .go, .go, .go, .go, .go]

namespace Survivors

/-- The folder is read. -/
def readFolder : Action ℕ := .scan (some [.entry 20 (some fileStat)]) fun _ => true

theorem exist_readFolder (s : State ℕ) : theFile.Exist s readFolder := by
  rintro job - e rfl -
  refine ⟨⟨_, mem_singleton_self _⟩, fun st h => ?_⟩
  cases mem_singleton.1 h
  rfl

theorem seen_readFolder {s : State ℕ} (hignored : s.ignoredPaths = []) (hdb : s.db = fileDb) :
    theFile.Seen plainEnv s readFolder := by
  rintro job - - e rfl -
  refine ⟨⟨[], [], fileStat, rfl, not_mem_nil, ?_⟩, fun _ r hr => ?_⟩
  · rw [hignored]
    rfl
  · rw [hdb] at hr
    exact absurd hr not_mem_nil

/-- A scan that reads the file, from its beginning to its end. -/
theorem not_deleted_of_reachable_read : ∃ s : State ℕ, s.pc = .idle ∧ theFile.Safe s := by
  let M := scanner plainEnv fileDb
  let ok (s : State ℕ) (a : Action ℕ) := theFile.Exist s a ∧ theFile.Seen plainEnv s a
  have h : M.Reachable ok { db := fileDb } := .init rfl
  replace h := h.next (.start [] fun _ => some folderStat) ⟨trivial, trivial⟩ rfl
  replace h := h.next (.sync (some folderStat)) ⟨trivial, trivial⟩ rfl
  replace h := h.next readFolder ⟨exist_readFolder _, seen_readFolder rfl rfl⟩ rfl
  replace h := h.next (.recheck fun _ => some folderStat) ⟨trivial, trivial⟩ rfl
  replace h := h.next .go ⟨trivial, trivial⟩ rfl
  replace h := h.next .go ⟨trivial, trivial⟩ rfl
  replace h := h.next .go ⟨trivial, trivial⟩ rfl
  replace h := h.next .go ⟨trivial, trivial⟩ rfl
  exact ⟨_, rfl, not_deleted_of_reachable recorded_fileDb h⟩

/-- Without the condition the survivors are not safe: the `lstat` of a file fails, and its remote
copy is deleted. -/
theorem not_safe_lstat :
    ∃ (env : Env ℕ) (S : Survivors ℕ) (db : Db ℕ) (s : State ℕ), S.Recorded db ∧
      (scanner env db).Reachable S.Exist s ∧ ¬S.Safe s := by
  have hrun : (scanner plainEnv fileDb).run { db := fileDb } failingScan = some _ := rfl
  refine ⟨plainEnv, theFile, fileDb, _, recorded_fileDb, .of_run_of (.init rfl) ?_ hrun,
    fun h => h ⟨false, 1, 101⟩ (by decide) ⟨false, 1, 0, [0], 20⟩ rfl rfl rfl⟩
  intro a ha s
  simp only [failingScan, mem_cons, not_mem_nil, or_false] at ha
  rcases ha with rfl | rfl | rfl | rfl | ha
  · trivial
  · trivial
  · rintro job - e rfl -
    refine ⟨⟨_, mem_singleton_self _⟩, fun st h => ?_⟩
    cases mem_singleton.1 h
  · trivial
  · obtain rfl : a = .go := by simpa using ha
    trivial

end Survivors

end Pclsync.Localscan
