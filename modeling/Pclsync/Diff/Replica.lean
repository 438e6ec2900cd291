import Pclsync.Diff.Tracks
import Pclsync.Transition

/-!
# The tables follow the server

A server with its changes, and a client which processes their events (`Replica`): changes happen,
`process_entries` is called with the next events, an answer of the server is entered before its
event comes, and all events are replayed from the diff id 0.

* `faithful_of_reachable`: when all events are processed, the tables are those of the tree, in the
  runs whose events fit (`Fits`) and which are replayed only while there are no subfolders and the
  used quota is 0.
* `not_faithful_replay`: otherwise a replay counts them twice.
-/

namespace Pclsync.Diff

open Sql Sql.Program Sql.Table List Option

variable {env : Env} {r : Remote} {c : Change}

/-! ## Entries -/

/-- What the events do, one after another. -/
def deliverAll (env : Env) (r : Remote) (cs : List Change) : Remote :=
  cs.foldl (fun r c => c.deliver env r) r

theorem triple_process_entry (c : Change) :
    Call.Triple (InTransaction (At r)) (process_entry Tables.engine env true c.entry)
      fun _ => InTransaction (At (c.deliver env r)) := by
  have huse : ∀ r etype, Keeps Tables.engine (At r)
      (modifyMemory fun m => { m with used := m.used.insert etype }) :=
    fun r _ => (apart_at r).modifyMemory fun _ => rfl
  obtain ⟨kind, metadata⟩ := c
  cases kind with
  | createfolder => exact .lift (.bind triple_process_createfolder fun _ => huse _ _)
  | modifyfolder => exact .bind triple_process_modifyfolder fun _ => .lift (huse _ _)
  | deletefolder => exact .lift (.bind triple_process_deletefolder fun _ => huse _ _)
  | createfile => exact .lift (.bind triple_process_createfile fun _ => huse _ _)
  | modifyfile => exact .lift (.bind triple_process_modifyfile fun _ => huse _ _)
  | deletefile => exact .lift (.bind triple_process_deletefile fun _ => huse _ _)

theorem triple_entries (cs : List Change) : Call.Triple (InTransaction (At r))
      ((cs.map Change.entry).forM (process_entry Tables.engine env true))
      fun _ => InTransaction (At (deliverAll env r cs)) := by
  induction cs generalizing r with
  | nil => exact .pure fun _ h => h
  | cons c cs ih => exact .bind (triple_process_entry c) fun _ => ih

/-! ## Whole diffs -/

/-- The connection is outside of transactions, with this condition on the database and the
    memory. -/
def Outside (P : Tables → Memory → Prop) (c : Connection Stmt Tables Memory) : Prop :=
  Idle c ∧ P c.session.db c.session.mem

section

variable {α : Type} {P : Tables → Memory → Prop} {R : α → Tables → Memory → Prop} {p : Handler α}

theorem triple_lift_outside (h : Triple Tables.engine P p R) :
    Call.Triple (Outside P) (Call.lift Tables.engine p) fun a => Outside (R a) := by
  intro c c' a hrun hpre
  unfold Call.lift at hrun
  rcases hexec : p.exec Tables.engine c.session with _ | ⟨b, s⟩
  · simp only [hexec] at hrun
    cases hrun
  · simp only [hexec, hpre.1.in_transaction, Bool.false_eq_true, if_false] at hrun
    cases hrun
    exact ⟨⟨rfl, rfl⟩, h _ _ _ hexec hpre.2⟩

theorem triple_start :
    Call.Triple (Outside P) (Call.psync_sql_start_transaction : Call Stmt Tables Memory Unit)
      fun _ => InTransaction P := by
  intro c c' a hrun hpre
  unfold Call.psync_sql_start_transaction at hrun
  simp only [hpre.1.in_transaction, Bool.false_eq_true, if_false] at hrun
  cases hrun
  exact ⟨rfl, rfl, hpre.2⟩

theorem triple_commit : Call.Triple (InTransaction P)
      (Call.psync_sql_commit_transaction true : Call Stmt Tables Memory Unit)
      fun _ => Outside P := by
  intro c c' a hrun hpre
  unfold Call.psync_sql_commit_transaction at hrun
  simp only [hpre.1, hpre.2.1, if_true, Bool.false_eq_true, not_false_eq_true, and_self] at hrun
  cases hrun
  exact ⟨⟨rfl, rfl⟩, hpre.2.2⟩

end

theorem keeps_clearNeeddownload : Keeps Tables.engine (At r) clearNeeddownload :=
  (apart_at r).modifyMemory fun _ => rfl

/-- The used quota is saved. -/
def Saved (r : Remote) (d : Tables) (m : Memory) : Prop :=
  At r d m ∧ Tables.ask (.setting "usedquota") d = some r.used_quota.toNat

theorem triple_saveDiff (newdiffid : ℕ) :
    Triple Tables.engine (At r) (saveDiff newdiffid) fun _ => Saved r := by
  have hat := apart_at r
  have hfinish : Keeps Tables.engine (At r) process_finish :=
    .bind .memory fun _ => .ite (.bind (hat.execute rfl) fun _ =>
      .bind (hat.execute rfl) fun _ => hat.execute rfl) (.pure _)
  have hmemory : Triple Tables.engine (At r) (memory : Handler Memory) fun a d m =>
      At r d m ∧ a.used_quota = r.used_quota :=
    .memory fun _ _ h => ⟨h, congrArg Remote.used_quota h⟩
  have hquota : Triple Tables.engine (At r)
      (psync_set_uint_value "usedquota" r.used_quota.toNat) fun _ => Saved r :=
    .execute fun d m h => ⟨hat _ _ _ _ rfl rfl rfl h, rfl⟩
  exact .bind hfinish fun _ => .bind (hat.execute rfl) fun _ =>
    .bind hmemory fun a => .assuming fun ha => ha ▸ hquota

theorem triple_reloadDiff : Triple Tables.engine (Saved r) reloadDiff fun _ => At r := by
  have hquery : Triple Tables.engine (Saved r) (query (.setting "usedquota") : Handler (Option ℕ))
      fun a d m => At r d m ∧ a = some r.used_quota.toNat := .query fun _ _ h => h
  refine .bind hquery fun a => .assuming fun ha => .bind (.modifyMemory fun d m h => ?_)
    fun _ => Keeps.bind (.query _) fun _ => .pure _
  rw [ha, getD_some, UInt64.ofNat_toNat, ← show Remote.ofTables d m = r from h]
  rfl

theorem triple_process_entries (cs : List Change) (newdiffid : ℕ) : Call.Triple (Outside (At r))
      (process_entries Tables.engine env true true (cs.map Change.entry) newdiffid)
      fun _ => Outside (At (deliverAll env r cs)) := by
  have hbegin : Call.Triple (Outside (At r)) (beginDiff Tables.engine (cs.map Change.entry).length)
      fun _ => InTransaction (At r) :=
    .bind triple_start fun _ => .onlyIf fun _ => .lift ((apart_at r).execute rfl)
  exact .bind (triple_lift_outside keeps_clearNeeddownload) fun _ =>
    .bind hbegin fun _ => .bind (triple_entries cs) fun _ =>
    .bind (.lift (triple_saveDiff newdiffid)) fun _ => .bind triple_commit fun _ =>
    triple_lift_outside triple_reloadDiff

/-! ## Answers of the server -/

/-- The function which enters the answer of the server to a change, if there is one. -/
def Change.entering (env : Env) (c : Change) : Option (Handler Unit) :=
  match c.kind with
  | .createfolder => some (psync_ops_create_folder_in_db env c.hash)
  | .modifyfolder | .deletefolder => none
  | .createfile => some (psync_diff_create_file env c.hash)
  | .modifyfile => some (psync_diff_update_file env c.hash)
  | .deletefile => some (psync_diff_delete_file env c.hash)

/-- The answer is entered in a transaction. -/
def enterAnswer (p : Handler Unit) : Call Stmt Tables Memory Unit := do
  Call.psync_sql_start_transaction
  Call.lift Tables.engine p
  Call.psync_sql_commit_transaction true

theorem triple_enterAnswer {p : Handler Unit} (hp : c.entering env = some p) :
    Call.Triple (Outside (At r)) (enterAnswer p) fun _ => Outside (At (c.enter env r)) := by
  have henter : Triple Tables.engine (At r) p fun _ => At (c.enter env r) := by
    unfold Change.entering at hp
    unfold Change.enter
    rcases hkind : c.kind <;> simp only [hkind] at hp <;> cases hp
    case createfolder => exact triple_psync_ops_create_folder_in_db
    case createfile => exact triple_psync_diff_create_file
    case modifyfile => exact triple_psync_diff_update_file
    case deletefile => exact triple_psync_diff_delete_file
  exact .bind triple_start fun _ => .bind (.lift henter) fun _ => triple_commit

/-! ## The machine -/

/-- The server's changes, and the client. -/
structure Replica where
  /-- The changes whose events were processed. -/
  past : List Change
  /-- The changes whose events come later. -/
  later : List Change
  connection : Connection Stmt Tables Memory

namespace Replica

/-- The folders, the files and the used quota of the client. -/
def remote (s : Replica) : Remote := .ofTables s.connection.session.db s.connection.session.mem

/-- The tree after the events that were processed. -/
def tree (env : Env) (s : Replica) : Tree := Tree.start.after env s.past

/-- The tree of the server. -/
def serverTree (env : Env) (s : Replica) : Tree := (s.tree env).after env s.later

/-- What can happen. -/
inductive Action
  /-- A change happens on the server. -/
  | happen (c : Change)
  /-- A diff with the next events is processed. -/
  | deliver (length newdiffid : ℕ)
  /-- The answer to one of the later changes is entered. -/
  | enter (i : ℕ)
  /-- The diff id becomes 0. -/
  | replay

/-- The connection after a call, when it returns. -/
def returned {α : Type} : Outcome Stmt Tables Memory α → Option (Connection Stmt Tables Memory)
  | .returned _ connection => some connection
  | .aborted _ | .crashed _ => none

/-- One step. -/
def step (env : Env) (s : Replica) : Action → Option Replica
  | .happen c =>
    if (s.serverTree env).possible env c then some { s with later := s.later ++ [c] } else none
  | .deliver length newdiffid =>
    (returned ((process_entries Tables.engine env true true
      ((s.later.take length).map Change.entry) newdiffid).run s.connection)).map fun connection =>
        ⟨s.past ++ s.later.take length, s.later.drop length, connection⟩
  | .enter i =>
    s.later[i]?.bind fun c => (c.entering env).bind fun p =>
      (returned ((enterAnswer p).run s.connection)).map fun connection =>
        { s with connection := connection }
  | .replay => some { s with past := [], later := s.past ++ s.later }

/-- A client with no files, whose database has the root. -/
def New (s : Replica) : Prop :=
  s.past = [] ∧ s.later = [] ∧
    Outside (At ⟨[{ rootFolder with subdircnt := 0 }], [], 0⟩) s.connection

/-- The machine of the server and the client. -/
def machine (env : Env) : Machine Replica Action := ⟨New, step env⟩

/-! ### The runs -/

/-- The events fit, one after another. -/
def FitAll (env : Env) : Tree → Remote → List Change → Prop
  | _, _, [] => True
  | t, r, c :: cs => Fits env t r c ∧ FitAll env (t.apply env c) (c.deliver env r) cs

/-- The steps of the runs: events fit when they are processed or entered, and they are replayed only
    while there are no subfolders and the used quota is 0. -/
def Ok (env : Env) (s : Replica) : Action → Prop
  | .happen _ => True
  | .deliver length _ => FitAll env (s.tree env) s.remote (s.later.take length)
  | .enter i => ∀ c ∈ s.later[i]?, Fits env (s.tree env) s.remote c
  | .replay => (∀ row ∈ s.remote.folder, row.subdircnt = 0) ∧ s.remote.used_quota = 0

end Replica

/-! ## Changes one after another -/

namespace Tree

variable {t : Tree} {cs ds : List Change} {k : ℕ}

/-- The changes can happen one after another. -/
def Happened (env : Env) : Tree → List Change → Prop
  | _, [] => True
  | t, c :: cs => t.possible env c = true ∧ Happened env (t.apply env c) cs

theorem after_append : t.after env (cs ++ ds) = (t.after env cs).after env ds := foldl_append

theorem happened_append :
    t.Happened env (cs ++ ds) ↔ t.Happened env cs ∧ (t.after env cs).Happened env ds := by
  induction cs generalizing t with
  | nil => exact (iff_of_eq (true_and _)).symm
  | cons c cs ih => exact (and_congr_right fun _ => ih).trans and_assoc.symm

theorem WellFormed.after (h : t.WellFormed) (hcs : t.Happened env cs) :
    (t.after env cs).WellFormed := by
  induction cs generalizing t with
  | nil => exact h
  | cons c cs ih => exact ih (h.apply hcs.1) hcs.2

theorem Happened.sound (hcs : t.Happened env cs) : ∀ c ∈ cs, c.sound env = true := by
  induction cs generalizing t with
  | nil => exact fun _ hc => by cases hc
  | cons c cs ih =>
    intro d hd
    rcases mem_cons.1 hd with rfl | hd
    · exact sound_of_possible hcs.1
    · exact ih hcs.2 d hd

/-- A folder that was not there was created. -/
theorem folder_after (hk : (lookup Folder.id (t.after env cs).folders k).isSome) :
    (lookup Folder.id t.folders k).isSome ∨
      ∃ c ∈ cs, c.kind = .createfolder ∧ k = (c.folder env).id := by
  induction cs generalizing t with
  | nil => exact .inl hk
  | cons c cs ih =>
    rcases ih hk with hthere | ⟨d, hd, hkind, hid⟩
    · rcases hkind : c.kind <;> simp only [apply, hkind] at hthere
      case createfolder =>
        by_cases hid : (c.folder env).id = k
        · exact .inr ⟨c, mem_cons_self, hkind, hid.symm⟩
        · rw [lookup_append_of_ne hid] at hthere
          exact .inl hthere
      case modifyfolder =>
        have hkey : ∀ r : Folder, r.id = (c.folder env).id →
            (c.folder env).id = (c.folder env).id := fun _ _ => rfl
        rw [lookup_update hkey] at hthere
        split at hthere
        · rename_i hid
          rw [isSome_map] at hthere
          exact .inl (hid ▸ hthere)
        · exact .inl hthere
      case deletefolder =>
        rw [lookup_without] at hthere
        split at hthere
        · cases hthere
        · exact .inl hthere
      all_goals exact .inl hthere
    · exact .inr ⟨d, mem_cons_of_mem _ hd, hkind, hid⟩

/-- A file about which there were no events is the same. -/
theorem file_after (hk : ∀ c ∈ cs, ¬ c.About env k) :
    lookup File.id (t.after env cs).files k = lookup File.id t.files k := by
  induction cs generalizing t with
  | nil => rfl
  | cons c cs ih =>
    refine (ih fun d hd => hk d (mem_cons_of_mem _ hd)).trans ?_
    have habout := hk c mem_cons_self
    rcases hkind : c.kind <;> simp only [Change.About, hkind, not_or] at habout <;>
      simp only [apply, hkind]
    case createfile =>
      rw [lookup_append_of_ne (Ne.symm habout.1), FileTable.lookup_dropFile, if_neg habout.2]
    case modifyfile =>
      have hkey : ∀ r : File, r.id = (c.file env).id → (c.file env).id = (c.file env).id :=
        fun _ _ => rfl
      rw [lookup_update hkey, if_neg habout.1, FileTable.lookup_dropFile, if_neg habout.2]
    case deletefile => rw [lookup_without, if_neg habout]

end Tree

namespace Tracks

variable {t : Tree} {cs later : List Change}

theorem deliverAll (h : Tracks env t (cs ++ later) r) (ht : t.WellFormed)
    (hcs : t.Happened env cs) (hfit : Replica.FitAll env t r cs) :
    Tracks env (t.after env cs) later (deliverAll env r cs) := by
  induction cs generalizing t r with
  | nil => exact h
  | cons c cs ih => exact ih (h.deliver ht hcs.1 hfit.1) (ht.apply hcs.1) hcs.2 hfit.2

theorem happen (h : Tracks env t later r) : Tracks env t (later ++ [c]) r :=
  ⟨h.folders.weaken fun _ ⟨d, hd, hkind⟩ => ⟨d, mem_append_left _ hd, hkind⟩,
    h.files.weaken fun _ ⟨d, hd, habout⟩ => ⟨d, mem_append_left _ hd, habout⟩⟩

theorem replay (h : Tracks env (Tree.start.after env cs) later r)
    (hcs : Tree.start.Happened env (cs ++ later))
    (hcount : ∀ row ∈ r.folder, row.subdircnt = 0) (hquota : r.used_quota = 0) :
    Tracks env Tree.start (cs ++ later) r := by
  have ht := Tree.wellFormed_start.after (Tree.happened_append.1 hcs).1
  have hcreated : ∀ k, (lookup FolderRow.key r.folder k).isSome →
      (lookup Folder.id Tree.start.folders k).isSome ∨
        ∃ c ∈ cs ++ later, c.kind = .createfolder ∧ k = (c.folder env).id := by
    intro k hk
    rcases h.folders.early k hk with hthere | ⟨c, hc, hkind⟩
    · exact (Tree.folder_after hthere).imp_right fun ⟨c, hc, hkind⟩ =>
        ⟨c, mem_append_left _ hc, hkind⟩
    · exact .inr ⟨c, mem_append_right _ hc, hkind⟩
  constructor
  · refine ⟨h.folders.keyed, fun k f hf => ?_, hcreated, fun k row hrow => ?_⟩
    · obtain rfl := mem_singleton.1 (mem_of_lookup hf)
      obtain rfl : rootFolder.id = k := key_of_lookup hf
      exact h.folders.there _ _ ht.root
    · have hbound : k < noParent := by
        rcases hcreated k (by rw [hrow]; rfl) with hthere | ⟨c, hc, -, rfl⟩
        · obtain ⟨f, hf, rfl⟩ := isSome_lookup.1 hthere
          exact Tree.wellFormed_start.ids f hf
        · exact Tree.folder_bound (hcs.sound c hc)
      rw [hcount row (mem_of_lookup hrow)]
      refine (Tree.subfolders_eq_zero fun f hf hparent => ?_).symm
      obtain rfl := mem_singleton.1 hf
      exact Nat.ne_of_gt hbound hparent
  · refine ⟨h.files.keyed, fun k hk => ?_, ?_⟩
    · rw [h.files.same k fun ⟨c, hc, habout⟩ => hk ⟨c, mem_append_right _ hc, habout⟩]
      exact Tree.file_after fun c hc habout => hk ⟨c, mem_append_left _ hc, habout⟩
    · have hzero : total (counted env Tree.start.files) r.file = total (fun _ => 0) r.file :=
        total_congr fun _ _ => rfl
      rw [hquota, hzero, total]
      simp

end Tracks

namespace Replica

variable {s s' : Replica}

/-- What holds in the runs. -/
structure Inv (env : Env) (s : Replica) : Prop where
  idle : Idle s.connection
  happened : Tree.start.Happened env (s.past ++ s.later)
  tracks : Tracks env (s.tree env) s.later s.remote

theorem tracks_start : Tracks env Tree.start [] ⟨[{ rootFolder with subdircnt := 0 }], [], 0⟩ where
  folders := by
    refine ⟨nodup_singleton _, fun k f hf => ?_, fun k hk => .inl ?_, fun k row hrow => ?_⟩
    · obtain rfl := mem_singleton.1 (mem_of_lookup hf)
      obtain rfl : rootFolder.id = k := key_of_lookup hf
      exact ⟨_, rfl, rfl⟩
    · obtain ⟨row, hrow, rfl⟩ := isSome_lookup.1 hk
      obtain rfl := mem_singleton.1 hrow
      rfl
    · obtain rfl := mem_singleton.1 (mem_of_lookup hrow)
      obtain rfl : FolderRow.key { rootFolder with subdircnt := 0 } = k := key_of_lookup hrow
      rfl
  files := ⟨nodup_nil, fun _ _ => rfl, rfl⟩

theorem inv_init (h : s.New) : Inv env s := by
  obtain ⟨hpast, hlater, hidle, hat⟩ := h
  have hremote : s.remote = ⟨[{ rootFolder with subdircnt := 0 }], [], 0⟩ := hat
  refine ⟨hidle, ?_, ?_⟩
  · rw [hpast, hlater]
    trivial
  · rw [tree, hpast, hlater, hremote]
    exact tracks_start

theorem returned_triple {α : Type} {m : Call Stmt Tables Memory α} {r' : Remote}
    {connection connection' : Connection Stmt Tables Memory} (hidle : Idle connection)
    (hm : Call.Triple (Outside (At (.ofTables connection.session.db connection.session.mem))) m
      fun _ => Outside (At r')) (hrun : returned (m.run connection) = some connection') :
    Idle connection' ∧ Remote.ofTables connection'.session.db connection'.session.mem = r' := by
  rcases h : m.run connection with ⟨a, c⟩ | c | c
  · rw [h] at hrun
    obtain ⟨⟩ := hrun
    exact hm _ _ _ h ⟨hidle, rfl⟩
  · rw [h] at hrun
    cases hrun
  · rw [h] at hrun
    cases hrun

theorem Inv.step {a : Action} (h : Inv env s) (hok : Ok env s a) (hs : s.step env a = some s') :
    Inv env s' := by
  have htree : (s.tree env).WellFormed :=
    Tree.wellFormed_start.after (Tree.happened_append.1 h.happened).1
  have hlater := (Tree.happened_append.1 h.happened).2
  cases a with
  | happen c =>
    unfold Replica.step at hs
    obtain ⟨hc, ⟨⟩⟩ := ite_none_right_eq_some.1 hs
    refine ⟨h.idle, ?_, h.tracks.happen⟩
    rw [← append_assoc, Tree.happened_append, Tree.after_append]
    exact ⟨h.happened, hc, trivial⟩
  | deliver length newdiffid =>
    obtain ⟨connection, hrun, rfl⟩ := map_eq_some_iff.1 hs
    obtain ⟨hidle, hremote⟩ := returned_triple h.idle (triple_process_entries _ _) hrun
    have hsplit := take_append_drop length s.later
    refine ⟨hidle, ?_, ?_⟩
    · rw [append_assoc, hsplit]
      exact h.happened
    · have htracks : Tracks env (s.tree env) (s.later.take length ++ s.later.drop length)
          s.remote := by
        rw [hsplit]
        exact h.tracks
      have hnext : (s.tree env).Happened env (s.later.take length ++ s.later.drop length) := by
        rw [hsplit]
        exact hlater
      rw [tree, Tree.after_append, remote, hremote]
      exact htracks.deliverAll htree (Tree.happened_append.1 hnext).1 hok
  | enter i =>
    obtain ⟨c, hc, hs⟩ := bind_eq_some_iff.1 hs
    obtain ⟨p, hp, hs⟩ := bind_eq_some_iff.1 hs
    obtain ⟨connection, hrun, rfl⟩ := map_eq_some_iff.1 hs
    obtain ⟨hidle, hremote⟩ := returned_triple h.idle (triple_enterAnswer hp) hrun
    have hmem := mem_of_getElem? hc
    refine ⟨hidle, h.happened, ?_⟩
    rw [remote, hremote]
    exact h.tracks.enter htree hmem (hlater.sound c hmem) (hok c hc)
  | replay =>
    obtain ⟨⟩ := hs
    exact ⟨h.idle, h.happened, h.tracks.replay h.happened hok.1 hok.2⟩

/-- When all events are processed, the tables are those of the tree of the server. -/
theorem faithful_of_reachable (hs : (machine env).Reachable (Ok env) s) (hlater : s.later = []) :
    Faithful env (s.serverTree env) s.remote := by
  have hinv : Inv env s :=
    hs.invariant (fun _ h => inv_init h) fun _ _ _ h hok hstep => h.step hok hstep
  have htree : (s.tree env).WellFormed :=
    Tree.wellFormed_start.after (Tree.happened_append.1 hinv.happened).1
  have htracks : Tracks env (s.tree env) [] s.remote := hlater ▸ hinv.tracks
  unfold serverTree
  rw [hlater]
  exact htracks.faithful htree

/-! ### Two runs -/

/-- A new client. -/
def new : Replica where
  past := []
  later := []
  connection := startConnection { folder := [{ rootFolder with subdircnt := 0 }] }

theorem new_new : new.New := ⟨rfl, rfl, ⟨rfl, rfl⟩, rfl⟩

/-- The folder 5 is created in the root. -/
def createFolder : Change where
  kind := .createfolder
  metadata := [("folderid", .num 5), ("parentfolderid", .num 0), ("ismine", .bool true),
    ("name", .str "a"), ("created", .num 3), ("modified", .num 3)]

/-- The file 7 is created in it, or modified, or deleted, with 10 bytes. -/
def changeFile (kind : Kind) : Change where
  kind := kind
  metadata := [("fileid", .num 7), ("parentfolderid", .num 5), ("ismine", .bool true),
    ("name", .str "b"), ("size", .num 10), ("hash", .num 1)]

/-- A folder and a file are created and entered, and their events are processed. -/
theorem faithful_of_reachable_entered :
    ∃ s : Replica, (machine .plain).Reachable (Ok .plain) s ∧ s.remote.used_quota = 10 ∧
      Faithful .plain (s.serverTree .plain) s.remote := by
  let M := machine .plain
  have h : M.Reachable (Ok .plain) new := .init new_new
  replace h := h.next (.happen createFolder) trivial rfl
  replace h := h.next (.happen (changeFile .createfile)) trivial rfl
  replace h := h.next (.enter 0) (fun c hc => by
    obtain ⟨⟩ := hc
    trivial) rfl
  replace h := h.next (.enter 1) (fun c hc => by
    obtain ⟨⟩ := hc
    exact ⟨fun id hid => (by cases hid), .inr rfl⟩) rfl
  replace h := h.next (.deliver 2 2)
    ⟨trivial, ⟨fun id hid => (by cases hid), .inl rfl⟩, trivial⟩ rfl
  exact ⟨_, h, rfl, faithful_of_reachable h rfl⟩

/-- The event of a folder is processed again. -/
theorem not_faithful_replay :
    ¬ ∀ s : Replica, (machine .plain).Reachable (fun _ _ => True) s → s.later = [] →
      Faithful .plain (s.serverTree .plain) s.remote := by
  intro h
  have hrun : (machine .plain).run new
      [.happen createFolder, .deliver 1 1, .replay, .deliver 1 1] = some _ := rfl
  have hfaithful := h _ (Machine.Reachable.of_run (.init new_new) hrun) rfl
  have hroot := hfaithful.subdircnt _ mem_cons_self
  exact absurd hroot (by decide)

end Replica

end Pclsync.Diff
