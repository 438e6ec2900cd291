import Pclsync.Diff.Engine
import Pclsync.Diff.ShareEvents

/-!
# A diff is applied in one transaction

`process_entries` of `pdiff.c`: a list of entries is processed in a transaction, with the new diff
id at its end. The property is that all of it reaches the disk at once, or none of it
(`AllOrNothing`).

* `allOrNothing_iff`: it does unless an entry says that the folder of `BackupRootFoId` is no longer
  a backup device (`StopsDevice`), as `psync_delete_backup_device` starts a transaction.
-/

namespace Pclsync.Diff

open Sql Sql.Program Option List

variable {δ : Type} (E : Engine Stmt Query δ) (env : Env) (commit : Bool)

/-- `event_list`, without `modifyfolder`. -/
def event_list : List (String × (BinResult → Handler Unit)) :=
  [("createfolder", process_createfolder env), ("deletefolder", process_deletefolder env),
    ("createfile", process_createfile env),
    ("modifyfile", process_modifyfile env),
    ("deletefile", process_deletefile env),
    ("modifyuserinfo", process_modifyuserinfo env),
    ("requestsharein", process_requestsharein),
    ("requestshareout", process_requestshareout),
    ("acceptedsharein", process_acceptedsharein),
    ("acceptedshareout", process_acceptedshareout),
    ("declinedsharein", process_declinedsharein),
    ("declinedshareout", process_declinedshareout),
    ("cancelledsharein", process_cancelledsharein),
    ("cancelledshareout", process_cancelledshareout),
    ("removedsharein", process_removedsharein),
    ("removedshareout", process_removedshareout),
    ("modifiedsharein", process_modifiedsharein),
    ("modifiedshareout", process_modifiedshareout),
    ("establishbsharein", process_establishbsharein),
    ("establishbshareout", process_establishbshareout),
    ("modifybsharein", process_modifybsharein),
    ("modifybshareout", process_modifybshareout),
    ("removebsharein", process_removebsharein),
    ("removebshareout", process_removebshareout),
    ("cryptopasschange", fun _ => process_cryptopasschange),
    ("modifyaccountinfo", process_modifyaccountinfo)]

/-- An entry is processed by the handler of its event, if there is one. -/
def process_entry (entry : BinResult) : Call Stmt δ Memory Unit := do
  let etype := entry.findStr "event"
  let use := modifyMemory fun m => { m with used := m.used.insert etype }
  if etype = "modifyfolder" then
    process_modifyfolder E env commit entry
    Call.lift E use
  else
    match (event_list env).find? fun e => e.1 = etype with
    | some e => Call.lift E (do e.2 entry; use)
    | none => pure ()

/-- The handlers which were used are called without an entry: they give back their statements, and
    `process_cryptopasschange` does what it always does. -/
def process_finish : Handler Unit := do
  if "cryptopasschange" ∈ (← memory).used then process_cryptopasschange

/-- The end of a diff, before the commit. -/
def saveDiff (newdiffid : ℕ) : Handler Unit := do
  process_finish
  psync_set_uint_value "diffid" newdiffid
  psync_set_uint_value "usedquota" (← memory).used_quota.toNat

/-- What is done after the commit. -/
def reloadDiff : Handler ℕ := do
  let usedquota := (← query (.setting "usedquota")).getD 0
  modifyMemory fun m => { m with needdownload := false, used_quota := UInt64.ofNat usedquota }
  return (← query (.setting "diffid")).getD 0

/-- `needdownload=0`. -/
def clearNeeddownload : Handler Unit := modifyMemory fun m => { m with needdownload := false }

/-- The beginning of a diff. -/
def beginDiff (length : ℕ) : Call Stmt δ Memory Unit := do
  Call.psync_sql_start_transaction
  Call.onlyIf (length ≥ 10000) (Call.lift E (execute (.deleteSettings ["lastanalyze"])))

/-- The end of a diff. -/
def endDiff (newdiffid : ℕ) : Call Stmt δ Memory ℕ := do
  Call.lift E (saveDiff newdiffid)
  Call.psync_sql_commit_transaction commit
  Call.lift E reloadDiff

/-- `process_entries`, whether there is an authentication, and whether the commit succeeds. -/
def process_entries (auth : Bool) (entries : List BinResult) (newdiffid : ℕ) :
    Call Stmt δ Memory ℕ := do
  Call.lift E clearNeeddownload
  if ¬ auth then return (← Call.lift E (query (.setting "diffid"))).getD 0
  else
    beginDiff E entries.length
    entries.forM (process_entry E env commit)
    endDiff E commit newdiffid

/-! ## The backup device -/

variable {E env commit} {c c' : Connection Stmt δ Memory} {entry : BinResult}
  {entries : List BinResult} {newdiffid : ℕ}

variable (E env) in
/-- The entry says that the folder of `BackupRootFoId` is no longer a backup device. -/
def StopsDevice (d : δ) (entry : BinResult) : Prop :=
  let row := folderOf env (entry.findHash "metadata")
  entry.findStr "event" = "modifyfolder" ∧ ∃ old, E.ask (.folder row.id) d = some old ∧
    (old.flags &&& flagBackupDevice ≠ 0 ∧ row.flags &&& flagBackupDevice = 0) ∧
    (E.ask (.setting "BackupRootFoId") d).getD 0 = row.id

/-- `psync_delete_backup_device` does nothing for other devices. -/
theorem psync_delete_backup_device_of_ne {folderid : ℕ} (hc : c.in_transaction = true)
    (h : (E.ask (.setting "BackupRootFoId") c.session.db).getD 0 ≠ folderid) :
    (psync_delete_backup_device E commit folderid).run c = .returned () c := by
  unfold psync_delete_backup_device
  rw [Call.bind_of_returned (Call.lift_query _ hc), if_neg h]
  rfl

/-- For the device of `BackupRootFoId` it starts a transaction in the transaction. -/
theorem psync_delete_backup_device_of_eq {folderid : ℕ} (hc : c.in_transaction = true)
    (h : (E.ask (.setting "BackupRootFoId") c.session.db).getD 0 = folderid) :
    (psync_delete_backup_device E commit folderid).run c = .aborted c := by
  unfold psync_delete_backup_device
  rw [Call.bind_of_returned (Call.lift_query _ hc), if_pos h]
  exact Call.bind_of_aborted (if_pos hc)

/-- The sync of a backup is deleted in a thread, so that the database stays as it is. -/
theorem run_psync_delete_sync_by_folderid (folderid : ℕ) (hc : c.in_transaction = true) :
    ∃ mem, (Call.lift E (psync_delete_sync_by_folderid folderid)).run c =
      .returned () { c with session := { c.session with mem := mem } } := by
  unfold psync_delete_sync_by_folderid Call.lift
  simp only [exec_bind, exec_query, bind_some, hc, if_true]
  cases E.ask (.syncfolder folderid) c.session.db with
  | none => exact ⟨c.session.mem, rfl⟩
  | some syncid => exact ⟨_, rfl⟩

/-- The first part of `modifyExisting` leaves the database as it is. -/
theorem run_deleteSync (E : Engine Stmt Query δ) (folderid : ℕ) (p : Prop) [Decidable p]
    (hc : c.in_transaction = true) :
    ∃ mem, (Call.onlyIf p (Call.lift E (psync_delete_sync_by_folderid folderid))).run c =
      .returned () { c with session := { c.session with mem := mem } } := by
  unfold Call.onlyIf
  split
  · exact run_psync_delete_sync_by_folderid folderid hc
  · exact ⟨c.session.mem, rfl⟩

section modifyExisting

variable {old row : Folder}

/-- A folder which stops the device is where an assertion fails. -/
theorem aborted_modifyExisting (env : Env) (commit : Bool) (hc : c.in_transaction = true)
    (hflags : old.flags &&& flagBackupDevice ≠ 0 ∧ row.flags &&& flagBackupDevice = 0)
    (hset : (E.ask (.setting "BackupRootFoId") c.session.db).getD 0 = row.id) :
    ∃ c', (modifyExisting E env commit old row).run c = .aborted c' := by
  unfold modifyExisting
  obtain ⟨mem, hmem⟩ := run_deleteSync E row.id
    (old.flags &&& flagBackupRoot ≠ 0 ∧ row.flags &&& flagBackupRoot = 0) hc
  rw [Call.bind_of_returned hmem, Call.onlyIf, if_pos hflags]
  exact ⟨_, Call.bind_of_aborted (psync_delete_backup_device_of_eq hc hset)⟩

/-- Any other folder stays in the transaction. -/
theorem stays_modifyExisting (hc : c.in_transaction = true)
    (hstop : ¬ ((old.flags &&& flagBackupDevice ≠ 0 ∧ row.flags &&& flagBackupDevice = 0) ∧
      (E.ask (.setting "BackupRootFoId") c.session.db).getD 0 = row.id)) :
    (modifyExisting E env commit old row).Stays E c := by
  obtain ⟨mem, hmem⟩ := run_deleteSync E row.id
    (old.flags &&& flagBackupRoot ≠ 0 ∧ row.flags &&& flagBackupRoot = 0) hc
  refine .bind (.onlyIf fun _ => .lift _ hc) fun _ c' hrun hwithin => ?_
  obtain rfl : { c with session := { c.session with mem := mem } } = c' := by
    rw [hmem] at hrun
    injection hrun
  refine .bind (.onlyIf fun hflags => ?_) fun _ c' _ hwithin' => ?_
  · have hne := fun h => hstop ⟨hflags, h⟩
    exact .inl ⟨(), _, psync_delete_backup_device_of_ne hc hne, .refl E _⟩
  · exact .lift _ (hwithin'.in_transaction.trans hc)

end modifyExisting

/-! ## Entries -/

theorem stays_process_entry (commit : Bool) (hc : c.in_transaction = true)
    (hstop : ¬ StopsDevice E env c.session.db entry) :
    (process_entry E env commit entry).Stays E c := by
  unfold process_entry
  dsimp only
  split
  · rename_i hevent
    refine .bind ?_ fun _ c' _ hwithin => .lift _ (hwithin.in_transaction.trans hc)
    refine .bind (.lift _ hc) fun old c' hrun _ => ?_
    rw [Call.lift_query _ hc] at hrun
    injection hrun with hold hc'
    subst hc'
    cases old with
    | none => exact .lift _ hc
    | some old =>
      exact stays_modifyExisting hc fun h => hstop ⟨hevent, old, hold, h.1, h.2⟩
  · split
    · exact .lift _ hc
    · exact .pure ()

/-- An entry which stops the device is where an assertion fails. -/
theorem aborted_process_entry (commit : Bool) (hc : c.in_transaction = true)
    (hstop : StopsDevice E env c.session.db entry) :
    ∃ c', (process_entry E env commit entry).run c = .aborted c' := by
  obtain ⟨hevent, old, hold, hflags, hset⟩ := hstop
  obtain ⟨c', hc'⟩ := aborted_modifyExisting env commit hc hflags hset
  unfold process_entry
  dsimp only
  rw [if_pos hevent]
  refine ⟨c', Call.bind_of_aborted ?_⟩
  unfold process_modifyfolder
  rw [Call.bind_of_returned (Call.lift_query _ hc), hold]
  exact hc'

variable (E env commit) in
/-- No entry stops the device, in the state in which it is processed. -/
def NoStop : List BinResult → Connection Stmt δ Memory → Prop
  | [], _ => True
  | entry :: entries, c => ¬ StopsDevice E env c.session.db entry ∧
    ∀ c', (process_entry E env commit entry).run c = .returned () c' → NoStop entries c'

/-- Entries stay in the transaction if none of them stops the device. -/
theorem stays_entries (hc : c.in_transaction = true) (h : NoStop E env commit entries c) :
    (entries.forM (process_entry E env commit)).Stays E c := by
  induction entries generalizing c with
  | nil => exact .pure ()
  | cons entry entries ih =>
    refine .bind (stays_process_entry commit hc h.1) fun _ c' hrun hwithin => ?_
    exact ih (hwithin.in_transaction.trans hc) (h.2 c' hrun)

theorem aborted_entries (hc : c.in_transaction = true) (h : ¬ NoStop E env commit entries c) :
    ∃ c', (entries.forM (process_entry E env commit)).run c = .aborted c' := by
  induction entries generalizing c with
  | nil => exact absurd trivial h
  | cons entry entries ih =>
    by_cases hstop : StopsDevice E env c.session.db entry
    · obtain ⟨c', hc'⟩ := aborted_process_entry commit hc hstop
      exact ⟨c', Call.bind_of_aborted hc'⟩
    · simp only [NoStop, hstop, not_false_eq_true, true_and, not_forall] at h
      obtain ⟨c', hrun, hnot⟩ := h
      have hc' : c'.in_transaction = true := by
        rcases stays_process_entry commit hc hstop with
          ⟨_, c'', hrun', hwithin⟩ | ⟨c'', hrun', _⟩
        · rw [hrun] at hrun'
          injection hrun' with _ hcc
          exact hcc ▸ hwithin.in_transaction.trans hc
        · rw [hrun] at hrun'
          cases hrun'
      obtain ⟨c'', hc''⟩ := ih hc' hnot
      exact ⟨c'', (Call.bind_of_returned hrun).trans hc''⟩

/-! ## The whole diff -/

/-- The connection is outside of transactions. -/
structure Idle (c : Connection Stmt δ Memory) : Prop where
  in_transaction : c.in_transaction = false
  disk : c.session.db = c.disk

variable (E c newdiffid) in
/-- All statements of the diff, the one of the new diff id among them, are written to the disk at
    once, or nothing is; there was one transaction at most, and no assertion on transactions
    failed. -/
def AllOrNothing : Outcome Stmt δ Memory ℕ → Prop
  | .returned _ c' => Idle c' ∧ c'.begun ≤ c.begun + 1 ∧
    ((c'.writes = c.writes ∧ c'.disk = c.disk) ∨
      (c'.writes = c.writes + 1 ∧ ∃ ss, c'.session.log = c.session.log ++ ss ∧
        c'.disk = E.replay ss c.disk ∧ .replaceSetting "diffid" (.int newdiffid) ∈ ss))
  | .crashed c' => c'.writes = c.writes ∧ c'.disk = c.disk
  | .aborted _ => False

/-- The handlers that were used end without a crash. -/
theorem exec_process_finish (E : Engine Stmt Query δ) (s : Session Stmt δ Memory) :
    ∃ s', process_finish.exec E s = some ((), s') := by
  unfold process_finish
  rw [exec_bind, exec_memory, bind_some]
  split
  · exact ⟨_, rfl⟩
  · exact ⟨_, rfl⟩

/-- The end of a diff, with its statements. -/
theorem exec_saveDiff (E : Engine Stmt Query δ) (newdiffid : ℕ) (s : Session Stmt δ Memory) :
    ∃ s' ss, (saveDiff newdiffid).exec E s = some ((), s') ∧ s'.log = s.log ++ ss ∧
      s'.db = E.replay ss s.db ∧ .replaceSetting "diffid" (.int newdiffid) ∈ ss := by
  obtain ⟨s₁, hfinish⟩ := exec_process_finish E s
  obtain ⟨ss, hlog, hdb⟩ := replay_of_exec hfinish
  unfold saveDiff psync_set_uint_value setSetting
  rw [exec_bind, hfinish, bind_some, exec_bind, exec_execute, bind_some, exec_bind,
    exec_memory, bind_some, exec_execute]
  refine ⟨_, ss ++ [.replaceSetting "diffid" (.int newdiffid),
    .replaceSetting "usedquota" (.int s₁.mem.used_quota.toNat)], rfl, ?_, ?_, ?_⟩
  · simp only [hlog, append_assoc, cons_append, nil_append]
  · simp only [hdb, E.replay_append]
    rfl
  · exact mem_append_right _ mem_cons_self

variable (E) in
/-- What is done after the commit writes nothing. -/
theorem exec_reloadDiff (s : Session Stmt δ Memory) :
    ∃ n mem, reloadDiff.exec E s = some (n, { s with mem := mem }) := ⟨_, _, rfl⟩

variable (E) in
theorem run_reloadDiff (hc : Idle c) : ∃ n mem, (Call.lift E reloadDiff).run c =
      .returned n { c with session := { c.session with mem := mem } } := by
  obtain ⟨n, mem, hexec⟩ := exec_reloadDiff E c.session
  refine ⟨n, mem, ?_⟩
  unfold Call.lift
  simp only [hexec, hc.in_transaction, hc.disk, Nat.sub_self, Nat.add_zero, Bool.false_eq_true,
    if_false]

variable (E c c') in
/-- `c'` is in the transaction of a diff which began in `c`. -/
structure InDiff : Prop where
  in_transaction : c'.in_transaction = true
  transaction_failed : c'.transaction_failed = false
  begun : c'.begun = c.begun + 1
  disk : c'.disk = c.disk
  writes : c'.writes = c.writes
  session : ∃ ss, c'.session.log = c.session.log ++ ss ∧ c'.session.db = E.replay ss c.disk

theorem InDiff.within {c'' : Connection Stmt δ Memory} (h : InDiff E c c')
    (hwithin : c'.Within E c'') : InDiff E c c'' := by
  obtain ⟨ss, hlog, hdb⟩ := h.session
  obtain ⟨ts, hlog', hdb'⟩ := hwithin.session
  refine ⟨hwithin.in_transaction.trans h.in_transaction,
    hwithin.transaction_failed.trans h.transaction_failed, hwithin.begun.trans h.begun,
    hwithin.disk.trans h.disk, hwithin.writes.trans h.writes, ss ++ ts, ?_, ?_⟩
  · rw [hlog', hlog, append_assoc]
  · rw [hdb', hdb, E.replay_append]

theorem allOrNothing_endDiff (newdiffid : ℕ) (h : InDiff E c c') :
    AllOrNothing E c newdiffid ((endDiff E commit newdiffid).run c') := by
  obtain ⟨s, ts, hexec, hlog', hdb', hmem⟩ := exec_saveDiff E newdiffid c'.session
  have hsave : (Call.lift E (saveDiff newdiffid)).run c' =
      .returned () { c' with session := s } := by
    unfold Call.lift
    simp only [hexec, h.in_transaction, if_true]
  obtain ⟨ss, hlog, hdb⟩ := h.session
  unfold endDiff
  rw [Call.bind_of_returned hsave]
  by_cases hcommit : commit = true
  · -- the commit succeeds
    have hrun : (Call.psync_sql_commit_transaction commit).run { c' with session := s } =
        .returned () { c' with
          session := s, disk := s.db, writes := c'.writes + 1, in_transaction := false } := by
      unfold Call.psync_sql_commit_transaction
      simp only [h.in_transaction, h.transaction_failed, hcommit, if_true, Bool.false_eq_true,
        not_false_eq_true, and_self]
    rw [Call.bind_of_returned hrun]
    obtain ⟨n, mem, hreload⟩ := run_reloadDiff E (c := { c' with
      session := s, disk := s.db, writes := c'.writes + 1, in_transaction := false }) ⟨rfl, rfl⟩
    rw [hreload]
    refine ⟨⟨rfl, rfl⟩, Nat.le_of_eq h.begun, .inr ⟨congrArg (· + 1) h.writes, ss ++ ts, ?_, ?_,
      mem_append_right _ hmem⟩⟩
    · change s.log = _
      rw [hlog', hlog, append_assoc]
    · change s.db = _
      rw [hdb', hdb, E.replay_append]
  · have hrun : (Call.psync_sql_commit_transaction commit).run { c' with session := s } =
        .returned () { c' with session := { s with db := c'.disk }, in_transaction := false } := by
      unfold Call.psync_sql_commit_transaction Call.psync_sql_rollback_transaction
      simp only [h.in_transaction, hcommit, Bool.false_eq_true, and_false, if_true, if_false]
    rw [Call.bind_of_returned hrun]
    obtain ⟨n, mem, hreload⟩ := run_reloadDiff E (c := { c' with
      session := { s with db := c'.disk }, in_transaction := false }) ⟨rfl, rfl⟩
    rw [hreload]
    exact ⟨⟨rfl, rfl⟩, Nat.le_of_eq h.begun, .inl ⟨h.writes, h.disk⟩⟩

/-- `needdownload=0` outside of transactions. -/
theorem run_clearNeeddownload (E : Engine Stmt Query δ) (hc : Idle c) :
    (Call.lift E clearNeeddownload).run c = .returned () { c with
      session := { c.session with mem := { c.session.mem with needdownload := false } } } := by
  unfold Call.lift clearNeeddownload
  simp only [exec_modifyMemory, hc.in_transaction, hc.disk, Nat.sub_self, Nat.add_zero,
    Bool.false_eq_true, if_false]

theorem run_beginDiff (E : Engine Stmt Query δ) (length : ℕ) (hc : Idle c) :
    ∃ c₁, (beginDiff E length).run c = .returned () c₁ ∧ InDiff E c c₁ := by
  have hstart : (Call.psync_sql_start_transaction).run c = .returned ()
      { c with begun := c.begun + 1, in_transaction := true, transaction_failed := false } := by
    unfold Call.psync_sql_start_transaction
    simp only [hc.in_transaction, Bool.false_eq_true, if_false]
  have hin : InDiff E c
      { c with begun := c.begun + 1, in_transaction := true, transaction_failed := false } :=
    ⟨rfl, rfl, rfl, rfl, rfl, [], (append_nil _).symm, hc.disk⟩
  unfold beginDiff Call.onlyIf
  rw [Call.bind_of_returned hstart]
  split
  · refine ⟨_, rfl, hin.within ⟨rfl, rfl, rfl, rfl, rfl, [_], rfl, rfl⟩⟩
  · exact ⟨_, rfl, hin⟩

variable (E env commit) in
/-- No entry stops the device of `BackupRootFoId`, in the state in which it is processed. -/
def NeverStops (entries : List BinResult) (c : Connection Stmt δ Memory) : Prop :=
  ∀ c₀ c₁, (Call.lift E clearNeeddownload).run c = .returned () c₀ →
    (beginDiff E entries.length).run c₀ = .returned () c₁ → NoStop E env commit entries c₁

/-- A diff is applied in one transaction just when it does not stop the device of
    `BackupRootFoId`. -/
theorem allOrNothing_iff (auth : Bool) (hc : Idle c) :
    AllOrNothing E c newdiffid ((process_entries E env commit auth entries newdiffid).run c) ↔
      auth = false ∨ NeverStops E env commit entries c := by
  have hclear := run_clearNeeddownload E hc
  unfold process_entries
  rw [Call.bind_of_returned hclear]
  cases auth with
  | false =>
    -- there is no authentication: nothing is done
    refine iff_of_true ?_ (.inl rfl)
    rw [if_pos Bool.false_ne_true]
    have hquery : (Call.lift E (query (.setting "diffid") : Handler _)).run { c with
        session := { c.session with mem := { c.session.mem with needdownload := false } } } =
        .returned (E.ask (.setting "diffid") c.session.db) { c with
          session := { c.session with mem := { c.session.mem with needdownload := false } } } := by
      unfold Call.lift
      simp only [exec_query, hc.in_transaction, hc.disk, Nat.sub_self, Nat.add_zero,
        Bool.false_eq_true, if_false]
    rw [Call.bind_of_returned hquery]
    exact ⟨⟨hc.in_transaction, hc.disk⟩, Nat.le_succ _, .inl ⟨rfl, rfl⟩⟩
  | true =>
    rw [if_neg (not_not_intro rfl)]
    obtain ⟨c₁, hbegin, hin⟩ := run_beginDiff E (c := { c with
      session := { c.session with mem := { c.session.mem with needdownload := false } } })
      entries.length ⟨hc.in_transaction, hc.disk⟩
    have hin : InDiff E c c₁ :=
      ⟨hin.in_transaction, hin.transaction_failed, hin.begun, hin.disk, hin.writes, hin.session⟩
    have hnever : NeverStops E env commit entries c ↔ NoStop E env commit entries c₁ := by
      refine ⟨fun h => h _ _ hclear hbegin, fun h c₀ c₂ h0 h2 => ?_⟩
      rw [hclear] at h0
      injection h0 with _ h0
      rw [← h0, hbegin] at h2
      injection h2 with _ h2
      exact h2 ▸ h
    rw [Call.bind_of_returned hbegin, hnever]
    constructor
    · intro h
      refine .inr (by_contra fun hnot => ?_)
      obtain ⟨c₂, habort⟩ := aborted_entries hin.in_transaction hnot
      rw [Call.bind_of_aborted habort] at h
      exact h
    · rintro (hauth | hno)
      · cases hauth
      · rcases stays_entries hin.in_transaction hno with ⟨_, c₂, hrun, hwithin⟩ |
          ⟨c₂, hrun, hwithin⟩
        · rw [Call.bind_of_returned hrun]
          exact allOrNothing_endDiff newdiffid (hin.within hwithin)
        · rw [Call.bind_of_crashed hrun]
          exact ⟨hwithin.writes.trans hin.writes, hwithin.disk.trans hin.disk⟩

/-! ## Two diffs -/

/-- A user with nothing to ignore. -/
def Env.plain : Env where
  psync_my_userid := 1
  psync_is_business := false
  time := 0
  ignored _ := false
  invalid _ := false
  stack := 100

/-- The memory of a start. -/
def Memory.start : Memory where
  downloadlist := []
  used_quota := 0
  current_quota := 0
  free_quota := 0
  needdownload := false
  owneruserid := 0
  used := []
  deletedSyncs := []

/-- A connection outside of transactions. -/
def startConnection (d : Tables) : Connection Stmt Tables Memory where
  session := ⟨d, .start, []⟩
  disk := d
  writes := 0
  begun := 0
  in_transaction := false
  transaction_failed := false

/-- An entry about the folder 5 in the root, with a name. -/
def folderEntry (event : String) : BinResult :=
  .hash [("event", .str event), ("metadata", .hash
    [("folderid", .num 5), ("parentfolderid", .num 0), ("ismine", .bool true),
      ("name", .str "device"), ("created", .num 3), ("modified", .num 4)])]

/-- The tables with the folder 5, which is the backup device. -/
def deviceTables : Tables where
  folder := [⟨⟨0, 18446744073709551616, 0, 0, "", 0, 0, 0⟩, 1⟩,
    ⟨⟨5, 0, 1, 15, "device", 3, 3, 16⟩, 0⟩]
  setting := [("BackupRootFoId", .int 5)]

/-- A folder is created. -/
theorem allOrNothing_iff_create : AllOrNothing Tables.engine (startConnection {}) 7
      ((process_entries Tables.engine .plain true true [folderEntry "createfolder"] 7).run
        (startConnection {})) :=
  (allOrNothing_iff true ⟨rfl, rfl⟩).2 (.inr fun _ _ _ _ =>
    ⟨fun h => absurd h.1 (by decide), fun _ _ => trivial⟩)

/-- The backup device is stopped: the assertion of `psync_sql_start_transaction` fails. -/
theorem not_allOrNothing_device :
    ¬ ∀ (entries : List BinResult) (c : Connection Stmt Tables Memory), Idle c →
      AllOrNothing Tables.engine c 7
        ((process_entries Tables.engine .plain true true entries 7).run c) := by
  intro h
  exact h [folderEntry "modifyfolder"] (startConnection deviceTables) ⟨rfl, rfl⟩

end Pclsync.Diff
