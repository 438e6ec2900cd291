import Pclsync.Sql.Program

/-!
# Transactions

The transactions of `plibs.c`: `psync_sql_start_transaction`, `psync_sql_commit_transaction` and
`psync_sql_rollback_transaction`, with their assertions on `in_transaction`.

A `Connection` has, besides the session, what is on the disk, and how often it was written: at
every commit, and at every statement outside a transaction. The database lock is held in a
transaction, so that the statements in it are all those of one thread. Statements succeed; whether
a `COMMIT` does is an argument.

A `Call` is a function which runs programs and starts and ends transactions. It returns, or the
process ends: with an assertion or otherwise.

* `Call.lift`: the function that only runs a program.
* `Call.Stays`: a call stays in the transaction it is in, and no assertion fails; so do programs
  (`Stays.lift`), and calls made of such calls (`Stays.bind`).
-/

namespace Pclsync.Sql

variable {S : Type} {Q : Type → Type} {μ α β δ : Type}

/-- A connection to the database. -/
structure Connection (S δ μ : Type) where
  session : Session S δ μ
  /-- What is on the disk. -/
  disk : δ
  /-- How often the disk was written. -/
  writes : ℕ
  /-- How many transactions were begun. -/
  begun : ℕ
  in_transaction : Bool
  transaction_failed : Bool

/-- How a call ends. -/
inductive Outcome (S δ μ α : Type)
  | returned (a : α) (c : Connection S δ μ)
  /-- An assertion fails. -/
  | aborted (c : Connection S δ μ)
  /-- The process ends otherwise. -/
  | crashed (c : Connection S δ μ)

/-- A function which runs on a connection. -/
structure Call (S δ μ α : Type) where
  run : Connection S δ μ → Outcome S δ μ α

namespace Call

/-- One call after another. -/
def bind (m : Call S δ μ α) (f : α → Call S δ μ β) : Call S δ μ β where
  run c := match m.run c with
    | .returned a c => (f a).run c
    | .aborted c => .aborted c
    | .crashed c => .crashed c

instance : Monad (Call S δ μ) where
  pure a := ⟨fun c => .returned a c⟩
  bind := bind

/-- A call on a condition. -/
def onlyIf (p : Prop) [Decidable p] (m : Call S δ μ Unit) : Call S δ μ Unit :=
  if p then m else pure ()

/-- A function that runs a program. Outside a transaction every statement is written to the
    disk. -/
def lift (E : Engine S Q δ) (p : Program S Q μ α) : Call S δ μ α where
  run c := match p.exec E c.session with
    | some (a, s) =>
      if c.in_transaction then .returned a { c with session := s }
      else .returned a
        { c with
          session := s, disk := s.db, writes := c.writes + (s.log.length - c.session.log.length) }
    | none => .crashed c

/-- `psync_sql_start_transaction`. -/
def psync_sql_start_transaction : Call S δ μ Unit where
  run c :=
    if c.in_transaction then .aborted c
    else .returned ()
      { c with begun := c.begun + 1, in_transaction := true, transaction_failed := false }

/-- `psync_sql_rollback_transaction`. -/
def psync_sql_rollback_transaction : Call S δ μ Unit where
  run c :=
    if c.in_transaction then
      .returned () { c with session := { c.session with db := c.disk }, in_transaction := false }
    else .aborted c

/-- `psync_sql_commit_transaction`, and whether the `COMMIT` succeeds. -/
def psync_sql_commit_transaction (ok : Bool) : Call S δ μ Unit where
  run c :=
    if c.in_transaction then
      if ¬ c.transaction_failed ∧ ok then
        .returned ()
          { c with disk := c.session.db, writes := c.writes + 1, in_transaction := false }
      else psync_sql_rollback_transaction.run c
    else .aborted c

end Call

/-- `c'` is `c` after statements in a transaction: nothing is written to the disk. -/
structure Connection.Within (E : Engine S Q δ) (c c' : Connection S δ μ) : Prop where
  in_transaction : c'.in_transaction = c.in_transaction
  transaction_failed : c'.transaction_failed = c.transaction_failed
  disk : c'.disk = c.disk
  writes : c'.writes = c.writes
  begun : c'.begun = c.begun
  session : ∃ ss, c'.session.log = c.session.log ++ ss ∧ c'.session.db = E.replay ss c.session.db

namespace Connection.Within

variable {E : Engine S Q δ} {c c' c'' : Connection S δ μ}

theorem refl (E : Engine S Q δ) (c : Connection S δ μ) : c.Within E c :=
  ⟨rfl, rfl, rfl, rfl, rfl, [], (List.append_nil _).symm, rfl⟩

theorem trans (h : c.Within E c') (h' : c'.Within E c'') : c.Within E c'' := by
  obtain ⟨ss, hlog, hdb⟩ := h.session
  obtain ⟨ts, hlog', hdb'⟩ := h'.session
  refine ⟨h'.in_transaction.trans h.in_transaction,
    h'.transaction_failed.trans h.transaction_failed, h'.disk.trans h.disk,
    h'.writes.trans h.writes, h'.begun.trans h.begun, ss ++ ts, ?_, ?_⟩
  · rw [hlog', hlog, List.append_assoc]
  · rw [hdb', hdb, E.replay_append]

end Connection.Within

namespace Call

variable {E : Engine S Q δ} {m : Call S δ μ α} {f : α → Call S δ μ β} {c c' : Connection S δ μ}
  {a : α}

theorem run_pure (a : α) : (pure a : Call S δ μ α).run c = .returned a c := rfl

theorem bind_of_returned (h : m.run c = .returned a c') : (m >>= f).run c = (f a).run c' := by
  change (m.bind f).run c = _
  simp only [bind, h]

theorem bind_of_aborted (h : m.run c = .aborted c') : (m >>= f).run c = .aborted c' := by
  change (m.bind f).run c = _
  simp only [bind, h]

theorem bind_of_crashed (h : m.run c = .crashed c') : (m >>= f).run c = .crashed c' := by
  change (m.bind f).run c = _
  simp only [bind, h]

/-- A query in a transaction changes nothing. -/
theorem lift_query (q : Q α) (hc : c.in_transaction = true) :
    (lift E (Program.query q : Program S Q μ α)).run c = .returned (E.ask q c.session.db) c :=
  if_pos hc

variable (E m c) in
/-- The call stays in the transaction: nothing is written to the disk, whether it returns or the
    process ends; and no assertion fails. -/
def Stays : Prop :=
  (∃ a c', m.run c = .returned a c' ∧ c.Within E c') ∨ ∃ c', m.run c = .crashed c' ∧ c.Within E c'

theorem Stays.pure (a : α) : Stays E (pure a : Call S δ μ α) c := .inl ⟨a, c, rfl, .refl E c⟩

theorem Stays.lift (p : Program S Q μ α) (hc : c.in_transaction = true) :
    Stays E (Call.lift E p) c := by
  unfold Stays Call.lift
  rcases hp : p.exec E c.session with _ | ⟨a, s⟩
  · exact .inr ⟨c, by simp only [hp], .refl E c⟩
  · exact .inl ⟨a, { c with session := s }, by simp only [hp, if_pos hc], rfl, rfl, rfl, rfl, rfl,
      Program.replay_of_exec hp⟩

theorem Stays.onlyIf {p : Prop} [Decidable p] {m : Call S δ μ Unit} (h : p → Stays E m c) :
    Stays E (Call.onlyIf p m) c := by
  unfold Call.onlyIf
  split
  · exact h ‹p›
  · exact .pure ()

theorem Stays.bind (h : Stays E m c)
    (hf : ∀ a c', m.run c = .returned a c' → c.Within E c' → Stays E (f a) c') :
    Stays E (m >>= f) c := by
  rcases h with ⟨a, c', hm, hwithin⟩ | ⟨c', hm, hwithin⟩
  · rcases hf a c' hm hwithin with ⟨b, c'', hb, h'⟩ | ⟨c'', hb, h'⟩
    · exact .inl ⟨b, c'', (bind_of_returned hm).trans hb, hwithin.trans h'⟩
    · exact .inr ⟨c'', (bind_of_returned hm).trans hb, hwithin.trans h'⟩
  · exact .inr ⟨c', bind_of_crashed hm, hwithin⟩

end Call

end Pclsync.Sql
