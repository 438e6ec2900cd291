import Mathlib.Data.List.Basic

/-!
# Programs over a database

A program runs statements, asks queries and reads and writes a memory. The statements `S` and the
queries `Q` are only names; an `Engine` says what they do to a database of type `δ`, and `exec`
is the execution of a program with an engine.

* `Ran`: what a statement gives back.
* `Program.exec_bind`: a program runs as its parts do.
* `Program.replay_of_exec`: what a program does to the database is what its statements do, which
  are those of the log.
-/

namespace Pclsync.Sql

/-- What is known after a statement: the number of rows that changed, and the id of the last row
    inserted. -/
structure Ran where
  affected : ℕ
  insertid : ℕ

/-- Programs with results of type `α`. -/
inductive Program (S : Type) (Q : Type → Type) (μ α : Type) : Type 1
  | done (a : α)
  | run (s : S) (k : Ran → Program S Q μ α)
  | ask {β : Type} (q : Q β) (k : β → Program S Q μ α)
  | mem {β : Type} (f : μ → β × μ) (k : β → Program S Q μ α)
  /-- The process ends. -/
  | crash

/-- What statements and queries do. -/
structure Engine (S : Type) (Q : Type → Type) (δ : Type) where
  run : S → δ → Ran × δ
  ask : {β : Type} → Q β → δ → β

/-- The database, the memory and the statements that were run. -/
structure Session (S δ μ : Type) where
  db : δ
  mem : μ
  log : List S

variable {S : Type} {Q : Type → Type} {μ α β δ : Type}

/-- The database after a list of statements. -/
def Engine.replay (E : Engine S Q δ) (ss : List S) (d : δ) : δ :=
  ss.foldl (fun d s => (E.run s d).2) d

@[simp] theorem Engine.replay_nil (E : Engine S Q δ) (d : δ) : E.replay [] d = d := rfl

theorem Engine.replay_append (E : Engine S Q δ) (ss ts : List S) (d : δ) :
    E.replay (ss ++ ts) d = E.replay ts (E.replay ss d) := List.foldl_append

namespace Program

/-- One program after another. -/
def bind : Program S Q μ α → (α → Program S Q μ β) → Program S Q μ β
  | done a, f => f a
  | run s k, f => run s fun r => (k r).bind f
  | ask q k, f => ask q fun a => (k a).bind f
  | mem g k, f => mem g fun a => (k a).bind f
  | crash, _ => crash

instance : Monad (Program S Q μ) where
  pure := done
  bind := bind

/-- A statement. -/
def statement (s : S) : Program S Q μ Ran := run s done

/-- A query. -/
def query (q : Q β) : Program S Q μ β := ask q done

/-- A statement of which nothing else is used. -/
def execute (s : S) : Program S Q μ Unit := run s fun _ => done ()

/-- The memory is read. -/
def memory : Program S Q μ μ := mem (fun m => (m, m)) done

/-- The memory is changed. -/
def modifyMemory (f : μ → μ) : Program S Q μ Unit := mem (fun m => ((), f m)) done

/-- The execution of a program; `none` when the process ends in it. -/
def exec (E : Engine S Q δ) : Program S Q μ α → Session S δ μ → Option (α × Session S δ μ)
  | done a, c => some (a, c)
  | run s k, c => (k (E.run s c.db).1).exec E
      { c with db := (E.run s c.db).2, log := c.log ++ [s] }
  | ask q k, c => (k (E.ask q c.db)).exec E c
  | mem f k, c => (k (f c.mem).1).exec E { c with mem := (f c.mem).2 }
  | crash, _ => none

section exec

variable (E : Engine S Q δ) (c : Session S δ μ)

@[simp] theorem exec_pure (a : α) : (pure a : Program S Q μ α).exec E c = some (a, c) := rfl

@[simp] theorem exec_statement (s : S) : (statement s : Program S Q μ Ran).exec E c =
      some ((E.run s c.db).1, { c with db := (E.run s c.db).2, log := c.log ++ [s] }) := rfl

@[simp] theorem exec_query (q : Q β) :
    (query q : Program S Q μ β).exec E c = some (E.ask q c.db, c) := rfl

@[simp] theorem exec_execute (s : S) : (execute s : Program S Q μ Unit).exec E c =
      some ((), { c with db := (E.run s c.db).2, log := c.log ++ [s] }) := rfl

@[simp] theorem exec_memory : (memory : Program S Q μ μ).exec E c = some (c.mem, c) := rfl

@[simp] theorem exec_modifyMemory (f : μ → μ) :
    (modifyMemory f : Program S Q μ Unit).exec E c = some ((), { c with mem := f c.mem }) := rfl

@[simp] theorem exec_crash : (crash : Program S Q μ α).exec E c = none := rfl

/-- A program runs as its parts do. -/
@[simp] theorem exec_bind (p : Program S Q μ α) (f : α → Program S Q μ β) :
    (p >>= f).exec E c = (p.exec E c).bind fun r => (f r.1).exec E r.2 := by
  change (p.bind f).exec E c = _
  induction p generalizing c with
  | done a => rfl
  | run s k ih | ask q k ih | mem g k ih => exact ih _ _
  | crash => rfl

end exec

variable {E : Engine S Q δ} {p : Program S Q μ α} {a : α} {c c' : Session S δ μ}

/-- The database after a program is that after its statements, which are in the log. -/
theorem replay_of_exec (h : p.exec E c = some (a, c')) :
    ∃ ss, c'.log = c.log ++ ss ∧ c'.db = E.replay ss c.db := by
  induction p generalizing c with
  | done b =>
    cases h
    exact ⟨[], (List.append_nil _).symm, rfl⟩
  | run s k ih =>
    obtain ⟨ss, hlog, hdb⟩ := ih _ h
    exact ⟨s :: ss, by rw [hlog, List.append_assoc]; rfl, hdb⟩
  | ask q k ih => exact ih _ h
  | mem f k ih => exact ih (f c.mem).1 (c := { c with mem := (f c.mem).2 }) h
  | crash => cases h

end Program

end Pclsync.Sql
