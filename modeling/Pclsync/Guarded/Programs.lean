import Mathlib.Data.List.Basic
import Mathlib.Order.Lattice

/-!
# Programs on an object with a mutex

A program of one thread works on an object that other threads use as well, under a mutex which
checks errors: unlocking it when it is not held, or locking it when it is, changes nothing else and
counts as a misuse.

What the thread cannot know is in a list of answers, which the program takes one by one: the object
as it is found when the mutex is taken again (`Answer.others`), and what is answered to a call that
is made on the way (`Answer.reply`). A run for which there is no answer, or another one than asked
for, is not a run of the program. Programs also leave notes, for statements about their runs only.

* `Prog`: programs, with the proof that misuses and notes only accumulate.
* `Prog.loop`: a loop with as many rounds as there are answers left, which is enough when every
  round without a result takes an answer.
-/

namespace Pclsync.Guarded

/-- A mutex, as seen by one thread. -/
structure Mutex where
  held : Bool
  misuses : ℕ

namespace Mutex

/-- A mutex that was always used well. -/
def sound (held : Bool) : Mutex := ⟨held, 0⟩

def lock (m : Mutex) : Mutex := ⟨true, if m.held then m.misuses + 1 else m.misuses⟩

def unlock (m : Mutex) : Mutex := ⟨false, if m.held then m.misuses else m.misuses + 1⟩

theorem misuses_le_lock (m : Mutex) : m.misuses ≤ m.lock.misuses := by
  rw [lock]
  split <;> simp

theorem misuses_le_unlock (m : Mutex) : m.misuses ≤ m.unlock.misuses := by
  rw [unlock]
  split <;> simp

@[simp] theorem lock_sound : (sound false).lock = sound true := rfl

@[simp] theorem unlock_sound : (sound true).unlock = sound false := rfl

end Mutex

inductive Answer (σ ε : Type)
  /-- the mutex is taken, and others have left the object so -/
  | others (x : σ)
  | reply (e : ε)

/-- What a program sees and leaves. -/
structure State (σ ε ν : Type) where
  shared : σ
  mutex : Mutex
  answers : List (Answer σ ε)
  notes : List ν
  /-- the object as it was found when the mutex was taken last, for statements only -/
  taken : σ

variable {σ ε ν α β : Type}

/-- What is never taken back. -/
structure State.Grows (s s' : State σ ε ν) : Prop where
  misuses : s.mutex.misuses ≤ s'.mutex.misuses
  notes : ∀ n ∈ s.notes, n ∈ s'.notes
  answers : s'.answers.length ≤ s.answers.length

theorem State.Grows.refl (s : State σ ε ν) : s.Grows s := ⟨le_rfl, fun _ h => h, le_rfl⟩

theorem State.Grows.trans {s s' s'' : State σ ε ν} (h : s.Grows s') (h' : s'.Grows s'') :
    s.Grows s'' :=
  ⟨h.misuses.trans h'.misuses, fun n hn => h'.notes n (h.notes n hn),
    h'.answers.trans h.answers⟩

/-- A program, for its runs on the answers given. -/
@[ext]
structure Prog (σ ε ν α : Type) where
  run : State σ ε ν → Option (α × State σ ε ν)
  grows : ∀ {s a s'}, run s = some (a, s') → s.Grows s'

namespace Prog

theorem grows_bind {f : State σ ε ν → Option (α × State σ ε ν)} {g : α → Prog σ ε ν β}
    (hf : ∀ {s a s'}, f s = some (a, s') → s.Grows s') {s : State σ ε ν} {b : β}
    {s' : State σ ε ν} (h : ((f s).bind fun r => (g r.1).run r.2) = some (b, s')) :
    s.Grows s' := by
  obtain ⟨r, hr, hg⟩ := Option.bind_eq_some_iff.1 h
  exact (hf hr).trans ((g r.1).grows hg)

theorem grows_ret {s t s' : State σ ε ν} {a b : α} (ht : s.Grows t)
    (h : some (a, t) = some (b, s')) : s.Grows s' := by
  cases h
  exact ht

theorem grows_none {s s' : State σ ε ν} {a : α} (h : (none : Option (α × State σ ε ν)) =
    some (a, s')) : s.Grows s' := by cases h

instance : Monad (Prog σ ε ν) where
  pure a := ⟨fun s => some (a, s), fun h => grows_ret (State.Grows.refl _) h⟩
  bind x f := ⟨fun s => (x.run s).bind fun r => (f r.1).run r.2, grows_bind x.grows⟩

theorem run_pure (a : α) (s : State σ ε ν) : (pure a : Prog σ ε ν α).run s = some (a, s) := rfl

theorem run_bind (x : Prog σ ε ν α) (f : α → Prog σ ε ν β) (s : State σ ε ν) :
    (x >>= f).run s = (x.run s).bind fun r => (f r.1).run r.2 := rfl

/-! ## Steps -/

/-- A step that needs no answer. -/
def move (f : State σ ε ν → State σ ε ν) (hf : ∀ s : State σ ε ν, s.Grows (f s)) :
    Prog σ ε ν Unit :=
  ⟨fun s => some ((), f s), fun h => grows_ret (hf _) h⟩

/-- The object; the mutex should be held. -/
def get : Prog σ ε ν σ := ⟨fun s => some (s.shared, s), fun h => grows_ret (.refl _) h⟩

/-- A change of the object; the mutex should be held. -/
def modify (f : σ → σ) : Prog σ ε ν Unit :=
  move (fun s => { s with shared := f s.shared }) fun _ =>
    ⟨le_rfl, fun _ h => h, le_rfl⟩

def unlock : Prog σ ε ν Unit :=
  move (fun s => { s with mutex := s.mutex.unlock }) fun s =>
    ⟨s.mutex.misuses_le_unlock, fun _ h => h, le_rfl⟩

def note (n : ν) : Prog σ ε ν Unit :=
  move (fun s => { s with notes := n :: s.notes }) fun _ =>
    ⟨le_rfl, fun _ h => List.mem_cons_of_mem _ h, le_rfl⟩

/-- The next step of a lock. -/
def lockNext (s : State σ ε ν) : List (Answer σ ε) → Option (Unit × State σ ε ν)
  | .others x :: l =>
    some ((), { s with shared := x, mutex := s.mutex.lock, answers := l, taken := x })
  | _ => none

theorem grows_lockNext {s s' : State σ ε ν} {a : Unit}
    (h : lockNext s s.answers = some (a, s')) : s.Grows s' := by
  rcases hl : s.answers with _ | ⟨x | e, l⟩ <;> rw [hl] at h <;> cases h
  exact ⟨s.mutex.misuses_le_lock, fun _ h => h, hl ▸ Nat.le_succ _⟩

def lock : Prog σ ε ν Unit := ⟨fun s => lockNext s s.answers, grows_lockNext⟩

/-- To wait for a condition variable: the mutex is released meanwhile. -/
def wait : Prog σ ε ν Unit := do
  unlock
  lock

/-- The next step of a call. -/
def askNext (f : ε → Option α) (s : State σ ε ν) : List (Answer σ ε) → Option (α × State σ ε ν)
  | .reply e :: l => (f e).map fun a => (a, { s with answers := l })
  | _ => none

theorem grows_askNext {f : ε → Option α} {s s' : State σ ε ν} {a : α}
    (h : askNext f s s.answers = some (a, s')) : s.Grows s' := by
  rcases hl : s.answers with _ | ⟨x | e, l⟩ <;> rw [hl] at h
  · cases h
  · cases h
  · obtain ⟨b, -, ⟨⟩⟩ := Option.map_eq_some_iff.1 h
    exact ⟨le_rfl, fun _ h => h, hl ▸ Nat.le_succ _⟩

/-- A call, whose answers are those of which `f` makes something. -/
def ask (f : ε → Option α) : Prog σ ε ν α := ⟨fun s => askNext f s s.answers, grows_askNext⟩

/-- There is no result. -/
def stop : Prog σ ε ν α := ⟨fun _ => none, grows_none⟩

/-- A value that need not exist. -/
def ofOption : Option α → Prog σ ε ν α
  | some a => pure a
  | none => stop

/-- A program that is run only when a condition holds. -/
def onlyIf (c : Prop) [Decidable c] (x : Prog σ ε ν Unit) : Prog σ ε ν Unit :=
  if c then x else pure ()

/-! ## Loops -/

/-- A program that knows a bound for what it has still to do. -/
def withFuel (f : ℕ → Prog σ ε ν α) : Prog σ ε ν α :=
  ⟨fun s => (f (s.answers.length + 2)).run s, fun h => (f _).grows h⟩

/-- At most so many rounds of a loop. -/
def rounds (body : Prog σ ε ν (Option α)) : ℕ → Prog σ ε ν α
  | 0 => stop
  | n + 1 => do
    match ← body with
    | some a => pure a
    | none => rounds body n

/-- A loop that goes on as long as there is no result. -/
def loop (body : Prog σ ε ν (Option α)) : Prog σ ε ν α := withFuel (rounds body)

end Prog

end Pclsync.Guarded
