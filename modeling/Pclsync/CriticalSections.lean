import Pclsync.Transition

/-!
# Critical sections

Threads access a shared state in sections, each under one of several mutexes. Sections under one
mutex exclude each other; those under different mutexes do not, so that the accesses of one fall
between those of another. What an access writes may be computed from what the access before it has
read: when the state has changed in between, an update is lost.

* `Section`: the accesses of a section, one after the other; `Section.run` is the section when
  nothing comes between.
* `Sections.machine`: the runs of sections, access by access. `Sections.Fresh`: an access writes
  what it would have if it had read at once.
* `Section.Safe`: what a section keeps while others come between its accesses, as long as they keep
  a view of the state; `Sections.safe_moved` is the rule for all the mutexes together.
-/

namespace Pclsync

open Function

/-- The accesses of a critical section: a step changes the shared state, by what the state was at
    the access before, and what follows depends on the state in which it was made. -/
inductive Section (σ : Type*)
  | done
  | step (act : σ → σ → σ) (next : σ → Section σ)

namespace Section

variable {σ ν α : Type*}

/-- Read from the shared state. -/
def read (g : σ → α) (k : α → Section σ) : Section σ := .step (fun _ s => s) fun s => k (g s)

/-- Write to the shared state. -/
def write (act : σ → σ) (k : Section σ) : Section σ := .step (fun _ s => act s) fun _ => k

/-- Read from the shared state, and write what is computed from it. -/
def change (act : σ → σ → σ) (k : Section σ) : Section σ :=
  .step (fun _ s => s) fun _ => .step act fun _ => k

/-- The state after a section, when nothing comes between its accesses. -/
def run : Section σ → σ → σ
  | done, s => s
  | step act next, s => (next s).run (act s s)

@[simp] theorem run_done (s : σ) : (done : Section σ).run s = s := rfl

@[simp] theorem run_read (g : σ → α) (k : α → Section σ) (s : σ) :
    (read g k).run s = (k (g s)).run s := rfl

@[simp] theorem run_write (act : σ → σ) (k : Section σ) (s : σ) :
    (write act k).run s = k.run (act s) := rfl

@[simp] theorem run_change (act : σ → σ → σ) (k : Section σ) (s : σ) :
    (change act k).run s = k.run (act s s) := rfl

theorem run_ite {p : Prop} [Decidable p] (a b : Section σ) (s : σ) :
    (if p then a else b).run s = if p then a.run s else b.run s := apply_ite (run · s) p a b

/-- In whatever state with this view, and with the invariant, the accesses of a section are made,
    each meets the condition `Q`. -/
def Safe (view : σ → ν) (inv : σ → Prop) (Q : Section σ → σ → Prop) : Section σ → ν → Prop
  | .done, v => ∀ s, view s = v → inv s → Q .done s
  | .step act next, v => ∀ s, view s = v → inv s →
      Q (.step act next) s ∧ (next s).Safe view inv Q (view (act s s))

end Section

/-- The sections of a program: `enter a s` is the state in which the section `a` begins and the
    accesses of it, when the thread of `a` is there. -/
structure Sections (σ μ α : Type*) where
  init : σ → Prop
  mutex : α → μ
  enter : α → σ → Option (σ × Section σ)

/-- A shared state, and of the sections in progress the state at the last access and what is left.
    -/
structure InSections (σ μ : Type*) where
  shared : σ
  inside : μ → Option (σ × Section σ)

namespace InSections

variable {σ μ : Type*}

/-- No section is in progress. -/
def Idle (R : InSections σ μ) : Prop := ∀ m, R.inside m = none

/-- What is left of the section under a mutex. -/
def rest (R : InSections σ μ) (m : μ) : Section σ := (R.inside m).elim .done Prod.snd

theorem rest_of_none {R : InSections σ μ} {m : μ} (h : R.inside m = none) : R.rest m = .done := by
  rw [rest, h]
  rfl

theorem rest_update [DecidableEq μ] (s : σ) (inside : μ → Option (σ × Section σ)) (m : μ)
    (x : Option (σ × Section σ)) : (InSections.mk s (update inside m x)).rest =
      update (InSections.mk s inside).rest m (x.elim .done Prod.snd) := by
  funext m'
  rcases eq_or_ne m' m with rfl | hne
  · simp only [rest, update_self]
  · simp only [rest, update_of_ne hne]

end InSections

/-- A section is entered, or goes on. -/
inductive SectionMove (μ α : Type*)
  | enter (a : α)
  | access (m : μ)

namespace Sections

variable {σ μ α : Type*} [DecidableEq μ] (P : Sections σ μ α)

/-- The state after a move. -/
def moved (R : InSections σ μ) : SectionMove μ α → Option (InSections σ μ)
  | .enter a =>
    match R.inside (P.mutex a) with
    | some _ => none
    | none => (P.enter a R.shared).map fun x =>
        ⟨x.1, update R.inside (P.mutex a) (some (x.1, x.2))⟩
  | .access m =>
    match R.inside m with
    | none => none
    | some (_, .done) => some { R with inside := update R.inside m none }
    | some (old, .step act next) =>
      some ⟨act old R.shared, update R.inside m (some (R.shared, next R.shared))⟩

/-- The machine of the sections. -/
def machine : Machine (InSections σ μ) (SectionMove μ α) where
  init R := P.init R.shared ∧ R.Idle
  step := P.moved

omit [DecidableEq μ] in
/-- What an access writes is what it would write if it had read in this state. -/
def Fresh (R : InSections σ μ) : SectionMove μ α → Prop
  | .enter _ => True
  | .access m => ∀ old act next, R.inside m = some (old, .step act next) →
      act old R.shared = act R.shared R.shared

variable {P} {R R' : InSections σ μ} {mv : SectionMove μ α}

/-- What a move does: a section is entered, is left, or makes its next access. -/
theorem moved_cases (hfresh : Fresh R mv) (h : P.moved R mv = some R') :
    (∃ a p, mv = .enter a ∧ R.rest (P.mutex a) = .done ∧ P.enter a R.shared = some (R'.shared, p) ∧
      R'.rest = update R.rest (P.mutex a) p) ∨
    (∃ m, mv = .access m ∧ R'.shared = R.shared ∧ R'.rest = R.rest) ∨
    ∃ m act next, mv = .access m ∧ R.rest m = .step act next ∧
      R'.shared = act R.shared R.shared ∧ R'.rest = update R.rest m (next R.shared) := by
  cases mv with
  | enter a =>
    rw [moved] at h
    rcases hin : R.inside (P.mutex a) with _ | x
    · rw [hin] at h
      obtain ⟨⟨s', p⟩, hp, rfl⟩ := Option.map_eq_some_iff.1 h
      exact .inl ⟨a, p, rfl, InSections.rest_of_none hin, hp, InSections.rest_update _ _ _ _⟩
    · rw [hin] at h
      cases h
  | access m =>
    rw [moved] at h
    rcases hin : R.inside m with _ | ⟨old, _ | ⟨act, next⟩⟩
    · rw [hin] at h
      cases h
    · rw [hin] at h
      cases h
      have hrest : R.rest m = .done := by
        rw [InSections.rest, hin]
        rfl
      refine .inr (.inl ⟨m, rfl, rfl, (InSections.rest_update _ _ _ _).trans ?_⟩)
      exact (congrArg (update R.rest m) hrest.symm).trans (update_eq_self m R.rest)
    · rw [hin] at h
      cases h
      refine .inr (.inr ⟨m, act, next, rfl, ?_, hfresh old act next hin,
        InSections.rest_update _ _ _ _⟩)
      rw [InSections.rest, hin]
      rfl

/-! ## Safe sections -/

section

variable {ν : μ → Type*} (view : ∀ m, σ → ν m) (inv : σ → Prop) (Q : μ → Section σ → σ → Prop)

omit [DecidableEq μ] in
/-- What is left of the sections is safe. -/
def AllSafe (R : InSections σ μ) : Prop :=
  ∀ m, (R.rest m).Safe (view m) inv (Q m) (view m R.shared)

variable {view inv Q}

omit [DecidableEq μ] in
theorem AllSafe.next {m : μ} {act : σ → σ → σ} {next : σ → Section σ} (h : AllSafe view inv Q R)
    (hinv : inv R.shared) (hrest : R.rest m = .step act next) :
    Q m (.step act next) R.shared ∧
      (next R.shared).Safe (view m) inv (Q m) (view m (act R.shared R.shared)) := by
  have hm := h m
  rw [hrest] at hm
  exact hm R.shared rfl hinv

/-- Sections stay safe when those entered are, and when each keeps the views of the others. -/
theorem safe_moved (hinv : inv R.shared)
    (henter : ∀ a s p, P.enter a R.shared = some (s, p) →
      Section.Safe (view (P.mutex a)) inv (Q (P.mutex a)) .done (view (P.mutex a) R.shared) →
        p.Safe (view (P.mutex a)) inv (Q (P.mutex a)) (view (P.mutex a) s) ∧
          ∀ m, m ≠ P.mutex a → view m s = view m R.shared)
    (hkeep : ∀ m act next, Q m (.step act next) R.shared → ∀ m', m' ≠ m →
      view m' (act R.shared R.shared) = view m' R.shared)
    (hfresh : Fresh R mv) (hs : P.moved R mv = some R') (h : AllSafe view inv Q R) :
    AllSafe view inv Q R' := by
  intro m'
  rcases moved_cases hfresh hs with ⟨a, p, -, hdone, hp, hrest⟩ | ⟨m, -, hshared, hrest⟩ |
    ⟨m, act, next, -, hrestm, hshared, hrest⟩
  · have ha := h (P.mutex a)
    rw [hdone] at ha
    obtain ⟨hsafe, hviews⟩ := henter a _ p hp ha
    rw [hrest]
    rcases eq_or_ne m' (P.mutex a) with rfl | hne
    · rwa [update_self]
    · rw [update_of_ne hne, hviews m' hne]
      exact h m'
  · rw [hrest, hshared]
    exact h m'
  · obtain ⟨hQ, hsafe⟩ := h.next hinv hrestm
    rw [hrest, hshared]
    rcases eq_or_ne m' m with rfl | hne
    · rwa [update_self]
    · rw [update_of_ne hne, hkeep m act next hQ m' hne]
      exact h m'

end

end Sections

end Pclsync
