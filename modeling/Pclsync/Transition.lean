import Mathlib.Data.Set.Basic

/-!
# Machines and their runs

A *machine* takes labelled steps: `step s a` is the state after the action `a` in the state `s`,
and `none` when `a` is not possible there. Everything a step depends on besides the state
(arguments of a call, outcome of an environment call, the thread that moves) is in the label, so
that machines are deterministic and their runs can be evaluated.

* `Machine.Reachable M ok`: the states reached by runs of `M` whose steps all meet the condition
  `ok`; `Machine.Reachable.invariant` is the invariant rule, `Machine.Reachable.mono` weakens the
  condition.
* `Machine.Runs M ok`: runs given by their actions; a run that is written down with what makes its
  steps meet the condition reaches its last state (`Machine.Reachable.runs`).
* `Machine.run`: the state after a list of actions; `Machine.Reachable.of_run` turns an evaluated
  run into reachability.
* `Machine.lockstep`: two machines moved by the same actions, and
  `Machine.Reachable.simulation`, the rule for a relation between their states.
-/

namespace Pclsync

open Option

/-- A machine with states `σ` and actions `α`. -/
structure Machine (σ α : Type*) where
  /-- The initial states. -/
  init : σ → Prop
  /-- The state after an action, when the action is possible. -/
  step : σ → α → Option σ

namespace Machine

variable {σ τ α : Type*} (M : Machine σ α) (N : Machine τ α) (ok : σ → α → Prop)

/-- The states reached by the runs of `M` whose steps all meet `ok`. -/
inductive Reachable : σ → Prop
  | init {s : σ} : M.init s → Reachable s
  | step {s s' : σ} {a : α} : Reachable s → ok s a → M.step s a = some s' → Reachable s'

variable {M N ok}

/-- The invariant rule: what holds initially and is kept by every step meeting the condition
    holds in every state reached. -/
theorem Reachable.invariant {P : σ → Prop} (h0 : ∀ s, M.init s → P s)
    (hstep : ∀ s a s', P s → ok s a → M.step s a = some s' → P s') {s : σ}
    (hs : M.Reachable ok s) : P s := by
  induction hs with
  | init h => exact h0 _ h
  | step _ hok hs ih => exact hstep _ _ _ ih hok hs

theorem Reachable.mono {ok' : σ → α → Prop} (h : ∀ s a, ok s a → ok' s a) {s : σ}
    (hs : M.Reachable ok s) : M.Reachable ok' s := by
  induction hs with
  | init h0 => exact .init h0
  | step _ hok hs ih => exact .step ih (h _ _ hok) hs

theorem Reachable.next {s s' : σ} (hs : M.Reachable ok s) (a : α) (hok : ok s a)
    (h : M.step s a = some s') : M.Reachable ok s' :=
  hs.step hok h

variable (M ok) in
/-- The actions lead from one state to the other, by steps that all meet `ok`. -/
inductive Runs : σ → List α → σ → Prop
  | nil {s : σ} : Runs s [] s
  | cons {s t s' : σ} {a : α} {as : List α} : ok s a → M.step s a = some t → Runs t as s' →
    Runs s (a :: as) s'

theorem Reachable.runs {s s' : σ} {as : List α} (hs : M.Reachable ok s) (h : M.Runs ok s as s') :
    M.Reachable ok s' := by
  induction h with
  | nil => exact hs
  | cons hok hstep _ ih => exact ih (hs.step hok hstep)

variable (M) in
/-- The state after a list of actions, when each of them is possible. -/
def run : σ → List α → Option σ
  | s, [] => some s
  | s, a :: as => (M.step s a).bind fun s' => run s' as

@[simp] theorem run_nil (s : σ) : M.run s [] = some s := rfl

/-- An evaluated run, of actions that meet the condition in every state, reaches its last state. -/
theorem Reachable.of_run_of {s s' : σ} {as : List α} (hs : M.Reachable ok s)
    (hok : ∀ a ∈ as, ∀ s, ok s a) (h : M.run s as = some s') : M.Reachable ok s' := by
  induction as generalizing s with
  | nil => exact some.inj h ▸ hs
  | cons a as ih =>
    obtain ⟨t, ht, h⟩ := bind_eq_some_iff.1 h
    exact ih (hs.step (hok a List.mem_cons_self s) ht)
      (fun b hb => hok b (List.mem_cons_of_mem a hb)) h

/-- An evaluated run, without a condition on its steps, reaches its last state. -/
theorem Reachable.of_run {s s' : σ} {as : List α} (hs : M.Reachable (fun _ _ => True) s)
    (h : M.run s as = some s') : M.Reachable (fun _ _ => True) s' :=
  hs.of_run_of (fun _ _ _ => trivial) h

variable (M N) in
/-- Two machines moved by the same actions. -/
def lockstep : Machine (σ × τ) α where
  init s := M.init s.1 ∧ N.init s.2
  step s a := (M.step s.1 a).bind fun x => (N.step s.2 a).map fun y => (x, y)

theorem lockstep_step_eq_some {s s' : σ × τ} {a : α} : (M.lockstep N).step s a = some s' ↔
      M.step s.1 a = some s'.1 ∧ N.step s.2 a = some s'.2 := by
  simp only [lockstep, bind_eq_some_iff, map_eq_some_iff]
  refine ⟨?_, fun ⟨h1, h2⟩ => ⟨s'.1, h1, s'.2, h2, rfl⟩⟩
  rintro ⟨x, hx, y, hy, rfl⟩
  exact ⟨hx, hy⟩

/-- The simulation rule: a relation which holds initially and is kept by every common step
    meeting the condition holds between all pairs of states reached in lockstep. -/
theorem Reachable.simulation {ok : σ × τ → α → Prop} {R : σ → τ → Prop}
    (h0 : ∀ s t, M.init s → N.init t → R s t)
    (hstep : ∀ s t a s' t', R s t → ok (s, t) a → M.step s a = some s' → N.step t a = some t' →
      R s' t') {s : σ × τ} (hs : (M.lockstep N).Reachable ok s) : R s.1 s.2 :=
  Reachable.invariant (M := M.lockstep N) (P := fun s => R s.1 s.2)
    (fun s h => h0 s.1 s.2 h.1 h.2)
    (fun s a s' hR hok h =>
      have ⟨h1, h2⟩ := lockstep_step_eq_some.1 h
      hstep s.1 s.2 a s'.1 s'.2 hR hok h1 h2) hs

end Machine

end Pclsync
