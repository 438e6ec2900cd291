import Mathlib.Init

/-!
# Accumulated restrictions

A walk collects a value which each of its steps may restrict, as the permissions on the way to a
file are collected. Restricting is an operation `op` that is associative, commutative and
idempotent: the meet of a semilattice, though its order (`Within`) need not be the one the type
comes with.

* `meetAll`: the walk as it should be, where each step restricts.
* `accumulate`: a walk in which some steps assign their value and forget what was collected before.
* `accumulate_eq_meetAll_iff`: the forgetting walk collects the same if and only if, after each
  assignment, nothing is let in which was excluded before it.
-/

namespace Pclsync.Restriction

open List

/-- A step of a walk: it restricts the value, or replaces it. -/
inductive Change (α : Type*)
  | restrict (x : α)
  | assign (x : α)

/-- The value a step comes with. -/
def Change.value {α : Type*} : Change α → α
  | .restrict x => x
  | .assign x => x

section
variable {α : Type*} (op : α → α → α)

/-- `x` is at least as restricted as `y`. -/
def Within (x y : α) : Prop := op x y = x

/-- The value after a step. -/
def Change.apply (x : α) : Change α → α
  | .restrict y => op x y
  | .assign y => y

/-- The value collected by a walk. -/
def accumulate (x : α) (l : List (Change α)) : α := l.foldl (Change.apply op) x

/-- The value collected when every step restricts. -/
def meetAll (x : α) (l : List α) : α := l.foldl op x

/-- Nothing is let in after an assignment that was excluded before it. -/
def NoRegain (x : α) (l : List (Change α)) : Prop :=
  ∀ before y after, l = before ++ .assign y :: after →
    Within op (meetAll op y (after.map Change.value)) (meetAll op x (before.map Change.value))

end

section
variable {α : Type*} {op : α → α → α} {x y z : α} {l : List α}

/-! ## The order -/

theorem Within.trans [Std.Associative op] (hxy : Within op x y) (hyz : Within op y z) :
    Within op x z := by
  rw [Within] at hxy hyz ⊢
  rw [← hxy, ‹Std.Associative op›.assoc x y z, hyz]

theorem within_op_right [Std.Associative op] [Std.IdempotentOp op] : Within op (op x y) y := by
  rw [Within, ‹Std.Associative op›.assoc, ‹Std.IdempotentOp op›.idempotent]

/-! ## Walks which restrict -/

theorem meetAll_append (l₁ l₂ : List α) :
    meetAll op x (l₁ ++ l₂) = meetAll op (meetAll op x l₁) l₂ := foldl_append

/-- A restriction may as well be made at the end. -/
theorem meetAll_op [Std.Associative op] (x y : α) (l : List α) :
    meetAll op (op x y) l = op x (meetAll op y l) := by
  induction l generalizing y with
  | nil => rfl
  | cons z l ih =>
    change meetAll op (op (op x y) z) l = op x (meetAll op (op y z) l)
    rw [‹Std.Associative op›.assoc, ih]

theorem meetAll_within [Std.Associative op] [Std.Commutative op] [Std.IdempotentOp op] :
    Within op (meetAll op x l) x := by
  have h : meetAll op (op x x) l = op x (meetAll op x l) := meetAll_op x x l
  rw [‹Std.IdempotentOp op›.idempotent] at h
  rw [Within, ‹Std.Commutative op›.comm, ← h]

end

/-! ## Walks which forget -/

section
variable {α : Type*} {op : α → α → α} [Std.Associative op] [Std.Commutative op]
  [Std.IdempotentOp op] {x y : α} {l before after : List (Change α)}

omit [Std.Commutative op] in
/-- What is collected lets in all that every step lets in. -/
theorem meetAll_within_accumulate (x : α) (l : List (Change α)) :
    Within op (meetAll op x (l.map Change.value)) (accumulate op x l) := by
  induction l generalizing x with
  | nil => exact ‹Std.IdempotentOp op›.idempotent x
  | cons c l ih =>
    cases c with
    | restrict y => exact ih (op x y)
    | assign y =>
      change Within op (meetAll op (op x y) (l.map Change.value)) (accumulate op y l)
      rw [meetAll_op]
      exact within_op_right.trans (ih y)

omit [Std.Commutative op] in
/-- After an assignment, what is collected lets in all that the steps from there on let in. -/
theorem within_accumulate_of_assign (x y : α) (before after : List (Change α)) :
    Within op (meetAll op y (after.map Change.value))
      (accumulate op x (before ++ .assign y :: after)) := by
  have h : accumulate op x (before ++ .assign y :: after) = accumulate op y after := by
    rw [accumulate, foldl_append]
    rfl
  rw [h]
  exact meetAll_within_accumulate y after

/-- A walk that forgets collects the meet if and only if nothing is let in again after an
    assignment. -/
theorem accumulate_eq_meetAll_iff (x : α) (l : List (Change α)) :
    accumulate op x l = meetAll op x (l.map Change.value) ↔ NoRegain op x l := by
  constructor
  · intro h before y after hl
    have hle : Within op _ (accumulate op x (before ++ .assign y :: after)) :=
      within_accumulate_of_assign x y before after
    rw [← hl, h, hl, map_append, meetAll_append] at hle
    exact hle.trans meetAll_within
  -- the induction is on the walk: an assignment puts its value in the place of `x`
  · intro h
    induction l generalizing x with
    | nil => rfl
    | cons c l ih =>
      cases c with
      | restrict y =>
        refine ih (op x y) fun before z after hl => ?_
        exact h (.restrict y :: before) z after (by rw [hl, cons_append])
      | assign y =>
        have hfirst : Within op (meetAll op y (l.map Change.value)) x := h [] y l rfl
        have hrest : accumulate op y l = meetAll op y (l.map Change.value) := by
          refine ih y fun before z after hl => ?_
          have hz : Within op _ (meetAll op (op x y) (before.map Change.value)) :=
            h (.assign y :: before) z after (by rw [hl, cons_append])
          rw [meetAll_op] at hz
          exact hz.trans within_op_right
        change accumulate op y l = meetAll op (op x y) (l.map Change.value)
        rw [hrest, meetAll_op, ‹Std.Commutative op›.comm]
        exact hfirst.symm

/-- The last step decides when it is within all the others. -/
theorem accumulate_of_within_last {c : Change α}
    (h : Within op c.value (meetAll op x (l.map Change.value))) :
    accumulate op x (l ++ [c]) = c.value := by
  rw [accumulate, foldl_append]
  cases c with
  | restrict y =>
    have hy : Within op y (accumulate op x l) := h.trans (meetAll_within_accumulate x l)
    exact (‹Std.Commutative op›.comm _ _).trans hy
  | assign y => rfl

end

end Pclsync.Restriction
