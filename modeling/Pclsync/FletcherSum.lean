import Mathlib.Data.Nat.Choose.Basic
import Mathlib.Tactic.Ring

/-!
# Sums of partial sums

A pair of running sums over a list: the first adds the elements, the second adds the values of the
first.

* `fletcher_append`: a list is summed piece by piece.
* `fletcher_roll`: what the sums of the next window are, given those of a window.
* `fletcher_replicate`: a constant list.
* `fletcher_natCast`: natural numbers, in a ring.
-/

namespace Pclsync

open List

/-- The sums of a list, from given sums. -/
def fletcher {R : Type*} [Add R] (s : R × R) (l : List R) : R × R :=
  l.foldl (fun p x => (p.1 + x, p.2 + (p.1 + x))) s

/-- The sums of natural numbers, in a ring. -/
theorem fletcher_natCast {R : Type*} [CommRing R] (s : ℕ × ℕ) (l : List ℕ) :
    fletcher ((s.1 : R), (s.2 : R)) (l.map (Nat.cast : ℕ → R)) =
      (((fletcher s l).1 : R), ((fletcher s l).2 : R)) := by
  induction l generalizing s with
  | nil => rfl
  | cons x l ih =>
    have h := ih (s.1 + x, s.2 + (s.1 + x))
    rw [Nat.cast_add, Nat.cast_add, Nat.cast_add] at h
    exact h

variable {R : Type*} [CommRing R]

variable (s : R × R) (x y : R) (l l' : List R)

@[simp] theorem fletcher_nil : fletcher s [] = s := rfl

theorem fletcher_cons : fletcher s (x :: l) = fletcher (s.1 + x, s.2 + (s.1 + x)) l := rfl

theorem fletcher_append : fletcher s (l ++ l') = fletcher (fletcher s l) l' := foldl_append

theorem fletcher_add (a b : R) : fletcher (s.1 + a, s.2 + b) l =
      ((fletcher s l).1 + a, (fletcher s l).2 + b + l.length * a) := by
  induction l generalizing s b with
  | nil => simp
  | cons x l ih =>
    have hfst : s.1 + a + x = s.1 + x + a := by ring
    have hsnd : s.2 + b + (s.1 + a + x) = s.2 + (s.1 + x) + (b + a) := by ring
    rw [fletcher_cons, fletcher_cons, hsnd, hfst, ih (s.1 + x, s.2 + (s.1 + x)) (b + a)]
    refine Prod.ext rfl ?_
    simp only [length_cons]
    push_cast
    ring

/-- The sums of the window which leaves out `x` and takes in `y`. -/
theorem fletcher_roll : fletcher s (l ++ [y]) = ((fletcher s (x :: l)).1 - x + y,
        (fletcher s (x :: l)).2 - (x :: l).length * x - s.1 +
          ((fletcher s (x :: l)).1 - x + y)) := by
  have hadd := fletcher_add s l x (s.1 + x)
  rw [fletcher_append, fletcher_cons, fletcher_nil, fletcher_cons, hadd]
  refine Prod.ext (by ring) ?_
  simp only [length_cons]
  push_cast
  ring

theorem fletcher_replicate (k : ℕ) : fletcher s (replicate k x) =
      (s.1 + k * x, s.2 + k * s.1 + (k + 1).choose 2 * x) := by
  induction k generalizing s with
  | zero => simp
  | succ k ih =>
    have hchoose : (k + 1 + 1).choose 2 = (k + 1) + (k + 1).choose 2 := by
      rw [Nat.choose_succ_succ, Nat.choose_one_right]
    rw [replicate_succ, fletcher_cons, ih, hchoose]
    refine Prod.ext ?_ ?_ <;> push_cast <;> ring

end Pclsync
