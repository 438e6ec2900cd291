import Mathlib.Data.List.Basic
import Mathlib.Algebra.Order.Group.Nat

/-!
# Lists of ranges that tile an interval

`Tiles off len l a b`: the ranges `[off x, off x + len x)` of the elements of `l` are nonempty and
follow each other, in the order of the list, from `a` to `b`. So no two of them have a point in
common (`Tiles.disjoint`).
-/

namespace Pclsync

open List

variable {α : Type*} {off len : α → ℕ} {l k : List α} {a b c i : ℕ} {x : α}

/-- The elements of the list tile the interval `[a, b)`, in order. -/
def Tiles (off len : α → ℕ) : List α → ℕ → ℕ → Prop
  | [], a, b => a = b
  | x :: l, a, b => off x = a ∧ 0 < len x ∧ Tiles off len l (a + len x) b

@[simp] theorem tiles_nil : Tiles off len [] a b ↔ a = b := Iff.rfl

@[simp] theorem tiles_cons :
    Tiles off len (x :: l) a b ↔ off x = a ∧ 0 < len x ∧ Tiles off len l (a + len x) b := Iff.rfl

theorem Tiles.le (h : Tiles off len l a b) : a ≤ b := by
  induction l generalizing a with
  | nil => exact h.le
  | cons x l ih => exact (Nat.le_add_right ..).trans (ih h.2.2)

theorem tiles_append :
    Tiles off len (l ++ k) a b ↔ ∃ c, Tiles off len l a c ∧ Tiles off len k c b := by
  induction l generalizing a with
  | nil => simp
  | cons x l ih => simp [ih, and_assoc]

theorem Tiles.range_le (h : Tiles off len l a b) (hx : x ∈ l) : a ≤ off x ∧ off x + len x ≤ b := by
  induction l generalizing a with
  | nil => simp at hx
  | cons y l ih =>
    obtain ⟨rfl, -, hl⟩ := h
    rcases mem_cons.1 hx with rfl | hx
    · exact ⟨le_rfl, hl.le⟩
    · exact ⟨(Nat.le_add_right ..).trans (ih hl hx).1, (ih hl hx).2⟩

/-- The ranges of two elements of the list are disjoint. -/
theorem Tiles.disjoint {y : α} (h : Tiles off len l a b) (hx : x ∈ l) (hy : y ∈ l) (hne : x ≠ y) :
    off x + len x ≤ off y ∨ off y + len y ≤ off x := by
  induction l generalizing a with
  | nil => simp at hx
  | cons z l ih =>
    obtain ⟨rfl, -, hl⟩ := h
    rcases mem_cons.1 hx with rfl | hx'
    · rcases mem_cons.1 hy with rfl | hy'
      · exact absurd rfl hne
      · exact .inl (hl.range_le hy').1
    · rcases mem_cons.1 hy with rfl | hy'
      · exact .inr (hl.range_le hx').1
      · exact ih hl hx' hy'

theorem Tiles.map {β : Type*} {off' len' : β → ℕ} {f : α → β} (h : Tiles off len l a b)
    (hf : ∀ x ∈ l, off' (f x) = off x ∧ len' (f x) = len x) : Tiles off' len' (l.map f) a b := by
  induction l generalizing a with
  | nil => exact h
  | cons y l ih =>
    obtain ⟨hoff, hlen⟩ := hf y mem_cons_self
    refine ⟨hoff.trans h.1, hlen ▸ h.2.1, ?_⟩
    rw [hlen]
    exact ih h.2.2 fun x hx => hf x (mem_cons_of_mem y hx)

end Pclsync
