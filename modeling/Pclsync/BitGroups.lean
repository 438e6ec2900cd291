import Mathlib.Data.List.Flatten
import Mathlib.Tactic.Ring

/-!
# Numbers as groups of bits

A sequence of numbers of `k` bits is a sequence of bits, highest first, which can be cut into groups
of another size.

* `toBits k x`: the lowest `k` bits of `x`; `toBits_add`: the bits of two groups in one number.
* `stream k l`: the bits of a list of numbers.
* `eq_of_stream_append`: the numbers are those of their bits, also when some bits that are less than
  a group follow.
-/

namespace Pclsync.BitGroups

open List

/-- The lowest `k` bits of a number, highest first. -/
def toBits : ℕ → ℕ → List Bool
  | 0, _ => []
  | k + 1, x => toBits k (x / 2) ++ [decide (x % 2 = 1)]

/-- The bits of numbers of `k` bits. -/
def stream (k : ℕ) (l : List ℕ) : List Bool := l.flatMap (toBits k)

variable {k m x y u v : ℕ} {l l' : List ℕ} {rest rest' : List Bool}

/-! ## One number -/

@[simp] theorem length_toBits (k x : ℕ) : (toBits k x).length = k := by
  induction k generalizing x with
  | zero => rfl
  | succ k ih => rw [toBits, length_append, ih, length_singleton]

theorem toBits_add (m : ℕ) (h : v < 2 ^ k) :
    toBits (m + k) (u * 2 ^ k + v) = toBits m u ++ toBits k v := by
  induction k generalizing v with
  | zero =>
    rw [pow_zero, Nat.lt_one_iff] at h
    rw [h, pow_zero, Nat.mul_one, Nat.add_zero, Nat.add_zero, toBits, append_nil]
  | succ k ih =>
    have hlt : v / 2 < 2 ^ k := by
      rw [Nat.pow_succ] at h
      omega
    have hsum : u * 2 ^ (k + 1) + v = 2 * (u * 2 ^ k) + v := by
      rw [Nat.pow_succ]
      ring
    have hdiv : (u * 2 ^ (k + 1) + v) / 2 = u * 2 ^ k + v / 2 := by omega
    have hmod : (u * 2 ^ (k + 1) + v) % 2 = v % 2 := by omega
    rw [← Nat.add_assoc, toBits, hdiv, hmod, ih hlt, toBits, append_assoc]

theorem toBits_mod (k x : ℕ) : toBits k (x % 2 ^ k) = toBits k x := by
  have h := @toBits_add k (x / 2 ^ k) (x % 2 ^ k) 0 (Nat.mod_lt x (Nat.two_pow_pos k))
  rwa [Nat.div_add_mod', Nat.zero_add, toBits, nil_append, eq_comm] at h

theorem toBits_mod_of_le {n : ℕ} (h : k ≤ n) (x : ℕ) : toBits k (x % 2 ^ n) = toBits k x := by
  rw [← toBits_mod k (x % 2 ^ n), Nat.mod_mod_of_dvd x (Nat.pow_dvd_pow 2 h), toBits_mod]

theorem toBits_split (m k x : ℕ) : toBits (m + k) x = toBits m (x / 2 ^ k) ++ toBits k x := by
  have h := @toBits_add k (x / 2 ^ k) (x % 2 ^ k) m (Nat.mod_lt x (Nat.two_pow_pos k))
  rwa [Nat.div_add_mod', toBits_mod] at h

theorem toBits_zero (k : ℕ) : toBits k 0 = replicate k false := by
  induction k with
  | zero => rfl
  | succ k ih => rw [toBits, Nat.zero_div, ih, Nat.zero_mod, replicate_succ']; rfl

theorem toBits_inj (hx : x < 2 ^ k) (hy : y < 2 ^ k) (h : toBits k x = toBits k y) : x = y := by
  induction k generalizing x y with
  | zero => rw [pow_zero, Nat.lt_one_iff] at hx hy; rw [hx, hy]
  | succ k ih =>
    rw [Nat.pow_succ] at hx hy
    obtain ⟨hhigh, hlow⟩ := append_inj' h rfl
    have hdiv := ih (by omega) (by omega) hhigh
    have hmod : x % 2 = 1 ↔ y % 2 = 1 := decide_eq_decide.1 (cons.inj hlow).1
    omega

/-! ## Sequences -/

@[simp] theorem stream_nil : stream k [] = [] := rfl

@[simp] theorem stream_cons : stream k (x :: l) = toBits k x ++ stream k l := rfl

theorem stream_append : stream k (l ++ l') = stream k l ++ stream k l' := flatMap_append

@[simp] theorem length_stream (k : ℕ) (l : List ℕ) : (stream k l).length = k * l.length := by
  induction l with
  | nil => rfl
  | cons x l ih => rw [stream_cons, length_append, length_toBits, ih, length_cons]; ring

theorem stream_inj (hl : ∀ x ∈ l, x < 2 ^ k) (hl' : ∀ x ∈ l', x < 2 ^ k)
    (hlen : l.length = l'.length) (h : stream k l = stream k l') : l = l' := by
  induction l generalizing l' with
  | nil => exact (length_eq_zero_iff.1 hlen.symm).symm
  | cons x l ih =>
    rcases l' with _ | ⟨y, l'⟩
    · cases hlen
    · rw [forall_mem_cons] at hl hl'
      obtain ⟨hhead, htail⟩ := append_inj h (by rw [length_toBits, length_toBits])
      rw [toBits_inj hl.1 hl'.1 hhead, ih hl.2 hl'.2 (Nat.succ.inj hlen) htail]

/-- The numbers of the whole groups do not depend on what is left over. -/
theorem eq_of_stream_append (hl : ∀ x ∈ l, x < 2 ^ k) (hl' : ∀ x ∈ l', x < 2 ^ k)
    (hrest : rest.length < k) (hrest' : rest'.length < k)
    (h : stream k l ++ rest = stream k l' ++ rest') : l = l' := by
  have hlength := congrArg length h
  rw [length_append, length_append, length_stream, length_stream] at hlength
  have hlen : l.length = l'.length := by
    have hdiv : (k * l.length + rest.length) / k = (k * l'.length + rest'.length) / k :=
      congrArg (· / k) hlength
    have hpos : 0 < k := Nat.zero_lt_of_lt hrest
    rwa [Nat.mul_add_div hpos, Nat.mul_add_div hpos, Nat.div_eq_of_lt hrest,
      Nat.div_eq_of_lt hrest'] at hdiv
  refine stream_inj hl hl' hlen (append_inj_left h ?_)
  rw [length_stream, length_stream, hlen]

end Pclsync.BitGroups
