import Mathlib.Data.List.Basic
import Mathlib.Tactic.Ring

/-!
# Little-endian numbers

* `toLE n x`: the `n` bytes of `x`, lowest first, and `ofLE`, the number of a list of bytes.
* `ofLE_toLE`, `toLE_ofLE`: the number read back, up to what does not fit, and the bytes.
-/

namespace Pclsync

/-- The number whose bytes are given, lowest first. -/
def ofLE : List UInt8 → ℕ
  | [] => 0
  | b :: bs => b.toNat + 256 * ofLE bs

/-- The `n` lowest bytes of a number, lowest first. -/
def toLE : ℕ → ℕ → List UInt8
  | 0, _ => []
  | n + 1, x => UInt8.ofNat x :: toLE n (x / 256)

@[simp] theorem length_toLE (n x : ℕ) : (toLE n x).length = n := by
  induction n generalizing x with
  | zero => rfl
  | succ n ih => rw [toLE, List.length_cons, ih]

theorem ofLE_toLE (n x : ℕ) : ofLE (toLE n x) = x % 256 ^ n := by
  induction n generalizing x with
  | zero => rw [toLE, ofLE, pow_zero, Nat.mod_one]
  | succ n ih =>
    rw [toLE, ofLE, ih, UInt8.toNat_ofNat', Nat.pow_succ' (m := 256)]
    exact Nat.mod_mul.symm

theorem ofLE_toLE_of_lt {n x : ℕ} (h : x < 256 ^ n) : ofLE (toLE n x) = x := by
  rw [ofLE_toLE, Nat.mod_eq_of_lt h]

theorem ofLE_lt (bs : List UInt8) : ofLE bs < 256 ^ bs.length := by
  induction bs with
  | nil => exact Nat.one_pos
  | cons b bs ih =>
    have hb := b.toNat_lt
    rw [ofLE, List.length_cons, Nat.pow_succ' (m := 256)]
    omega

theorem toLE_ofLE {n : ℕ} {bs : List UInt8} (h : bs.length = n) : toLE n (ofLE bs) = bs := by
  subst h
  induction bs with
  | nil => rfl
  | cons b bs ih =>
    have hb := b.toNat_lt
    have hdiv : (b.toNat + 256 * ofLE bs) / 256 = ofLE bs := by omega
    rw [List.length_cons, toLE, ofLE, hdiv, ih]
    congr 1
    rw [← UInt8.toNat_inj, UInt8.toNat_ofNat']
    omega

end Pclsync
