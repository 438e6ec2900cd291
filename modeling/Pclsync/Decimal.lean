import Mathlib.Data.List.Basic
import Mathlib.Algebra.Order.Group.Nat

/-!
# Numbers in decimal

* `decimal n`: the digits of `n` in ASCII, and `parseDecimal`, which reads a number at the beginning
  of a text.
* `parseDecimal_append`: the number which was written is read, if no digit follows.
* `length_decimal_le`, `lt_length_decimal`: how long the text is.
-/

namespace Pclsync

open List

/-- The digit for a number below 10. -/
def digitByte (n : ℕ) : UInt8 := 48 + UInt8.ofNat n

def isDigitByte (b : UInt8) : Bool := 48 ≤ b && b ≤ 57

/-- A number in decimal. -/
def decimal (n : ℕ) : List UInt8 :=
  if n < 10 then [digitByte n] else decimal (n / 10) ++ [digitByte (n % 10)]
termination_by n
decreasing_by omega

/-- The value of digits. -/
def ofDecimal (l : List UInt8) : ℕ := l.foldl (fun v b => 10 * v + (b.toNat - 48)) 0

/-- The number at the beginning of a text, and the text after it. -/
def parseDecimal (l : List UInt8) : Option (ℕ × List UInt8) :=
  if l.takeWhile isDigitByte = [] then none
  else some (ofDecimal (l.takeWhile isDigitByte), l.dropWhile isDigitByte)

theorem toNat_digitByte {n : ℕ} (h : n < 10) : (digitByte n).toNat = 48 + n := by
  rw [digitByte, UInt8.toNat_add, UInt8.toNat_ofNat', show (48 : UInt8).toNat = 48 from rfl]
  omega

theorem isDigitByte_digitByte {n : ℕ} (h : n < 10) : isDigitByte (digitByte n) = true := by
  rw [isDigitByte, Bool.and_eq_true, decide_eq_true_iff, decide_eq_true_iff, UInt8.le_iff_toNat_le,
    UInt8.le_iff_toNat_le, toNat_digitByte h, show (48 : UInt8).toNat = 48 from rfl,
    show (57 : UInt8).toNat = 57 from rfl]
  omega

theorem decimal_of_lt {n : ℕ} (h : n < 10) : decimal n = [digitByte n] := by
  rw [decimal, if_pos h]

theorem decimal_of_le {n : ℕ} (h : 10 ≤ n) :
    decimal n = decimal (n / 10) ++ [digitByte (n % 10)] := by
  rw [decimal, if_neg (Nat.not_lt.2 h)]

theorem decimal_ne_nil (n : ℕ) : decimal n ≠ [] := by
  by_cases h : n < 10
  · rw [decimal_of_lt h]
    exact cons_ne_nil _ _
  · rw [decimal_of_le (Nat.not_lt.1 h)]
    exact append_ne_nil_of_right_ne_nil _ (cons_ne_nil _ _)

theorem isDigitByte_of_mem_decimal {n : ℕ} {b : UInt8} (h : b ∈ decimal n) :
    isDigitByte b = true := by
  induction n using Nat.strongRecOn with
  | ind n ih =>
    by_cases hn : n < 10
    · rw [decimal_of_lt hn] at h
      rw [mem_singleton.1 h]
      exact isDigitByte_digitByte hn
    · rw [decimal_of_le (Nat.not_lt.1 hn)] at h
      rcases mem_append.1 h with h | h
      · exact ih (n / 10) (by omega) h
      · rw [mem_singleton.1 h]
        exact isDigitByte_digitByte (Nat.mod_lt _ (by omega))

theorem ofDecimal_decimal (n : ℕ) : ofDecimal (decimal n) = n := by
  induction n using Nat.strongRecOn with
  | ind n ih =>
    by_cases hn : n < 10
    · rw [decimal_of_lt hn]
      show 10 * 0 + ((digitByte n).toNat - 48) = n
      rw [toNat_digitByte hn]
      omega
    · have hrest := ih (n / 10) (by omega)
      rw [ofDecimal] at hrest
      rw [decimal_of_le (Nat.not_lt.1 hn), ofDecimal, foldl_append, hrest]
      show 10 * (n / 10) + ((digitByte (n % 10)).toNat - 48) = n
      rw [toNat_digitByte (Nat.mod_lt _ (by omega))]
      omega

theorem length_decimal_le {k : ℕ} (hk : 0 < k) {n : ℕ} (h : n < 10 ^ k) :
    (decimal n).length ≤ k := by
  induction k generalizing n with
  | zero => cases hk
  | succ k ih =>
    by_cases hn : n < 10
    · rw [decimal_of_lt hn, length_singleton]
      omega
    · have hk : 0 < k := Nat.pos_of_ne_zero fun hk => hn (by rwa [hk] at h)
      have hdiv : n / 10 < 10 ^ k := by
        rw [Nat.pow_succ] at h
        omega
      rw [decimal_of_le (Nat.not_lt.1 hn), length_append, length_singleton]
      exact Nat.succ_le_succ (ih hk hdiv)

theorem lt_length_decimal {k n : ℕ} (h : 10 ^ k ≤ n) : k < (decimal n).length := by
  induction k generalizing n with
  | zero => exact length_pos_of_ne_nil (decimal_ne_nil n)
  | succ k ih =>
    rw [Nat.pow_succ] at h
    have hpow : 0 < 10 ^ k := Nat.pow_pos (by omega)
    rw [decimal_of_le (by omega), length_append, length_singleton]
    exact Nat.succ_lt_succ (ih (by omega))

theorem decimal_injective : Function.Injective decimal := fun m n h => by
  rw [← ofDecimal_decimal m, h, ofDecimal_decimal]

/-- The number which was written is read. -/
theorem parseDecimal_append (n : ℕ) {l : List UInt8} (hl : ∀ b ∈ l.head?, isDigitByte b = false) :
    parseDecimal (decimal n ++ l) = some (n, l) := by
  have hdigits : ∀ b ∈ decimal n, isDigitByte b = true := fun b => isDigitByte_of_mem_decimal
  have htake : l.takeWhile isDigitByte = [] ∧ l.dropWhile isDigitByte = l := by
    cases l with
    | nil => exact ⟨rfl, rfl⟩
    | cons b l =>
      have hb := Bool.eq_false_iff.1 (hl b rfl)
      exact ⟨takeWhile_cons_of_neg hb, dropWhile_cons_of_neg hb⟩
  rw [parseDecimal, takeWhile_append_of_pos hdigits, dropWhile_append_of_pos hdigits,
    htake.1, htake.2, append_nil, if_neg (decimal_ne_nil n), ofDecimal_decimal]

end Pclsync
