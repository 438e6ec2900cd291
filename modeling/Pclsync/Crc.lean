import Mathlib.Data.Nat.Bitwise

/-!
# Cyclic redundancy checks

A reflected check value with any polynomial, as a natural number: `bitStep` divides by one bit, and
the value of some bytes (`crc`) takes each of them in before eight steps.

* `bitSteps_xor`: the steps are linear, and `bitSteps_shiftLeft` says that they undo a shift.
* `crc_eq`: taking in bytes one by one is taking them all in at first, as one number. With linearity
  this gives `bitSteps_eq_byBytes`, where tables do the steps of all bytes.
* `byteTable`: the values of all bytes after some steps, from that of one bit (`getD_byteTable`).
-/

namespace Pclsync.Crc

open List

variable (poly : ℕ)

/-- One bit of the division: the polynomial is taken off if the lowest bit is set. -/
def bitStep (c : ℕ) : ℕ := (c >>> 1) ^^^ c % 2 * poly

/-- Several bits. -/
def bitSteps (n c : ℕ) : ℕ := (bitStep poly)^[n] c

/-- One byte is taken in. -/
def byteStep (c : ℕ) (b : UInt8) : ℕ := bitSteps poly 8 (c ^^^ b.toNat)

/-- The check value of bytes, from the value `c` before them. -/
def crc (c : ℕ) (bytes : List UInt8) : ℕ := bytes.foldl (byteStep poly) c

/-- The number of bytes, the first one lowest. -/
def ofBytes : List UInt8 → ℕ
  | [] => 0
  | b :: bytes => b.toNat ^^^ ofBytes bytes <<< 8

variable {poly} {c d k m n w x y : ℕ} {a b : List UInt8}

/-! ## Steps are linear -/

theorem bitStep_xor (c d : ℕ) : bitStep poly (c ^^^ d) = bitStep poly c ^^^ bitStep poly d := by
  have hmod : (c ^^^ d) % 2 = (c % 2) ^^^ (d % 2) := Nat.xor_mod_two_pow (n := 1)
  rw [bitStep, bitStep, bitStep, Nat.shiftRight_xor_distrib, hmod]
  rcases Nat.mod_two_eq_zero_or_one c with hc | hc <;>
    rcases Nat.mod_two_eq_zero_or_one d with hd | hd <;>
    simp [hc, hd, Nat.xor_comm, Nat.xor_left_comm]

theorem bitSteps_xor (n c d : ℕ) :
    bitSteps poly n (c ^^^ d) = bitSteps poly n c ^^^ bitSteps poly n d := by
  induction n generalizing c d with
  | zero => rfl
  | succ n ih =>
    change bitSteps poly n (bitStep poly (c ^^^ d)) = _
    rw [bitStep_xor, ih]
    rfl

theorem bitSteps_add (m n c : ℕ) :
    bitSteps poly (m + n) c = bitSteps poly n (bitSteps poly m c) := by
  rw [bitSteps, Nat.add_comm m n, Function.iterate_add_apply]
  rfl

@[simp] theorem bitSteps_zero (n : ℕ) : bitSteps poly n 0 = 0 := by
  have h : bitSteps poly n (0 ^^^ 0) = bitSteps poly n 0 ^^^ bitSteps poly n 0 :=
    bitSteps_xor n 0 0
  rw [Nat.xor_self, Nat.xor_self] at h
  exact h

theorem bitSteps_shiftLeft (n x : ℕ) : bitSteps poly n (x <<< n) = x := by
  induction n with
  | zero => rfl
  | succ n ih =>
    have hstep : bitStep poly (x <<< (n + 1)) = x <<< n := by
      rw [bitStep, Nat.shiftLeft_succ, Nat.shiftRight_eq_div_pow, Nat.mul_mod_right, Nat.zero_mul,
        Nat.xor_zero, Nat.pow_one, Nat.mul_div_cancel_left _ Nat.two_pos]
    change bitSteps poly n (bitStep poly (x <<< (n + 1))) = x
    rw [hstep, ih]

theorem bitSteps_add_shiftLeft (m n x : ℕ) :
    bitSteps poly (m + n) (x <<< m) = bitSteps poly n x := by
  rw [bitSteps_add, bitSteps_shiftLeft]

theorem bitSteps_lt (hpoly : poly < 2 ^ w) (hc : c < 2 ^ w) : bitSteps poly n c < 2 ^ w := by
  induction n generalizing c with
  | zero => exact hc
  | succ n ih =>
    refine ih (Nat.xor_lt_two_pow ?_ ?_)
    · exact Nat.lt_of_le_of_lt (Nat.shiftRight_le c 1) hc
    · have hbit : c % 2 * poly ≤ 1 * poly := Nat.mul_le_mul_right poly (by omega)
      rw [Nat.one_mul] at hbit
      exact Nat.lt_of_le_of_lt hbit hpoly

/-! ## Bytes -/

@[simp] theorem crc_nil : crc poly c [] = c := rfl

theorem crc_append : crc poly c (a ++ b) = crc poly (crc poly c a) b := foldl_append

theorem crc_lt (hpoly : poly < 2 ^ w) (hw : 8 ≤ w) (hc : c < 2 ^ w) : crc poly c a < 2 ^ w := by
  induction a generalizing c with
  | nil => exact hc
  | cons x a ih =>
    refine ih (bitSteps_lt hpoly (Nat.xor_lt_two_pow hc ?_))
    exact Nat.lt_of_lt_of_le x.toNat_lt (Nat.pow_le_pow_right Nat.two_pos hw)

theorem ofBytes_append : ofBytes (a ++ b) = ofBytes a ^^^ ofBytes b <<< (8 * a.length) := by
  induction a with
  | nil => simp [ofBytes]
  | cons x a ih =>
    rw [cons_append, ofBytes, ih, ofBytes, length_cons, Nat.shiftLeft_xor_distrib,
      ← Nat.shiftLeft_add, Nat.xor_assoc]
    rfl

theorem ofBytes_lt (a : List UInt8) : ofBytes a < 2 ^ (8 * a.length) := by
  induction a with
  | nil => exact Nat.one_pos
  | cons x a ih =>
    have hshift : ofBytes a <<< 8 < 2 ^ (8 * (a.length + 1)) := by
      rw [Nat.shiftLeft_eq, Nat.mul_add, Nat.pow_add]
      exact Nat.mul_lt_mul_of_pos_right ih (by decide)
    refine Nat.xor_lt_two_pow (Nat.lt_of_lt_of_le x.toNat_lt ?_) hshift
    exact Nat.pow_le_pow_right Nat.two_pos (by rw [length_cons]; omega)

theorem crc_eq (c : ℕ) (a : List UInt8) :
    crc poly c a = bitSteps poly (8 * a.length) (c ^^^ ofBytes a) := by
  induction a generalizing c with
  | nil => exact (Nat.xor_zero c).symm
  | cons x a ih =>
    have hlen : 8 * (x :: a).length = 8 + 8 * a.length := by
      rw [length_cons]
      omega
    change crc poly (byteStep poly c x) a = _
    rw [ih, hlen, ofBytes, ← Nat.xor_assoc, bitSteps_xor _ (c ^^^ x.toNat),
      bitSteps_add_shiftLeft, bitSteps_add, ← bitSteps_xor]
    rfl

/-- The value before some bytes can be taken in behind them. -/
theorem crc_eq_xor (c : ℕ) (a : List UInt8) :
    crc poly c a = bitSteps poly (8 * a.length) c ^^^ crc poly 0 a := by
  rw [crc_eq, crc_eq, bitSteps_xor, Nat.zero_xor]

/-! ## The bytes of a number -/

theorem mod_xor_shift (m x : ℕ) : x % 2 ^ m ^^^ (x >>> m) <<< m = x := by
  refine Nat.eq_of_testBit_eq fun i => ?_
  rw [Nat.testBit_xor, Nat.testBit_mod_two_pow, Nat.testBit_shiftLeft, Nat.testBit_shiftRight]
  by_cases hi : i < m
  · rw [decide_eq_true hi, decide_eq_false (Nat.not_le_of_lt hi), Bool.true_and, Bool.false_and,
      Bool.xor_false]
  · rw [decide_eq_false hi, decide_eq_true (Nat.le_of_not_lt hi), Bool.true_and, Bool.false_and,
      Bool.false_xor, Nat.add_sub_cancel' (Nat.le_of_not_lt hi)]

/-- The lowest bits take all the steps, and the others those that are left. -/
theorem bitSteps_split (m n x : ℕ) :
    bitSteps poly (m + n) x = bitSteps poly (m + n) (x % 2 ^ m) ^^^ bitSteps poly n (x >>> m) := by
  have h : bitSteps poly (m + n) (x % 2 ^ m ^^^ (x >>> m) <<< m) = _ :=
    bitSteps_xor (m + n) (x % 2 ^ m) ((x >>> m) <<< m)
  rwa [mod_xor_shift, bitSteps_add_shiftLeft] at h

/-- The sum over the bytes of a number, of which `f k` takes the one with `k` above it. -/
def byBytes (f : ℕ → ℕ → ℕ) : ℕ → ℕ → ℕ
  | 0, x => x
  | n + 1, x => f n (x % 2 ^ 8) ^^^ byBytes f n (x >>> 8)

theorem shiftRight_xor_shift (x y m : ℕ) : (x ^^^ y <<< (m + 8)) >>> 8 = x >>> 8 ^^^ y <<< m := by
  have hback : (y <<< (m + 8)) >>> 8 = y <<< m := by
    rw [Nat.shiftLeft_add]
    exact Nat.shiftLeft_shiftRight _ 8
  rw [Nat.shiftRight_xor_distrib, hback]

theorem mod_xor_shift_byte (x y m : ℕ) : (x ^^^ y <<< (m + 8)) % 2 ^ 8 = x % 2 ^ 8 := by
  have hlow : (y <<< (m + 8)) % 2 ^ 8 = 0 := by
    rw [Nat.shiftLeft_add, Nat.shiftLeft_eq _ 8]
    exact Nat.mul_mod_left _ _
  rw [Nat.xor_mod_two_pow, hlow, Nat.xor_zero]

/-- The lowest byte is taken from what is below the shift. -/
theorem byBytes_xor_shift (f : ℕ → ℕ → ℕ) (n x y m : ℕ) : byBytes f (n + 1) (x ^^^ y <<< (m + 8)) =
      f n (x % 2 ^ 8) ^^^ byBytes f n (x >>> 8 ^^^ y <<< m) := by
  rw [byBytes, mod_xor_shift_byte, shiftRight_xor_shift]

theorem byBytes_cons (f : ℕ → ℕ → ℕ) (n : ℕ) (x : UInt8) (a : List UInt8) :
    byBytes f (n + 1) (ofBytes (x :: a)) = f n x.toNat ^^^ byBytes f n (ofBytes a) := by
  have hx : x.toNat >>> 8 = 0 := Nat.shiftRight_eq_zero _ _ x.toNat_lt
  have hshift := shiftRight_xor_shift x.toNat (ofBytes a) 0
  have hmod := mod_xor_shift_byte x.toNat (ofBytes a) 0
  rw [Nat.zero_add] at hshift hmod
  rw [byBytes, ofBytes, hshift, hmod, hx, Nat.zero_xor, Nat.mod_eq_of_lt x.toNat_lt]
  rfl

/-- Tables for all the bytes of a number do its steps at once. -/
theorem bitSteps_eq_byBytes {f : ℕ → ℕ → ℕ}
    (hf : ∀ k < n, ∀ i < 2 ^ 8, f k i = bitSteps poly (8 * (k + 1)) i) (x : ℕ) :
    bitSteps poly (8 * n) x = byBytes f n x := by
  induction n generalizing x with
  | zero => rfl
  | succ n ih =>
    have hsum : 8 * (n + 1) = 8 + 8 * n := by omega
    rw [byBytes, hf n (Nat.lt_succ_self n) _ (Nat.mod_lt _ (by decide)), hsum, bitSteps_split,
      ih fun k hk => hf k (Nat.lt_succ_of_lt hk)]

/-! ## Tables of bytes -/

/-- All sums of some numbers: the bits of the index choose them. -/
def sums : List ℕ → List ℕ
  | [] => [0]
  | v :: vs => (sums vs).flatMap fun x => [x, v ^^^ x]

/-- The values of all bytes, where `u` is that of the highest bit. -/
def byteTable (poly u : ℕ) : List ℕ := sums ((range 8).map fun i => bitSteps poly (7 - i) u)

theorem flatMap_pair_getD (f : ℕ → ℕ) (l : List ℕ) (i : ℕ) (hi : i < 2 * l.length) :
    (l.flatMap fun x => [x, f x]).getD i 0 =
      if i % 2 = 0 then l.getD (i / 2) 0 else f (l.getD (i / 2) 0) := by
  induction l generalizing i with
  | nil => exact absurd hi (Nat.not_lt_zero i)
  | cons x l ih =>
    match i with
    | 0 | 1 => rfl
    | i + 2 =>
      have hrest := ih i (by rw [length_cons] at hi; omega)
      rw [Nat.add_mod_right, Nat.add_div_right i Nat.two_pos]
      exact hrest

theorem length_flatMap_pair (f : ℕ → ℕ) (l : List ℕ) :
    (l.flatMap fun x => [x, f x]).length = 2 * l.length := by
  induction l with
  | nil => rfl
  | cons x l ih =>
    rw [flatMap_cons, length_append, ih, length_cons]
    change 2 + 2 * l.length = 2 * (l.length + 1)
    omega

theorem length_sums (vs : List ℕ) : (sums vs).length = 2 ^ vs.length := by
  induction vs with
  | nil => rfl
  | cons v vs ih => rw [sums, length_flatMap_pair, ih, length_cons, Nat.pow_succ, Nat.mul_comm]

/-- The sums are what a linear function gives on numbers, if the numbers chosen are what it gives on
    the powers of two. -/
theorem getD_sums (f : ℕ → ℕ) (h0 : f 0 = 0) (hf : ∀ x y, f (x ^^^ y) = f x ^^^ f y)
    (vs : List ℕ) (hvs : ∀ i < vs.length, vs.getD i 0 = f (2 ^ i)) (i : ℕ)
    (hi : i < 2 ^ vs.length) : (sums vs).getD i 0 = f i := by
  induction vs generalizing f i with
  | nil =>
    obtain rfl : i = 0 := by
      rw [length_nil] at hi
      omega
    exact h0.symm
  | cons v vs ih =>
    rw [length_cons] at hi
    have hv : v = f 1 := hvs 0 (Nat.succ_pos _)
    have hrest : (sums vs).getD (i / 2) 0 = f (2 * (i / 2)) := by
      refine ih (fun x => f (2 * x)) h0 (fun x y => ?_) (fun j hj => ?_) (i / 2) (by omega)
      · have hdouble : 2 * (x ^^^ y) = (2 * x) ^^^ (2 * y) := by
          have h := Nat.shiftLeft_xor_distrib (a := x) (b := y) (i := 1)
          simp only [Nat.shiftLeft_eq, Nat.pow_one] at h
          rwa [Nat.mul_comm, Nat.mul_comm 2 x, Nat.mul_comm 2 y]
        rw [hdouble, hf]
      · have h := hvs (j + 1) (Nat.succ_lt_succ hj)
        rwa [getD_cons_succ, Nat.pow_succ, Nat.mul_comm] at h
    rw [sums, flatMap_pair_getD _ _ _ (by rw [length_sums]; omega), hrest]
    by_cases heven : i % 2 = 0
    · rw [if_pos heven, Nat.mul_div_cancel' (Nat.dvd_of_mod_eq_zero heven)]
    · have hodd : 1 ^^^ (2 * (i / 2)) = i := by
        have hbit := Nat.xor_bit true 0 false (i / 2)
        simp only [Nat.bit, cond_true, cond_false, Nat.mul_zero, Nat.zero_add, Nat.zero_xor,
          Bool.true_xor, Bool.not_false] at hbit
        omega
      rw [if_neg heven, hv, ← hf, hodd]

theorem getD_byteTable (m : ℕ) {i : ℕ} (hi : i < 2 ^ 8) :
    (byteTable poly (bitSteps poly m 1)).getD i 0 = bitSteps poly (m + 7) i := by
  refine getD_sums _ (bitSteps_zero _) (bitSteps_xor _) _ (fun j hj => ?_) i hi
  rw [length_map, length_range] at hj
  have hget : ((range 8).map fun i => bitSteps poly (7 - i) (bitSteps poly m 1)).getD j 0 =
      bitSteps poly (7 - j) (bitSteps poly m 1) := by
    rw [getD_eq_getElem?_getD, getElem?_map, getElem?_range hj]
    rfl
  have hpow : 2 ^ j = 1 <<< j := (Nat.one_shiftLeft j).symm
  have hsum : m + 7 = j + (m + (7 - j)) := by omega
  rw [hget, hpow, hsum, bitSteps_add_shiftLeft, bitSteps_add]

end Pclsync.Crc
