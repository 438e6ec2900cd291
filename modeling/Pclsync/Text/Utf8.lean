import Mathlib.Data.List.Basic
import Mathlib.Data.Int.Notation

/-!
# Checking UTF-8

`psync_is_valid_utf8` (`plibs.c`) looks at the class of each lead byte and at whether as many
continuation bytes follow as the class has. Which code point the bytes stand for is not looked at.

* `psyncIsValidUtf8`: the function, on the bytes up to and including the terminator; a read behind
  them gives `none`.
* `WellFormed`: the definition of UTF-8, by code points.
* `psyncIsValidUtf8_iff`: the function is right except on well-built strings with one of the
  forbidden beginnings of a sequence (`Forbidden`).
-/

namespace Pclsync.Utf8

open List

/-- The table `trailing`. -/
def trailing : List ℤ :=
  replicate 128 0 ++ replicate 64 (-1) ++ replicate 32 1 ++ replicate 16 2 ++
    replicate 8 3 ++ replicate 8 (-1)

/-- The loops of `psync_is_valid_utf8`, of which the inner one has `t` rounds left. -/
def scan : ℕ → List UInt8 → Option Bool
  | _, [] => none
  | 0, b :: str =>
    if b = 0 then some true
    else
      let t := trailing.getD b.toNat 0
      if t < 0 then some false else scan t.toNat str
  | t + 1, b :: str => if b &&& 0xc0 ≠ 0x80 then some false else scan t str

/-- `psync_is_valid_utf8`. -/
def psyncIsValidUtf8 (str : List UInt8) : Option Bool := scan 0 str

/-! ## UTF-8 -/

/-- A byte `10xxxxxx`. -/
def Continuation (b : UInt8) : Prop := 0x80 ≤ b.toNat ∧ b.toNat < 0xc0

/-- The lead bytes of the sequences with `n` continuation bytes: `0xxxxxxx`, `110xxxxx`, `1110xxxx`
    and `11110xxx`. -/
def Lead (b : UInt8) : ℕ → Prop
  | 0 => b.toNat < 0x80
  | 1 => 0xc0 ≤ b.toNat ∧ b.toNat < 0xe0
  | 2 => 0xe0 ≤ b.toNat ∧ b.toNat < 0xf0
  | 3 => 0xf0 ≤ b.toNat ∧ b.toNat < 0xf8
  | _ => False

/-- A lead byte and its continuation bytes. -/
def Sequence (b : UInt8) (tail : List UInt8) : Prop :=
  Lead b tail.length ∧ ∀ c ∈ tail, Continuation c

/-- The code point of a sequence: the bits that its bytes leave free. -/
def codePoint (b : UInt8) (tail : List UInt8) : ℕ :=
  tail.foldl (fun n c => n * 64 + (c.toNat - 0x80))
    (b.toNat - [0, 0xc0, 0xe0, 0xf0].getD tail.length 0)

/-- The code point belongs in a sequence of this length, and is a scalar value. -/
def Scalar (b : UInt8) (tail : List UInt8) : Prop :=
  [0, 0x80, 0x800, 0x10000].getD tail.length 0 ≤ codePoint b tail ∧
    ¬ (0xd800 ≤ codePoint b tail ∧ codePoint b tail ≤ 0xdfff) ∧ codePoint b tail ≤ 0x10ffff

/-- A succession of sequences. -/
inductive Structured : List UInt8 → Prop
  | nil : Structured []
  | cons {b : UInt8} {tail str : List UInt8} (h : Sequence b tail) (hs : Structured str) :
    Structured (b :: (tail ++ str))

/-- A succession of sequences for scalar values. -/
inductive WellFormed : List UInt8 → Prop
  | nil : WellFormed []
  | cons {b : UInt8} {tail str : List UInt8} (h : Sequence b tail) (hc : Scalar b tail)
    (hs : WellFormed str) : WellFormed (b :: (tail ++ str))

/-- A lead byte which with the next byte begins no sequence for a scalar value. -/
def Forbidden (b : UInt8) (next : Option UInt8) : Prop :=
  b.toNat = 0xc0 ∨ b.toNat = 0xc1 ∨ 0xf5 ≤ b.toNat ∧ b.toNat < 0xf8 ∨ ∃ c, next = some c ∧
    (b.toNat = 0xe0 ∧ c.toNat < 0xa0 ∨ b.toNat = 0xed ∧ 0xa0 ≤ c.toNat ∨
      b.toNat = 0xf0 ∧ c.toNat < 0x90 ∨ b.toNat = 0xf4 ∧ 0x90 ≤ c.toNat)

/-- There is a forbidden beginning in a string. -/
def HasForbidden (str : List UInt8) : Prop :=
  ∃ pre b rest, str = pre ++ b :: rest ∧ Forbidden b rest.head?

/-! ## The loops -/

variable {b : UInt8} {n : ℕ} {str tail rest : List UInt8}

theorem Continuation.iff (b : UInt8) : b &&& 0xc0 = 0x80 ↔ Continuation b := by
  have h : ∀ n : Fin 256, n.val &&& 192 = 128 ↔ 128 ≤ n.val ∧ n.val < 192 := by
    decide +kernel
  rw [← UInt8.toNat_inj, UInt8.toNat_and]
  exact h ⟨b.toNat, b.toNat_lt⟩

/-- The table gives the number of continuation bytes of a lead byte, and `-1` for other bytes. -/
theorem trailing_spec (b : UInt8) : (trailing.getD b.toNat 0 < 0 ∧ ∀ n, ¬ Lead b n) ∨
      ∃ n : ℕ, trailing.getD b.toNat 0 = n ∧ Lead b n ∧ ∀ m, Lead b m → m = n := by
  have h : ∀ n : Fin 256, trailing.getD n.val 0 =
      if n.val < 128 then 0 else if n.val < 192 then -1 else if n.val < 224 then 1
      else if n.val < 240 then 2 else if n.val < 248 then 3 else -1 := by decide +kernel
  have hb := h ⟨b.toNat, b.toNat_lt⟩
  dsimp only at hb
  have hlead : ∀ n, Lead b n → (n = 0 ∧ b.toNat < 128) ∨ (n = 1 ∧ 192 ≤ b.toNat ∧ b.toNat < 224) ∨
      (n = 2 ∧ 224 ≤ b.toNat ∧ b.toNat < 240) ∨
        n = 3 ∧ 240 ≤ b.toNat ∧ b.toNat < 248 := fun n hn => by
    match n with
    | 0 => exact .inl ⟨rfl, hn⟩
    | 1 => exact .inr (.inl ⟨rfl, hn⟩)
    | 2 => exact .inr (.inr (.inl ⟨rfl, hn⟩))
    | 3 => exact .inr (.inr (.inr ⟨rfl, hn⟩))
    | _ + 4 => exact hn.elim
  split_ifs at hb with h1 h2 h3 h4 h5
  · exact .inr ⟨0, hb, h1, fun m hm => by have := hlead m hm; omega⟩
  · exact .inl ⟨by omega, fun m hm => by have := hlead m hm; omega⟩
  · exact .inr ⟨1, hb, ⟨by omega, h3⟩, fun m hm => by have := hlead m hm; omega⟩
  · exact .inr ⟨2, hb, ⟨by omega, h4⟩, fun m hm => by have := hlead m hm; omega⟩
  · exact .inr ⟨3, hb, ⟨by omega, h5⟩, fun m hm => by have := hlead m hm; omega⟩
  · exact .inl ⟨by omega, fun m hm => by have := hlead m hm; omega⟩

/-- The rest of a string in which `t` continuation bytes are due. -/
def Due (t : ℕ) (str : List UInt8) : Prop :=
  ∃ tail rest, str = tail ++ rest ∧ tail.length = t ∧ (∀ c ∈ tail, Continuation c) ∧ Structured rest

/-- A scan ends at the terminator at the latest. -/
theorem scan_spec (h0 : 0 ∉ str) (t : ℕ) :
    ∃ v, scan t (str ++ [0]) = some v ∧ (v = true ↔ Due t str) := by
  induction str generalizing t with
  | nil =>
    cases t with
    | zero => exact ⟨true, rfl, iff_of_true rfl ⟨[], [], rfl, rfl, by simp, .nil⟩⟩
    | succ t =>
      refine ⟨false, rfl, iff_of_false Bool.false_ne_true ?_⟩
      rintro ⟨tail, rest, hnil, hlen, -, -⟩
      rw [nil_eq, append_eq_nil_iff] at hnil
      rw [hnil.1] at hlen
      cases hlen
  | cons b str ih =>
    rw [mem_cons, not_or] at h0
    cases t with
    | zero =>
      rw [cons_append, scan, if_neg (Ne.symm h0.1)]
      rcases trailing_spec b with ⟨hneg, hno⟩ | ⟨n, htrailing, hlead, hunique⟩
      · refine ⟨false, if_pos hneg, iff_of_false Bool.false_ne_true ?_⟩
        rintro ⟨tail, rest, heq, hlen, -, hrest⟩
        obtain rfl := length_eq_zero_iff.1 hlen
        rw [nil_append] at heq
        subst heq
        cases hrest with
        | cons h => exact hno _ h.1
      · obtain ⟨v, hv, hiff⟩ := ih h0.2 n
        refine ⟨v, ?_, hiff.trans ⟨?_, ?_⟩⟩
        · dsimp only
          rw [htrailing, if_neg (by omega), Int.toNat_natCast]
          exact hv
        · rintro ⟨tail, rest, rfl, rfl, htail, hrest⟩
          exact ⟨[], _, rfl, rfl, by simp, .cons ⟨hlead, htail⟩ hrest⟩
        · rintro ⟨tail, rest, heq, hlen, -, hrest⟩
          obtain rfl := length_eq_zero_iff.1 hlen
          rw [nil_append] at heq
          subst heq
          cases hrest with
          | @cons _ tail rest h hs => exact ⟨tail, rest, rfl, hunique _ h.1, h.2, hs⟩
    | succ t =>
      rw [cons_append, scan]
      by_cases hb : b &&& 0xc0 = 0x80
      · obtain ⟨v, hv, hiff⟩ := ih h0.2 t
        refine ⟨v, (if_neg (not_not.2 hb)).trans hv, hiff.trans ⟨?_, ?_⟩⟩
        · rintro ⟨tail, rest, rfl, rfl, htail, hrest⟩
          exact ⟨b :: tail, rest, rfl, rfl,
            forall_mem_cons.2 ⟨(Continuation.iff b).1 hb, htail⟩, hrest⟩
        · rintro ⟨_ | ⟨c, tail⟩, rest, heq, hlen, htail, hrest⟩
          · cases hlen
          · obtain ⟨rfl, rfl⟩ := cons.inj heq
            exact ⟨tail, rest, rfl, Nat.succ.inj hlen, (forall_mem_cons.1 htail).2, hrest⟩
      · refine ⟨false, if_pos hb, iff_of_false Bool.false_ne_true ?_⟩
        rintro ⟨_ | ⟨c, tail⟩, rest, heq, hlen, htail, -⟩
        · cases hlen
        · obtain ⟨rfl, -⟩ := cons.inj heq
          exact hb ((Continuation.iff _).2 (htail _ mem_cons_self))

/-! ## Forbidden beginnings -/

/-- A sequence stands for a scalar value unless its beginning is forbidden. -/
theorem scalar_iff (h : Sequence b tail) (rest : List UInt8) :
    Scalar b tail ↔ ¬ Forbidden b (tail ++ rest).head? := by
  obtain ⟨hlead, htail⟩ := h
  unfold Forbidden
  match tail, hlead, htail with
  | [], hlead, _ =>
    have hlead : b.toNat < 0x80 := hlead
    refine iff_of_true (by simp [Scalar, codePoint]; omega) ?_
    rintro (h | h | h | ⟨c, -, h⟩) <;> omega
  | [c], hlead, htail =>
    have hlead : 0xc0 ≤ b.toNat ∧ b.toNat < 0xe0 := hlead
    have hc : Continuation c := htail c (by simp)
    unfold Continuation at hc
    simp [Scalar, codePoint]
    omega
  | [c, d], hlead, htail =>
    have hlead : 0xe0 ≤ b.toNat ∧ b.toNat < 0xf0 := hlead
    have hc : Continuation c := htail c (by simp)
    have hd : Continuation d := htail d (by simp)
    unfold Continuation at hc hd
    simp [Scalar, codePoint]
    omega
  | [c, d, e], hlead, htail =>
    have hlead : 0xf0 ≤ b.toNat ∧ b.toNat < 0xf8 := hlead
    have hc : Continuation c := htail c (by simp)
    have hd : Continuation d := htail d (by simp)
    have he : Continuation e := htail e (by simp)
    unfold Continuation at hc hd he
    simp [Scalar, codePoint]
    omega
  | _ :: _ :: _ :: _ :: _, hlead, _ => exact hlead.elim

theorem Forbidden.not_continuation {next : Option UInt8} (h : Forbidden b next) :
    ¬ Continuation b := by
  unfold Continuation
  rcases h with h | h | h | ⟨c, -, h⟩ <;> omega

/-- A forbidden beginning is that of the first sequence, or is in the rest. -/
theorem hasForbidden_cons (h : Sequence b tail) : HasForbidden (b :: (tail ++ str)) ↔
    Forbidden b (tail ++ str).head? ∨ HasForbidden str := by
  constructor
  · rintro ⟨pre, c, rest, heq, hc⟩
    cases pre with
    | nil =>
      obtain ⟨rfl, rfl⟩ := cons.inj heq
      exact .inl hc
    | cons _ pre =>
      obtain ⟨-, heq⟩ := cons.inj heq
      rcases append_eq_append_iff.1 heq with ⟨cs, rfl, hs⟩ | ⟨cs, rfl, hs⟩
      · exact .inr ⟨cs, c, rest, hs, hc⟩
      · cases cs with
        | nil => exact .inr ⟨[], c, rest, hs.symm, hc⟩
        | cons d cs =>
          -- A continuation byte begins no sequence.
          obtain ⟨rfl, -⟩ := cons.inj hs
          exact absurd (h.2 _ (mem_append_right _ mem_cons_self)) hc.not_continuation
  · rintro (hb | ⟨pre, c, rest, rfl, hc⟩)
    · exact ⟨[], b, _, rfl, hb⟩
    · exact ⟨b :: (tail ++ pre), c, rest, by simp, hc⟩

theorem WellFormed.structured (h : WellFormed str) : Structured str := by
  induction h with
  | nil => exact .nil
  | cons h _ _ ih => exact .cons h ih

theorem Structured.wellFormed_iff (h : Structured str) : WellFormed str ↔ ¬ HasForbidden str := by
  constructor
  · intro hw
    clear h
    induction hw with
    | nil => rintro ⟨pre, b, rest, heq, -⟩; simp at heq
    | cons h hc _ ih =>
      rw [hasForbidden_cons h, not_or]
      exact ⟨(scalar_iff h _).1 hc, ih⟩
  · intro hno
    induction h with
    | nil => exact .nil
    | cons h _ ih =>
      rw [hasForbidden_cons h, not_or] at hno
      exact .cons h ((scalar_iff h _).2 hno.1) (ih hno.2)

/-- The function reads up to the terminator at most, and says of a string whether it is well-formed,
    unless it is built of sequences of which one has a forbidden beginning. -/
theorem psyncIsValidUtf8_iff (h0 : 0 ∉ str) :
    (∃ v, psyncIsValidUtf8 (str ++ [0]) = some v ∧ (v = true ↔ WellFormed str)) ↔
      ¬ (Structured str ∧ HasForbidden str) := by
  obtain ⟨v, hv, hiff⟩ := scan_spec h0 0
  have hdue : Due 0 str ↔ Structured str := by
    constructor
    · rintro ⟨tail, rest, rfl, hlen, -, hrest⟩
      obtain rfl := length_eq_zero_iff.1 hlen
      exact hrest
    · exact fun h => ⟨[], str, rfl, rfl, by simp, h⟩
  rw [hdue] at hiff
  rw [psyncIsValidUtf8, hv]
  constructor
  · rintro ⟨w, hw, hvalid⟩ ⟨hs, hf⟩
    obtain ⟨⟩ := hw
    exact hs.wellFormed_iff.1 (hvalid.1 (hiff.2 hs)) hf
  · intro h
    exact ⟨v, rfl, hiff.trans ⟨fun hs => hs.wellFormed_iff.2 fun hf => h ⟨hs, hf⟩,
      WellFormed.structured⟩⟩

/-- The letter `ä`, and a sequence cut off by the terminator. -/
theorem psyncIsValidUtf8_iff_letter :
    (∃ v, psyncIsValidUtf8 ([0xc3, 0xa4] ++ [0]) = some v ∧ (v = true ↔ WellFormed [0xc3, 0xa4])) ∧
      psyncIsValidUtf8 ([0xc3] ++ [0]) = some false := by
  refine ⟨(psyncIsValidUtf8_iff (by decide)).2 fun h => ?_, by decide⟩
  have hseq : Sequence 0xc3 [0xa4] :=
    ⟨⟨by decide, by decide⟩, forall_mem_singleton.2 ⟨by decide, by decide⟩⟩
  have hscalar : Scalar 0xc3 [0xa4] := ⟨by decide, by decide, by decide⟩
  exact (Structured.wellFormed_iff (.cons hseq .nil)).1 (.cons hseq hscalar .nil) h.2

/-- The bytes `c0 80`, an overlong form of the code point `0`, are said to be valid. -/
theorem overlong_accepted : psyncIsValidUtf8 ([0xc0, 0x80] ++ [0]) = some true ∧
    ¬ WellFormed [0xc0, 0x80] := by
  refine ⟨by decide, fun h => ?_⟩
  exact h.structured.wellFormed_iff.1 h ⟨[], 0xc0, [0x80], rfl, .inl rfl⟩

end Pclsync.Utf8
