import Mathlib.Data.List.Basic
import Mathlib.Data.List.GetD
import Pclsync.BitGroups

/-!
# Base 32

`psync_base32_encode` and `psync_base32_decode` (`plibs.c`) move bits from bytes to characters of
five bits and back, through a buffer from which they are taken when there are enough.

* `base32Encode`, `base32Decode`: the functions. A write behind the memory they allocate is `none`.
* `exists_base32Encode`: the characters have the bits of the bytes, and zeros for the last one.
* `exists_base32Decode`: the bytes have the bits of the characters, without those left over.
* `base32Decode_rejected_iff`: strings with other characters, and only these, are rejected.
-/

namespace Pclsync.Text

open BitGroups List

/-! ## Memory -/

/-- `*p++=b`, in memory of which the beginning has been written. -/
def put (size : ℕ) (out : List UInt8) (b : UInt8) : Option (List UInt8) :=
  if out.length < size then some (out ++ [b]) else none

/-- `*p=0` -/
def putZero (size : ℕ) (out : List UInt8) : Option (List UInt8) :=
  if out.length < size then some out else none

theorem put_eq {size : ℕ} {out : List UInt8} (h : out.length < size) (b : UInt8) :
    put size out b = some (out ++ [b]) := if_pos h

/-- What a decoder returns. -/
inductive Decoded
  | rejected
  | bytes (out : List UInt8)

namespace Base32

/-! ## The functions -/

/-- `"ABCDEFGHIJKLMNOPQRSTUVWXYZ234567"` -/
def table : List UInt8 :=
  [65, 66, 67, 68, 69, 70, 71, 72, 73, 74, 75, 76, 77, 78, 79, 80, 81, 82, 83, 84, 85, 86, 87, 88,
    89, 90, 50, 51, 52, 53, 54, 55]

/-- The character of a number below 32. -/
def digit (i : ℕ) : UInt8 := table.getD i 0

/-- `table[0x1f&(buff>>bits)]` -/
def topDigit (buff : UInt32) (bits : ℕ) : UInt8 := digit ((buff.toNat >>> bits) &&& 0x1f)

/-- The loop while there are bytes. -/
def encodeLoop (size : ℕ) (str : List UInt8) (bits : ℕ) (buff : UInt32) (out : List UInt8) :
    Option (List UInt8 × ℕ × UInt32) :=
  match str with
  | [] => some (out, bits, buff)
  | b :: str =>
    if bits < 5 then
      (put size out (topDigit (buff <<< 8 ||| b.toUInt32) (bits + 8 - 5))).bind
        (encodeLoop size str (bits + 8 - 5) (buff <<< 8 ||| b.toUInt32))
    else (put size out (topDigit buff (bits - 5))).bind (encodeLoop size (b :: str) (bits - 5) buff)
termination_by 8 * str.length + bits

/-- The loop while there are bits. -/
def encodeRest (size bits : ℕ) (buff : UInt32) (out : List UInt8) : Option (List UInt8) :=
  if bits = 0 then some out
  else if bits < 5 then
    put size out (topDigit (buff <<< UInt32.ofNat (5 - bits)) 0)
  else (put size out (topDigit buff (bits - 5))).bind (encodeRest size (bits - 5) buff)
termination_by bits

/-- `psync_base32_encode` -/
def base32Encode (str : List UInt8) : Option (List UInt8) :=
  let size := (str.length + 4) / 5 * 8 + 1
  (encodeLoop size str 0 0 []).bind fun r => (encodeRest size r.2.1 r.2.2 r.1).bind (putZero size)

/-- The number of a character. -/
def value (ch : UInt8) : Option UInt8 :=
  if 65 ≤ ch ∧ ch ≤ 90 then some ((ch &&& 0x1f) - 1)
  else if 50 ≤ ch ∧ ch ≤ 55 then some (ch - (50 - 26))
  else none

/-- The loop of `psync_base32_decode`; `none` as a result is a string that is rejected. -/
def decodeLoop (size : ℕ) : (str : List UInt8) → (bits : ℕ) → (buff : UInt32) →
    (out : List UInt8) → Option (Option (List UInt8))
  | [], _, _, out => some (some out)
  | c :: str, bits, buff, out =>
    match value c with
    | none => some none
    | some ch =>
      if 8 ≤ bits + 5 then
        (put size out (((buff <<< 5) + ch.toUInt32) >>> UInt32.ofNat (bits + 5 - 8)).toUInt8).bind
          (decodeLoop size str (bits + 5 - 8) ((buff <<< 5) + ch.toUInt32))
      else decodeLoop size str (bits + 5) ((buff <<< 5) + ch.toUInt32) out

/-- `psync_base32_decode` -/
def base32Decode (str : List UInt8) : Option Decoded :=
  let size := (str.length + 7) / 8 * 5 + 1
  (decodeLoop size str 0 0 []).bind fun r =>
    match r with
    | none => some .rejected
    | some out => (putZero size out).map .bytes

/-! ## Bits -/

variable {size bits k : ℕ} {str out : List UInt8} {buff : UInt32} {digits consumed : List ℕ}

theorem toNat_append (buff : UInt32) (b : UInt8) :
    (buff <<< 8 ||| b.toUInt32).toNat = (buff.toNat * 2 ^ 8 + b.toNat) % 2 ^ 32 := by
  have hb : b.toNat < 2 ^ 8 := b.toNat_lt
  have hshift : (buff <<< 8).toNat = (buff.toNat % 2 ^ 24) <<< 8 := by
    rw [UInt32.toNat_shiftLeft, Nat.shiftLeft_eq, Nat.shiftLeft_eq]
    change buff.toNat * 2 ^ 8 % 2 ^ 32 = _
    omega
  rw [UInt32.toNat_or, hshift, UInt8.toNat_toUInt32, ← Nat.shiftLeft_add_eq_or_of_lt hb,
    Nat.shiftLeft_eq]
  omega

theorem toBits_append (h : bits + 8 ≤ 32) (buff : UInt32) (b : UInt8) :
    toBits (bits + 8) (buff <<< 8 ||| b.toUInt32).toNat =
      toBits bits buff.toNat ++ toBits 8 b.toNat := by
  rw [toNat_append, toBits_mod_of_le h, toBits_add bits b.toNat_lt]

/-- The number that `topDigit` takes. -/
def top (buff : UInt32) (bits : ℕ) : ℕ := buff.toNat / 2 ^ bits % 32

theorem topDigit_eq (buff : UInt32) (bits : ℕ) : topDigit buff bits = digit (top buff bits) := by
  rw [topDigit, top, Nat.shiftRight_eq_div_pow]
  exact congrArg digit (Nat.and_two_pow_sub_one_eq_mod _ 5)

theorem top_lt (buff : UInt32) (bits : ℕ) : top buff bits < 2 ^ 5 := Nat.mod_lt _ (by decide)

theorem toBits_top (buff : UInt32) (bits : ℕ) :
    toBits (5 + bits) buff.toNat = toBits 5 (top buff bits) ++ toBits bits buff.toNat := by
  rw [toBits_split, top]
  exact congrArg (· ++ _) (toBits_mod 5 _).symm

/-! ## Encoding -/

/-- The characters written are those of the digits, which have the bits of the bytes consumed
    without those that are in the buffer. -/
structure Encoding (digits : List ℕ) (bits : ℕ) (buff : UInt32) (consumed : List ℕ) : Prop where
  lt : ∀ d ∈ digits, d < 2 ^ 5
  stream_eq : stream 5 digits ++ toBits bits buff.toNat = stream 8 consumed

theorem Encoding.emit (h : Encoding digits bits buff consumed) (hbits : 5 ≤ bits) :
    Encoding (digits ++ [top buff (bits - 5)]) (bits - 5) buff consumed := by
  refine ⟨fun d hd => ?_, ?_⟩
  · rcases mem_append.1 hd with hd | hd
    · exact h.lt d hd
    · exact mem_singleton.1 hd ▸ top_lt buff _
  · have htop := toBits_top buff (bits - 5)
    rw [Nat.add_sub_cancel' hbits] at htop
    rw [stream_append, stream_cons, stream_nil, append_nil, append_assoc, ← htop]
    exact h.stream_eq

theorem Encoding.consume (h : Encoding digits bits buff consumed) (hbits : bits < 5) (b : UInt8) :
    Encoding digits (bits + 8) (buff <<< 8 ||| b.toUInt32) (consumed ++ [b.toNat]) := by
  refine ⟨h.lt, ?_⟩
  rw [toBits_append (by omega), ← append_assoc, h.stream_eq, stream_append, stream_cons,
    stream_nil, append_nil]

theorem Encoding.put (hout : out = digits.map digit) (hroom : out.length < size) :
    put size out (topDigit buff bits) = some ((digits ++ [top buff bits]).map digit) := by
  rw [put_eq hroom, map_append, map_singleton, topDigit_eq, hout]

/-- Every character takes five of the bits that there are. -/
theorem exists_encodeLoop (h : Encoding digits bits buff consumed) (hout : out = digits.map digit)
    (hbits : bits < 8) (hroom : 5 * digits.length + bits + 8 * str.length + 5 ≤ 5 * size) :
    ∃ digits' bits' buff',
      encodeLoop size str bits buff out = some (digits'.map digit, bits', buff') ∧
      Encoding digits' bits' buff' (consumed ++ str.map UInt8.toNat) ∧
      5 * digits'.length + bits' + 5 ≤ 5 * size := by
  fun_induction encodeLoop size str bits buff out generalizing digits consumed with
  | case1 bits buff out =>
    subst hout
    rw [map_nil, append_nil]
    exact ⟨digits, bits, buff, rfl, h, hroom⟩
  | case2 bits buff out b str hlt ih =>
    have hlen : out.length = digits.length := by rw [hout, length_map]
    rw [length_cons] at hroom
    have hnext := (h.consume hlt b).emit (by omega)
    rw [Encoding.put hout (by omega), Option.bind_some, map_cons,
      append_cons consumed]
    refine ih _ hnext rfl (by omega) ?_
    rw [length_append, length_singleton]
    omega
  | case3 bits buff out b str hlt ih =>
    have hlen : out.length = digits.length := by rw [hout, length_map]
    rw [length_cons] at hroom
    rw [Encoding.put hout (by omega), Option.bind_some]
    refine ih _ (h.emit (by omega)) rfl (by omega) ?_
    rw [length_append, length_singleton, length_cons]
    omega

theorem toBits_shift (hbits : bits < 5) (buff : UInt32) :
    toBits 5 (top (buff <<< UInt32.ofNat (5 - bits)) 0) =
      toBits bits buff.toNat ++ List.replicate (5 - bits) false := by
  have hamount : (UInt32.ofNat (5 - bits)).toNat = 5 - bits := by
    rw [UInt32.toNat_ofNat']
    exact Nat.mod_eq_of_lt (by omega)
  have hsum := @toBits_add (5 - bits) buff.toNat 0 bits (Nat.two_pow_pos _)
  rw [Nat.add_sub_cancel' (by omega), Nat.add_zero, toBits_zero] at hsum
  rw [← hsum, top, pow_zero, Nat.div_one, UInt32.toNat_shiftLeft, hamount, Nat.shiftLeft_eq]
  have hsmall : (5 - bits) % 32 = 5 - bits := Nat.mod_eq_of_lt (by omega)
  rw [hsmall]
  refine (toBits_mod 5 _).trans ?_
  exact toBits_mod_of_le (by decide) _

/-- The last character is filled up with zeros. -/
theorem exists_encodeRest (h : Encoding digits bits buff consumed) (hout : out = digits.map digit)
    (hroom : 5 * digits.length + bits + 5 ≤ 5 * size) :
    ∃ digits' zeros, encodeRest size bits buff out = some (digits'.map digit) ∧ zeros < 5 ∧
      (∀ d ∈ digits', d < 2 ^ 5) ∧ digits'.length < size ∧
      stream 5 digits' = stream 8 consumed ++ List.replicate zeros false := by
  have hlen : out.length = digits.length := by rw [hout, length_map]
  fun_induction encodeRest size bits buff out generalizing digits with
  | case1 out =>
    subst hout
    refine ⟨digits, 0, rfl, by decide, h.lt, by omega, ?_⟩
    rw [replicate_zero, append_nil, ← h.stream_eq, toBits, append_nil]
  | case2 bits out hpos hlt =>
    have hroom' : out.length < size := by omega
    refine ⟨digits ++ [top (buff <<< UInt32.ofNat (5 - bits)) 0], 5 - bits,
      Encoding.put hout hroom', by omega, fun d hd => ?_, ?_, ?_⟩
    · rcases mem_append.1 hd with hd | hd
      · exact h.lt d hd
      · exact mem_singleton.1 hd ▸ top_lt _ _
    · rw [length_append, length_singleton]
      omega
    · rw [stream_append, stream_cons, stream_nil, append_nil, toBits_shift hlt,
        ← append_assoc, h.stream_eq]
  | case3 bits out hpos hlt ih =>
    rw [Encoding.put hout (by omega), Option.bind_some]
    refine ih _ (h.emit (by omega)) rfl ?_ (by rw [length_map])
    rw [length_append, length_singleton]
    omega

theorem digit_injOn : ∀ i < 32, value (digit i) = some (UInt8.ofNat i) := by decide

/-- The characters have the bits of the bytes, and zeros for the last one. -/
theorem exists_base32Encode (str : List UInt8) : ∃ digits zeros,
    base32Encode str = some (digits.map digit) ∧ zeros < 5 ∧ (∀ d ∈ digits, d < 2 ^ 5) ∧
      stream 5 digits = stream 8 (str.map UInt8.toNat) ++ List.replicate zeros false := by
  obtain ⟨digits, bits, buff, hloop, henc, hroom⟩ := @exists_encodeLoop
    ((str.length + 4) / 5 * 8 + 1) 0 str [] 0 [] [] ⟨forall_mem_nil _, rfl⟩ rfl
    (by decide) (by rw [length_nil]; omega)
  obtain ⟨digits', zeros, hrest, hzeros, hlt, hlen, hstream⟩ := exists_encodeRest henc rfl hroom
  refine ⟨digits', zeros, ?_, hzeros, hlt, hstream⟩
  have hput : putZero ((str.length + 4) / 5 * 8 + 1) (digits'.map digit) =
      some (digits'.map digit) := if_pos (by rwa [length_map])
  simp only [base32Encode, hloop, Option.bind_some, hrest, hput]

/-! ## Decoding -/

theorem values : ∀ i < 256, (value (UInt8.ofNat i)).all (fun ch => ch.toNat < 2 ^ 5) = true ∧
    (value (UInt8.ofNat i) = none ↔ UInt8.ofNat i ∉ table) := by decide +kernel

theorem value_lt {c ch : UInt8} (h : value c = some ch) : ch.toNat < 2 ^ 5 := by
  have hall := (values c.toNat c.toNat_lt).1
  rw [UInt8.ofNat_toNat, h] at hall
  exact of_decide_eq_true hall

theorem value_eq_none (c : UInt8) : value c = none ↔ c ∉ table := by
  have hnone := (values c.toNat c.toNat_lt).2
  rwa [UInt8.ofNat_toNat] at hnone

theorem toBits_push (h : bits + 5 ≤ 32) (buff : UInt32) {ch : UInt8} (hch : ch.toNat < 2 ^ 5) :
    toBits (bits + 5) ((buff <<< 5) + ch.toUInt32).toNat =
      toBits bits buff.toNat ++ toBits 5 ch.toNat := by
  have hnat : ((buff <<< 5) + ch.toUInt32).toNat = (buff.toNat * 2 ^ 5 + ch.toNat) % 2 ^ 32 := by
    rw [UInt32.toNat_add, UInt32.toNat_shiftLeft, Nat.shiftLeft_eq, UInt8.toNat_toUInt32]
    exact Nat.mod_add_mod ..
  rw [hnat, toBits_mod_of_le h, toBits_add bits hch]

theorem toBits_byte (h : bits < 32) (buff : UInt32) : toBits (8 + bits) buff.toNat =
    toBits 8 (buff >>> UInt32.ofNat bits).toUInt8.toNat ++ toBits bits buff.toNat := by
  have hamount : (UInt32.ofNat bits).toNat % 32 = bits := by
    rw [UInt32.toNat_ofNat', Nat.mod_eq_of_lt (show bits < 2 ^ 32 by omega), Nat.mod_eq_of_lt h]
  rw [toBits_split, UInt32.toNat_toUInt8, UInt32.toNat_shiftRight, hamount,
    Nat.shiftRight_eq_div_pow, toBits_mod]

/-- The loop keeps the bits of the characters, eight at a time. -/
theorem exists_decodeLoop (hstr : ∀ c ∈ str, c ∈ table) (hbits : bits < 8)
    (hroom : 8 * out.length + bits + 5 * str.length + 8 ≤ 8 * size) :
    ∃ out' rest, decodeLoop size str bits buff out = some (some out') ∧ out'.length < size ∧
      rest.length < 8 ∧ stream 8 (out'.map UInt8.toNat) ++ rest =
        stream 8 (out.map UInt8.toNat) ++ toBits bits buff.toNat ++
          stream 5 (str.filterMap fun c => (value c).map UInt8.toNat) := by
  induction str generalizing bits buff out with
  | nil =>
    refine ⟨out, toBits bits buff.toNat, rfl, ?_, by rwa [length_toBits], ?_⟩
    · rw [length_nil] at hroom
      omega
    · rw [filterMap_nil, stream_nil, append_nil]
  | cons c str ih =>
    rw [forall_mem_cons] at hstr
    obtain ⟨ch, hch⟩ := Option.ne_none_iff_exists'.1 (mt (value_eq_none c).1 (not_not.2 hstr.1))
    rw [length_cons] at hroom
    have hpush := toBits_push (by omega : bits + 5 ≤ 32) buff (value_lt hch)
    rw [filterMap_cons_some (by rw [hch, Option.map_some]), stream_cons, ← append_assoc,
      append_assoc (stream 8 _), ← hpush]
    by_cases hfull : 8 ≤ bits + 5
    · have hbyte := toBits_byte (by omega : bits + 5 - 8 < 32) ((buff <<< 5) + ch.toUInt32)
      rw [Nat.add_sub_cancel' hfull] at hbyte
      obtain ⟨out', rest, hrun, hlen, hrest, hstream⟩ := @ih _
        (out ++ [(((buff <<< 5) + ch.toUInt32) >>> UInt32.ofNat (bits + 5 - 8)).toUInt8])
        ((buff <<< 5) + ch.toUInt32)
        hstr.2 (by omega : bits + 5 - 8 < 8)
        (by rw [length_append, length_singleton]; omega)
      refine ⟨out', rest, ?_, hlen, hrest, ?_⟩
      · simp only [decodeLoop, hch, if_pos hfull, put_eq (by omega : out.length < size),
          Option.bind_some, hrun]
      · rw [hstream, hbyte, map_append, stream_append, map_singleton, stream_cons,
          stream_nil, append_nil, append_assoc (stream 8 (out.map UInt8.toNat))]
    · obtain ⟨out', rest, hrun, hlen, hrest, hstream⟩ :=
        @ih _ out ((buff <<< 5) + ch.toUInt32) hstr.2 (by omega : bits + 5 < 8) (by omega)
      refine ⟨out', rest, ?_, hlen, hrest, hstream⟩
      simp only [decodeLoop, hch, if_neg hfull, hrun]

/-- A string with another character is rejected, after writes that fit. -/
theorem decodeLoop_rejected (hstr : ∃ c ∈ str, c ∉ table)
    (hroom : 8 * out.length + bits + 5 * str.length + 8 ≤ 8 * size) :
    decodeLoop size str bits buff out = some none := by
  induction str generalizing bits buff out with
  | nil =>
    obtain ⟨c, hc, -⟩ := hstr
    cases hc
  | cons c str ih =>
    rw [length_cons] at hroom
    rcases hch : value c with _ | ch
    · simp only [decodeLoop, hch]
    have hrest : ∃ c ∈ str, c ∉ table := by
      obtain ⟨d, hd, hnot⟩ := hstr
      rcases mem_cons.1 hd with rfl | hd
      · rw [(value_eq_none d).2 hnot] at hch
        cases hch
      · exact ⟨d, hd, hnot⟩
    by_cases hfull : 8 ≤ bits + 5
    · simp only [decodeLoop, hch, if_pos hfull, put_eq (by omega : out.length < size),
        Option.bind_some]
      refine ih hrest ?_
      rw [length_append, length_singleton]
      omega
    · simp only [decodeLoop, hch, if_neg hfull]
      exact ih hrest (by omega)

theorem base32Decode_rejected (hstr : ∃ c ∈ str, c ∉ table) :
    base32Decode str = some .rejected := by
  have hloop := @decodeLoop_rejected ((str.length + 7) / 8 * 5 + 1) 0 str [] 0 hstr
    (by rw [length_nil]; omega)
  simp only [base32Decode, hloop, Option.bind_some]

/-- The bytes have the bits of the characters, without those left over. -/
theorem exists_base32Decode (hstr : ∀ c ∈ str, c ∈ table) : ∃ out rest,
    base32Decode str = some (.bytes out) ∧ rest.length < 8 ∧
      stream 8 (out.map UInt8.toNat) ++ rest =
        stream 5 (str.filterMap fun c => (value c).map UInt8.toNat) := by
  obtain ⟨out, rest, hloop, hlen, hrest, hstream⟩ := @exists_decodeLoop
    ((str.length + 7) / 8 * 5 + 1) 0 str [] 0 hstr (by decide) (by rw [length_nil]; omega)
  refine ⟨out, rest, ?_, hrest, hstream⟩
  have hput : putZero ((str.length + 7) / 8 * 5 + 1) out = some out := if_pos hlen
  simp only [base32Decode, hloop, Option.bind_some, hput, Option.map_some]

theorem base32Decode_rejected_iff (str : List UInt8) :
    base32Decode str = some .rejected ↔ ∃ c ∈ str, c ∉ table := by
  refine ⟨fun h => ?_, base32Decode_rejected⟩
  by_contra hnot
  push Not at hnot
  obtain ⟨out, rest, hdec, -⟩ := exists_base32Decode hnot
  rw [hdec] at h
  cases h

theorem digit_mem {i : ℕ} (h : i < 2 ^ 5) : digit i ∈ table := by
  rw [digit, getD_eq_getElem _ _ h]
  exact getElem_mem h

theorem base32Decode_base32Encode (str : List UInt8) :
    (base32Encode str).bind base32Decode = some (.bytes str) := by
  obtain ⟨digits, zeros, henc, hzeros, hlt, hstream⟩ := exists_base32Encode str
  obtain ⟨out, rest, hdec, hrest, hout⟩ := @exists_base32Decode (digits.map digit)
    (forall_mem_map.2 fun d hd => digit_mem (hlt d hd))
  have hdigits : (digits.map digit).filterMap (fun c => (value c).map UInt8.toNat) = digits := by
    rw [filterMap_map]
    refine (filterMap_congr fun d hd => ?_).trans filterMap_some
    have hsmall : d < 32 := hlt d hd
    rw [Function.comp_apply, digit_injOn d hsmall, Option.map_some, UInt8.toNat_ofNat',
      Nat.mod_eq_of_lt (show d < 2 ^ 8 by omega)]
  rw [hdigits, hstream] at hout
  have hbytes : ∀ l : List UInt8, ∀ x ∈ l.map UInt8.toNat, x < 2 ^ 8 := fun l =>
    forall_mem_map.2 fun b _ => b.toNat_lt
  have heq := eq_of_stream_append (hbytes out) (hbytes str) hrest
    (by rw [length_replicate]; omega) hout
  rw [henc, Option.bind_some, hdec, (map_inj_right fun _ _ => UInt8.toNat_inj.1).1 heq]

end Base32

end Pclsync.Text
