import Pclsync.Buffers
import Pclsync.Text.Base32

/-!
# Base 64

`psync_base64_encode` and `psync_base64_decode` (`plibs.c`) take three bytes and four characters at
a time, with shorter groups at the end. The decoder puts the pieces of a byte together in its
result, and goes over blanks, line ends and padding.

* `base64Encode`, `base64Decode`: the functions. A write behind the memory they allocate is `none`.
* `exists_base64Encode`, `exists_base64Decode`: what is kept are the bits.
* `base64Decode_rejected_iff`: the strings that are rejected.
-/

namespace Pclsync.Text.Base64

open BitGroups Function List

/-! ## The functions -/

/-- `base64_table` -/
def table : List UInt8 :=
  [65, 66, 67, 68, 69, 70, 71, 72, 73, 74, 75, 76, 77, 78, 79, 80, 81, 82, 83, 84, 85, 86, 87, 88,
    89, 90, 97, 98, 99, 100, 101, 102, 103, 104, 105, 106, 107, 108, 109, 110, 111, 112, 113, 114,
    115, 116, 117, 118, 119, 120, 121, 122, 48, 49, 50, 51, 52, 53, 54, 55, 56, 57, 45, 95]

/-- `base64_reverse_table` -/
def reverseTable : List ℤ :=
  [-2, -2, -2, -2, -2, -2, -2, -2, -2, -1, -1, -2, -2, -1, -2, -2,
    -2, -2, -2, -2, -2, -2, -2, -2, -2, -2, -2, -2, -2, -2, -2, -2,
    -1, -2, -2, -2, -2, -2, -2, -2, -2, -2, -2, 62, -2, 62, -2, 63,
    52, 53, 54, 55, 56, 57, 58, 59, 60, 61, -2, -2, -2, -1, -2, -2,
    -2, 0, 1, 2, 3, 4, 5, 6, 7, 8, 9, 10, 11, 12, 13, 14,
    15, 16, 17, 18, 19, 20, 21, 22, 23, 24, 25, -2, -2, -2, -2, 63,
    -2, 26, 27, 28, 29, 30, 31, 32, 33, 34, 35, 36, 37, 38, 39, 40,
    41, 42, 43, 44, 45, 46, 47, 48, 49, 50, 51, -2, -2, -2, -2, -2] ++ List.replicate 128 (-2)

/-- The character of a number below 64. -/
def digit (i : ℕ) : UInt8 := table.getD i 0

/-- The numbers of the characters for three bytes. -/
def ofThree (a b c : UInt8) : List ℕ :=
  [a.toNat >>> 2, ((a.toNat &&& 0x03) <<< 4) + (b.toNat >>> 4),
    ((b.toNat &&& 0x0f) <<< 2) + (c.toNat >>> 6), c.toNat &&& 0x3f]

/-- The numbers for two bytes at the end. -/
def ofTwo (a b : UInt8) : List ℕ :=
  [a.toNat >>> 2, ((a.toNat &&& 0x03) <<< 4) + (b.toNat >>> 4), (b.toNat &&& 0x0f) <<< 2]

/-- The numbers for one byte at the end. -/
def ofOne (a : UInt8) : List ℕ := [a.toNat >>> 2, (a.toNat &&& 0x03) <<< 4]

/-- `*p++=base64_table[..]` for one number after the other. -/
def putDigits (size : ℕ) (out : List UInt8) (digits : List ℕ) : Option (List UInt8) :=
  digits.foldlM (fun out i => put size out (digit i)) out

/-- The loop over groups of three bytes, and the bytes behind them. -/
def encodeLoop (size : ℕ) : List UInt8 → List UInt8 → Option (List UInt8)
  | a :: b :: c :: str, out =>
    (putDigits size out (ofThree a b c)).bind fun out => encodeLoop size str out
  | [a, b], out => putDigits size out (ofTwo a b)
  | [a], out => putDigits size out (ofOne a)
  | [], out => some out

/-- `psync_base64_encode` -/
def base64Encode (str : List UInt8) : Option (List UInt8) :=
  let size := (str.length + 2) / 3 * 4 + 1
  (encodeLoop size str []).bind (putZero size)

/-- `result[j]=v` -/
def store (size : ℕ) (result : Buf) (j : ℕ) (v : UInt8) : Option Buf :=
  if j < size then some (update result j v) else none

/-- The character number `i` of those that count, with the number `ch`. -/
def decodeDigit (size : ℕ) (ch : UInt8) (i j : ℕ) (result : Buf) : Option (ℕ × Buf) :=
  if i % 4 = 0 then (store size result j (ch <<< 2)).map (j, ·)
  else if i % 4 = 1 then
    (store size result j (result j ||| ch >>> 4)).bind fun result =>
      (store size result (j + 1) ((ch &&& 0x0f) <<< 4)).map (j + 1, ·)
  else if i % 4 = 2 then
    (store size result j (result j ||| ch >>> 2)).bind fun result =>
      (store size result (j + 1) ((ch &&& 0x03) <<< 6)).map (j + 1, ·)
  else (store size result j (result j ||| ch)).map (j + 1, ·)

/-- The loop of `psync_base64_decode`; `none` as a result is a string that is rejected. -/
def decodeLoop (size : ℕ) : (str : List UInt8) → (i j : ℕ) → Buf → Option (Option (ℕ × Buf))
  | [], _, j, result => some (some (j, result))
  | c :: str, i, j, result =>
    if reverseTable.getD c.toNat 0 = -1 then decodeLoop size str i j result
    else if reverseTable.getD c.toNat 0 = -2 then some none
    else
      (decodeDigit size (UInt8.ofNat (reverseTable.getD c.toNat 0).toNat) i j result).bind fun r =>
        decodeLoop size str (i + 1) r.1 r.2

/-- `psync_base64_decode`, in memory with anything in it. -/
def base64Decode (mem : Buf) (str : List UInt8) : Option Decoded :=
  let size := (str.length + 3) / 4 * 3 + 1
  (decodeLoop size str 0 0 mem).bind fun r =>
    match r with
    | none => some .rejected
    | some r => (store size r.2 r.1 0).map fun result => .bytes (result.bytes 0 r.1)

/-! ## Encoding -/

variable {size i j k m x y : ℕ} {str out : List UInt8} {digits : List ℕ} {result mem : Buf}

theorem putDigits_eq (hroom : out.length + digits.length ≤ size) :
    putDigits size out digits = some (out ++ digits.map digit) := by
  induction digits generalizing out with
  | nil => rw [map_nil, append_nil]; rfl
  | cons i digits ih =>
    rw [length_cons] at hroom
    have hlen : (out ++ [digit i]).length + digits.length ≤ size := by
      rw [length_append, length_singleton]
      omega
    have hrest := ih hlen
    change (put size out (digit i)).bind _ = _
    rw [put_eq (by omega), Option.bind_some]
    rw [map_cons, append_cons out (digit i) (digits.map digit)]
    exact hrest

/-- The lowest bits of one number and the highest of the next. -/
theorem toBits_join (x : ℕ) (hy : y < 2 ^ k) :
    toBits (m + k) (((x &&& (2 ^ m - 1)) <<< k) + y) = toBits m x ++ toBits k y := by
  rw [Nat.shiftLeft_eq, toBits_add m hy, Nat.and_two_pow_sub_one_eq_mod, toBits_mod]

theorem toBits_shiftRight (m k x : ℕ) : toBits (m + k) x = toBits m (x >>> k) ++ toBits k x := by
  rw [Nat.shiftRight_eq_div_pow]
  exact toBits_split m k x

theorem shiftRight_lt (h : x < 2 ^ 8) (hk : k ≤ 8) : x >>> k < 2 ^ (8 - k) := by
  rw [Nat.shiftRight_eq_div_pow, Nat.div_lt_iff_lt_mul (Nat.two_pow_pos k), ← Nat.pow_add,
    Nat.sub_add_cancel hk]
  exact h

theorem join_lt (hm : m + k = 6) (x : ℕ) (hy : y < 2 ^ k) :
    ((x &&& (2 ^ m - 1)) <<< k) + y < 2 ^ 6 := by
  rw [Nat.shiftLeft_eq, Nat.and_two_pow_sub_one_eq_mod, ← hm, Nat.pow_add]
  have hx : x % 2 ^ m < 2 ^ m := Nat.mod_lt x (Nat.two_pow_pos m)
  calc x % 2 ^ m * 2 ^ k + y < x % 2 ^ m * 2 ^ k + 2 ^ k := Nat.add_lt_add_left hy _
    _ = (x % 2 ^ m + 1) * 2 ^ k := (Nat.succ_mul _ _).symm
    _ ≤ 2 ^ m * 2 ^ k := Nat.mul_le_mul_right _ hx

theorem toBits_low (b : UInt8) : toBits 6 (b.toNat &&& 0x3f) = toBits 6 b.toNat :=
  (congrArg _ (Nat.and_two_pow_sub_one_eq_mod _ 6)).trans (toBits_mod 6 _)

theorem toBits_second (a : UInt8) (hy : y < 2 ^ 4) :
    toBits 6 (((a.toNat &&& 0x03) <<< 4) + y) = toBits 2 a.toNat ++ toBits 4 y :=
  toBits_join (m := 2) _ hy

theorem toBits_third (b : UInt8) (hy : y < 2 ^ 2) :
    toBits 6 (((b.toNat &&& 0x0f) <<< 2) + y) = toBits 4 b.toNat ++ toBits 2 y :=
  toBits_join (m := 4) _ hy

/-- The bits of digits are those of the bytes, and zeros behind them. -/
structure Encoding (digits : List ℕ) (bytes : List UInt8) (zeros : ℕ) : Prop where
  lt : ∀ d ∈ digits, d < 2 ^ 6
  stream_eq : stream 6 digits = stream 8 (bytes.map UInt8.toNat) ++ List.replicate zeros false

theorem encoding_three (a b c : UInt8) : Encoding (ofThree a b c) [a, b, c] 0 := by
  have hb := shiftRight_lt b.toNat_lt (k := 4) (by decide)
  have hc := shiftRight_lt c.toNat_lt (k := 6) (by decide)
  refine ⟨?_, ?_⟩
  · simp only [ofThree, forall_mem_cons, not_mem_nil, false_imp_iff, implies_true, and_true]
    exact ⟨shiftRight_lt a.toNat_lt (by decide), join_lt (m := 2) rfl _ hb,
      join_lt (m := 4) rfl _ hc, Nat.and_lt_two_pow _ (by decide)⟩
  · simp only [ofThree, stream_cons, stream_nil, map_cons, map_nil, append_nil, replicate_zero]
    rw [toBits_second a hb, toBits_third b hc, toBits_low, toBits_shiftRight 6 2 a.toNat,
      toBits_shiftRight 4 4 b.toNat, toBits_shiftRight 2 6 c.toNat]
    simp only [append_assoc]

theorem encoding_two (a b : UInt8) : Encoding (ofTwo a b) [a, b] 2 := by
  have hb := shiftRight_lt b.toNat_lt (k := 4) (by decide)
  have hzero : (0 : ℕ) < 2 ^ 2 := by decide
  refine ⟨?_, ?_⟩
  · simp only [ofTwo, forall_mem_cons, not_mem_nil, false_imp_iff, implies_true, and_true]
    exact ⟨shiftRight_lt a.toNat_lt (by decide), join_lt (m := 2) rfl _ hb,
      join_lt (m := 4) rfl _ hzero⟩
  · simp only [ofTwo, stream_cons, stream_nil, map_cons, map_nil, append_nil]
    rw [toBits_second a hb, ← Nat.add_zero (_ <<< 2), toBits_third b hzero,
      toBits_shiftRight 6 2 a.toNat, toBits_shiftRight 4 4 b.toNat, toBits_zero]
    simp only [append_assoc]

theorem encoding_one (a : UInt8) : Encoding (ofOne a) [a] 4 := by
  have hzero : (0 : ℕ) < 2 ^ 4 := by decide
  refine ⟨?_, ?_⟩
  · simp only [ofOne, forall_mem_cons, not_mem_nil, false_imp_iff, implies_true, and_true]
    exact ⟨shiftRight_lt a.toNat_lt (by decide), join_lt (m := 2) rfl _ hzero⟩
  · simp only [ofOne, stream_cons, stream_nil, map_cons, map_nil, append_nil]
    rw [← Nat.add_zero (_ <<< 4), toBits_second a hzero, toBits_shiftRight 6 2 a.toNat, toBits_zero]
    simp only [append_assoc]

theorem Encoding.append {digits' : List ℕ} {bytes bytes' : List UInt8} {zeros : ℕ}
    (h : Encoding digits bytes 0) (h' : Encoding digits' bytes' zeros) :
    Encoding (digits ++ digits') (bytes ++ bytes') zeros := by
  refine ⟨fun d hd => (mem_append.1 hd).elim (h.lt d) (h'.lt d), ?_⟩
  rw [stream_append, h.stream_eq, h'.stream_eq, replicate_zero, append_nil,
    map_append, stream_append, append_assoc]

/-- The characters have the bits of the bytes, and zeros for the last one. -/
theorem exists_encodeLoop (str out : List UInt8)
    (hroom : out.length + (str.length + 2) / 3 * 4 ≤ size) :
    ∃ digits zeros, encodeLoop size str out = some (out ++ digits.map digit) ∧ zeros < 8 ∧
      digits.length ≤ (str.length + 2) / 3 * 4 ∧ Encoding digits str zeros := by
  fun_induction encodeLoop size str out with
  | case1 a b c str out ih =>
    have hlen : (a :: b :: c :: str).length = str.length + 3 := rfl
    have hfour : (ofThree a b c).length = 4 := rfl
    rw [hlen] at hroom ⊢
    have hout : (out ++ (ofThree a b c).map digit).length = out.length + 4 := by
      rw [length_append, length_map, hfour]
    obtain ⟨digits, zeros, hrun, hzeros, hle, henc⟩ := ih (out ++ (ofThree a b c).map digit)
      (by rw [hout]; omega)
    refine ⟨ofThree a b c ++ digits, zeros, ?_, hzeros, ?_, (encoding_three a b c).append henc⟩
    · rw [putDigits_eq (by rw [hfour]; omega), Option.bind_some, hrun, map_append,
        append_assoc]
    · rw [length_append, hfour]
      omega
  | case2 a b out =>
    have hthree : (ofTwo a b).length = 3 := rfl
    have hlen : [a, b].length = 2 := rfl
    rw [hlen] at hroom
    exact ⟨ofTwo a b, 2, putDigits_eq (by omega), by decide, by omega, encoding_two a b⟩
  | case3 a out =>
    have htwo : (ofOne a).length = 2 := rfl
    have hlen : [a].length = 1 := rfl
    rw [hlen] at hroom
    exact ⟨ofOne a, 4, putDigits_eq (by omega), by decide, by omega, encoding_one a⟩
  | case4 out =>
    refine ⟨[], 0, ?_, by decide, by decide, ⟨forall_mem_nil _, rfl⟩⟩
    rw [map_nil, append_nil]

theorem exists_base64Encode (str : List UInt8) : ∃ digits zeros,
    base64Encode str = some (digits.map digit) ∧ zeros < 8 ∧ Encoding digits str zeros := by
  obtain ⟨digits, zeros, hrun, hzeros, hle, henc⟩ := @exists_encodeLoop
    ((str.length + 2) / 3 * 4 + 1) str [] (by rw [length_nil]; omega)
  refine ⟨digits, zeros, ?_, hzeros, henc⟩
  rw [nil_append] at hrun
  have hput : putZero ((str.length + 2) / 3 * 4 + 1) (digits.map digit) =
      some (digits.map digit) := if_pos (by rw [length_map]; omega)
  simp only [base64Encode, hrun, Option.bind_some, hput]

/-! ## Decoding -/

variable {v w : ℕ} {ch b c : UInt8}

theorem store_eq (h : j < size) (b : UInt8) :
    store size result j b = some (update result j b) := if_pos h

theorem bytes_succ (result : Buf) (j : ℕ) :
    result.bytes 0 (j + 1) = result.bytes 0 j ++ [result j] := by
  rw [Buf.bytes, range_succ, map_append, map_singleton, Nat.zero_add]
  rfl

theorem bytes_update (h : k ≤ j) (result : Buf) (b : UInt8) :
    Buf.bytes (update result j b) 0 k = result.bytes 0 k := by
  refine Buf.bytes_congr fun i hi => ?_
  rw [Nat.zero_add, update_of_ne (by omega)]

/-- The end of a byte beside its beginning. -/
theorem toNat_or (hw : w < 2 ^ k) (hb : b.toNat = v * 2 ^ k) (hc : c.toNat = w) :
    (b ||| c).toNat = v * 2 ^ k + w := by
  rw [UInt8.toNat_or, hb, hc, ← Nat.shiftLeft_eq, Nat.shiftLeft_add_eq_or_of_lt hw]

/-- After some characters, bytes have been made of their bits, and the bits left over are at the
    beginning of the next byte. -/
structure Decoding (i j : ℕ) (result : Buf) (digits : List ℕ) (v : ℕ) : Prop where
  index : j = 6 * i / 8
  lt : v < 2 ^ (6 * i % 8)
  rest : i % 4 ≠ 0 → (result j).toNat = v * 2 ^ (8 - 6 * i % 8)
  stream_eq : stream 8 ((result.bytes 0 j).map UInt8.toNat) ++ toBits (6 * i % 8) v =
    stream 6 digits

/-- The byte that is begun is filled up, and another one is begun. -/
theorem Decoding.fill (h : Decoding i j result digits v) (hm : 8 - 6 * i % 8 = m) (hi : i % 4 ≠ 0)
    (hk : m + k = 6) (hch : ch.toNat < 2 ^ 6) (hb : b.toNat = ch.toNat / 2 ^ k)
    {result' : Buf} (hresult : ∀ l < j + 1, result' l = update result j (result j ||| b) l)
    (hrest : 0 < k → (result' (j + 1)).toNat = ch.toNat % 2 ^ k * 2 ^ (8 - k)) :
    Decoding (i + 1) (j + 1) result' (digits ++ [ch.toNat]) (ch.toNat % 2 ^ k) := by
  have hmod : 6 * (i + 1) % 8 = k := by omega
  have hhigh : ch.toNat / 2 ^ k < 2 ^ m := by
    rw [Nat.div_lt_iff_lt_mul (Nat.two_pow_pos k), ← Nat.pow_add, hk]
    exact hch
  have hlt := h.lt
  have hold := h.rest hi
  rw [hm] at hold
  have hbyte : (result j ||| b).toNat = v * 2 ^ m + ch.toNat / 2 ^ k := toNat_or hhigh hold hb
  refine ⟨?_, ?_, fun hi' => ?_, ?_⟩
  · have hindex := h.index
    omega
  · rw [hmod]
    exact Nat.mod_lt _ (Nat.two_pow_pos k)
  · rw [hmod]
    exact hrest (by omega)
  · have hbytes : result'.bytes 0 (j + 1) = result.bytes 0 j ++ [result j ||| b] := by
      have hcongr : result'.bytes 0 (j + 1) =
          Buf.bytes (update result j (result j ||| b)) 0 (j + 1) :=
        Buf.bytes_congr fun l hl => by rw [Nat.zero_add]; exact hresult l hl
      rw [hcongr, bytes_succ, bytes_update le_rfl, update_self]
    have height : 6 * i % 8 + m = 8 := by omega
    have hfull := @toBits_add m v (ch.toNat / 2 ^ k) (6 * i % 8) hhigh
    have hsix := toBits_split m k ch.toNat
    rw [height] at hfull
    rw [hk] at hsix
    rw [hbytes, map_append, map_singleton, stream_append, stream_cons, stream_nil,
      append_nil, hbyte, hfull, hmod, toBits_mod, stream_append, stream_cons, stream_nil,
      append_nil, ← h.stream_eq, hsix]
    simp only [append_assoc]

theorem toNat_high (ch : UInt8) (hk : k < 8) : (ch >>> UInt8.ofNat k).toNat = ch.toNat / 2 ^ k := by
  have hamount : (UInt8.ofNat k).toNat % 8 = k := by
    rw [UInt8.toNat_ofNat', Nat.mod_eq_of_lt (show k < 2 ^ 8 by omega), Nat.mod_eq_of_lt hk]
  rw [UInt8.toNat_shiftRight, hamount, Nat.shiftRight_eq_div_pow]

theorem toNat_low (ch : UInt8) (hpos : 0 < k) (hk : k ≤ 8) :
    ((ch &&& UInt8.ofNat (2 ^ k - 1)) <<< UInt8.ofNat (8 - k)).toNat =
      ch.toNat % 2 ^ k * 2 ^ (8 - k) := by
  have hamount : (UInt8.ofNat (8 - k)).toNat % 8 = 8 - k := by
    rw [UInt8.toNat_ofNat', Nat.mod_eq_of_lt (show 8 - k < 2 ^ 8 by omega),
      Nat.mod_eq_of_lt (by omega)]
  have hpow : 2 ^ k ≤ 2 ^ 8 := Nat.pow_le_pow_right (by decide) hk
  have hone : 0 < 2 ^ k := Nat.two_pow_pos k
  have hmask : (UInt8.ofNat (2 ^ k - 1)).toNat = 2 ^ k - 1 := by
    rw [UInt8.toNat_ofNat']
    exact Nat.mod_eq_of_lt (by omega)
  have hlt : ch.toNat % 2 ^ k * 2 ^ (8 - k) < 2 ^ 8 := by
    calc ch.toNat % 2 ^ k * 2 ^ (8 - k) < 2 ^ k * 2 ^ (8 - k) :=
          Nat.mul_lt_mul_of_pos_right (Nat.mod_lt _ hone) (Nat.two_pow_pos _)
      _ = 2 ^ 8 := by rw [← Nat.pow_add, Nat.add_sub_cancel' hk]
  rw [UInt8.toNat_shiftLeft, UInt8.toNat_and, hamount, hmask, Nat.and_two_pow_sub_one_eq_mod,
    Nat.shiftLeft_eq, Nat.mod_eq_of_lt hlt]

theorem Decoding.begin (h : Decoding i j result digits v) (hi : i % 4 = 0)
    (hch : ch.toNat < 2 ^ 6) : Decoding (i + 1) j (update result j (ch <<< 2))
      (digits ++ [ch.toNat]) ch.toNat := by
  have hmod : 6 * (i + 1) % 8 = 6 := by omega
  have hzero : 6 * i % 8 = 0 := by omega
  have hindex := h.index
  refine ⟨by omega, by rwa [hmod], fun _ => ?_, ?_⟩
  · have hlt : ch.toNat * 2 ^ 2 < 2 ^ 8 := by omega
    rw [update_self, hmod, UInt8.toNat_shiftLeft, Nat.shiftLeft_eq]
    exact Nat.mod_eq_of_lt hlt
  · have hstream := h.stream_eq
    rw [hzero, toBits, append_nil] at hstream
    rw [bytes_update le_rfl, hmod, hstream, stream_append, stream_cons, stream_nil, append_nil]

theorem exists_decodeDigit (h : Decoding i j result digits v) (hch : ch.toNat < 2 ^ 6)
    (hroom : 6 * (i + 1) / 8 < size) : ∃ j' result' v',
      decodeDigit size ch i j result = some (j', result') ∧
        Decoding (i + 1) j' result' (digits ++ [ch.toNat]) v' := by
  have hindex := h.index
  rw [decodeDigit]
  by_cases h0 : i % 4 = 0
  · rw [if_pos h0, store_eq (by omega), Option.map_some]
    exact ⟨_, _, _, rfl, h.begin h0 hch⟩
  rw [if_neg h0]
  have hother : ∀ l < j + 1, ∀ b b', update (update result j b) (j + 1) b' l =
      update result j b l := fun l hl b b' => update_of_ne (by omega) _ _
  by_cases h1 : i % 4 = 1
  · have hhigh : (ch >>> 4).toNat = ch.toNat / 2 ^ 4 := toNat_high ch (k := 4) (by decide)
    have hlow : ((ch &&& 0x0f) <<< 4).toNat = ch.toNat % 2 ^ 4 * 2 ^ 4 :=
      toNat_low ch (k := 4) (by decide) (by decide)
    rw [if_pos h1, store_eq (by omega), Option.bind_some, store_eq (by omega), Option.map_some]
    refine ⟨_, _, _, rfl, h.fill (m := 2) (by omega) h0 rfl hch hhigh
      (fun l hl => hother l hl _ _) fun _ => ?_⟩
    rw [update_self]
    exact hlow
  rw [if_neg h1]
  by_cases h2 : i % 4 = 2
  · have hhigh : (ch >>> 2).toNat = ch.toNat / 2 ^ 2 := toNat_high ch (k := 2) (by decide)
    have hlow : ((ch &&& 0x03) <<< 6).toNat = ch.toNat % 2 ^ 2 * 2 ^ 6 :=
      toNat_low ch (k := 2) (by decide) (by decide)
    rw [if_pos h2, store_eq (by omega), Option.bind_some, store_eq (by omega), Option.map_some]
    refine ⟨_, _, _, rfl, h.fill (m := 4) (by omega) h0 rfl hch hhigh
      (fun l hl => hother l hl _ _) fun _ => ?_⟩
    rw [update_self]
    exact hlow
  · have hhigh : ch.toNat = ch.toNat / 2 ^ 0 := (Nat.div_one _).symm
    rw [if_neg h2, store_eq (by omega), Option.map_some]
    exact ⟨_, _, _, rfl, h.fill (m := 6) (k := 0) (by omega) h0 rfl hch hhigh (fun _ _ => rfl)
      fun hpos => absurd hpos (lt_irrefl 0)⟩

/-! ### Strings -/

/-- `+` and `/`, which are read like `-` and `_`. -/
def variants : List UInt8 := [43, 47]

/-- Tabulators, line ends, blanks and `=`. -/
def ignored : List UInt8 := [9, 10, 13, 32, 61]

/-- What the table has for a character. -/
def reverse (c : UInt8) : ℤ := reverseTable.getD c.toNat 0

theorem reverses : ∀ i < 256, (reverse (UInt8.ofNat i) = -1 ↔ UInt8.ofNat i ∈ ignored) ∧
    (reverse (UInt8.ofNat i) = -2 ↔ UInt8.ofNat i ∉ table ++ variants ++ ignored) ∧
    (reverse (UInt8.ofNat i)).toNat < 64 := by decide +kernel

theorem reverse_digit : ∀ i < 64, reverse (digit i) = (i : ℤ) := by decide +kernel

theorem reverse_spec (c : UInt8) : (reverse c = -1 ↔ c ∈ ignored) ∧
    (reverse c = -2 ↔ c ∉ table ++ variants ++ ignored) ∧ (reverse c).toNat < 64 := by
  have h := reverses c.toNat c.toNat_lt
  rwa [UInt8.ofNat_toNat] at h

/-- The numbers of the characters that count. -/
def digitsOf (str : List UInt8) : List ℕ :=
  (str.filter fun c => reverse c ≠ -1).map fun c => (reverse c).toNat

theorem digitsOf_skip (h : reverse c = -1) : digitsOf (c :: str) = digitsOf str := by
  rw [digitsOf, filter_cons_of_neg (by simpa using h), digitsOf]

theorem digitsOf_cons (h : reverse c ≠ -1) :
    digitsOf (c :: str) = (reverse c).toNat :: digitsOf str := by
  rw [digitsOf, filter_cons_of_pos (by simpa using h), map_cons, digitsOf]

/-- The loop, on strings with an accepted character at every place. -/
theorem exists_decodeLoop (h : Decoding i j result digits v)
    (hstr : ∀ c ∈ str, reverse c ≠ -2) (hroom : 6 * (i + str.length) / 8 < size) :
    ∃ i' j' result' v', decodeLoop size str i j result = some (some (j', result')) ∧
      Decoding i' j' result' (digits ++ digitsOf str) v' ∧ j' < size := by
  induction str generalizing i j result digits v with
  | nil =>
    refine ⟨i, j, result, v, rfl, ?_, ?_⟩
    · rwa [digitsOf, filter_nil, map_nil, append_nil]
    · have hindex := h.index
      rw [length_nil] at hroom
      omega
  | cons c str ih =>
    rw [forall_mem_cons] at hstr
    rw [length_cons] at hroom
    rw [decodeLoop]
    change ∃ i' j' result' v',
      (if reverse c = -1 then _ else if reverse c = -2 then _ else _) = _ ∧ _
    by_cases hskip : reverse c = -1
    · rw [if_pos hskip, digitsOf_skip hskip]
      exact ih h hstr.2 (by omega)
    · have hsmall : (UInt8.ofNat (reverse c).toNat).toNat = (reverse c).toNat := by
        rw [UInt8.toNat_ofNat']
        exact Nat.mod_eq_of_lt (by have hlt := (reverse_spec c).2.2; omega)
      have hch : (UInt8.ofNat (reverse c).toNat).toNat < 2 ^ 6 := hsmall.symm ▸ (reverse_spec c).2.2
      obtain ⟨j₁, result₁, v₁, hrun, hdec⟩ :=
        exists_decodeDigit h hch (show 6 * (i + 1) / 8 < size by omega)
      rw [hsmall] at hdec
      rw [if_neg hskip, if_neg hstr.1, digitsOf_cons hskip, append_cons]
      change ∃ i' j' result' v',
        (decodeDigit _ (UInt8.ofNat (reverse c).toNat) _ _ _).bind _ = _ ∧ _
      rw [hrun, Option.bind_some]
      exact ih hdec hstr.2 (by omega)

/-- A string with another character is rejected, after writes that fit. -/
theorem decodeLoop_rejected (h : Decoding i j result digits v)
    (hstr : ∃ c ∈ str, reverse c = -2) (hroom : 6 * (i + str.length) / 8 < size) :
    decodeLoop size str i j result = some none := by
  induction str generalizing i j result digits v with
  | nil =>
    obtain ⟨c, hc, -⟩ := hstr
    cases hc
  | cons c str ih =>
    rw [length_cons] at hroom
    rw [decodeLoop]
    change (if reverse c = -1 then _ else if reverse c = -2 then _ else _) = _
    by_cases hbad : reverse c = -2
    · rw [if_neg (by rw [hbad]; decide), if_pos hbad]
    have hrest : ∃ c ∈ str, reverse c = -2 := by
      obtain ⟨d, hd, hnot⟩ := hstr
      rcases mem_cons.1 hd with rfl | hd
      · exact absurd hnot hbad
      · exact ⟨d, hd, hnot⟩
    by_cases hskip : reverse c = -1
    · rw [if_pos hskip]
      exact ih h hrest (by omega)
    · have hsmall : (UInt8.ofNat (reverse c).toNat).toNat < 2 ^ 6 := by
        have hlt := (reverse_spec c).2.2
        rw [UInt8.toNat_ofNat', Nat.mod_eq_of_lt (by omega)]
        exact hlt
      obtain ⟨j₁, result₁, v₁, hrun, hdec⟩ :=
        exists_decodeDigit h hsmall (show 6 * (i + 1) / 8 < size by omega)
      rw [if_neg hskip, if_neg hbad]
      change (decodeDigit _ (UInt8.ofNat (reverse c).toNat) _ _ _).bind _ = _
      rw [hrun, Option.bind_some]
      exact ih hdec hrest (by omega)

theorem decoding_zero (mem : Buf) : Decoding 0 0 mem [] 0 := ⟨rfl, by decide, by simp, rfl⟩

theorem decode_room (n : ℕ) : 6 * (0 + n) / 8 < (n + 3) / 4 * 3 + 1 := by omega

theorem base64Decode_rejected (mem : Buf) (hstr : ∃ c ∈ str, reverse c = -2) :
    base64Decode mem str = some .rejected := by
  have hloop := decodeLoop_rejected (decoding_zero mem) hstr (decode_room _)
  simp only [base64Decode, hloop, Option.bind_some]

/-- The bytes have the bits of the characters, without those left over. -/
theorem exists_base64Decode (mem : Buf) (hstr : ∀ c ∈ str, reverse c ≠ -2) : ∃ out rest,
    base64Decode mem str = some (.bytes out) ∧ rest.length < 8 ∧
      stream 8 (out.map UInt8.toNat) ++ rest = stream 6 (digitsOf str) := by
  obtain ⟨i, j, result, v, hloop, hdec, hlen⟩ := exists_decodeLoop (decoding_zero mem) hstr
    (decode_room _)
  refine ⟨result.bytes 0 j, toBits (6 * i % 8) v, ?_, ?_, hdec.stream_eq⟩
  · simp only [base64Decode, hloop, Option.bind_some, store_eq hlen, Option.map_some,
      bytes_update le_rfl]
  · rw [length_toBits]
    exact Nat.mod_lt _ (by decide)

theorem base64Decode_rejected_iff (mem : Buf) (str : List UInt8) :
    base64Decode mem str = some .rejected ↔ ∃ c ∈ str, c ∉ table ++ variants ++ ignored := by
  have hiff : (∃ c ∈ str, reverse c = -2) ↔ ∃ c ∈ str, c ∉ table ++ variants ++ ignored :=
    exists_congr fun c => and_congr_right fun _ => (reverse_spec c).2.1
  rw [← hiff]
  refine ⟨fun h => ?_, base64Decode_rejected mem⟩
  by_contra hnot
  push Not at hnot
  obtain ⟨out, rest, hdec, -⟩ := exists_base64Decode mem hnot
  rw [hdec] at h
  cases h

theorem digitsOf_map (hlt : ∀ d ∈ digits, d < 2 ^ 6) : digitsOf (digits.map digit) = digits := by
  induction digits with
  | nil => rfl
  | cons d digits ih =>
    rw [forall_mem_cons] at hlt
    have hd := reverse_digit d hlt.1
    have hkeep : reverse (digit d) ≠ -1 := by
      rw [hd]
      omega
    rw [map_cons, digitsOf_cons hkeep, hd, Int.toNat_natCast, ih hlt.2]

theorem base64Decode_base64Encode (mem : Buf) (str : List UInt8) :
    (base64Encode str).bind (base64Decode mem) = some (.bytes str) := by
  obtain ⟨digits, zeros, henc, hzeros, hencoding⟩ := exists_base64Encode str
  obtain ⟨out, rest, hdec, hrest, hout⟩ := @exists_base64Decode (digits.map digit) mem
    (forall_mem_map.2 fun d hd => by
      rw [reverse_digit d (hencoding.lt d hd)]
      omega)
  rw [digitsOf_map hencoding.lt, hencoding.stream_eq] at hout
  have hbytes : ∀ l : List UInt8, ∀ x ∈ l.map UInt8.toNat, x < 2 ^ 8 := fun l =>
    forall_mem_map.2 fun b _ => b.toNat_lt
  have heq := eq_of_stream_append (hbytes out) (hbytes str) hrest
    (by rwa [length_replicate]) hout
  rw [henc, Option.bind_some, hdec, (map_inj_right fun _ _ => UInt8.toNat_inj.1).1 heq]

end Pclsync.Text.Base64

namespace Pclsync.Text

open Base32 Base64

/-- Both pairs of functions: what is encoded is decoded, no write is outside of the memory
    allocated, and which strings the decoders reject. -/
theorem codecs_correct :
    (∀ mem str, (base64Encode str).bind (base64Decode mem) = some (.bytes str)) ∧
    (∀ str, (base32Encode str).bind base32Decode = some (.bytes str)) ∧
    (∀ mem str, (base64Encode str).isSome ∧ (base64Decode mem str).isSome ∧
      (base32Encode str).isSome ∧ (base32Decode str).isSome) ∧
    (∀ str, base32Decode str = some .rejected ↔ ∃ c ∈ str, c ∉ Base32.table) ∧
    ∀ mem str, base64Decode mem str = some .rejected ↔
      ∃ c ∈ str, c ∉ Base64.table ++ variants ++ ignored := by
  refine ⟨base64Decode_base64Encode, base32Decode_base32Encode, fun mem str => ⟨?_, ?_, ?_, ?_⟩,
    base32Decode_rejected_iff, base64Decode_rejected_iff⟩
  · obtain ⟨digits, zeros, henc, -⟩ := exists_base64Encode str
    rw [henc, Option.isSome_some]
  · by_cases hstr : ∃ c ∈ str, reverse c = -2
    · rw [base64Decode_rejected mem hstr, Option.isSome_some]
    · push Not at hstr
      obtain ⟨out, rest, hdec, -⟩ := exists_base64Decode mem hstr
      rw [hdec, Option.isSome_some]
  · obtain ⟨digits, zeros, henc, -⟩ := exists_base32Encode str
    rw [henc, Option.isSome_some]
  · by_cases hstr : ∃ c ∈ str, c ∉ Base32.table
    · rw [base32Decode_rejected hstr, Option.isSome_some]
    · push Not at hstr
      obtain ⟨out, rest, hdec, -⟩ := exists_base32Decode hstr
      rw [hdec, Option.isSome_some]

/-- The string `=` is decoded, although `=` is not in the alphabet. -/
theorem padding_not_rejected : ∃ mem : Buf, (61 : UInt8) ∉ Base64.table ++ variants ∧
    base64Decode mem [61] = some (.bytes []) :=
  ⟨fun _ => 0, by decide, rfl⟩

end Pclsync.Text
