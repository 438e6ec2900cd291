import Pclsync.Bytes

/-!
# The encoding of API results

A result of the API is a tree of strings, numbers, booleans, arrays, hashes and data lengths. One
tree has many encodings: numbers and lengths may be in the type code or in some bytes after it, and
a string that was there before may be given by its number.

* `Code`, `code`: the type codes.
* `Wire`: an encoding, as a tree with the choices that are made in it; `Wire.bytes` its bytes.
* `Wire.count`: the number of strings after an encoding, when it is well formed.
* `Value`, `Wire.value`: the values, and the one that is encoded.
-/

namespace Pclsync.Api

abbrev Bytes := List UInt8

/-! ## Type codes -/

/-- What a type code says, with the number that is in it or the number of bytes that follow. -/
inductive Code
  | shortStr (len : ℕ)
  | str (l : ℕ)
  | shortRstr (id : ℕ)
  | rstr (l : ℕ)
  | num (l : ℕ)
  | smallNum (n : ℕ)
  | bool (b : Bool)
  | array
  | hash
  | data
  | other
  deriving DecidableEq

/-- `RPARAM_END` -/
def rparamEnd : UInt8 := 255

/-- The conditions on the type in both passes. -/
def code (type : ℕ) : Code :=
  if 100 ≤ type ∧ type < 150 then .shortStr (type - 100)
  else if type ≤ 3 then .str (type + 1)
  else if type ≤ 7 then .rstr (type - 4 + 1)
  else if 150 ≤ type ∧ type < 200 then .shortRstr (type - 150)
  else if type ≤ 15 then .num (type - 8 + 1)
  else if 200 ≤ type ∧ type < 220 then .smallNum (type - 200)
  else if type = 18 then .bool false
  else if type = 19 then .bool true
  else if type = 17 then .array
  else if type = 16 then .hash
  else if type = 20 then .data
  else .other

/-! ## Encodings -/

mutual

/-- An encoding of a value; a width of 0 is for numbers in the type code. -/
inductive Wire
  | str (w : ℕ) (s : Bytes)
  | rstr (w id : ℕ)
  | num (w n : ℕ)
  | bool (b : Bool)
  | data (n : ℕ)
  | array (items : Wires)
  | hash (pairs : WirePairs)

inductive Wires
  | nil
  | cons (head : Wire) (tail : Wires)

inductive WirePairs
  | nil
  | cons (key value : Wire) (tail : WirePairs)

end

/-- A number in or after a type code: `base` is the code of 0, and `first` that of one byte. -/
def numBytes (base first w n : ℕ) : Bytes :=
  if w = 0 then [UInt8.ofNat (base + n)] else UInt8.ofNat (first + w - 1) :: toLE w n

mutual

def Wire.bytes : Wire → Bytes
  | .str w s => numBytes 100 0 w s.length ++ s
  | .rstr w id => numBytes 150 4 w id
  | .num w n => numBytes 200 8 w n
  | .bool b => [if b then 19 else 18]
  | .data n => 20 :: toLE 8 n
  | .array items => 17 :: (items.bytes ++ [rparamEnd])
  | .hash pairs => 16 :: (pairs.bytes ++ [rparamEnd])

def Wires.bytes : Wires → Bytes
  | .nil => []
  | .cons head tail => head.bytes ++ tail.bytes

def WirePairs.bytes : WirePairs → Bytes
  | .nil => []
  | .cons key value tail => key.bytes ++ value.bytes ++ tail.bytes

end

/-- The number fits into the type code, or into at most `max` bytes. -/
def NumFits (limit max w n : ℕ) : Prop := if w = 0 then n < limit else w ≤ max ∧ n < 256 ^ w

instance (limit max w n : ℕ) : Decidable (NumFits limit max w n) := by
  unfold NumFits
  infer_instance

theorem code_spec (type : ℕ) : match code type with
    | .shortStr len => len < 50 ∧ type = 100 + len
    | .str l => 0 < l ∧ l ≤ 4 ∧ type = 0 + l - 1
    | .shortRstr id => id < 50 ∧ type = 150 + id
    | .rstr l => 0 < l ∧ l ≤ 4 ∧ type = 4 + l - 1
    | .num l => 0 < l ∧ l ≤ 8 ∧ type = 8 + l - 1
    | .smallNum n => n < 20 ∧ type = 200 + n
    | .bool b => type = cond b 19 18
    | .array => type = 17
    | .hash => type = 16
    | .data => type = 20
    | .other => True := by
  rw [code]
  rcases eq_or_ne type 18 with rfl | hfalse
  · rfl
  rcases eq_or_ne type 19 with rfl | htrue
  · rfl
  grind

theorem code_shortStr : ∀ n < 50, code (100 + n) = .shortStr n := by decide
theorem code_shortRstr : ∀ n < 50, code (150 + n) = .shortRstr n := by decide
theorem code_smallNum : ∀ n < 20, code (200 + n) = .smallNum n := by decide
theorem code_str : ∀ w ≤ 4, w ≠ 0 → code (0 + w - 1) = .str w := by decide
theorem code_rstr : ∀ w ≤ 4, w ≠ 0 → code (4 + w - 1) = .rstr w := by decide
theorem code_num : ∀ w ≤ 8, w ≠ 0 → code (8 + w - 1) = .num w := by decide

theorem numBytes_short {base first n : ℕ} {b : UInt8} (hb : b.toNat = base + n) :
    numBytes base first 0 n = [b] := by
  rw [numBytes, if_pos rfl, ← hb, UInt8.ofNat_toNat]

theorem numBytes_ofLE {base first l : ℕ} {b : UInt8} {bs : Bytes} (hl : 0 < l)
    (hlen : bs.length = l) (hb : b.toNat = first + l - 1) :
    numBytes base first l (ofLE bs) = b :: bs := by
  rw [numBytes, if_neg hl.ne', ← hb, UInt8.ofNat_toNat, toLE_ofLE hlen]

theorem numFits_short {limit max n : ℕ} (h : n < limit) : NumFits limit max 0 n := by
  rwa [NumFits, if_pos rfl]

theorem numFits_ofLE {limit max l : ℕ} {bs : Bytes} (hl : 0 < l) (hmax : l ≤ max)
    (hlen : bs.length = l) : NumFits limit max l (ofLE bs) := by
  rw [NumFits, if_neg hl.ne']
  exact ⟨hmax, hlen ▸ ofLE_lt bs⟩

/-- A number that fits is in the type code, or in the bytes after it. -/
theorem numBytes_cases (base first : ℕ) {limit max w n : ℕ} (h : NumFits limit max w n)
    (hbase : base + limit ≤ 256) (hfirst : first + max ≤ 256) :
    (w = 0 ∧ n < limit ∧ ∃ b : UInt8, b.toNat = base + n ∧ numBytes base first w n = [b]) ∨
      (w ≠ 0 ∧ w ≤ max ∧ ∃ (b : UInt8) (bs : Bytes), b.toNat = first + w - 1 ∧ bs.length = w ∧
        ofLE bs = n ∧ numBytes base first w n = b :: bs) := by
  rw [NumFits] at h
  rw [numBytes]
  split_ifs at h ⊢ with hw
  · refine .inl ⟨hw, h, _, ?_, rfl⟩
    rw [UInt8.toNat_ofNat', Nat.mod_eq_of_lt (by omega)]
  · refine .inr ⟨hw, h.1, _, _, ?_, length_toLE w n, ofLE_toLE_of_lt h.2, rfl⟩
    rw [UInt8.toNat_ofNat', Nat.mod_eq_of_lt (by omega)]

mutual

/-- The number of strings after the encoding, when there are `k` before it and it is well formed. -/
def Wire.count (k : ℕ) : Wire → Option ℕ
  | .str w s => if NumFits 50 4 w s.length then some (k + 1) else none
  | .rstr w id => if NumFits 50 4 w id ∧ id < k then some k else none
  | .num w n => if NumFits 20 8 w n then some k else none
  | .bool _ => some k
  | .data n => if n < 256 ^ 8 then some k else none
  | .array items => items.count k
  | .hash pairs => pairs.count k

def Wires.count (k : ℕ) : Wires → Option ℕ
  | .nil => some k
  | .cons head tail => (head.count k).bind fun k => tail.count k

def WirePairs.count (k : ℕ) : WirePairs → Option ℕ
  | .nil => some k
  | .cons key value tail => (key.count k).bind fun k => (value.count k).bind fun k => tail.count k

end

/-! ## Values -/

inductive Value
  | str (s : Bytes)
  | num (n : ℕ)
  | bool (b : Bool)
  | data (n : ℕ)
  | array (items : List Value)
  | hash (pairs : List (Bytes × Value))

mutual

/-- The value that is encoded and the strings after it, when `strs` are those before it. The keys
    of a hash are strings. -/
def Wire.value (strs : List Bytes) : Wire → Option (Value × List Bytes)
  | .str w s => if NumFits 50 4 w s.length then some (.str s, strs ++ [s]) else none
  | .rstr w id => if NumFits 50 4 w id then strs[id]?.map fun s => (.str s, strs) else none
  | .num w n => if NumFits 20 8 w n then some (.num n, strs) else none
  | .bool b => some (.bool b, strs)
  | .data n => if n < 256 ^ 8 then some (.data n, strs) else none
  | .array items => (items.value strs).map fun r => (.array r.1, r.2)
  | .hash pairs => (pairs.value strs).map fun r => (.hash r.1, r.2)

def Wires.value (strs : List Bytes) : Wires → Option (List Value × List Bytes)
  | .nil => some ([], strs)
  | .cons head tail => (head.value strs).bind fun r =>
      (tail.value r.2).map fun r' => (r.1 :: r'.1, r'.2)

def WirePairs.value (strs : List Bytes) : WirePairs → Option (List (Bytes × Value) × List Bytes)
  | .nil => some ([], strs)
  | .cons key value tail => (key.value strs).bind fun r =>
      match r.1 with
      | .str s => (value.value r.2).bind fun r' =>
          (tail.value r'.2).map fun r'' => ((s, r'.1) :: r''.1, r''.2)
      | _ => none

end

end Pclsync.Api
