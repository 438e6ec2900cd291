import Pclsync.Bytes
import Mathlib.Data.List.Flatten
import Mathlib.Algebra.Order.BigOperators.Group.List
import Mathlib.Algebra.Group.Action.Defs

/-!
# API commands

`do_prepare_command` writes a command with its parameters into a buffer. The length of the command
shares a byte with a flag for data, the length of a name shares one with the type of the parameter,
and the number of parameters takes one byte; only the length of all is checked.

* `Call`, `Call.doPrepareCommand`: the arguments, and the buffer that is made of them.
* `decodeCommand`: the call that a buffer stands for.
* `Call.Fits`: each length is written in full.
* `doPrepareCommand_spec`: a buffer is of the announced length and stands for its call just when the
  call fits, and calls that fit have different buffers.
-/

namespace Pclsync.Api

open List Option

/-! ## Calls -/

/-- The value of a `binparam`. -/
inductive ParamValue
  | str (s : List UInt8)
  | num (n : BitVec 64)
  | bool (b : Bool)

/-- The length of a string, a `uint32_t`. -/
def ParamValue.opts : ParamValue → ℕ
  | .str s => s.length
  | .num _ => 0
  | .bool _ => 0

/-- A `binparam`; `paramnamelen` is a `uint16_t`. -/
structure Param where
  paramname : List UInt8
  value : ParamValue
  paramnamelen_lt : paramname.length < 2 ^ 16
  opts_lt : value.opts < 2 ^ 32

/-- The arguments of `do_prepare_command`; a `datalen` of -1 says that no data follows. -/
structure Call where
  command : List UInt8
  params : List Param
  datalen : BitVec 64
  cmdlen_lt : command.length < 2 ^ 64

/-- What is added to `plen`. The sum for a string has the type of `opts`. -/
def Param.plen (p : Param) : ℕ :=
  match p.value with
  | .str s => (p.paramname.length + s.length + 5) % 2 ^ 32
  | .num _ => p.paramname.length + 1 + 8
  | .bool _ => p.paramname.length + 2

/-- `plen`, a `size_t` -/
def Call.plen (c : Call) : ℕ :=
  c.params.foldl (fun plen p => (plen + p.plen) % 2 ^ 64)
    ((c.command.length + 2 + if c.datalen = -1 then 0 else 8) % 2 ^ 64)

/-- `PARAM_STR`, `PARAM_NUM` and `PARAM_BOOL` -/
def ParamValue.paramtype : ParamValue → ℕ
  | .str _ => 0
  | .num _ => 1
  | .bool _ => 2

def ParamValue.bytes : ParamValue → List UInt8
  | .str s => toLE 4 s.length ++ s
  | .num n => toLE 8 n.toNat
  | .bool b => [if b then 1 else 0]

def Param.bytes (p : Param) : List UInt8 :=
  UInt8.ofNat (p.value.paramtype * 2 ^ 6 + p.paramname.length) :: (p.paramname ++ p.value.bytes)

/-- The length of the command, with the flag and the length of the data. -/
def Call.head (c : Call) : List UInt8 :=
  if c.datalen = -1 then [UInt8.ofNat c.command.length]
  else UInt8.ofNat (c.command.length ||| 0x80) :: toLE 8 c.datalen.toNat

/-- A buffer of `alloc` bytes: all that is written from its start on, and `retlen`. -/
structure Prepared where
  sdata : List UInt8
  retlen : ℕ
  alloc : ℕ
  deriving DecidableEq

/-- `do_prepare_command` -/
def Call.doPrepareCommand (additionalalloc : ℕ) (c : Call) : Option Prepared :=
  if 0xffff < c.plen then none
  else some {
    sdata := toLE 2 c.plen ++ (c.head ++ (c.command ++
      (UInt8.ofNat c.params.length :: c.params.flatMap Param.bytes)))
    retlen := c.plen + 2
    alloc := c.plen + 2 + additionalalloc }

/-- The buffer has the announced length, and all of it is written and nothing behind it. -/
def Prepared.Exact (r : Prepared) : Prop :=
  r.sdata.length = r.retlen ∧ ofLE (r.sdata.take 2) + 2 = r.retlen

/-! ## Decoding -/

/-- The first `n` bytes, and the others. -/
def splitBytes (n : ℕ) (bs : List UInt8) : Option (List UInt8 × List UInt8) :=
  if n ≤ bs.length then some (bs.take n, bs.drop n) else none

/-- A value of some type. -/
def decodeValue (paramtype : ℕ) (bs : List UInt8) : Option (ParamValue × List UInt8) :=
  match paramtype with
  | 0 => (splitBytes 4 bs).bind fun r => (splitBytes (ofLE r.1) r.2).map fun r => (.str r.1, r.2)
  | 1 => (splitBytes 8 bs).map fun r => (.num (BitVec.ofNat 64 (ofLE r.1)), r.2)
  | 2 =>
    match bs with
    | 0 :: bs => some (.bool false, bs)
    | 1 :: bs => some (.bool true, bs)
    | _ => none
  | _ => none

/-- A parameter: two bits of its first byte are the type, and six the length of the name. -/
def decodeParam (bs : List UInt8) : Option (Param × List UInt8) :=
  match bs with
  | [] => none
  | b :: bs => (splitBytes (b.toNat % 2 ^ 6) bs).bind fun name =>
    (decodeValue (b.toNat / 2 ^ 6) name.2).bind fun value =>
      if h : name.1.length < 2 ^ 16 ∧ value.1.opts < 2 ^ 32 then
        some (⟨name.1, value.1, h.1, h.2⟩, value.2)
      else none

def decodeParams : ℕ → List UInt8 → Option (List Param × List UInt8)
  | 0, bs => some ([], bs)
  | n + 1, bs => (decodeParam bs).bind fun r => (decodeParams n r.2).map fun r' =>
      (r.1 :: r'.1, r'.2)

/-- The command and the parameters, to the end of the buffer. -/
def decodeRest (cmdlen : ℕ) (datalen : BitVec 64) (bs : List UInt8) : Option Call :=
  (splitBytes cmdlen bs).bind fun command =>
    match command.2 with
    | [] => none
    | n :: bs => (decodeParams n.toNat bs).bind fun params =>
      if h : params.2 = [] ∧ command.1.length < 2 ^ 64 then
        some ⟨command.1, params.1, datalen, h.2⟩
      else none

/-- The call that a buffer stands for: seven bits of the byte after the length are the length of the
    command, and the highest bit says that the length of the data follows. -/
def decodeCommand (sdata : List UInt8) : Option Call :=
  (splitBytes 2 sdata).bind fun r =>
    match r.2 with
    | [] => none
    | b :: bs =>
      if b.toNat < 2 ^ 7 then decodeRest b.toNat (-1) bs
      else (splitBytes 8 bs).bind fun datalen =>
        if BitVec.ofNat 64 (ofLE datalen.1) = -1 then none
        else decodeRest (b.toNat % 2 ^ 7) (BitVec.ofNat 64 (ofLE datalen.1)) datalen.2

/-! ## Calls that fit -/

/-- The length of the name fits into six bits, and that of the parameter into `uint32_t`. -/
def Param.Fits (p : Param) : Prop :=
  p.paramname.length < 2 ^ 6 ∧ p.paramname.length + p.value.opts + 5 < 2 ^ 32

instance : DecidablePred Param.Fits := fun _ => instDecidableAnd

/-- The length of the command fits into seven bits, and the number of parameters into a byte. -/
structure Call.Fits (c : Call) : Prop where
  command : c.command.length < 2 ^ 7
  params : c.params.length < 2 ^ 8
  param : ∀ p ∈ c.params, p.Fits

/-! ## What is written is decoded -/

theorem splitBytes_append {n : ℕ} {bs : List UInt8} (h : bs.length = n) (rest : List UInt8) :
    splitBytes n (bs ++ rest) = some (bs, rest) := by
  subst h
  rw [splitBytes, if_pos (by simp), take_left, drop_left]

theorem length_of_splitBytes {n : ℕ} {bs : List UInt8} {r : List UInt8 × List UInt8}
    (h : splitBytes n bs = some r) : r.1.length = n := by
  rw [splitBytes] at h
  split_ifs at h with hn
  cases h
  exact length_take_of_le hn

theorem decodeValue_bytes {v : ParamValue} (h : v.opts < 2 ^ 32) (rest : List UInt8) :
    decodeValue v.paramtype (v.bytes ++ rest) = some (v, rest) := by
  cases v with
  | str s =>
    have hlen : ofLE (toLE 4 s.length) = s.length := ofLE_toLE_of_lt h
    rw [ParamValue.paramtype, decodeValue, ParamValue.bytes, append_assoc,
      splitBytes_append (length_toLE 4 _), bind_some, hlen, splitBytes_append rfl]
    rfl
  | num n =>
    have hn : ofLE (toLE 8 n.toNat) = n.toNat := ofLE_toLE_of_lt n.isLt
    rw [ParamValue.paramtype, decodeValue, ParamValue.bytes, splitBytes_append (length_toLE 8 _),
      map_some, hn, BitVec.ofNat_toNat, BitVec.setWidth_eq]
  | bool b => cases b <;> rfl

theorem ParamValue.paramtype_lt (v : ParamValue) : v.paramtype < 3 := by
  cases v
  · exact Nat.zero_lt_succ 2
  · exact Nat.succ_lt_succ (Nat.zero_lt_succ 1)
  · exact Nat.lt_succ_self 2

theorem Param.decodeParam_bytes {p : Param} (h : p.paramname.length < 2 ^ 6) (rest : List UInt8) :
    decodeParam (p.bytes ++ rest) = some (p, rest) := by
  have htype := p.value.paramtype_lt
  have hb : (UInt8.ofNat (p.value.paramtype * 2 ^ 6 + p.paramname.length)).toNat =
      p.value.paramtype * 2 ^ 6 + p.paramname.length := by
    rw [UInt8.toNat_ofNat', Nat.mod_eq_of_lt (by omega)]
  have hmod : (p.value.paramtype * 2 ^ 6 + p.paramname.length) % 2 ^ 6 = p.paramname.length := by
    omega
  have hdiv : (p.value.paramtype * 2 ^ 6 + p.paramname.length) / 2 ^ 6 = p.value.paramtype := by
    omega
  rw [Param.bytes, cons_append, decodeParam, hb, hmod, hdiv, append_assoc,
    splitBytes_append rfl, bind_some, decodeValue_bytes p.opts_lt, bind_some,
    dif_pos ⟨p.paramnamelen_lt, p.opts_lt⟩]

theorem decodeParams_bytes {ps : List Param} (h : ∀ p ∈ ps, p.Fits) (rest : List UInt8) :
    decodeParams ps.length (ps.flatMap Param.bytes ++ rest) = some (ps, rest) := by
  induction ps with
  | nil => rfl
  | cons p ps ih =>
    rw [length_cons, flatMap_cons, append_assoc, decodeParams,
      Param.decodeParam_bytes (h p mem_cons_self).1, bind_some,
      ih fun q hq => h q (mem_cons_of_mem p hq)]
    rfl

theorem Call.Fits.decodeRest_bytes {c : Call} (h : c.Fits) :
    decodeRest c.command.length c.datalen (c.command ++
      (UInt8.ofNat c.params.length :: c.params.flatMap Param.bytes)) = some c := by
  have hcount : (UInt8.ofNat c.params.length).toNat = c.params.length := by
    rw [UInt8.toNat_ofNat', Nat.mod_eq_of_lt h.params]
  have hparams := decodeParams_bytes h.param []
  rw [append_nil] at hparams
  rw [decodeRest, splitBytes_append rfl, bind_some]
  dsimp only
  rw [hcount, hparams, bind_some, dif_pos ⟨rfl, c.cmdlen_lt⟩]

/-- The flag is not set in the length of a command that fits. -/
theorem Call.Fits.or_flag {c : Call} (h : c.Fits) :
    c.command.length ||| 0x80 = c.command.length + 2 ^ 7 := by
  have hor := Nat.two_pow_add_eq_or_of_lt h.command 1
  rw [Nat.mul_one] at hor
  rw [Nat.or_comm, Nat.add_comm]
  exact hor.symm

theorem Call.Fits.decodeCommand_bytes {c : Call} (h : c.Fits) (plen : ℕ) :
    decodeCommand (toLE 2 plen ++ (c.head ++ (c.command ++
      (UInt8.ofNat c.params.length :: c.params.flatMap Param.bytes)))) = some c := by
  have hcmd := h.command
  rw [decodeCommand, splitBytes_append (length_toLE 2 _), bind_some, Call.head]
  split_ifs with hdata
  · have hb : (UInt8.ofNat c.command.length).toNat = c.command.length := by
      rw [UInt8.toNat_ofNat', Nat.mod_eq_of_lt (by omega)]
    rw [singleton_append]
    dsimp only
    rw [hb, if_pos hcmd, ← hdata]
    exact h.decodeRest_bytes
  · have hb : (UInt8.ofNat (c.command.length ||| 0x80)).toNat = c.command.length + 2 ^ 7 := by
      rw [h.or_flag, UInt8.toNat_ofNat', Nat.mod_eq_of_lt (by omega)]
    have hmod : (c.command.length + 2 ^ 7) % 2 ^ 7 = c.command.length := by omega
    have hn : BitVec.ofNat 64 (ofLE (toLE 8 c.datalen.toNat)) = c.datalen := by
      rw [ofLE_toLE_of_lt c.datalen.isLt, BitVec.ofNat_toNat, BitVec.setWidth_eq]
    rw [cons_append]
    dsimp only
    rw [hb, if_neg (by omega), splitBytes_append (length_toLE 8 _), bind_some]
    dsimp only
    rw [hn, if_neg hdata, hmod]
    exact h.decodeRest_bytes

/-! ## Lengths -/

theorem ParamValue.length_bytes_num (n : BitVec 64) : (ParamValue.num n).bytes.length = 8 :=
  length_toLE 8 _

theorem Param.length_bytes_of_fits {p : Param} (h : p.Fits) : p.bytes.length = p.plen := by
  have hlt := h.2
  rw [Param.bytes, length_cons, length_append, Param.plen]
  cases hv : p.value with
  | str s =>
    rw [hv, ParamValue.opts] at hlt
    rw [ParamValue.bytes, length_append, length_toLE]
    dsimp only
    rw [Nat.mod_eq_of_lt hlt]
    omega
  | num n => rw [ParamValue.length_bytes_num, Nat.add_right_comm]
  | bool b => rfl

theorem foldl_add_mod {α : Type*} (f : α → ℕ) (m : ℕ) (l : List α) (a : ℕ) :
    l.foldl (fun a x => (a + f x) % m) (a % m) = (a + (l.map f).sum) % m := by
  induction l generalizing a with
  | nil => rfl
  | cons x l ih =>
    rw [foldl_cons, Nat.mod_add_mod, ih, map_cons, sum_cons, Nat.add_assoc]

/-- The number of bytes that are written after the length. -/
def Call.length (c : Call) : ℕ :=
  (c.head ++ (c.command ++ (UInt8.ofNat c.params.length :: c.params.flatMap Param.bytes))).length

theorem Call.length_eq (c : Call) : c.length = c.command.length + 2 +
    (if c.datalen = -1 then 0 else 8) + (c.params.map fun p => p.bytes.length).sum := by
  rw [Call.length, Call.head, length_append, length_append, length_cons, length_flatMap]
  split_ifs
  · rw [length_singleton]
    omega
  · rw [length_cons, length_toLE]
    omega

theorem Call.Fits.plen_eq {c : Call} (h : c.Fits) : c.plen = c.length := by
  have hmap : c.params.map Param.plen = c.params.map fun p => p.bytes.length :=
    map_congr_left fun p hp => (Param.length_bytes_of_fits (h.param p hp)).symm
  -- at most 255 lengths of 32 bits
  have hsum : (c.params.map Param.plen).sum ≤ c.params.length * 2 ^ 32 := by
    rw [← c.params.length_map (f := Param.plen), ← smul_eq_mul]
    refine sum_le_card_nsmul _ _ fun n hn => ?_
    obtain ⟨p, hp, rfl⟩ := mem_map.1 hn
    have hfits := h.param p hp
    have hname := hfits.1
    rw [Param.plen]
    split
    · exact (Nat.mod_lt _ (by decide)).le
    · omega
    · omega
  have hcmd := h.command
  have hcount := h.params
  rw [Call.plen, foldl_add_mod, c.length_eq, ← hmap]
  refine Nat.mod_eq_of_lt ?_
  split_ifs
  · omega
  · omega

theorem Call.prepared {c : Call} {additionalalloc : ℕ} {r : Prepared}
    (h : c.doPrepareCommand additionalalloc = some r) :
    c.plen ≤ 0xffff ∧ r.retlen = c.plen + 2 ∧ r.sdata.length = c.length + 2 ∧
      r.sdata = toLE 2 c.plen ++ (c.head ++ (c.command ++
        (UInt8.ofNat c.params.length :: c.params.flatMap Param.bytes))) := by
  rw [Call.doPrepareCommand] at h
  split_ifs at h with hlen
  cases h
  refine ⟨Nat.not_lt.1 hlen, rfl, ?_, rfl⟩
  rw [length_append, length_toLE, Nat.add_comm]
  rfl

/-- The buffer is exact when no sum of lengths has wrapped around. -/
theorem Call.exact_iff {c : Call} {additionalalloc : ℕ} {r : Prepared}
    (h : c.doPrepareCommand additionalalloc = some r) : r.Exact ↔ c.plen = c.length := by
  obtain ⟨hle, hret, hlen, hdata⟩ := Call.prepared h
  have htake : ofLE (r.sdata.take 2) = c.plen := by
    rw [hdata, take_left' (length_toLE 2 _)]
    exact ofLE_toLE_of_lt (Nat.lt_succ_of_le hle)
  rw [Prepared.Exact, hret, hlen, htake]
  omega

/-! ## What is decoded fits -/

theorem decodeParam_lt {bs : List UInt8} {r : Param × List UInt8} (h : decodeParam bs = some r) :
    r.1.paramname.length < 2 ^ 6 := by
  obtain _ | ⟨b, bs⟩ := bs
  · cases h
  · obtain ⟨name, hname, h⟩ := bind_eq_some_iff.1 h
    obtain ⟨value, hvalue, h⟩ := bind_eq_some_iff.1 h
    split_ifs at h
    cases h
    exact (length_of_splitBytes hname).trans_lt (Nat.mod_lt _ (by decide))

theorem decodeParams_lt {n : ℕ} {bs : List UInt8} {r : List Param × List UInt8}
    (h : decodeParams n bs = some r) :
    r.1.length = n ∧ ∀ p ∈ r.1, p.paramname.length < 2 ^ 6 := by
  induction n generalizing bs r with
  | zero =>
    cases h
    exact ⟨rfl, forall_mem_nil _⟩
  | succ n ih =>
    obtain ⟨r₁, hp, h⟩ := bind_eq_some_iff.1 h
    obtain ⟨r₂, hps, ⟨⟩⟩ := map_eq_some_iff.1 h
    obtain ⟨hn, hall⟩ := ih hps
    refine ⟨congrArg (· + 1) hn, fun p hmem => ?_⟩
    obtain rfl | hmem := mem_cons.1 hmem
    · exact decodeParam_lt hp
    · exact hall p hmem

theorem decodeRest_lt {cmdlen : ℕ} {datalen : BitVec 64} {bs : List UInt8} {c : Call}
    (h : decodeRest cmdlen datalen bs = some c) : c.command.length = cmdlen ∧
      c.params.length < 2 ^ 8 ∧ ∀ p ∈ c.params, p.paramname.length < 2 ^ 6 := by
  obtain ⟨command, hcommand, h⟩ := bind_eq_some_iff.1 h
  split at h
  · cases h
  · rename_i n bs' hbs
    obtain ⟨params, hparams, h⟩ := bind_eq_some_iff.1 h
    split_ifs at h
    cases h
    obtain ⟨hn, hall⟩ := decodeParams_lt hparams
    exact ⟨length_of_splitBytes hcommand, hn.trans_lt n.toNat_lt, hall⟩

theorem decodeCommand_lt {sdata : List UInt8} {c : Call} (h : decodeCommand sdata = some c) :
    c.command.length < 2 ^ 7 ∧ c.params.length < 2 ^ 8 ∧
      ∀ p ∈ c.params, p.paramname.length < 2 ^ 6 := by
  obtain ⟨r, -, h⟩ := bind_eq_some_iff.1 h
  split at h
  · cases h
  · split_ifs at h with hb
    · obtain ⟨hcommand, hrest⟩ := decodeRest_lt h
      exact ⟨hcommand.trans_lt hb, hrest⟩
    · obtain ⟨datalen, -, h⟩ := bind_eq_some_iff.1 h
      split_ifs at h
      obtain ⟨hcommand, hrest⟩ := decodeRest_lt h
      exact ⟨hcommand.trans_lt (Nat.mod_lt _ (by decide)), hrest⟩

/-- In an exact buffer no string is so long that the sum for it wraps around. -/
theorem Call.opts_lt {c : Call} (hle : c.length ≤ 0xffff) {p : Param} (hp : p ∈ c.params) :
    p.paramname.length + p.value.opts + 5 < 2 ^ 32 := by
  have hmem := le_sum_of_mem (mem_map_of_mem (f := fun p : Param => p.bytes.length) hp)
  rw [c.length_eq] at hle
  have hopts : p.value.opts ≤ p.value.bytes.length := by
    cases p.value with
    | str s =>
      rw [ParamValue.bytes, length_append]
      exact Nat.le_add_left _ _
    | num n | bool b => exact Nat.zero_le _
  have hbytes : p.bytes.length = p.paramname.length + p.value.bytes.length + 1 := by
    rw [Param.bytes, length_cons, length_append]
  omega

/-! ## Unique decoding -/

/-- The buffer for a call is exact and stands for the call just when the call fits. -/
theorem Call.decode_iff {c : Call} {additionalalloc : ℕ} {r : Prepared}
    (h : c.doPrepareCommand additionalalloc = some r) :
    (r.Exact ∧ decodeCommand r.sdata = some c) ↔ c.Fits := by
  obtain ⟨hle, -, -, hdata⟩ := Call.prepared h
  rw [Call.exact_iff h]
  constructor
  · rintro ⟨hplen, hdecode⟩
    obtain ⟨hcommand, hparams, hname⟩ := decodeCommand_lt hdecode
    exact ⟨hcommand, hparams, fun p hp => ⟨hname p hp, c.opts_lt (hplen ▸ hle) hp⟩⟩
  · intro hfits
    refine ⟨hfits.plen_eq, ?_⟩
    rw [hdata]
    exact hfits.decodeCommand_bytes _

/-- The buffer for a call is exact and stands for the call just when the call fits, and calls that
    fit and have the same bytes are the same. -/
theorem doPrepareCommand_spec {c : Call} {additionalalloc : ℕ} {r : Prepared}
    (h : c.doPrepareCommand additionalalloc = some r) :
    ((r.Exact ∧ decodeCommand r.sdata = some c) ↔ c.Fits) ∧
      (c.Fits → ∀ (c' : Call) (additionalalloc' : ℕ) (r' : Prepared), c'.Fits →
        c'.doPrepareCommand additionalalloc' = some r' → r'.sdata = r.sdata → c' = c) := by
  refine ⟨Call.decode_iff h, fun hfits c' _ r' hfits' h' heq => ?_⟩
  have hc := ((Call.decode_iff h).2 hfits).2
  have hc' := ((Call.decode_iff h').2 hfits').2
  rw [heq, hc] at hc'
  exact (some.inj hc').symm

/-- A command of four letters with a string, a number and a boolean. -/
def listfolder : Call :=
  ⟨[108, 105, 115, 116], [⟨[97], .str [98, 98], by decide, by decide⟩,
    ⟨[102], .num 0, by decide, by decide⟩, ⟨[110], .bool true, by decide, by decide⟩], -1,
      by decide⟩

theorem listfolder_decodes : ∃ r, listfolder.doPrepareCommand 0 = some r ∧
    ((r.Exact ∧ decodeCommand r.sdata = some listfolder) ↔ listfolder.Fits) ∧
      (listfolder.Fits → ∀ (c' : Call) (additionalalloc' : ℕ) (r' : Prepared), c'.Fits →
        c'.doPrepareCommand additionalalloc' = some r' → r'.sdata = r.sdata → c' = listfolder) :=
  ⟨_, rfl, doPrepareCommand_spec (c := listfolder) (r := ⟨_, _, _⟩) rfl⟩

/-- A command of 128 bytes and no parameters. -/
def longCommand : Call where
  command := replicate 8 97 ++ 2 :: 186 :: (replicate 58 97 ++
    1 :: 186 :: replicate 58 97)
  params := []
  datalen := -1
  cmdlen_lt := by decide +kernel

/-- An empty command with data and two parameters. -/
def emptyCommand : Call where
  command := []
  params := [⟨replicate 58 97, .bool true, by decide, by decide⟩,
    ⟨replicate 58 97, .bool false, by decide, by decide⟩]
  datalen := 0x6161616161616161
  cmdlen_lt := by decide

/-- A command of 128 bytes sets the flag for data: another call has the same bytes. -/
theorem doPrepareCommand_collision :
    longCommand.doPrepareCommand 0 = emptyCommand.doPrepareCommand 0 ∧
      (longCommand.doPrepareCommand 0).isSome ∧ longCommand ≠ emptyCommand := by
  refine ⟨by decide +kernel, by decide +kernel, fun h => ?_⟩
  exact absurd (congrArg (fun c => c.params.length) h) (by decide)

end Pclsync.Api
