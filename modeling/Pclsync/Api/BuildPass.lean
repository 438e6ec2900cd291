import Pclsync.Api.LengthPass
import Mathlib.Data.List.Forall2

/-!
# The build pass over an API result

`do_parse_result` goes over the bytes that the length pass has accepted, and checks nothing. Here it
has no result where it would read past these bytes, write past the memory of the computed length,
record more strings than were counted or follow a reference to a string that is not recorded yet.

* `doParseResult`: the pass, with its loops over arrays and hashes.
* `Denotes`: the value that a pointer stands for, through the memory.
* `Wire.doParseResult_bytes`: on an encoding the pass stays within the size and the number of
  strings that the length pass counts, and what it builds denotes the encoded value.
-/

namespace Pclsync.Api

open Function List Option

/-! ## Memory -/

/-- A pointer to a `binresult`: at an offset of the allocated memory, or to a constant. -/
inductive Ptr
  | heap (off : ℕ)
  | numSmall (n : ℕ)
  | bool (b : Bool)

/-- What is in memory at an offset. A string stands with its length before it and a zero after it;
    a key of a hash points to the string of the `binresult` at its offset. -/
inductive Obj
  | str (s : Bytes)
  | num (n : ℕ)
  | data (n : ℕ)
  | array (length array : ℕ)
  | hash (length hash : ℕ)
  | ptr (p : Ptr)
  | pair (key : ℕ) (value : Ptr)

abbrev Mem := ℕ → Option Obj

/-- The objects are written one after another, each of `n` bytes. -/
def Mem.writeAll (n : ℕ) : ℕ → List Obj → Mem → Mem
  | _, [], mem => mem
  | off, o :: os, mem => Mem.writeAll n (off + n) os (update mem off (some o))

/-- The state of the pass: `data` from `*indata` on, and the recorded strings. -/
structure Out where
  data : Bytes
  odata : ℕ
  strings : List Ptr
  mem : Mem

namespace Out

/-- The next `n` bytes, with `*indata += n`. -/
def take (n : ℕ) (st : Out) : Option (Bytes × Out) :=
  if st.data.length < n then none
  else some (st.data.take n, { st with data := st.data.drop n })

def number (l : ℕ) (st : Out) : Option (ℕ × Out) :=
  (st.take l).map fun r => (ofLE r.1, r.2)

/-- `n` bytes of the memory of `retlen` bytes, with `*odata += n`. -/
def alloc (retlen n : ℕ) (st : Out) : Option (ℕ × Out) :=
  if st.odata + n ≤ retlen then some (st.odata, { st with odata := st.odata + n }) else none

def write (off : ℕ) (o : Obj) (st : Out) : Out :=
  { st with mem := update st.mem off (some o) }

/-- `memcpy` of an array of pointers or pairs. -/
def writeAll (n off : ℕ) (os : List Obj) (st : Out) : Out :=
  { st with mem := st.mem.writeAll n off os }

/-- `strings[(*nextstrid)++]=ret`, where there is place for `strcnt` strings. -/
def record (strcnt : ℕ) (p : Ptr) (st : Out) : Option Out :=
  if st.strings.length < strcnt then some { st with strings := st.strings ++ [p] } else none

/-- A string of `len` bytes. -/
def string (retlen strcnt len : ℕ) (st : Out) : Option (Ptr × Out) :=
  (st.alloc retlen (8 + (len + 8) / 8 * 8)).bind fun r =>
    (r.2.record strcnt (.heap r.1)).bind fun st => (st.take len).map fun r' =>
      (.heap r.1, r'.2.write r.1 (.str r'.1))

/-- `strings[id]` -/
def reused (id : ℕ) (st : Out) : Option (Ptr × Out) := st.strings[id]?.map fun p => (p, st)

/-- A `binresult` that has no more than its number. -/
def object (retlen : ℕ) (o : Obj) (st : Out) : Option (Ptr × Out) :=
  (st.alloc retlen 16).map fun r => (.heap r.1, r.2.write r.1 o)

/-- `key->str`, when `key->type==PARAM_STR`. -/
def key (p : Ptr) (st : Out) : Option (Option ℕ) :=
  match p with
  | .heap off =>
    (st.mem off).map fun
      | .str _ => some off
      | _ => none
  | _ => some none

end Out

/-! ## The pass -/

section

variable (retlen strcnt : ℕ)

mutual

/-- `do_parse_result`; the `binresult` of an array or a hash comes before what is in it, and is
    complete after that. -/
def doParseResult : ℕ → Out → Option (Ptr × Out)
  | 0, _ => none
  | fuel + 1, st =>
    match st.data with
    | [] => none
    | type :: data =>
      let st := { st with data }
      match code type.toNat with
      | .shortStr len => st.string retlen strcnt len
      | .str l => (st.number l).bind fun r => r.2.string retlen strcnt r.1
      | .shortRstr id => st.reused id
      | .rstr l => (st.number l).bind fun r => r.2.reused r.1
      | .num l => (st.number l).bind fun r => r.2.object retlen (.num r.1)
      | .smallNum n => some (.numSmall n, st)
      | .bool b => some (.bool b, st)
      | .array => (st.alloc retlen 16).bind fun ret => (parseItems fuel [] ret.2).bind fun r =>
          (r.2.alloc retlen (8 * r.1.length)).map fun arr => (.heap ret.1,
            (arr.2.writeAll 8 arr.1 (r.1.map .ptr)).write ret.1
              (.array (r.1.length % 2 ^ 32) arr.1))
      | .hash => (st.alloc retlen 16).bind fun ret => (parsePairs fuel [] ret.2).bind fun r =>
          (r.2.alloc retlen (16 * r.1.length)).map fun arr => (.heap ret.1,
            (arr.2.writeAll 16 arr.1 (r.1.map fun pair => .pair pair.1 pair.2)).write ret.1
              (.hash (r.1.length % 2 ^ 32) arr.1))
      | .data => (st.number 8).bind fun r => r.2.object retlen (.data r.1)
      | .other => none

/-- The loop over the items of an array, with those in `arr` before. -/
def parseItems : ℕ → List Ptr → Out → Option (List Ptr × Out)
  | 0, _, _ => none
  | fuel + 1, arr, st =>
    match st.data with
    | [] => none
    | b :: data =>
      if b = rparamEnd then some (arr, { st with data })
      else (doParseResult fuel st).bind fun r => parseItems fuel (arr ++ [r.1]) r.2

/-- The loop over the pairs of a hash, with those in `arr` before. A pair whose key is not a string
    is left out. -/
def parsePairs : ℕ → List (ℕ × Ptr) → Out → Option (List (ℕ × Ptr) × Out)
  | 0, _, _ => none
  | fuel + 1, arr, st =>
    match st.data with
    | [] => none
    | b :: data =>
      if b = rparamEnd then some (arr, { st with data })
      else (doParseResult fuel st).bind fun r => (doParseResult fuel r.2).bind fun r' =>
        (r'.2.key r.1).bind fun key =>
          parsePairs fuel (arr ++ (key.map fun key => (key, r'.1)).toList) r'.2

end

end

/-- The state before the pass. -/
def Out.start (data : Bytes) : Out := ⟨data, 0, [], fun _ => none⟩

/-- `parse_result` -/
def parseResult (data : Bytes) : Option (Ptr × Mem) :=
  match calcRetLen (2 * data.length + 1) (In.of data 0) with
  | .ok (retlen, s) =>
    (doParseResult retlen s.strcnt (2 * data.length + 1) (.start data)).map fun r => (r.1, r.2.mem)
  | _ => none

/-! ## Denoted values -/

mutual

/-- The value at a pointer. -/
inductive Denotes (mem : Mem) : Ptr → Value → Prop
  | str {off : ℕ} {s : Bytes} (h : mem off = some (.str s)) : Denotes mem (.heap off) (.str s)
  | num {off n : ℕ} (h : mem off = some (.num n)) : Denotes mem (.heap off) (.num n)
  | numSmall (n : ℕ) : Denotes mem (.numSmall n) (.num n)
  | bool (b : Bool) : Denotes mem (.bool b) (.bool b)
  | data {off n : ℕ} (h : mem off = some (.data n)) : Denotes mem (.heap off) (.data n)
  | array {off arr : ℕ} {items : List Value} (h : mem off = some (.array items.length arr))
      (hitems : DenotesItems mem arr items) : Denotes mem (.heap off) (.array items)
  | hash {off arr : ℕ} {pairs : List (Bytes × Value)}
      (h : mem off = some (.hash pairs.length arr)) (hpairs : DenotesPairs mem arr pairs) :
      Denotes mem (.heap off) (.hash pairs)

inductive DenotesItems (mem : Mem) : ℕ → List Value → Prop
  | nil (off : ℕ) : DenotesItems mem off []
  | cons {off : ℕ} {p : Ptr} {v : Value} {vs : List Value} (h : mem off = some (.ptr p))
      (hv : Denotes mem p v) (hvs : DenotesItems mem (off + 8) vs) : DenotesItems mem off (v :: vs)

inductive DenotesPairs (mem : Mem) : ℕ → List (Bytes × Value) → Prop
  | nil (off : ℕ) : DenotesPairs mem off []
  | cons {off key : ℕ} {p : Ptr} {s : Bytes} {v : Value} {vs : List (Bytes × Value)}
      (h : mem off = some (.pair key p)) (hkey : mem key = some (.str s)) (hv : Denotes mem p v)
      (hvs : DenotesPairs mem (off + 16) vs) : DenotesPairs mem off ((s, v) :: vs)

end

section

variable {mem mem' : Mem} (hext : ∀ a o, mem a = some o → mem' a = some o)

include hext

mutual

theorem Denotes.mono {p : Ptr} {v : Value} : Denotes mem p v → Denotes mem' p v
  | .str h => .str (hext _ _ h)
  | .num h => .num (hext _ _ h)
  | .numSmall n => .numSmall n
  | .bool b => .bool b
  | .data h => .data (hext _ _ h)
  | .array h hitems => .array (hext _ _ h) hitems.mono
  | .hash h hpairs => .hash (hext _ _ h) hpairs.mono

theorem DenotesItems.mono {off : ℕ} {vs : List Value} :
    DenotesItems mem off vs → DenotesItems mem' off vs
  | .nil off => .nil off
  | .cons h hv hvs => .cons (hext _ _ h) hv.mono hvs.mono

theorem DenotesPairs.mono {off : ℕ} {vs : List (Bytes × Value)} :
    DenotesPairs mem off vs → DenotesPairs mem' off vs
  | .nil off => .nil off
  | .cons h hkey hv hvs => .cons (hext _ _ h) (hext _ _ hkey) hv.mono hvs.mono

end

end

section

variable {mem : Mem}

mutual

theorem Denotes.unique {p : Ptr} {v v' : Value} (h : Denotes mem p v) (h' : Denotes mem p v') :
    v = v' := by
  match h with
  | .numSmall n => cases h'; rfl
  | .bool b => cases h'; rfl
  | .str hm =>
    cases h' with
    | str hm' => cases hm.symm.trans hm'; rfl
    | _ hm' => cases hm.symm.trans hm'
  | .num hm =>
    cases h' with
    | num hm' => cases hm.symm.trans hm'; rfl
    | _ hm' => cases hm.symm.trans hm'
  | .data hm =>
    cases h' with
    | data hm' => cases hm.symm.trans hm'; rfl
    | _ hm' => cases hm.symm.trans hm'
  | .array hm hitems =>
    cases h' with
    | array hm' hitems' =>
      have ho := Obj.array.inj (some.inj (hm.symm.trans hm'))
      rw [← ho.2] at hitems'
      rw [hitems.unique hitems' ho.1]
    | _ hm' => cases hm.symm.trans hm'
  | .hash hm hpairs =>
    cases h' with
    | hash hm' hpairs' =>
      have ho := Obj.hash.inj (some.inj (hm.symm.trans hm'))
      rw [← ho.2] at hpairs'
      rw [hpairs.unique hpairs' ho.1]
    | _ hm' => cases hm.symm.trans hm'

theorem DenotesItems.unique {off : ℕ} {vs vs' : List Value} (h : DenotesItems mem off vs)
    (h' : DenotesItems mem off vs') (hlen : vs.length = vs'.length) : vs = vs' := by
  match h with
  | .nil _ => exact (length_eq_zero_iff.1 hlen.symm).symm
  | .cons hp hv hvs =>
    cases h' with
    | nil => cases hlen
    | cons hp' hv' hvs' =>
      cases hp.symm.trans hp'
      rw [hv.unique hv', hvs.unique hvs' (Nat.succ.inj hlen)]

theorem DenotesPairs.unique {off : ℕ} {vs vs' : List (Bytes × Value)}
    (h : DenotesPairs mem off vs) (h' : DenotesPairs mem off vs')
    (hlen : vs.length = vs'.length) : vs = vs' := by
  match h with
  | .nil _ => exact (length_eq_zero_iff.1 hlen.symm).symm
  | .cons hp hkey hv hvs =>
    cases h' with
    | nil => cases hlen
    | cons hp' hkey' hv' hvs' =>
      cases hp.symm.trans hp'
      cases hkey.symm.trans hkey'
      rw [hv.unique hv', hvs.unique hvs' (Nat.succ.inj hlen)]

end

end

/-! ## What the pass keeps -/

/-- The strings `strs` are recorded, and there is nothing in memory from `*odata` on. -/
structure Out.Holds (st : Out) (strs : List Bytes) : Prop where
  strings : Forall₂ (fun p s => ∃ off, p = .heap off ∧ st.mem off = some (.str s)) st.strings
    strs
  fresh : ∀ a, st.odata ≤ a → st.mem a = none

/-- The pass has gone on by at most `n` bytes of memory, and what was in it is still there. -/
structure Out.Adds (st st' : Out) (n : ℕ) : Prop where
  le : st.odata ≤ st'.odata
  le_add : st'.odata ≤ st.odata + n
  mem : ∀ a, a < st.odata → st'.mem a = st.mem a

theorem Out.Adds.refl (st : Out) : st.Adds st 0 := ⟨le_rfl, le_rfl, fun _ _ => rfl⟩

theorem Out.Adds.trans {st st' st'' : Out} {n m : ℕ} (h : st.Adds st' n) (h' : st'.Adds st'' m) :
    st.Adds st'' (n + m) where
  le := h.le.trans h'.le
  le_add := by
    have h1 := h.le_add
    have h2 := h'.le_add
    omega
  mem a ha := (h'.mem a (lt_of_lt_of_le ha h.le)).trans (h.mem a ha)

theorem Out.Adds.ext {st st' : Out} {n : ℕ} {strs : List Bytes} (h : st.Adds st' n)
    (hst : st.Holds strs) (a : ℕ) (o : Obj) (ho : st.mem a = some o) : st'.mem a = some o := by
  by_cases ha : a < st.odata
  · exact (h.mem a ha).trans ho
  · rw [hst.fresh a (Nat.not_lt.1 ha)] at ho
    cases ho

theorem Out.Holds.mono {st st' : Out} {strs : List Bytes} (h : st.Holds strs)
    (hext : ∀ a o, st.mem a = some o → st'.mem a = some o) (hstrings : st'.strings = st.strings)
    (hfresh : ∀ a, st'.odata ≤ a → st'.mem a = none) : st'.Holds strs where
  strings := by
    rw [hstrings]
    refine h.strings.imp ?_
    rintro p s ⟨off, rfl, hoff⟩
    exact ⟨off, rfl, hext _ _ hoff⟩
  fresh := hfresh

/-- A pointer is to a constant or to a `binresult` in memory. -/
def Ptr.Valid (mem : Mem) (p : Ptr) : Prop :=
  match p with
  | .heap off => (mem off).isSome
  | _ => True

theorem Ptr.Valid.mono {mem mem' : Mem} {p : Ptr} (h : p.Valid mem)
    (hext : ∀ a o, mem a = some o → mem' a = some o) : p.Valid mem' := by
  cases p with
  | heap off =>
    obtain ⟨o, ho⟩ := isSome_iff_exists.1 h
    exact isSome_iff_exists.2 ⟨o, hext _ _ ho⟩
  | numSmall n | bool b => trivial

theorem Out.key_of_valid {st : Out} {p : Ptr} (h : p.Valid st.mem) :
    ∃ off, st.key p = some off := by
  cases p with
  | heap off =>
    obtain ⟨o, ho⟩ := isSome_iff_exists.1 h
    rw [key, ho]
    exact ⟨_, rfl⟩
  | numSmall n | bool b => exact ⟨none, rfl⟩

mutual

/-- The strings that are recorded on an encoding. -/
def Wire.strs : Wire → List Bytes
  | .str _ s => [s]
  | .rstr _ _ => []
  | .num _ _ => []
  | .bool _ => []
  | .data _ => []
  | .array items => items.strs
  | .hash pairs => pairs.strs

def Wires.strs : Wires → List Bytes
  | .nil => []
  | .cons head tail => head.strs ++ tail.strs

def WirePairs.strs : WirePairs → List Bytes
  | .nil => []
  | .cons key value tail => key.strs ++ (value.strs ++ tail.strs)

end

mutual

theorem Wire.count_eq {k k' : ℕ} (w : Wire) (h : w.count k = some k') : k' = k + w.strs.length := by
  cases w with
  | bool b => exact (some.inj h).symm
  | array items => exact items.count_eq h
  | hash pairs => exact pairs.count_eq h
  | _ =>
    rw [Wire.count] at h
    split_ifs at h
    exact (some.inj h).symm

theorem Wires.count_eq {k k' : ℕ} (items : Wires) (h : items.count k = some k') :
    k' = k + items.strs.length := by
  cases items with
  | nil => exact (some.inj h).symm
  | cons head tail =>
    obtain ⟨k₁, hhead, htail⟩ := bind_eq_some_iff.1 h
    rw [tail.count_eq htail, head.count_eq hhead, Wires.strs, length_append, Nat.add_assoc]

theorem WirePairs.count_eq {k k' : ℕ} (pairs : WirePairs) (h : pairs.count k = some k') :
    k' = k + pairs.strs.length := by
  cases pairs with
  | nil => exact (some.inj h).symm
  | cons key value tail =>
    obtain ⟨k₁, hkey, h'⟩ := bind_eq_some_iff.1 h
    obtain ⟨k₂, hvalue, htail⟩ := bind_eq_some_iff.1 h'
    rw [tail.count_eq htail, value.count_eq hvalue, key.count_eq hkey, WirePairs.strs,
      length_append, length_append, Nat.add_assoc, Nat.add_assoc]

end

/-! ## Steps -/

theorem Out.take_append {st : Out} {bs rest : Bytes} (h : st.data = bs ++ rest) :
    st.take bs.length = some (bs, { st with data := rest }) := by
  have hle : ¬ st.data.length < bs.length := by rw [h, length_append]; omega
  rw [take, if_neg hle, h, take_left, drop_left]

theorem Out.number_append {st : Out} {bs rest : Bytes} {l : ℕ} (h : st.data = bs ++ rest)
    (hl : bs.length = l) : st.number l = some (ofLE bs, { st with data := rest }) := by
  subst hl
  rw [number, take_append h]
  rfl

theorem Out.alloc_le {st : Out} {retlen n : ℕ} (h : st.odata + n ≤ retlen) :
    st.alloc retlen n = some (st.odata, { st with odata := st.odata + n }) :=
  if_pos h

theorem Out.Holds.length {st : Out} {strs : List Bytes} (h : st.Holds strs) :
    st.strings.length = strs.length :=
  h.strings.length_eq

/-- A new object at the end of the memory that is in use. -/
theorem Out.write_alloc {st : Out} {strs : List Bytes} (h : st.Holds strs) (n : ℕ) (hn : 0 < n)
    (o : Obj) (data : Bytes) (strings : List Ptr) :
    let st' : Out := ⟨data, st.odata + n, strings, update st.mem st.odata (some o)⟩
    st.Adds st' n ∧ (∀ a, st'.odata ≤ a → st'.mem a = none) ∧ st'.mem st.odata = some o := by
  refine ⟨⟨Nat.le_add_right _ _, le_rfl, fun a ha => ?_⟩, fun a ha => ?_, ?_⟩
  · exact update_of_ne ha.ne _ _
  · have hle : st.odata + n ≤ a := ha
    exact (update_of_ne (by omega) _ _).trans (h.fresh a (by omega))
  · exact update_self _ _ _

theorem Out.Holds.setData {st : Out} {strs : List Bytes} (h : st.Holds strs) (data : Bytes) :
    Out.Holds { st with data } strs :=
  h.mono (fun _ _ ho => ho) rfl h.fresh

/-- What the pass comes to on an encoding: the pointer, and the state with the new strings. -/
structure Built (w : Wire) (strs : List Bytes) (rest : Bytes) (st : Out) (p : Ptr) (st' : Out) :
    Prop where
  data : st'.data = rest
  holds : st'.Holds (strs ++ w.strs)
  adds : st.Adds st' w.size
  valid : p.Valid st'.mem
  value : ∀ v strs', w.value strs = some (v, strs') →
    strs' = strs ++ w.strs ∧ Denotes st'.mem p v

section

variable {st : Out} {strs : List Bytes} {retlen strcnt : ℕ}

theorem Out.Holds.string_built {w : ℕ} {s rest : Bytes} (hst : st.Holds strs)
    (hdata : st.data = s ++ rest) (hfits : NumFits 50 4 w s.length)
    (hret : st.odata + (Wire.str w s).size ≤ retlen) (hcnt : strs.length < strcnt) :
    ∃ p st', st.string retlen strcnt s.length = some (p, st') ∧
      Built (.str w s) strs rest st p st' := by
  obtain ⟨hadds, hfresh, hself⟩ := write_alloc hst (8 + (s.length + 8) / 8 * 8) (by omega) (.str s)
    rest (st.strings ++ [.heap st.odata])
  refine ⟨.heap st.odata, _, ?_, rfl, ⟨?_, hfresh⟩, hadds, isSome_iff_exists.2 ⟨_, hself⟩, ?_⟩
  · rw [Wire.size] at hret
    rw [string, alloc_le hret, bind_some, record, if_pos (hst.length ▸ hcnt), bind_some]
    refine (congrArg (Option.map _) (take_append ?_)).trans rfl
    exact hdata
  · refine rel_append ?_ (.cons ⟨_, rfl, hself⟩ .nil)
    refine hst.strings.imp ?_
    rintro p s ⟨off, rfl, hoff⟩
    exact ⟨off, rfl, hadds.ext hst _ _ hoff⟩
  · intro v strs' hv
    rw [Wire.value, if_pos hfits] at hv
    cases hv
    exact ⟨rfl, .str hself⟩

theorem Out.Holds.reused_built {w id : ℕ} (hst : st.Holds strs) (hid : id < strs.length) :
    ∃ p st', st.reused id = some (p, st') ∧ Built (.rstr w id) strs st.data st p st' := by
  have hlt : id < st.strings.length := hst.length ▸ hid
  obtain ⟨off, hp, hoff⟩ := Forall₂.get hst.strings hlt hid
  refine ⟨_, st, by rw [reused, getElem?_eq_getElem hlt]; rfl, rfl, ?_, .refl st, ?_, ?_⟩
  · rw [Wire.strs, append_nil]
    exact hst
  · rw [get_eq_getElem] at hp
    rw [hp]
    exact isSome_iff_exists.2 ⟨_, hoff⟩
  · intro v strs' hv
    rw [get_eq_getElem] at hp
    rw [Wire.value, getElem?_eq_getElem hid] at hv
    split_ifs at hv
    cases hv
    rw [hp]
    exact ⟨(append_nil _).symm, .str hoff⟩

theorem Out.Holds.object_built {w : Wire} {o : Obj} (hst : st.Holds strs) (hstrs : w.strs = [])
    (hsize : w.size = 16) (hret : st.odata + w.size ≤ retlen)
    (hvalue : ∀ v strs', w.value strs = some (v, strs') → strs' = strs ∧
      ∀ (mem : Mem) (off : ℕ), mem off = some o → Denotes mem (.heap off) v) :
    ∃ p st', st.object retlen o = some (p, st') ∧ Built w strs st.data st p st' := by
  obtain ⟨hadds, hfresh, hself⟩ := write_alloc hst 16 (by decide) o st.data st.strings
  refine ⟨.heap st.odata, ⟨st.data, st.odata + 16, st.strings, update st.mem st.odata o⟩,
    ?_, rfl, ?_, hsize ▸ hadds, isSome_iff_exists.2 ⟨_, hself⟩, ?_⟩
  · rw [object, alloc_le (hsize ▸ hret)]
    rfl
  · rw [hstrs, append_nil]
    exact hst.mono (hadds.ext hst) rfl hfresh
  · intro v strs' hv
    obtain ⟨hstrs', hdenotes⟩ := hvalue v strs' hv
    exact ⟨by rw [hstrs', hstrs, append_nil], hdenotes _ _ hself⟩

theorem Out.Holds.constant_built {w : Wire} {p : Ptr} (hst : st.Holds strs) (hstrs : w.strs = [])
    (hsize : w.size = 0) (hp : ∀ mem, p.Valid mem)
    (hvalue : ∀ v strs', w.value strs = some (v, strs') → strs' = strs ∧
      ∀ mem, Denotes mem p v) : Built w strs st.data st p st where
  data := rfl
  holds := by
    rw [hstrs, append_nil]
    exact hst
  adds := hsize ▸ .refl st
  valid := hp _
  value v strs' hv := by
    obtain ⟨hstrs', hdenotes⟩ := hvalue v strs' hv
    exact ⟨by rw [hstrs', hstrs, append_nil], hdenotes _⟩

end

/-- What the loop over the items of an array comes to. -/
structure BuiltItems (items : Wires) (strs : List Bytes) (rest : Bytes) (st : Out) (ps : List Ptr)
    (st' : Out) : Prop where
  data : st'.data = rest
  holds : st'.Holds (strs ++ items.strs)
  adds : st.Adds st' items.size
  length : ps.length = items.length
  value : ∀ vs strs', items.value strs = some (vs, strs') →
    strs' = strs ++ items.strs ∧ Forall₂ (Denotes st'.mem) ps vs

theorem BuiltItems.cons {head : Wire} {tail : Wires} {strs : List Bytes} {rest rest' : Bytes}
    {st st' st'' : Out} {p : Ptr} {ps : List Ptr} (h : Built head strs rest st p st')
    (h' : BuiltItems tail (strs ++ head.strs) rest' st' ps st'') :
    BuiltItems (.cons head tail) strs rest' st (p :: ps) st'' where
  data := h'.data
  holds := by
    rw [Wires.strs, ← append_assoc]
    exact h'.holds
  adds := h.adds.trans h'.adds
  length := congrArg (· + 1) h'.length
  value vs strs' hv := by
    obtain ⟨⟨v, strs₁⟩, hhead, hv⟩ := bind_eq_some_iff.1 hv
    obtain ⟨⟨vs', strs₂⟩, htail, ⟨⟩⟩ := map_eq_some_iff.1 hv
    obtain ⟨rfl, hdenotes⟩ := h.value _ _ hhead
    obtain ⟨rfl, hall⟩ := h'.value _ _ htail
    exact ⟨by rw [Wires.strs, append_assoc],
      .cons (hdenotes.mono (h'.adds.ext h.holds)) hall⟩

/-- What the loop over the pairs of a hash comes to. -/
structure BuiltPairs (pairs : WirePairs) (strs : List Bytes) (rest : Bytes) (st : Out)
    (ps : List (ℕ × Ptr)) (st' : Out) : Prop where
  data : st'.data = rest
  holds : st'.Holds (strs ++ pairs.strs)
  adds : st.Adds st' pairs.size
  length : ps.length ≤ pairs.length
  value : ∀ vs strs', pairs.value strs = some (vs, strs') → strs' = strs ++ pairs.strs ∧
    Forall₂ (fun p v => st'.mem p.1 = some (.str v.1) ∧ Denotes st'.mem p.2 v.2) ps vs

theorem BuiltPairs.cons {key value : Wire} {tail : WirePairs} {strs : List Bytes}
    {rest rest' rest'' : Bytes} {st st' st'' st₃ : Out} {p q : Ptr} {ps : List (ℕ × Ptr)}
    {off : Option ℕ} (h : Built key strs rest st p st')
    (h' : Built value (strs ++ key.strs) rest' st' q st'') (hoff : st''.key p = some off)
    (h'' : BuiltPairs tail (strs ++ key.strs ++ value.strs) rest'' st'' ps st₃) :
    BuiltPairs (.cons key value tail) strs rest'' st
      ((off.map fun off => (off, q)).toList ++ ps) st₃ where
  data := h''.data
  holds := by
    rw [WirePairs.strs, ← append_assoc, ← append_assoc]
    exact h''.holds
  adds := (h.adds.trans h'.adds).trans h''.adds
  length := by
    have hle := h''.length
    rw [WirePairs.length, length_append]
    cases off with
    | none => exact (Nat.zero_add _).trans_le (Nat.le_succ_of_le hle)
    | some off => exact (Nat.add_comm _ _).trans_le (Nat.succ_le_succ hle)
  value vs strs' hv := by
    obtain ⟨⟨k, strs₁⟩, hkey, hv⟩ := bind_eq_some_iff.1 hv
    obtain ⟨rfl, hdenotes⟩ := h.value _ _ hkey
    have hkey' := hdenotes.mono (h'.adds.ext h.holds)
    cases k with
    | str s =>
      obtain ⟨⟨v, strs₂⟩, hvalue, hv⟩ := bind_eq_some_iff.1 hv
      obtain ⟨⟨vs', strs₃⟩, htail, ⟨⟩⟩ := map_eq_some_iff.1 hv
      obtain ⟨rfl, hdenotes'⟩ := h'.value _ _ hvalue
      obtain ⟨rfl, hall⟩ := h''.value _ _ htail
      refine ⟨by rw [WirePairs.strs, append_assoc, append_assoc], ?_⟩
      -- the key is a string in memory, so the pair is not left out
      cases hkey' with
      | @str off' _ hm =>
        rw [Out.key, hm] at hoff
        cases hoff
        exact .cons ⟨h''.adds.ext h'.holds _ _ hm, hdenotes'.mono (h''.adds.ext h'.holds)⟩ hall
    | _ => cases hv

theorem Built.of_setData {w : Wire} {strs : List Bytes} {rest data : Bytes} {st st' : Out} {p : Ptr}
    (h : Built w strs rest { st with data } p st') : Built w strs rest st p st' :=
  { h with adds := ⟨h.adds.le, h.adds.le_add, h.adds.mem⟩ }

/-! ## Arrays and hashes -/

section

variable {n : ℕ} (hn : 0 < n)

include hn

theorem Mem.writeAll_of_lt (os : List Obj) {off a : ℕ} (mem : Mem) (ha : a < off) :
    mem.writeAll n off os a = mem a := by
  induction os generalizing off mem with
  | nil => rfl
  | cons o os ih =>
    rw [writeAll, ih _ (by omega)]
    exact update_of_ne ha.ne _ _

theorem Mem.writeAll_of_ge (os : List Obj) {off a : ℕ} (mem : Mem)
    (ha : off + n * os.length ≤ a) : mem.writeAll n off os a = mem a := by
  induction os generalizing off mem with
  | nil => rfl
  | cons o os ih =>
    rw [length_cons, Nat.mul_succ] at ha
    rw [writeAll, ih _ (by omega)]
    exact update_of_ne (by omega) _ _

/-- Where there was nothing, writing keeps what is in memory. -/
theorem Mem.writeAll_ext (os : List Obj) {off : ℕ} {mem : Mem} (h : ∀ a, off ≤ a → mem a = none)
    (a : ℕ) (o : Obj) (ho : mem a = some o) : mem.writeAll n off os a = some o := by
  have ha : a < off := by
    by_contra hle
    rw [h a (Nat.not_lt.1 hle)] at ho
    cases ho
  rw [writeAll_of_lt hn os mem ha, ho]

end

theorem Mem.update_ext {off : ℕ} {mem : Mem} (h : mem off = none) (o : Obj) (a : ℕ) (o' : Obj)
    (ho : mem a = some o') : update mem off (some o) a = some o' := by
  rw [update_of_ne, ho]
  rintro rfl
  rw [h] at ho
  cases ho

theorem Mem.writeAll_items {off : ℕ} {mem : Mem} {ps : List Ptr} {vs : List Value}
    (h : ∀ a, off ≤ a → mem a = none) (hall : Forall₂ (Denotes mem) ps vs) :
    DenotesItems (mem.writeAll 8 off (ps.map .ptr)) off vs := by
  induction vs generalizing off mem ps with
  | nil => exact .nil off
  | cons v vs ih =>
    obtain _ | ⟨hv, hall⟩ := hall
    rename_i p ps
    have hext := writeAll_ext (n := 8) (by decide) ((p :: ps).map .ptr) h
    have hfresh : ∀ a, off + 8 ≤ a → update mem off (some (.ptr p)) a = none :=
      fun a ha => (update_of_ne (by omega) _ _).trans (h a (by omega))
    refine .cons ?_ (hv.mono hext)
      (ih hfresh (hall.imp fun _ _ hd => hd.mono (update_ext (h _ le_rfl) _)))
    rw [map_cons, writeAll, writeAll_of_lt (by decide) _ _ (by omega)]
    exact update_self _ _ _

theorem Mem.writeAll_pairs {off : ℕ} {mem : Mem} {ps : List (ℕ × Ptr)} {vs : List (Bytes × Value)}
    (h : ∀ a, off ≤ a → mem a = none) (hall : Forall₂
      (fun p v => mem p.1 = some (.str v.1) ∧ Denotes mem p.2 v.2) ps vs) :
    DenotesPairs (mem.writeAll 16 off (ps.map fun pair => .pair pair.1 pair.2)) off vs := by
  induction vs generalizing off mem ps with
  | nil => exact .nil off
  | cons v vs ih =>
    obtain _ | ⟨hv, hall⟩ := hall
    rename_i p ps
    have hext := writeAll_ext (n := 16) (by decide) ((p :: ps).map fun q => .pair q.1 q.2) h
    have hfresh : ∀ a, off + 16 ≤ a → update mem off (some (.pair p.1 p.2)) a = none :=
      fun a ha => (update_of_ne (by omega) _ _).trans (h a (by omega))
    refine .cons ?_ (hext _ _ hv.1) (hv.2.mono hext) (ih hfresh (hall.imp fun _ _ hd =>
      ⟨update_ext (h _ le_rfl) _ _ _ hd.1, hd.2.mono (update_ext (h _ le_rfl) _)⟩))
    rw [map_cons, writeAll, writeAll_of_lt (by decide) _ _ (by omega)]
    exact update_self _ _ _

/-- An array or a hash is complete: `st₁` is after its `binresult` is allocated, `st₂` after what is
    in it, and `os` are the objects for that. -/
theorem Out.container_built {w : Wire} {strs : List Bytes} {st st₂ : Out} {data : Bytes} {m n : ℕ}
    (os : List Obj) (o : Obj) (hn : 0 < n) (hst : st.Holds strs)
    (h2 : st₂.Holds (strs ++ w.strs))
    (hadds : Adds ⟨data, st.odata + 16, st.strings, st.mem⟩ st₂ m)
    (hsize : 16 + m + n * os.length ≤ w.size)
    (hvalue : ∀ v strs', w.value strs = some (v, strs') → strs' = strs ++ w.strs ∧
      ∀ mem, (∀ a o, st₂.mem.writeAll n st₂.odata os a = some o → mem a = some o) →
        mem st.odata = some o → Denotes mem (.heap st.odata) v) :
    Built w strs st₂.data st (.heap st.odata)
      ((Out.writeAll n st₂.odata os ⟨st₂.data, st₂.odata + n * os.length, st₂.strings,
        st₂.mem⟩).write st.odata o) := by
  have hle : st.odata + 16 ≤ st₂.odata := hadds.le
  have hle' : st₂.odata ≤ st.odata + 16 + m := hadds.le_add
  -- the `binresult` is written last, and nothing was there before
  have hnone : st₂.mem.writeAll n st₂.odata os st.odata = none := by
    rw [Mem.writeAll_of_lt hn _ _ (by omega), hadds.mem _ (Nat.lt_add_of_pos_right (by decide))]
    exact hst.fresh _ le_rfl
  have hext := Mem.writeAll_ext hn os h2.fresh
  have hext' := Mem.update_ext hnone o
  refine ⟨rfl, h2.mono (fun a o' ho => hext' _ _ (hext _ _ ho)) rfl fun a ha => ?_,
    ⟨?_, ?_, fun a ha => ?_⟩, ?_, fun v strs' hv => ?_⟩
  · have ha' : st₂.odata + n * os.length ≤ a := ha
    refine (update_of_ne (by omega) _ _).trans ?_
    exact (Mem.writeAll_of_ge hn os _ ha').trans (h2.fresh a (by omega))
  · exact le_trans (by omega) (Nat.le_add_right st₂.odata _)
  · have : st₂.odata + n * os.length ≤ st.odata + w.size := by omega
    exact this
  · refine (update_of_ne ha.ne _ _).trans ?_
    refine (Mem.writeAll_of_lt hn os _ (by omega)).trans (hadds.mem a ?_)
    exact lt_of_lt_of_le ha (Nat.le_add_right _ _)
  · exact isSome_iff_exists.2 ⟨o, update_self _ _ _⟩
  · obtain ⟨hstrs, hdenotes⟩ := hvalue v strs' hv
    exact ⟨hstrs, hdenotes _ hext' (update_self _ _ _)⟩

theorem BuiltItems.denotes {items : Wires} {strs : List Bytes} {rest : Bytes} {st st' : Out}
    {ps : List Ptr} (h : BuiltItems items strs rest st ps st') (hlt : ps.length < 2 ^ 32)
    (off : ℕ) (v : Value)
    (strs' : List Bytes) (hv : (Wire.array items).value strs = some (v, strs')) :
    strs' = strs ++ (Wire.array items).strs ∧ ∀ mem : Mem,
      (∀ a o, st'.mem.writeAll 8 st'.odata (ps.map .ptr) a = some o → mem a = some o) →
      mem off = some (.array (ps.length % 2 ^ 32) st'.odata) → Denotes mem (.heap off) v := by
  obtain ⟨⟨vs, strs₁⟩, hitems, ⟨⟩⟩ := map_eq_some_iff.1 hv
  obtain ⟨hstrs, hall⟩ := h.value _ _ hitems
  refine ⟨hstrs, fun mem hext ho => ?_⟩
  rw [Nat.mod_eq_of_lt hlt, hall.length_eq] at ho
  exact .array ho ((Mem.writeAll_items h.holds.fresh hall).mono hext)

theorem BuiltPairs.denotes {pairs : WirePairs} {strs : List Bytes} {rest : Bytes} {st st' : Out}
    {ps : List (ℕ × Ptr)} (h : BuiltPairs pairs strs rest st ps st') (hlt : ps.length < 2 ^ 32)
    (off : ℕ) (v : Value) (strs' : List Bytes)
    (hv : (Wire.hash pairs).value strs = some (v, strs')) :
    strs' = strs ++ (Wire.hash pairs).strs ∧ ∀ mem : Mem,
      (∀ a o, st'.mem.writeAll 16 st'.odata (ps.map fun pair => .pair pair.1 pair.2) a = some o →
        mem a = some o) →
      mem off = some (.hash (ps.length % 2 ^ 32) st'.odata) → Denotes mem (.heap off) v := by
  obtain ⟨⟨vs, strs₁⟩, hpairs, ⟨⟩⟩ := map_eq_some_iff.1 hv
  obtain ⟨hstrs, hall⟩ := h.value _ _ hpairs
  refine ⟨hstrs, fun mem hext ho => ?_⟩
  rw [Nat.mod_eq_of_lt hlt, hall.length_eq] at ho
  exact .hash ho ((Mem.writeAll_pairs h.holds.fresh hall).mono hext)

/-! ## The pass on an encoding -/

section

variable {retlen strcnt : ℕ}

mutual

/-- On an encoding the pass reads its bytes, and no others; it stays within the size that is
    counted, and what it builds denotes the encoded value. -/
theorem Wire.doParseResult_bytes (w : Wire) {k' fuel : ℕ} {strs : List Bytes} {rest : Bytes}
    {st : Out} (h : w.count strs.length = some k') (hlen : w.bytes.length < 2 ^ 32)
    (hfuel : 2 * w.bytes.length + 1 ≤ fuel) (hst : st.Holds strs)
    (hdata : st.data = w.bytes ++ rest) (hret : st.odata + w.size ≤ retlen)
    (hcnt : strs.length + w.strs.length ≤ strcnt) :
    ∃ p st', doParseResult retlen strcnt fuel st = some (p, st') ∧
      Built w strs rest st p st' := by
  obtain _ | fuel := fuel
  · exact absurd hfuel (Nat.not_succ_le_zero _)
  cases w with
  | str w s =>
    rw [Wire.count] at h
    split_ifs at h with hfits
    obtain ⟨-, hn, b, hb, hbytes⟩ | ⟨hw, hmax, b, bs, hb, hbs, hn, hbytes⟩ :=
      numBytes_cases 100 0 hfits (by decide) (by decide)
    · rw [Wire.bytes, hbytes, append_assoc, singleton_append] at hdata
      rw [doParseResult, hdata]
      dsimp only
      rw [hb, code_shortStr _ hn]
      obtain ⟨p, st', hp, hbuilt⟩ := (hst.setData (s ++ rest)).string_built rfl hfits hret
        (Nat.lt_of_succ_le hcnt)
      exact ⟨p, st', hp, hbuilt.of_setData⟩
    · rw [Wire.bytes, hbytes, append_assoc, cons_append] at hdata
      rw [doParseResult, hdata]
      dsimp only
      rw [hb, code_str w hmax hw]
      dsimp only
      rw [Out.number_append rfl hbs, bind_some, hn]
      obtain ⟨p, st', hp, hbuilt⟩ := (hst.setData (s ++ rest)).string_built rfl hfits hret
        (Nat.lt_of_succ_le hcnt)
      exact ⟨p, st', hp, hbuilt.of_setData⟩
  | rstr w id =>
    rw [Wire.count] at h
    split_ifs at h with hfits
    obtain ⟨-, hn, b, hb, hbytes⟩ | ⟨hw, hmax, b, bs, hb, hbs, hn, hbytes⟩ :=
      numBytes_cases 150 4 hfits.1 (by decide) (by decide)
    · rw [Wire.bytes, hbytes, singleton_append] at hdata
      rw [doParseResult, hdata]
      dsimp only
      rw [hb, code_shortRstr _ hn]
      obtain ⟨p, st', hp, hbuilt⟩ := (hst.setData rest).reused_built (w := w) hfits.2
      exact ⟨p, st', hp, hbuilt.of_setData⟩
    · rw [Wire.bytes, hbytes, cons_append] at hdata
      rw [doParseResult, hdata]
      dsimp only
      rw [hb, code_rstr w hmax hw]
      dsimp only
      rw [Out.number_append rfl hbs, bind_some, hn]
      obtain ⟨p, st', hp, hbuilt⟩ := (hst.setData rest).reused_built (w := w) hfits.2
      exact ⟨p, st', hp, hbuilt.of_setData⟩
  | num w n =>
    rw [Wire.count] at h
    split_ifs at h with hfits
    have hvalue : ∀ v strs', (Wire.num w n).value strs = some (v, strs') →
        strs' = strs ∧ v = .num n := by
      intro v strs' hv
      rw [Wire.value, if_pos hfits] at hv
      cases hv
      exact ⟨rfl, rfl⟩
    obtain ⟨hw, hn, b, hb, hbytes⟩ | ⟨hw, hmax, b, bs, hb, hbs, hn, hbytes⟩ :=
      numBytes_cases 200 8 hfits (by decide) (by decide)
    · rw [Wire.bytes, hbytes, singleton_append] at hdata
      rw [doParseResult, hdata]
      dsimp only
      rw [hb, code_smallNum _ hn]
      refine ⟨_, _, rfl, Built.of_setData (Out.Holds.constant_built (hst.setData rest) rfl
        (if_pos hw) (fun _ => trivial) fun v strs' hv => ?_)⟩
      obtain ⟨hstrs, rfl⟩ := hvalue v strs' hv
      exact ⟨hstrs, fun _ => .numSmall n⟩
    · rw [Wire.bytes, hbytes, cons_append] at hdata
      rw [doParseResult, hdata]
      dsimp only
      rw [hb, code_num w hmax hw]
      dsimp only
      rw [Out.number_append rfl hbs, bind_some, hn]
      obtain ⟨p, st', hp, hbuilt⟩ := (hst.setData rest).object_built (w := .num w n)
        (o := .num n) rfl (if_neg hw) hret fun v strs' hv => by
          obtain ⟨hstrs, rfl⟩ := hvalue v strs' hv
          exact ⟨hstrs, fun _ _ => .num⟩
      exact ⟨p, st', hp, hbuilt.of_setData⟩
  | bool b =>
    have hvalue : ∀ v strs', (Wire.bool b).value strs = some (v, strs') →
        strs' = strs ∧ ∀ mem, Denotes mem (.bool b) v := by
      intro v strs' hv
      cases hv
      exact ⟨rfl, fun _ => .bool b⟩
    cases b
    all_goals
      rw [Wire.bytes] at hdata
      rw [doParseResult, hdata]
      exact ⟨_, _, rfl, Built.of_setData (Out.Holds.constant_built (hst.setData rest) rfl rfl
        (fun _ => trivial) hvalue)⟩
  | data n =>
    rw [Wire.count] at h
    split_ifs at h with hn
    rw [Wire.bytes, cons_append] at hdata
    rw [doParseResult, hdata]
    obtain ⟨p, st', hp, hbuilt⟩ := (hst.setData rest).object_built (w := .data n) (o := .data n)
      rfl rfl hret fun v strs' hv => by
        rw [Wire.value, if_pos hn] at hv
        cases hv
        exact ⟨rfl, fun _ _ => .data⟩
    refine ⟨p, st', ?_, hbuilt.of_setData⟩
    refine (congrArg (Option.bind · _) (Out.number_append rfl (length_toLE 8 n))).trans ?_
    rw [ofLE_toLE_of_lt hn]
    exact hp
  | array items =>
    have hlength := Wire.length_array items
    have hle := items.length_le
    rw [Wire.array_bytes] at hdata
    rw [Wire.size] at hret
    have hst1 : Out.Holds ⟨items.bytes ++ rparamEnd :: rest, st.odata + 16, st.strings, st.mem⟩
        strs := hst.mono (fun _ _ ho => ho) rfl fun a ha =>
          hst.fresh a ((Nat.le_add_right _ _).trans ha)
    obtain ⟨ps, st₂, hps, hbuilt⟩ := items.parseItems_bytes [] h (by omega)
      (show 2 * items.bytes.length + 2 ≤ fuel by omega) hst1 rfl (by dsimp only; omega) hcnt
    have hadd : st₂.odata ≤ st.odata + 16 + items.size := hbuilt.adds.le_add
    have hps' := hbuilt.length
    have hbuilt' : Built (.array items) strs st₂.data st (.heap st.odata) _ :=
      Out.container_built (n := 8) (ps.map .ptr) (.array (ps.length % 2 ^ 32) st₂.odata)
        (by decide) hst hbuilt.holds hbuilt.adds (by rw [Wire.size, length_map, hps'])
        (hbuilt.denotes (by omega) st.odata)
    rw [hbuilt.data, length_map] at hbuilt'
    refine ⟨_, _, ?_, hbuilt'⟩
    rw [doParseResult, hdata]
    refine (congrArg (Option.bind · _) (Out.alloc_le (by dsimp only; omega))).trans ?_
    refine (congrArg (Option.bind · _) hps).trans ?_
    refine (congrArg (Option.map _) (Out.alloc_le ?_)).trans ?_
    · dsimp only
      rw [nil_append]
      omega
    · rw [← hbuilt.data]
      rfl
  | hash pairs =>
    have hlength := Wire.length_hash pairs
    have hle := pairs.length_le
    rw [Wire.hash_bytes] at hdata
    rw [Wire.size] at hret
    have hst1 : Out.Holds ⟨pairs.bytes ++ rparamEnd :: rest, st.odata + 16, st.strings, st.mem⟩
        strs := hst.mono (fun _ _ ho => ho) rfl fun a ha =>
          hst.fresh a ((Nat.le_add_right _ _).trans ha)
    obtain ⟨ps, st₂, hps, hbuilt⟩ := pairs.parsePairs_bytes [] h (by omega)
      (show 2 * pairs.bytes.length + 2 ≤ fuel by omega) hst1 rfl (by dsimp only; omega) hcnt
    have hadd : st₂.odata ≤ st.odata + 16 + pairs.size := hbuilt.adds.le_add
    have hps' := hbuilt.length
    have hbuilt' : Built (.hash pairs) strs st₂.data st (.heap st.odata) _ :=
      Out.container_built (n := 16) (ps.map fun pair => .pair pair.1 pair.2)
        (.hash (ps.length % 2 ^ 32) st₂.odata) (by decide) hst hbuilt.holds hbuilt.adds
        (by rw [Wire.size, length_map]; omega) (hbuilt.denotes (by omega) st.odata)
    rw [hbuilt.data, length_map] at hbuilt'
    refine ⟨_, _, ?_, hbuilt'⟩
    rw [doParseResult, hdata]
    refine (congrArg (Option.bind · _) (Out.alloc_le (by dsimp only; omega))).trans ?_
    refine (congrArg (Option.bind · _) hps).trans ?_
    refine (congrArg (Option.map _) (Out.alloc_le ?_)).trans ?_
    · dsimp only
      rw [nil_append]
      omega
    · rw [← hbuilt.data]
      rfl

theorem Wires.parseItems_bytes (items : Wires) {k' fuel : ℕ} {strs : List Bytes} {rest : Bytes}
    {st : Out} (arr : List Ptr) (h : items.count strs.length = some k')
    (hlen : items.bytes.length < 2 ^ 32) (hfuel : 2 * items.bytes.length + 2 ≤ fuel)
    (hst : st.Holds strs) (hdata : st.data = items.bytes ++ rparamEnd :: rest)
    (hret : st.odata + items.size ≤ retlen) (hcnt : strs.length + items.strs.length ≤ strcnt) :
    ∃ ps st', parseItems retlen strcnt fuel arr st = some (arr ++ ps, st') ∧
      BuiltItems items strs rest st ps st' := by
  obtain _ | fuel := fuel
  · exact absurd hfuel (Nat.not_succ_le_zero _)
  cases items with
  | nil =>
    rw [Wires.bytes, nil_append] at hdata
    rw [parseItems, hdata]
    dsimp only
    rw [if_pos rfl]
    refine ⟨[], { st with data := rest }, by rw [append_nil], rfl, ?_, ⟨le_rfl, le_rfl, ?_⟩,
      rfl, ?_⟩
    · rw [Wires.strs, append_nil]
      exact hst.mono (fun _ _ h => h) rfl hst.fresh
    · exact fun _ _ => rfl
    · intro vs strs' hv
      cases hv
      exact ⟨(append_nil _).symm, .nil⟩
  | cons head tail =>
    obtain ⟨k₁, hhead, htail⟩ := bind_eq_some_iff.1 h
    have hpos := length_pos_of_ne_nil head.bytes_ne_nil
    rw [Wires.bytes, length_append] at hlen hfuel
    rw [Wires.bytes, append_assoc] at hdata
    rw [Wires.size] at hret
    rw [Wires.strs, length_append] at hcnt
    obtain ⟨p, st', hp, hbuilt⟩ := head.doParseResult_bytes hhead (by omega)
      (show 2 * head.bytes.length + 1 ≤ fuel by omega) hst hdata (by omega) (by omega)
    have hle := hbuilt.adds.le_add
    rw [head.count_eq hhead, ← length_append] at htail
    obtain ⟨ps, st'', hps, hbuilt'⟩ := tail.parseItems_bytes (arr ++ [p]) htail (by omega)
      (show 2 * tail.bytes.length + 2 ≤ fuel by omega) hbuilt.holds hbuilt.data (by omega)
      (by rw [length_append]; omega)
    refine ⟨p :: ps, st'', ?_, .cons hbuilt hbuilt'⟩
    obtain ⟨b, bs, hbytes, hb⟩ := head.bytes_cons hhead
    rw [parseItems, hdata, hbytes, cons_append]
    dsimp only
    rw [if_neg hb, hp, bind_some, hps, append_assoc]
    rfl

theorem WirePairs.parsePairs_bytes (pairs : WirePairs) {k' fuel : ℕ} {strs : List Bytes}
    {rest : Bytes} {st : Out} (arr : List (ℕ × Ptr)) (h : pairs.count strs.length = some k')
    (hlen : pairs.bytes.length < 2 ^ 32) (hfuel : 2 * pairs.bytes.length + 2 ≤ fuel)
    (hst : st.Holds strs) (hdata : st.data = pairs.bytes ++ rparamEnd :: rest)
    (hret : st.odata + pairs.size ≤ retlen) (hcnt : strs.length + pairs.strs.length ≤ strcnt) :
    ∃ ps st', parsePairs retlen strcnt fuel arr st = some (arr ++ ps, st') ∧
      BuiltPairs pairs strs rest st ps st' := by
  obtain _ | fuel := fuel
  · exact absurd hfuel (Nat.not_succ_le_zero _)
  cases pairs with
  | nil =>
    rw [WirePairs.bytes, nil_append] at hdata
    rw [parsePairs, hdata]
    dsimp only
    rw [if_pos rfl]
    refine ⟨[], { st with data := rest }, by rw [append_nil], rfl, ?_, ⟨le_rfl, le_rfl, ?_⟩,
      le_rfl, ?_⟩
    · rw [WirePairs.strs, append_nil]
      exact hst.mono (fun _ _ h => h) rfl hst.fresh
    · exact fun _ _ => rfl
    · intro vs strs' hv
      cases hv
      exact ⟨(append_nil _).symm, .nil⟩
  | cons key value tail =>
    obtain ⟨k₁, hkey, h⟩ := bind_eq_some_iff.1 h
    obtain ⟨k₂, hvalue, htail⟩ := bind_eq_some_iff.1 h
    have hpos := length_pos_of_ne_nil key.bytes_ne_nil
    have hpos' := length_pos_of_ne_nil value.bytes_ne_nil
    rw [WirePairs.bytes, length_append, length_append] at hlen hfuel
    rw [WirePairs.bytes, append_assoc, append_assoc] at hdata
    rw [WirePairs.size] at hret
    rw [WirePairs.strs, length_append, length_append] at hcnt
    obtain ⟨p, st', hp, hbuilt⟩ := key.doParseResult_bytes hkey (by omega)
      (show 2 * key.bytes.length + 1 ≤ fuel by omega) hst hdata (by omega) (by omega)
    have hle := hbuilt.adds.le_add
    rw [key.count_eq hkey, ← length_append] at hvalue
    obtain ⟨q, st'', hq, hbuilt'⟩ := value.doParseResult_bytes hvalue (by omega)
      (show 2 * value.bytes.length + 1 ≤ fuel by omega) hbuilt.holds hbuilt.data (by omega)
      (by rw [length_append]; omega)
    have hle' := hbuilt'.adds.le_add
    rw [value.count_eq hvalue, ← length_append] at htail
    obtain ⟨off, hoff⟩ := Out.key_of_valid (hbuilt.valid.mono (hbuilt'.adds.ext hbuilt.holds))
    obtain ⟨ps, st₃, hps, hbuilt''⟩ := tail.parsePairs_bytes
      (arr ++ (off.map fun off => (off, q)).toList) htail (by omega)
      (show 2 * tail.bytes.length + 2 ≤ fuel by omega) hbuilt'.holds hbuilt'.data (by omega)
      (by rw [length_append, length_append]; omega)
    refine ⟨_, st₃, ?_, .cons hbuilt hbuilt' hoff hbuilt''⟩
    obtain ⟨b, bs, hbytes, hb⟩ := key.bytes_cons hkey
    rw [parsePairs, hdata, hbytes, cons_append]
    dsimp only
    rw [if_neg hb, hp, bind_some, hq, bind_some, hoff, bind_some, hps, append_assoc]

end

end

end Pclsync.Api
