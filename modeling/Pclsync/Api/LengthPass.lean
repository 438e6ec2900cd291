import Pclsync.Api.Wire

/-!
# The length pass over an API result

`calc_ret_len` goes over a buffer and says how many bytes the result takes. It checks what it reads
against the remaining length, except in the condition of its two loops.

* `Outcome`: what a pass comes to, and `Outcome.Sat`, with the rule for a sequence of steps.
* `calcRetLen`: the pass, with its loops over arrays and hashes; `Wire.size` is what it counts.
* `Dangling`: the buffers that end right after the code of an array or a hash.
* `Wire.calcRetLen_bytes`, `Dangling.calcRetLen`, `sat`: it accepts the encodings, it runs over the
  end of the dangling buffers, and it does so for no others.
-/

namespace Pclsync.Api

open List Option

/-! ## Outcomes -/

/-- What a pass over a buffer comes to: it ends, it rejects the buffer, or it reads past its end. -/
inductive Outcome (α : Type*)
  | ok (a : α)
  | rejected
  | overrun
  | outOfFuel

namespace Outcome

variable {α β : Type*}

def bind (o : Outcome α) (f : α → Outcome β) : Outcome β :=
  match o with
  | ok a => f a
  | rejected => rejected
  | overrun => overrun
  | outOfFuel => outOfFuel

instance : Monad Outcome where
  pure := ok
  bind := bind

@[simp] theorem ok_bind (a : α) (f : α → Outcome β) : (ok a).bind f = f a := rfl
@[simp] theorem overrun_bind (f : α → Outcome β) : (overrun : Outcome α).bind f = overrun := rfl

/-- It ends as in `post`, or it rejects the buffer, or the buffer is one where it reads past the
    end. -/
def Sat (o : Outcome α) (post : α → Prop) (past : Prop) : Prop :=
  match o with
  | ok a => post a
  | rejected => True
  | overrun => past
  | outOfFuel => False

theorem Sat.mono {o : Outcome α} {post post' : α → Prop} {past past' : Prop} (h : o.Sat post past)
    (hpast : past → past') (hpost : ∀ a, post a → post' a) : o.Sat post' past' := by
  cases o with
  | ok a => exact hpost a h
  | rejected => trivial
  | overrun => exact hpast h
  | outOfFuel => exact h.elim

theorem Sat.bind {o : Outcome α} {f : α → Outcome β} {post : α → Prop} {post' : β → Prop}
    {past past' : Prop} (h : o.Sat post past) (hpast : past → past')
    (hf : ∀ a, post a → (f a).Sat post' past') : (o.bind f).Sat post' past' := by
  cases o with
  | ok a => exact hf a h
  | rejected => trivial
  | overrun => exact hpast h
  | outOfFuel => exact h.elim

end Outcome

/-! ## The pass -/

/-- The state of the pass: the bytes from `*data` to the end of the buffer. -/
structure In where
  data : Bytes
  datalen : ℕ
  strcnt : ℕ

/-- The state with `data` left in the buffer and `k` strings counted. -/
def In.of (data : Bytes) (k : ℕ) : In := ⟨data, data.length, k⟩

namespace In

/-- `_NEED_DATA` -/
def need (n : ℕ) (s : In) : Outcome Unit := if s.datalen < n then .rejected else .ok ()

/-- `**data` -/
def peek (s : In) : Outcome UInt8 :=
  match s.data with
  | [] => .overrun
  | b :: _ => .ok b

/-- The next `n` bytes, with `*data += n` and `*datalen -= n`. -/
def take (n : ℕ) (s : In) : Outcome (Bytes × In) :=
  if s.data.length < n ∨ s.datalen < n then .overrun
  else .ok (s.data.take n, { s with data := s.data.drop n, datalen := s.datalen - n })

/-- A number of `l` bytes. -/
def number (l : ℕ) (s : In) : Outcome (ℕ × In) :=
  (s.need l).bind fun _ => (s.take l).bind fun r => .ok (ofLE r.1, r.2)

/-- A string of `len` bytes. -/
def string (len : ℕ) (s : In) : Outcome (ℕ × In) :=
  (s.need len).bind fun _ => (s.take len).bind fun r =>
    .ok (8 + (len + 8) / 8 * 8, { r.2 with strcnt := r.2.strcnt + 1 })

/-- A string that was there before. -/
def reused (id : ℕ) (s : In) : Outcome (ℕ × In) := if id < s.strcnt then .ok (0, s) else .rejected

end In

mutual

/-- `calc_ret_len` -/
def calcRetLen : ℕ → In → Outcome (ℕ × In)
  | 0, _ => .outOfFuel
  | fuel + 1, s => (s.need 1).bind fun _ => s.peek.bind fun type => (s.take 1).bind fun r =>
    match code type.toNat with
    | .shortStr len => r.2.string len
    | .str l => (r.2.number l).bind fun r => r.2.string r.1
    | .shortRstr id => r.2.reused id
    | .rstr l => (r.2.number l).bind fun r => r.2.reused r.1
    | .num l => (r.2.number l).bind fun r => .ok (16, r.2)
    | .smallNum _ => .ok (0, r.2)
    | .bool _ => .ok (0, r.2)
    | .array => arrayLoop fuel 16 0 r.2
    | .hash => hashLoop fuel 16 0 r.2
    | .data => (r.2.number 8).bind fun r => .ok (16, r.2)
    | .other => .rejected

/-- The loop over the items of an array, where `cnt` is an `int unsigned`. The condition reads a
    byte that is checked for at the end of an iteration, and not before the first one. -/
def arrayLoop : ℕ → ℕ → ℕ → In → Outcome (ℕ × In)
  | 0, _, _, _ => .outOfFuel
  | fuel + 1, ret, cnt, s => s.peek.bind fun b =>
    if b = rparamEnd then (s.take 1).bind fun r => .ok (ret + 8 * cnt, r.2)
    else (calcRetLen fuel s).bind fun r => (r.2.need 1).bind fun _ =>
      arrayLoop fuel (ret + r.1) ((cnt + 1) % 2 ^ 32) r.2

/-- The loop over the pairs of a hash. -/
def hashLoop : ℕ → ℕ → ℕ → In → Outcome (ℕ × In)
  | 0, _, _, _ => .outOfFuel
  | fuel + 1, ret, cnt, s => s.peek.bind fun b =>
    if b = rparamEnd then (s.take 1).bind fun r => .ok (ret + 16 * cnt, r.2)
    else (calcRetLen fuel s).bind fun r => (calcRetLen fuel r.2).bind fun r' =>
      (r'.2.need 1).bind fun _ => hashLoop fuel (ret + r.1 + r'.1) ((cnt + 1) % 2 ^ 32) r'.2

end

/-! ## What is counted -/

mutual

def Wires.length : Wires → ℕ
  | .nil => 0
  | .cons _ tail => tail.length + 1

def WirePairs.length : WirePairs → ℕ
  | .nil => 0
  | .cons _ _ tail => tail.length + 1

end

mutual

/-- The bytes that the result takes. -/
def Wire.size : Wire → ℕ
  | .str _ s => 8 + (s.length + 8) / 8 * 8
  | .rstr _ _ => 0
  | .num w _ => if w = 0 then 0 else 16
  | .bool _ => 0
  | .data _ => 16
  | .array items => 16 + items.size + 8 * items.length
  | .hash pairs => 16 + pairs.size + 16 * pairs.length

def Wires.size : Wires → ℕ
  | .nil => 0
  | .cons head tail => head.size + tail.size

def WirePairs.size : WirePairs → ℕ
  | .nil => 0
  | .cons key value tail => key.size + value.size + tail.size

end

/-- With `k` strings before it, the buffer is the beginning of a value, and it ends right after the
    code of an array or of a hash. -/
inductive Dangling : ℕ → Bytes → Prop
  | array (k : ℕ) : Dangling k [17]
  | hash (k : ℕ) : Dangling k [16]
  | item {k k' : ℕ} {items : Wires} {rest : Bytes} (hitems : items.count k = some k')
      (hrest : Dangling k' rest) : Dangling k (17 :: (items.bytes ++ rest))
  | key {k k' : ℕ} {pairs : WirePairs} {rest : Bytes} (hpairs : pairs.count k = some k')
      (hrest : Dangling k' rest) : Dangling k (16 :: (pairs.bytes ++ rest))
  | value {k k' k'' : ℕ} {pairs : WirePairs} {key : Wire} {rest : Bytes}
      (hpairs : pairs.count k = some k') (hkey : key.count k' = some k'')
      (hrest : Dangling k'' rest) : Dangling k (16 :: (pairs.bytes ++ (key.bytes ++ rest)))

/-! ## Steps -/

theorem In.peek_cons (b : UInt8) (data : Bytes) (k : ℕ) : (In.of (b :: data) k).peek = .ok b := rfl

theorem In.take_append (bs rest : Bytes) (k : ℕ) :
    (In.of (bs ++ rest) k).take bs.length = .ok (bs, In.of rest k) := by
  have hle : bs.length ≤ (bs ++ rest).length := by simp
  rw [In.take, In.of, if_neg (by dsimp only; omega)]
  simp [In.of]

theorem In.take_cons (b : UInt8) (data : Bytes) (k : ℕ) :
    (In.of (b :: data) k).take 1 = .ok ([b], In.of data k) :=
  In.take_append [b] data k

theorem In.need_le {n : ℕ} {data : Bytes} (h : n ≤ data.length) (k : ℕ) :
    (In.of data k).need n = .ok () :=
  if_neg (Nat.not_lt.2 h)

theorem In.need_sat (n : ℕ) (data : Bytes) (k : ℕ) :
    ((In.of data k).need n).Sat (fun _ => n ≤ data.length) False := by
  rw [In.need]
  split_ifs with h
  · trivial
  · exact Nat.not_lt.1 h

theorem In.need_take_sat (n : ℕ) (data : Bytes) (k : ℕ) :
    (((In.of data k).need n).bind fun _ => (In.of data k).take n).Sat
      (fun r => ∃ bs rest, data = bs ++ rest ∧ bs.length = n ∧ r = (bs, In.of rest k)) False := by
  refine (need_sat n data k).bind id fun _ hn => ?_
  have hlen : (data.take n).length = n := length_take_of_le hn
  have h := In.take_append (data.take n) (data.drop n) k
  rw [take_append_drop, hlen] at h
  rw [h]
  exact ⟨_, _, (take_append_drop n data).symm, hlen, rfl⟩

theorem In.number_sat (l : ℕ) (data : Bytes) (k : ℕ) : ((In.of data k).number l).Sat
      (fun r => ∃ bs rest, data = bs ++ rest ∧ bs.length = l ∧ r = (ofLE bs, In.of rest k))
      False := by
  have h := need_take_sat l data k
  rw [number]
  refine (need_sat l data k).bind id fun _ hl => ?_
  rw [need_le hl] at h
  refine h.bind id fun r hr => ?_
  obtain ⟨bs, rest, hdata, hlen, rfl⟩ := hr
  exact ⟨bs, rest, hdata, hlen, rfl⟩

theorem In.string_sat (len : ℕ) (data : Bytes) (k : ℕ) : ((In.of data k).string len).Sat
      (fun r => ∃ s rest, data = s ++ rest ∧ s.length = len ∧
        r = (8 + (s.length + 8) / 8 * 8, In.of rest (k + 1)))
      False := by
  have h := need_take_sat len data k
  rw [string]
  refine (need_sat len data k).bind id fun _ hl => ?_
  rw [need_le hl] at h
  refine h.bind id fun r hr => ?_
  obtain ⟨s, rest, hdata, rfl, rfl⟩ := hr
  exact ⟨s, rest, hdata, rfl, rfl⟩

theorem In.reused_sat (id : ℕ) (data : Bytes) (k : ℕ) :
    ((In.of data k).reused id).Sat (fun r => id < k ∧ r = (0, In.of data k)) False := by
  rw [reused]
  split_ifs with h
  · exact ⟨h, rfl⟩
  · trivial

/-! ## What is accepted -/

/-- From `data`, with `k` strings before it, the pass has read an encoding. -/
def Counted (data : Bytes) (k : ℕ) (r : ℕ × In) : Prop :=
  ∃ (w : Wire) (rest : Bytes) (k' : ℕ), data = w.bytes ++ rest ∧ w.count k = some k' ∧
    r = (w.size, In.of rest k')

theorem counted_str {type : UInt8} {head s rest : Bytes} {k w len : ℕ} (hs : s.length = len)
    (hfits : NumFits 50 4 w len) (hhead : numBytes 100 0 w len = type :: head) :
    Counted (type :: (head ++ (s ++ rest))) k
      (8 + (s.length + 8) / 8 * 8, In.of rest (k + 1)) := by
  subst hs
  refine ⟨.str w s, rest, k + 1, ?_, if_pos hfits, rfl⟩
  rw [Wire.bytes, hhead, append_assoc]
  rfl

theorem counted_rstr {type : UInt8} {head rest : Bytes} {k w id : ℕ} (hfits : NumFits 50 4 w id)
    (hid : id < k) (hhead : numBytes 150 4 w id = type :: head) :
    Counted (type :: (head ++ rest)) k (0, In.of rest k) := by
  refine ⟨.rstr w id, rest, k, ?_, if_pos ⟨hfits, hid⟩, rfl⟩
  rw [Wire.bytes, hhead]
  rfl

theorem counted_num {type : UInt8} {head rest : Bytes} {k w n size : ℕ} (hfits : NumFits 20 8 w n)
    (hhead : numBytes 200 8 w n = type :: head) (hsize : (if w = 0 then 0 else 16) = size) :
    Counted (type :: (head ++ rest)) k (size, In.of rest k) := by
  subst hsize
  refine ⟨.num w n, rest, k, ?_, if_pos hfits, rfl⟩
  rw [Wire.bytes, hhead]
  rfl

/-- The array loop has read items and the end of the array. -/
def CountedItems (ret cnt : ℕ) (data : Bytes) (k : ℕ) (r : ℕ × In) : Prop :=
  ∃ (items : Wires) (rest : Bytes) (k' : ℕ), data = items.bytes ++ rparamEnd :: rest ∧
    items.count k = some k' ∧ r = (ret + items.size + 8 * (cnt + items.length), In.of rest k')

/-- The array loop runs over the end, at once or in an item. -/
def DanglingItems (data : Bytes) (k : ℕ) : Prop :=
  data = [] ∨ ∃ (items : Wires) (k' : ℕ) (rest : Bytes), data = items.bytes ++ rest ∧
    items.count k = some k' ∧ Dangling k' rest

def CountedPairs (ret cnt : ℕ) (data : Bytes) (k : ℕ) (r : ℕ × In) : Prop :=
  ∃ (pairs : WirePairs) (rest : Bytes) (k' : ℕ), data = pairs.bytes ++ rparamEnd :: rest ∧
    pairs.count k = some k' ∧ r = (ret + pairs.size + 16 * (cnt + pairs.length), In.of rest k')

/-- The hash loop runs over the end, at once, in a key or in a value. -/
def DanglingPairs (data : Bytes) (k : ℕ) : Prop :=
  data = [] ∨ ∃ (pairs : WirePairs) (k' : ℕ) (rest : Bytes), data = pairs.bytes ++ rest ∧
    pairs.count k = some k' ∧ (Dangling k' rest ∨ ∃ (key : Wire) (k'' : ℕ) (rest' : Bytes),
      rest = key.bytes ++ rest' ∧ key.count k' = some k'' ∧ Dangling k'' rest')

theorem CountedItems.cons {ret cnt k : ℕ} {data rest : Bytes} {head : Wire} {k' : ℕ} {r : ℕ × In}
    (hdata : data = head.bytes ++ rest) (hhead : head.count k = some k')
    (h : CountedItems (ret + head.size) (cnt + 1) rest k' r) : CountedItems ret cnt data k r := by
  obtain ⟨items, rest', k'', rfl, hitems, rfl⟩ := h
  refine ⟨.cons head items, rest', k'', ?_, ?_, ?_⟩
  · rw [hdata, Wires.bytes, append_assoc]
  · rw [Wires.count, hhead]
    exact hitems
  · rw [Wires.size, Wires.length]
    congr 1
    omega

theorem DanglingItems.cons {k k' : ℕ} {data rest : Bytes} {head : Wire}
    (hdata : data = head.bytes ++ rest) (hhead : head.count k = some k') (hne : rest ≠ [])
    (h : DanglingItems rest k') : DanglingItems data k := by
  obtain rfl | ⟨items, k'', rest', rfl, hitems, hrest⟩ := h
  · exact absurd rfl hne
  · refine .inr ⟨.cons head items, k'', rest', ?_, ?_, hrest⟩
    · rw [hdata, Wires.bytes, append_assoc]
    · rw [Wires.count, hhead]
      exact hitems

theorem CountedPairs.cons {ret cnt k k' k'' : ℕ} {data rest rest' : Bytes} {key value : Wire}
    {r : ℕ × In} (hdata : data = key.bytes ++ rest) (hkey : key.count k = some k')
    (hrest : rest = value.bytes ++ rest') (hvalue : value.count k' = some k'')
    (h : CountedPairs (ret + key.size + value.size) (cnt + 1) rest' k'' r) :
    CountedPairs ret cnt data k r := by
  obtain ⟨pairs, rest'', k₃, rfl, hpairs, rfl⟩ := h
  refine ⟨.cons key value pairs, rest'', k₃, ?_, ?_, ?_⟩
  · rw [hdata, hrest, WirePairs.bytes]
    simp only [append_assoc]
  · rw [WirePairs.count, hkey, bind_some, hvalue]
    exact hpairs
  · rw [WirePairs.size, WirePairs.length]
    congr 1
    omega

theorem DanglingPairs.cons {k k' k'' : ℕ} {data rest rest' : Bytes} {key value : Wire}
    (hdata : data = key.bytes ++ rest) (hkey : key.count k = some k')
    (hrest : rest = value.bytes ++ rest') (hvalue : value.count k' = some k'') (hne : rest' ≠ [])
    (h : DanglingPairs rest' k'') : DanglingPairs data k := by
  obtain rfl | ⟨pairs, k₃, rest'', rfl, hpairs, hdangling⟩ := h
  · exact absurd rfl hne
  · refine .inr ⟨.cons key value pairs, k₃, rest'', ?_, ?_, hdangling⟩
    · rw [hdata, hrest, WirePairs.bytes]
      simp only [append_assoc]
    · rw [WirePairs.count, hkey, bind_some, hvalue]
      exact hpairs

/-- What the pass comes to with some fuel, on the buffers that it is enough for. -/
def ValueSat (fuel : ℕ) : Prop :=
  ∀ data k, data.length < 2 ^ 32 → 2 * data.length + 1 ≤ fuel →
    (calcRetLen fuel (In.of data k)).Sat (Counted data k) (Dangling k data)

def ItemsSat (fuel : ℕ) : Prop :=
  ∀ ret cnt data k, cnt + data.length < 2 ^ 32 → 2 * data.length + 2 ≤ fuel →
    (arrayLoop fuel ret cnt (In.of data k)).Sat (CountedItems ret cnt data k) (DanglingItems data k)

def PairsSat (fuel : ℕ) : Prop :=
  ∀ ret cnt data k, cnt + data.length < 2 ^ 32 → 2 * data.length + 2 ≤ fuel →
    (hashLoop fuel ret cnt (In.of data k)).Sat (CountedPairs ret cnt data k) (DanglingPairs data k)

theorem Wire.bytes_ne_nil (w : Wire) : w.bytes ≠ [] := by
  cases w <;> simp [Wire.bytes, numBytes, ite_eq_iff]

theorem valueSat_succ {fuel : ℕ} (hitems : ItemsSat fuel) (hpairs : PairsSat fuel) :
    ValueSat (fuel + 1) := by
  intro data k hlen hfuel
  rw [calcRetLen]
  refine (In.need_sat 1 data k).bind False.elim fun _ hone => ?_
  obtain _ | ⟨type, tail⟩ := data
  · exact absurd hone (by decide)
  rw [In.peek_cons, Outcome.ok_bind, In.take_cons, Outcome.ok_bind]
  rw [length_cons] at hlen hfuel
  have hcode := code_spec type.toNat
  dsimp only
  split <;> rename_i hc <;> rw [hc] at hcode <;> dsimp only at hcode
  · -- a short string
    refine Outcome.Sat.mono ((In.string_sat _ _ _)) False.elim fun r hr => ?_
    obtain ⟨s, rest, rfl, rfl, rfl⟩ := hr
    exact counted_str rfl (numFits_short hcode.1) (numBytes_short hcode.2)
  · -- a string with its length in some bytes
    refine (In.number_sat _ _ _).bind False.elim fun r hr => ?_
    obtain ⟨bs, rest, rfl, hbs, rfl⟩ := hr
    refine (In.string_sat _ _ _).mono False.elim fun r hr => ?_
    obtain ⟨s, rest, rfl, hs, rfl⟩ := hr
    exact counted_str hs (numFits_ofLE hcode.1 hcode.2.1 hbs) (numBytes_ofLE hcode.1 hbs hcode.2.2)
  · -- a reused string
    refine (In.reused_sat _ _ _).mono False.elim fun r hr => ?_
    obtain ⟨hid, rfl⟩ := hr
    exact counted_rstr (numFits_short hcode.1) hid (numBytes_short hcode.2)
  · refine (In.number_sat _ _ _).bind False.elim fun r hr => ?_
    obtain ⟨bs, rest, rfl, hbs, rfl⟩ := hr
    refine (In.reused_sat _ _ _).mono False.elim fun r hr => ?_
    obtain ⟨hid, rfl⟩ := hr
    exact counted_rstr (numFits_ofLE hcode.1 hcode.2.1 hbs) hid
      (numBytes_ofLE hcode.1 hbs hcode.2.2)
  · -- a number
    refine (In.number_sat _ _ _).bind False.elim fun r hr => ?_
    obtain ⟨bs, rest, rfl, hbs, rfl⟩ := hr
    exact counted_num (numFits_ofLE hcode.1 hcode.2.1 hbs) (numBytes_ofLE hcode.1 hbs hcode.2.2)
      (if_neg hcode.1.ne')
  · exact counted_num (numFits_short hcode.1) (numBytes_short hcode.2) (if_pos rfl)
  · -- a boolean
    rename_i b
    refine ⟨.bool b, tail, k, ?_, rfl, rfl⟩
    have htype : type = if b then 19 else 18 := by
      rw [← UInt8.toNat_inj, hcode]
      cases b <;> rfl
    rw [htype]
    rfl
  · -- an array
    have htype : type = 17 := by rw [← UInt8.toNat_inj, hcode]; rfl
    refine Outcome.Sat.mono (hitems 16 0 tail k (by omega) (by omega)) ?_ ?_
    · rintro (rfl | ⟨items, k', rest, rfl, hcount, hrest⟩)
      · exact htype ▸ .array k
      · exact htype ▸ .item hcount hrest
    · rintro r ⟨items, rest, k', rfl, hcount, rfl⟩
      refine ⟨.array items, rest, k', ?_, hcount, ?_⟩
      · rw [htype, Wire.bytes, cons_append, append_assoc]
        rfl
      · rw [Wire.size, Nat.zero_add]
  · -- a hash
    have htype : type = 16 := by rw [← UInt8.toNat_inj, hcode]; rfl
    refine Outcome.Sat.mono (hpairs 16 0 tail k (by omega) (by omega)) ?_ ?_
    · rintro (rfl | ⟨pairs, k', rest, rfl, hcount, hrest | ⟨key, k'', rest', rfl, hkey, hrest⟩⟩)
      · exact htype ▸ .hash k
      · exact htype ▸ .key hcount hrest
      · exact htype ▸ .value hcount hkey hrest
    · rintro r ⟨pairs, rest, k', rfl, hcount, rfl⟩
      refine ⟨.hash pairs, rest, k', ?_, hcount, ?_⟩
      · rw [htype, Wire.bytes, cons_append, append_assoc]
        rfl
      · rw [Wire.size, Nat.zero_add]
  · -- a data length
    refine (In.number_sat _ _ _).bind False.elim fun r hr => ?_
    obtain ⟨bs, rest, rfl, hbs, rfl⟩ := hr
    have htype : type = 20 := by rw [← UInt8.toNat_inj, hcode]; rfl
    refine ⟨.data (ofLE bs), rest, k, ?_, if_pos (hbs ▸ ofLE_lt bs), rfl⟩
    rw [htype, Wire.bytes, toLE_ofLE hbs]
    rfl
  · trivial

theorem itemsSat_succ {fuel : ℕ} (hvalue : ValueSat fuel) (hitems : ItemsSat fuel) :
    ItemsSat (fuel + 1) := by
  intro ret cnt data k hlen hfuel
  rw [arrayLoop]
  obtain _ | ⟨b, tail⟩ := data
  · exact .inl rfl
  rw [In.peek_cons, Outcome.ok_bind]
  rw [length_cons] at hlen hfuel
  split_ifs with hb
  · -- the end of the array
    rw [In.take_cons, Outcome.ok_bind]
    exact ⟨.nil, tail, k, by rw [hb]; rfl, rfl, rfl⟩
  · refine Outcome.Sat.bind (hvalue (b :: tail) k (by rw [length_cons]; omega)
      (by rw [length_cons]; omega)) (fun h => .inr ⟨.nil, k, b :: tail, rfl, rfl, h⟩) ?_
    rintro r ⟨head, rest, k', hdata, hhead, rfl⟩
    have hne := length_pos_of_ne_nil head.bytes_ne_nil
    have hle := congrArg length hdata
    rw [length_cons, length_append] at hle
    refine (In.need_sat 1 rest k').bind False.elim fun _ hone => ?_
    rw [Nat.mod_eq_of_lt (by omega)]
    exact Outcome.Sat.mono (hitems _ _ rest k' (by omega) (by omega))
      (DanglingItems.cons hdata hhead (ne_nil_of_length_pos hone))
      fun r => CountedItems.cons hdata hhead

theorem pairsSat_succ {fuel : ℕ} (hvalue : ValueSat fuel) (hpairs : PairsSat fuel) :
    PairsSat (fuel + 1) := by
  intro ret cnt data k hlen hfuel
  rw [hashLoop]
  obtain _ | ⟨b, tail⟩ := data
  · exact .inl rfl
  rw [In.peek_cons, Outcome.ok_bind]
  rw [length_cons] at hlen hfuel
  split_ifs with hb
  · -- the end of the hash
    rw [In.take_cons, Outcome.ok_bind]
    exact ⟨.nil, tail, k, by rw [hb]; rfl, rfl, rfl⟩
  · refine Outcome.Sat.bind (hvalue (b :: tail) k (by rw [length_cons]; omega)
      (by rw [length_cons]; omega)) (fun h => .inr ⟨.nil, k, b :: tail, rfl, rfl, .inl h⟩) ?_
    rintro r ⟨key, rest, k', hdata, hkey, rfl⟩
    have hne := length_pos_of_ne_nil key.bytes_ne_nil
    have hle := congrArg length hdata
    rw [length_cons, length_append] at hle
    refine Outcome.Sat.bind (hvalue rest k' (by omega) (by omega))
      (fun h => .inr ⟨.nil, k, b :: tail, rfl, rfl, .inr ⟨key, k', rest, hdata, hkey, h⟩⟩) ?_
    rintro r ⟨value, rest', k'', hrest, hval, rfl⟩
    have hle' := congrArg length hrest
    rw [length_append] at hle'
    refine (In.need_sat 1 rest' k'').bind False.elim fun _ hone => ?_
    rw [Nat.mod_eq_of_lt (by omega)]
    exact Outcome.Sat.mono (hpairs _ _ rest' k'' (by omega) (by omega))
      (DanglingPairs.cons hdata hkey hrest hval (ne_nil_of_length_pos hone))
      fun r => CountedPairs.cons hdata hkey hrest hval

theorem sat (fuel : ℕ) : ValueSat fuel ∧ ItemsSat fuel ∧ PairsSat fuel := by
  induction fuel with
  | zero =>
    refine ⟨?_, ?_, ?_⟩
    · exact fun _ _ _ h => absurd h (Nat.not_succ_le_zero _)
    · exact fun _ _ _ _ _ h => absurd h (Nat.not_succ_le_zero _)
    · exact fun _ _ _ _ _ h => absurd h (Nat.not_succ_le_zero _)
  | succ fuel ih =>
    obtain ⟨hvalue, hitems, hpairs⟩ := ih
    exact ⟨valueSat_succ hitems hpairs, itemsSat_succ hvalue hitems, pairsSat_succ hvalue hpairs⟩

/-! ## The encodings are accepted -/

theorem In.number_append {l : ℕ} {bs : Bytes} (h : bs.length = l) (rest : Bytes) (k : ℕ) :
    (In.of (bs ++ rest) k).number l = .ok (ofLE bs, In.of rest k) := by
  subst h
  rw [number, need_le (by simp), Outcome.ok_bind, take_append]
  rfl

theorem In.string_append (s rest : Bytes) (k : ℕ) : (In.of (s ++ rest) k).string s.length =
      .ok (8 + (s.length + 8) / 8 * 8, In.of rest (k + 1)) := by
  rw [string, need_le (by simp), Outcome.ok_bind, take_append]
  rfl

theorem In.reused_of_lt {id k : ℕ} (h : id < k) (data : Bytes) :
    (In.of data k).reused id = .ok (0, In.of data k) :=
  if_pos h

/-- The first byte of an encoding is not the end of an array or a hash. -/
theorem Wire.bytes_cons {w : Wire} {k k' : ℕ} (h : w.count k = some k') :
    ∃ b tail, w.bytes = b :: tail ∧ b ≠ rparamEnd := by
  have hne : ∀ {b : UInt8} {n : ℕ}, b.toNat = n → n < 255 → b ≠ rparamEnd := by
    rintro b n rfl hlt rfl
    exact absurd hlt (by decide)
  cases w with
  | str w s =>
    rw [Wire.count] at h
    split_ifs at h with hfits
    obtain ⟨-, hn, b, hb, hbytes⟩ | ⟨-, hw, b, bs, hb, -, -, hbytes⟩ :=
      numBytes_cases 100 0 hfits (by decide) (by decide)
    · exact ⟨b, s, by rw [Wire.bytes, hbytes]; rfl, hne hb (by omega)⟩
    · exact ⟨b, bs ++ s, by rw [Wire.bytes, hbytes]; rfl, hne hb (by omega)⟩
  | rstr w id =>
    rw [Wire.count] at h
    split_ifs at h with hfits
    obtain ⟨-, hn, b, hb, hbytes⟩ | ⟨-, hw, b, bs, hb, -, -, hbytes⟩ :=
      numBytes_cases 150 4 hfits.1 (by decide) (by decide)
    · exact ⟨b, [], hbytes, hne hb (by omega)⟩
    · exact ⟨b, bs, hbytes, hne hb (by omega)⟩
  | num w n =>
    rw [Wire.count] at h
    split_ifs at h with hfits
    obtain ⟨-, hn, b, hb, hbytes⟩ | ⟨-, hw, b, bs, hb, -, -, hbytes⟩ :=
      numBytes_cases 200 8 hfits (by decide) (by decide)
    · exact ⟨b, [], hbytes, hne hb (by omega)⟩
    · exact ⟨b, bs, hbytes, hne hb (by omega)⟩
  | bool b => cases b <;> exact ⟨_, [], rfl, by decide⟩
  | data n => exact ⟨20, _, rfl, by decide⟩
  | array items => exact ⟨17, _, rfl, by decide⟩
  | hash pairs => exact ⟨16, _, rfl, by decide⟩

theorem calcRetLen_cons (fuel : ℕ) (type : UInt8) (data : Bytes) (k : ℕ) :
    calcRetLen (fuel + 1) (In.of (type :: data) k) = match code type.toNat with
      | .shortStr len => (In.of data k).string len
      | .str l => ((In.of data k).number l).bind fun r => r.2.string r.1
      | .shortRstr id => (In.of data k).reused id
      | .rstr l => ((In.of data k).number l).bind fun r => r.2.reused r.1
      | .num l => ((In.of data k).number l).bind fun r => .ok (16, r.2)
      | .smallNum _ => .ok (0, In.of data k)
      | .bool _ => .ok (0, In.of data k)
      | .array => arrayLoop fuel 16 0 (In.of data k)
      | .hash => hashLoop fuel 16 0 (In.of data k)
      | .data => ((In.of data k).number 8).bind fun r => .ok (16, r.2)
      | .other => .rejected := by
  rw [calcRetLen, In.need_le (by simp), Outcome.ok_bind, In.peek_cons, Outcome.ok_bind,
    In.take_cons, Outcome.ok_bind]

theorem Wire.array_bytes (items : Wires) (rest : Bytes) :
    (Wire.array items).bytes ++ rest = 17 :: (items.bytes ++ rparamEnd :: rest) :=
  congrArg (cons 17) (append_assoc ..)

theorem Wire.hash_bytes (pairs : WirePairs) (rest : Bytes) :
    (Wire.hash pairs).bytes ++ rest = 16 :: (pairs.bytes ++ rparamEnd :: rest) :=
  congrArg (cons 16) (append_assoc ..)

theorem Wire.length_array (items : Wires) :
    (Wire.array items).bytes.length = items.bytes.length + 2 :=
  congrArg Nat.succ length_append

theorem Wire.length_hash (pairs : WirePairs) :
    (Wire.hash pairs).bytes.length = pairs.bytes.length + 2 :=
  congrArg Nat.succ length_append

theorem Wires.length_le {items : Wires} : items.length ≤ items.bytes.length := by
  match items with
  | .nil => exact le_rfl
  | .cons head tail =>
    have hle := tail.length_le
    have hpos := length_pos_of_ne_nil head.bytes_ne_nil
    rw [Wires.length, Wires.bytes, length_append]
    omega

theorem WirePairs.length_le {pairs : WirePairs} : pairs.length ≤ pairs.bytes.length := by
  match pairs with
  | .nil => exact le_rfl
  | .cons key value tail =>
    have hle := tail.length_le
    have hpos := length_pos_of_ne_nil key.bytes_ne_nil
    rw [WirePairs.length, WirePairs.bytes, length_append, length_append]
    omega

theorem arrayLoop_end (fuel ret cnt : ℕ) (rest : Bytes) (k : ℕ) :
    arrayLoop (fuel + 1) ret cnt (In.of (rparamEnd :: rest) k) =
      .ok (ret + 8 * cnt, In.of rest k) := by
  rw [arrayLoop, In.peek_cons, Outcome.ok_bind, if_pos rfl, In.take_cons, Outcome.ok_bind]

theorem hashLoop_end (fuel ret cnt : ℕ) (rest : Bytes) (k : ℕ) :
    hashLoop (fuel + 1) ret cnt (In.of (rparamEnd :: rest) k) =
      .ok (ret + 16 * cnt, In.of rest k) := by
  rw [hashLoop, In.peek_cons, Outcome.ok_bind, if_pos rfl, In.take_cons, Outcome.ok_bind]

/-- At the bytes of an item the array loop does not end. -/
theorem arrayLoop_bytes_append {w : Wire} {k k' : ℕ} (h : w.count k = some k')
    (fuel ret cnt : ℕ) (rest : Bytes) :
    arrayLoop (fuel + 1) ret cnt (In.of (w.bytes ++ rest) k) =
      (calcRetLen fuel (In.of (w.bytes ++ rest) k)).bind fun r => (r.2.need 1).bind fun _ =>
        arrayLoop fuel (ret + r.1) ((cnt + 1) % 2 ^ 32) r.2 := by
  obtain ⟨b, tail, hbytes, hb⟩ := w.bytes_cons h
  rw [arrayLoop, hbytes, cons_append, In.peek_cons, Outcome.ok_bind, if_neg hb]

theorem hashLoop_bytes_append {w : Wire} {k k' : ℕ} (h : w.count k = some k')
    (fuel ret cnt : ℕ) (rest : Bytes) :
    hashLoop (fuel + 1) ret cnt (In.of (w.bytes ++ rest) k) =
      (calcRetLen fuel (In.of (w.bytes ++ rest) k)).bind fun r => (calcRetLen fuel r.2).bind
        fun r' => (r'.2.need 1).bind fun _ =>
          hashLoop fuel (ret + r.1 + r'.1) ((cnt + 1) % 2 ^ 32) r'.2 := by
  obtain ⟨b, tail, hbytes, hb⟩ := w.bytes_cons h
  rw [hashLoop, hbytes, cons_append, In.peek_cons, Outcome.ok_bind, if_neg hb]

mutual

/-- An encoding is accepted, and the pass stops at its end. -/
theorem Wire.calcRetLen_bytes (w : Wire) {k k' fuel : ℕ} (rest : Bytes) (h : w.count k = some k')
    (hlen : w.bytes.length < 2 ^ 32) (hfuel : 2 * w.bytes.length + 1 ≤ fuel) :
    calcRetLen fuel (In.of (w.bytes ++ rest) k) = .ok (w.size, In.of rest k') := by
  obtain _ | fuel := fuel
  · exact absurd hfuel (Nat.not_succ_le_zero _)
  cases w with
  | str w s =>
    rw [Wire.count] at h
    split_ifs at h with hfits
    cases h
    obtain ⟨-, hn, b, hb, hbytes⟩ | ⟨hw, hmax, b, bs, hb, hbs, hn, hbytes⟩ :=
      numBytes_cases 100 0 hfits (by decide) (by decide)
    · rw [Wire.bytes, hbytes, singleton_append, cons_append, calcRetLen_cons, hb,
        code_shortStr _ hn]
      exact In.string_append s rest k
    · rw [Wire.bytes, hbytes, cons_append, cons_append, append_assoc,
        calcRetLen_cons, hb, code_str w hmax hw]
      dsimp only
      rw [In.number_append hbs, Outcome.ok_bind, hn]
      exact In.string_append s rest k
  | rstr w id =>
    rw [Wire.count] at h
    split_ifs at h with hfits
    cases h
    obtain ⟨-, hn, b, hb, hbytes⟩ | ⟨hw, hmax, b, bs, hb, hbs, hn, hbytes⟩ :=
      numBytes_cases 150 4 hfits.1 (by decide) (by decide)
    · rw [Wire.bytes, hbytes, singleton_append, calcRetLen_cons, hb, code_shortRstr _ hn]
      exact In.reused_of_lt hfits.2 rest
    · rw [Wire.bytes, hbytes, cons_append, calcRetLen_cons, hb, code_rstr w hmax hw]
      dsimp only
      rw [In.number_append hbs, Outcome.ok_bind, hn]
      exact In.reused_of_lt hfits.2 rest
  | num w n =>
    rw [Wire.count] at h
    split_ifs at h with hfits
    cases h
    obtain ⟨hw, hn, b, hb, hbytes⟩ | ⟨hw, hmax, b, bs, hb, hbs, hn, hbytes⟩ :=
      numBytes_cases 200 8 hfits (by decide) (by decide)
    · rw [Wire.bytes, hbytes, singleton_append, calcRetLen_cons, hb, code_smallNum _ hn,
        Wire.size, if_pos hw]
    · rw [Wire.bytes, hbytes, cons_append, calcRetLen_cons, hb, code_num w hmax hw,
        Wire.size, if_neg hw]
      dsimp only
      rw [In.number_append hbs, Outcome.ok_bind]
  | bool b =>
    cases h
    cases b <;> exact calcRetLen_cons _ _ _ _
  | data n =>
    rw [Wire.count] at h
    split_ifs at h
    cases h
    rw [Wire.bytes, cons_append, calcRetLen_cons]
    exact congrArg (Outcome.bind · _) (In.number_append (length_toLE 8 n) rest k)
  | array items =>
    have hle := items.length_le
    have hlength := Wire.length_array items
    rw [Wire.array_bytes, calcRetLen_cons]
    refine (items.arrayLoop_bytes h (cons_ne_nil _ _) (by omega)
      (show 2 * items.bytes.length + 2 ≤ fuel by omega)).trans ?_
    obtain ⟨fuel', hfuel'⟩ : ∃ f, fuel - items.length = f + 1 := ⟨fuel - items.length - 1, by omega⟩
    rw [hfuel', arrayLoop_end, Wire.size, Nat.zero_add]
  | hash pairs =>
    have hle := pairs.length_le
    have hlength := Wire.length_hash pairs
    rw [Wire.hash_bytes, calcRetLen_cons]
    refine (pairs.hashLoop_bytes h (cons_ne_nil _ _) (by omega)
      (show 2 * pairs.bytes.length + 2 ≤ fuel by omega)).trans ?_
    obtain ⟨fuel', hfuel'⟩ : ∃ f, fuel - pairs.length = f + 1 := ⟨fuel - pairs.length - 1, by omega⟩
    rw [hfuel', hashLoop_end, Wire.size, Nat.zero_add]

/-- The array loop goes over items, and goes on with what is after them. -/
theorem Wires.arrayLoop_bytes (items : Wires) {k k' ret cnt fuel : ℕ} {rest : Bytes}
    (h : items.count k = some k') (hne : rest ≠ []) (hcnt : cnt + items.bytes.length < 2 ^ 32)
    (hfuel : 2 * items.bytes.length + 2 ≤ fuel) :
    arrayLoop fuel ret cnt (In.of (items.bytes ++ rest) k) =
      arrayLoop (fuel - items.length) (ret + items.size) (cnt + items.length) (In.of rest k') := by
  cases items with
  | nil =>
    cases h
    rfl
  | cons head tail =>
    obtain ⟨k₁, hhead, htail⟩ := bind_eq_some_iff.1 h
    obtain _ | fuel := fuel
    · exact absurd hfuel (Nat.not_succ_le_zero _)
    have hpos := length_pos_of_ne_nil head.bytes_ne_nil
    rw [Wires.bytes, length_append] at hcnt hfuel
    rw [Wires.bytes, append_assoc, arrayLoop_bytes_append hhead,
      head.calcRetLen_bytes _ hhead (by omega) (by omega), Outcome.ok_bind,
      In.need_le (length_pos_of_ne_nil (append_ne_nil_of_right_ne_nil _ hne)),
      Outcome.ok_bind, Nat.mod_eq_of_lt (by omega)]
    refine (tail.arrayLoop_bytes htail hne (by omega) (by omega)).trans ?_
    rw [Wires.length, Wires.size, Nat.succ_sub_succ, Nat.add_assoc, Nat.add_assoc, Nat.add_comm 1]

theorem WirePairs.hashLoop_bytes (pairs : WirePairs) {k k' ret cnt fuel : ℕ} {rest : Bytes}
    (h : pairs.count k = some k') (hne : rest ≠ []) (hcnt : cnt + pairs.bytes.length < 2 ^ 32)
    (hfuel : 2 * pairs.bytes.length + 2 ≤ fuel) :
    hashLoop fuel ret cnt (In.of (pairs.bytes ++ rest) k) =
      hashLoop (fuel - pairs.length) (ret + pairs.size) (cnt + pairs.length) (In.of rest k') := by
  cases pairs with
  | nil =>
    cases h
    rfl
  | cons key value tail =>
    obtain ⟨k₁, hkey, h'⟩ := bind_eq_some_iff.1 h
    obtain ⟨k₂, hvalue, htail⟩ := bind_eq_some_iff.1 h'
    obtain _ | fuel := fuel
    · exact absurd hfuel (Nat.not_succ_le_zero _)
    have hpos := length_pos_of_ne_nil key.bytes_ne_nil
    rw [WirePairs.bytes, length_append, length_append] at hcnt hfuel
    rw [WirePairs.bytes, append_assoc, append_assoc, hashLoop_bytes_append hkey,
      key.calcRetLen_bytes _ hkey (by omega) (by omega), Outcome.ok_bind,
      value.calcRetLen_bytes _ hvalue (by omega) (by omega), Outcome.ok_bind,
      In.need_le (length_pos_of_ne_nil (append_ne_nil_of_right_ne_nil _ hne)),
      Outcome.ok_bind, Nat.mod_eq_of_lt (by omega)]
    refine (tail.hashLoop_bytes htail hne (by omega) (by omega)).trans ?_
    rw [WirePairs.length, WirePairs.size, Nat.succ_sub_succ, Nat.add_assoc, Nat.add_assoc,
      Nat.add_assoc, Nat.add_comm 1, Nat.add_assoc]

end

/-! ## The dangling buffers -/

theorem Dangling.cons {k : ℕ} {data : Bytes} (h : Dangling k data) :
    ∃ b tail, data = b :: tail ∧ b ≠ rparamEnd := by
  cases h
  all_goals exact ⟨_, _, rfl, by decide⟩

theorem Dangling.ne_nil {k : ℕ} {data : Bytes} (h : Dangling k data) : data ≠ [] := by
  obtain ⟨b, tail, rfl, -⟩ := h.cons
  exact cons_ne_nil _ _

/-- The pass reads past the end of a dangling buffer. -/
theorem Dangling.calcRetLen {k fuel : ℕ} {data : Bytes} (h : Dangling k data)
    (hlen : data.length < 2 ^ 32) (hfuel : 2 * data.length + 1 ≤ fuel) :
    calcRetLen fuel (In.of data k) = .overrun := by
  obtain ⟨fuel, rfl⟩ : ∃ f, fuel = f + 1 := ⟨fuel - 1, by omega⟩
  induction h generalizing fuel with
  | array k =>
    obtain ⟨fuel, rfl⟩ : ∃ f, fuel = f + 1 := ⟨fuel - 1, by simp at hfuel; omega⟩
    exact calcRetLen_cons _ _ _ _
  | hash k =>
    obtain ⟨fuel, rfl⟩ : ∃ f, fuel = f + 1 := ⟨fuel - 1, by simp at hfuel; omega⟩
    exact calcRetLen_cons _ _ _ _
  | @item k k' items rest hitems hrest ih =>
    rw [length_cons, length_append] at hlen hfuel
    have hle := items.length_le
    have hpos := length_pos_of_ne_nil hrest.ne_nil
    refine (calcRetLen_cons _ _ _ _).trans ?_
    refine (items.arrayLoop_bytes hitems hrest.ne_nil (by omega) (by omega)).trans ?_
    obtain ⟨f, hf⟩ : ∃ f, fuel - items.length = f + 1 + 1 := ⟨fuel - items.length - 2, by omega⟩
    obtain ⟨b, tail, hcons, hb⟩ := hrest.cons
    rw [hf, arrayLoop, hcons, In.peek_cons, Outcome.ok_bind, if_neg hb, ← hcons,
      ih (by omega) f (by omega)]
    rfl
  | @key k k' pairs rest hpairs hrest ih =>
    rw [length_cons, length_append] at hlen hfuel
    have hle := pairs.length_le
    have hpos := length_pos_of_ne_nil hrest.ne_nil
    refine (calcRetLen_cons _ _ _ _).trans ?_
    refine (pairs.hashLoop_bytes hpairs hrest.ne_nil (by omega) (by omega)).trans ?_
    obtain ⟨f, hf⟩ : ∃ f, fuel - pairs.length = f + 1 + 1 := ⟨fuel - pairs.length - 2, by omega⟩
    obtain ⟨b, tail, hcons, hb⟩ := hrest.cons
    rw [hf, hashLoop, hcons, In.peek_cons, Outcome.ok_bind, if_neg hb, ← hcons,
      ih (by omega) f (by omega)]
    rfl
  | @value k k' k'' pairs key rest hpairs hkey hrest ih =>
    rw [length_cons, length_append, length_append] at hlen hfuel
    have hle := pairs.length_le
    have hpos := length_pos_of_ne_nil hrest.ne_nil
    refine (calcRetLen_cons _ _ _ _).trans ?_
    refine (pairs.hashLoop_bytes hpairs (append_ne_nil_of_right_ne_nil _ hrest.ne_nil)
      (by rw [Nat.zero_add]; omega) (by omega)).trans ?_
    obtain ⟨f, hf⟩ : ∃ f, fuel - pairs.length = f + 1 + 1 := ⟨fuel - pairs.length - 2, by omega⟩
    rw [hf, hashLoop_bytes_append hkey, key.calcRetLen_bytes _ hkey (by omega) (by omega),
      Outcome.ok_bind, ih (by omega) f (by omega)]
    rfl

end Pclsync.Api
