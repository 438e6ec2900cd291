import Pclsync.Api.BuildPass

/-!
# API results

What the two passes over a response do together.

* `Response`: the bytes that are read after a length of 32 bits, and `Response.MemoryBounded`: both
  passes stay in the buffer and in the memory that is allocated.
* `Response.memoryBounded_iff`: they do unless the response ends right after the code of an array or
  a hash, where the loop reads a byte before it checks that there is one.
* `parseResult_bytes`: every encoding of a value gives a result that denotes the value.
-/

namespace Pclsync.Api

open Option List

/-! ## Values and strings -/

mutual

theorem Wire.count_of_value {w : Wire} {strs strs' : List Bytes} {v : Value}
    (h : w.value strs = some (v, strs')) : w.count strs.length = some strs'.length := by
  cases w with
  | str w s =>
    rw [Wire.value] at h
    split_ifs at h with hfits
    cases h
    rw [Wire.count, if_pos hfits, length_append, length_singleton]
  | rstr w id =>
    rw [Wire.value] at h
    split_ifs at h with hfits
    obtain ⟨s, hs, ⟨⟩⟩ := map_eq_some_iff.1 h
    exact if_pos ⟨hfits, (List.getElem?_eq_some_iff.1 hs).1⟩
  | num w n =>
    rw [Wire.value] at h
    split_ifs at h with hfits
    cases h
    exact if_pos hfits
  | bool b =>
    cases h
    rfl
  | data n =>
    rw [Wire.value] at h
    split_ifs at h with hn
    cases h
    exact if_pos hn
  | array items =>
    obtain ⟨⟨vs, strs''⟩, hitems, ⟨⟩⟩ := map_eq_some_iff.1 h
    exact Wires.count_of_value hitems
  | hash pairs =>
    obtain ⟨⟨vs, strs''⟩, hpairs, ⟨⟩⟩ := map_eq_some_iff.1 h
    exact WirePairs.count_of_value hpairs

theorem Wires.count_of_value {items : Wires} {strs strs' : List Bytes} {vs : List Value}
    (h : items.value strs = some (vs, strs')) : items.count strs.length = some strs'.length := by
  cases items with
  | nil =>
    cases h
    rfl
  | cons head tail =>
    obtain ⟨⟨v, strs₁⟩, hhead, h⟩ := bind_eq_some_iff.1 h
    obtain ⟨⟨vs', strs₂⟩, htail, ⟨⟩⟩ := map_eq_some_iff.1 h
    rw [Wires.count, Wire.count_of_value hhead]
    exact Wires.count_of_value htail

theorem WirePairs.count_of_value {pairs : WirePairs} {strs strs' : List Bytes}
    {vs : List (Bytes × Value)} (h : pairs.value strs = some (vs, strs')) :
    pairs.count strs.length = some strs'.length := by
  cases pairs with
  | nil =>
    cases h
    rfl
  | cons key value tail =>
    obtain ⟨⟨k, strs₁⟩, hkey, h⟩ := bind_eq_some_iff.1 h
    rw [WirePairs.count, Wire.count_of_value hkey, bind_some]
    cases k with
    | str s =>
      obtain ⟨⟨v, strs₂⟩, hvalue, h⟩ := bind_eq_some_iff.1 h
      obtain ⟨⟨vs', strs₃⟩, htail, ⟨⟩⟩ := map_eq_some_iff.1 h
      rw [Wire.count_of_value hvalue]
      exact WirePairs.count_of_value htail
    | _ => cases h

end

/-! ## Both passes -/

/-- The bytes of a response, which are read after their number, a `uint32_t`. -/
structure Response where
  data : Bytes
  length_lt : data.length < 2 ^ 32

theorem Out.start_holds (data : Bytes) : (Out.start data).Holds [] := ⟨.nil, fun _ _ => rfl⟩

/-- With the size and the number of strings that are counted, the build pass succeeds on the bytes
    that are consumed, and on all of the buffer. -/
theorem Wire.doParseResult_start {w : Wire} {k fuel : ℕ} (rest : Bytes) (h : w.count 0 = some k)
    (hlen : w.bytes.length < 2 ^ 32) (hfuel : 2 * w.bytes.length + 1 ≤ fuel) :
    ∃ p st, doParseResult w.size k fuel (.start (w.bytes ++ rest)) = some (p, st) ∧
      Built w [] rest (.start (w.bytes ++ rest)) p st := by
  have hk := w.count_eq h
  exact w.doParseResult_bytes h hlen hfuel (Out.start_holds _) rfl (Nat.zero_add _).le hk.ge

/-- The length pass does not read past the end of the buffer; and when it accepts, the build pass
    succeeds on the bytes that it has consumed, with the size and the number of strings that it has
    counted. -/
def Response.MemoryBounded (r : Response) : Prop :=
  match calcRetLen (2 * r.data.length + 1) (In.of r.data 0) with
  | .ok (retlen, s) => ∃ result, doParseResult retlen s.strcnt (2 * r.data.length + 1)
      (.start (r.data.take (r.data.length - s.datalen))) = some result
  | .rejected => True
  | .overrun => False
  | .outOfFuel => False

/-- The passes are memory-bounded just when the response does not end right after the code of an
    array or a hash. -/
theorem Response.memoryBounded_iff (r : Response) : r.MemoryBounded ↔ ¬ Dangling 0 r.data := by
  have hsat := (sat (2 * r.data.length + 1)).1 r.data 0 r.length_lt le_rfl
  constructor
  · intro h hdangling
    rw [MemoryBounded, hdangling.calcRetLen r.length_lt le_rfl] at h
    exact h
  · intro h
    rw [MemoryBounded]
    cases hcalc : calcRetLen (2 * r.data.length + 1) (In.of r.data 0) with
    | ok a =>
      rw [hcalc] at hsat
      obtain ⟨w, rest, k, hdata, hcount, rfl⟩ := hsat
      have hle := congrArg length hdata
      rw [length_append] at hle
      have htake : r.data.take (r.data.length - (In.of rest k).datalen) = w.bytes ++ [] := by
        have hn : r.data.length - (In.of rest k).datalen = w.bytes.length := by
          dsimp only [In.of]
          omega
        rw [hn, hdata, take_left, append_nil]
      have hlt := r.length_lt
      obtain ⟨p, st, hp, -⟩ := Wire.doParseResult_start [] hcount (by omega)
        (show 2 * w.bytes.length + 1 ≤ 2 * r.data.length + 1 by omega)
      dsimp only
      rw [htake]
      exact ⟨_, hp⟩
    | rejected => trivial
    | overrun =>
      rw [hcalc] at hsat
      exact h hsat
    | outOfFuel =>
      rw [hcalc] at hsat
      exact hsat

/-- A response of one byte, the code of an array: the loop reads past its end. -/
theorem not_memoryBounded : ¬ ∀ r : Response, r.MemoryBounded := fun h =>
  h ⟨[17], by decide⟩

/-! ## Round trip -/

/-- Every encoding of a value gives a result that denotes the value, and no other. -/
theorem parseResult_bytes {w : Wire} {v : Value} {strs : List Bytes}
    (h : w.value [] = some (v, strs)) (hlen : w.bytes.length < 2 ^ 32) :
    ∃ p mem, parseResult w.bytes = some (p, mem) ∧ ∀ v', Denotes mem p v' ↔ v' = v := by
  have hcount : w.count 0 = some strs.length := Wire.count_of_value h
  have hcalc := w.calcRetLen_bytes [] hcount hlen le_rfl
  obtain ⟨p, st, hp, hbuilt⟩ := Wire.doParseResult_start [] hcount hlen le_rfl
  rw [append_nil] at hcalc hp
  have hv := (hbuilt.value v strs h).2
  refine ⟨p, st.mem, ?_, fun v' => ⟨fun hv' => hv'.unique hv, fun hv' => hv' ▸ hv⟩⟩
  rw [parseResult, hcalc]
  dsimp only [In.of]
  rw [hp]
  rfl

/-- The hash with one pair, where the key `a` has an array with `a` again and a number of two
    bytes. -/
theorem parseResult_reused : ∃ p mem,
    parseResult [16, 101, 97, 17, 150, 9, 5, 1, 255, 255] = some (p, mem) ∧
      ∀ v', Denotes mem p v' ↔ v' = .hash [([97], .array [.str [97], .num 261])] :=
  let w : Wire := .hash (.cons (.str 0 [97])
    (.array (.cons (.rstr 0 0) (.cons (.num 2 261) .nil))) .nil)
  parseResult_bytes (w := w) rfl (by decide)

end Pclsync.Api
