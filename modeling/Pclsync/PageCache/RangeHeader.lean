import Mathlib.Data.List.Induction
import Mathlib.Data.Vector.Defs
import Pclsync.Decimal

/-!
# The header for the ranges to come

`psync_http_construct_range_next_header` (`ppagecache.c`) writes the ranges after the first one, and
the cookie, into a buffer of 2048 bytes from its end to its beginning.

* A cursor is the buffer and the place of the next byte. A write outside the buffer, or a step
  before its beginning, is an error of the model (`Stop.outside`), which the source does not know.
* `parse_construct`: the function either returns `NULL` or a text in which the ranges after the
  first one are read again, followed by the cookie line; it never writes outside the buffer.
-/

namespace Pclsync.PageCache.RangeHeader

open List hiding Vector

/-- `psync_request_range_t`. -/
structure Range where
  offset : UInt64
  length : UInt64

/-- The buffer, and the place where the next byte is written. -/
structure Cursor where
  buff : List UInt8
  off : ℕ

/-- Why no text is returned. -/
inductive Stop
  /-- The source would write outside the buffer. -/
  | outside
  /-- `NULL` is returned. -/
  | null

/-- `PSYNC_CONSTRUCT_HEADER`: `X-Range-Next:`. -/
def constructHeader : List UInt8 := [88, 45, 82, 97, 110, 103, 101, 45, 78, 101, 120, 116, 58]

/-- `PSYNC_DWLTAG_HEADER`: `Cookie: dwltag=`. -/
def dwltagHeader : List UInt8 :=
  [67, 111, 111, 107, 105, 101, 58, 32, 100, 119, 108, 116, 97, 103, 61]

namespace Cursor

/-- `buff[off--]=x`. -/
def put (c : Cursor) (x : UInt8) : Except Stop Cursor :=
  if c.off < c.buff.length ∧ 0 < c.off then .ok ⟨c.buff.set c.off x, c.off - 1⟩
  else .error .outside

/-- `memcpy(buff+i, l, …)`. -/
def copy (c : Cursor) (i : ℕ) (l : List UInt8) : Except Stop Cursor :=
  if i + l.length ≤ c.buff.length then
    .ok { c with buff := c.buff.take i ++ (l ++ c.buff.drop (i + l.length)) }
  else .error .outside

/-- `off-=n`. -/
def back (c : Cursor) (n : ℕ) : Except Stop Cursor :=
  if n ≤ c.off then .ok { c with off := c.off - n } else .error .outside

/-- The digits of a number, the last one first. -/
def putNumber (c : Cursor) (x : ℕ) : Except Stop Cursor :=
  if x / 10 = 0 then c.put (digitByte (x % 10))
  else (c.put (digitByte (x % 10))).bind fun c => putNumber c (x / 10)
termination_by x
decreasing_by omega

/-- `PSYNC_CONSTRUCT_ADD_NUMBER`. -/
def addNumber (c : Cursor) (x : UInt64) : Except Stop Cursor :=
  if c.off ≤ 24 then .error .null else c.putNumber x.toNat

/-- The cookie line, for a download tag which is neither empty nor too long. -/
def addCookie (c : Cursor) (dwltag : List UInt8) : Except Stop Cursor :=
  if dwltag.length ≤ 40 ∧ 0 < dwltag.length then do
    let c ← c.back (dwltag.length - 1)
    let c ← c.copy c.off dwltag
    let c ← c.back dwltagHeader.length
    let c ← c.copy c.off dwltagHeader
    let c ← c.back 1
    let c ← c.put 10
    c.put 13
  else .ok c

/-- A round of the loop over the ranges. -/
def addRange (c : Cursor) (range : Range) : Except Stop Cursor := do
  let c ← c.addNumber (range.offset + range.length - 1)
  let c ← c.put 45
  let c ← c.addNumber range.offset
  let c ← c.put 32
  c.put 44

/-- The loop, over the ranges from the last one. -/
def addRanges (c : Cursor) : List Range → Except Stop Cursor
  | [] => .ok c
  | range :: l => do
    let c ← c.addRange range
    c.addRanges l

/-- The name of the header, over the last separator, and the text which `psync_strdup` copies. -/
def close (c : Cursor) : Except Stop (List UInt8) :=
  if c.off < constructHeader.length + 1 then .error .null
  else do
    let at_ := c.off - (constructHeader.length + 1) + 3
    let c ← c.copy at_ constructHeader
    .ok ((c.buff.drop at_).takeWhile (· ≠ 0))

end Cursor

/-- `psync_http_construct_range_next_header`, with what the buffer holds at first. -/
def psyncHttpConstructRangeNextHeader (buff : Vector UInt8 2048) (ranges : List Range)
    (dwltag : List UInt8) : Except Stop (List UInt8) := do
  let c ← Cursor.put ⟨buff.toList, 2047⟩ 0
  let c ← c.put 10
  let c ← c.put 13
  let c ← c.addCookie dwltag
  let c ← c.addRanges ranges.tail.reverse
  c.close

/-! ## What the buffer holds -/

theorem ok_bind {α β : Type} (x : α) (f : α → Except Stop β) :
    (Except.ok x >>= f : Except Stop β) = f x := rfl

theorem error_bind {α β : Type} (e : Stop) (f : α → Except Stop β) :
    (Except.error e >>= f : Except Stop β) = .error e := rfl

/-- From `i` on the buffer holds a text. -/
structure At (c : Cursor) (i : ℕ) (text : List UInt8) : Prop where
  length : c.buff.length = 2048
  le : i ≤ 2048
  drop : c.buff.drop i = text

/-- What was written up to the cursor. -/
def Holds (c : Cursor) (text : List UInt8) : Prop := At c (c.off + 1) text

variable {c : Cursor} {text l : List UInt8} {i : ℕ}

theorem At.length_text (h : At c i text) : i + text.length = 2048 := by
  rw [← h.drop, length_drop, h.length, Nat.add_sub_cancel' h.le]

theorem Holds.length_text (h : Holds c text) : c.off + 1 + text.length = 2048 := At.length_text h

theorem Holds.put (h : Holds c text) (hlen : text.length < 2047) (x : UInt8) :
    ∃ c', c.put x = .ok c' ∧ Holds c' (x :: text) := by
  have htext := h.length_text
  have hlt : c.off < c.buff.length := by rw [h.length]; omega
  refine ⟨⟨c.buff.set c.off x, c.off - 1⟩, if_pos ⟨hlt, by omega⟩, ?_, ?_, ?_⟩
  · rw [length_set, h.length]
  · dsimp only
    omega
  · have hoff : c.off - 1 + 1 = c.off := by omega
    dsimp only
    rw [hoff, set_eq_take_append_cons_drop, if_pos hlt,
      drop_left' (length_take_of_le hlt.le), h.drop]

theorem At.copy (h : At c (i + l.length) text) : ∃ c', c.copy i l = .ok c' ∧ c'.off = c.off ∧
    At c' i (l ++ text) := by
  have hle : i + l.length ≤ c.buff.length := by rw [h.length]; exact h.le
  have hlen : (c.buff.take i).length = i := length_take_of_le (by omega)
  refine ⟨⟨c.buff.take i ++ (l ++ c.buff.drop (i + l.length)), c.off⟩, if_pos hle, rfl, ?_, ?_, ?_⟩
  · rw [length_append, hlen, length_append, length_drop, h.length]
    have := h.le
    omega
  · have := h.le
    omega
  · rw [drop_left' hlen, h.drop]

theorem Holds.putNumber {x : ℕ} (h : Holds c text)
    (hlen : (decimal x).length + text.length ≤ 2047) :
    ∃ c', c.putNumber x = .ok c' ∧ Holds c' (decimal x ++ text) := by
  induction x using Nat.strongRecOn generalizing c text with
  | ind x ih =>
    rw [Cursor.putNumber]
    by_cases hx : x < 10
    · rw [decimal_of_lt hx, length_singleton] at hlen
      rw [if_pos (by omega), Nat.mod_eq_of_lt hx, decimal_of_lt hx]
      exact h.put (by omega) _
    · rw [decimal_of_le (Nat.not_lt.1 hx), length_append, length_singleton] at hlen
      obtain ⟨c', hc', h'⟩ := h.put (by omega) (digitByte (x % 10))
      obtain ⟨c'', hc'', h''⟩ := ih (x / 10) (by omega) h' (by rw [length_cons]; omega)
      refine ⟨c'', ?_, ?_⟩
      · rw [if_neg (by omega), hc']
        exact hc''
      · rw [decimal_of_le (Nat.not_lt.1 hx), append_assoc]
        exact h''

/-- There is room for a number, and four bytes are left, or the text is given up. -/
theorem Holds.addNumber (h : Holds c text) (x : UInt64) : c.addNumber x = .error .null ∨
    ∃ c', c.addNumber x = .ok c' ∧ Holds c' (decimal x.toNat ++ text) ∧ 5 ≤ c'.off := by
  have htext := h.length_text
  by_cases hoff : c.off ≤ 24
  · exact .inl (if_pos hoff)
  · have hlen : (decimal x.toNat).length ≤ 20 :=
      length_decimal_le (by omega) (x.toNat_lt.trans (by decide))
    obtain ⟨c', hc', h'⟩ := h.putNumber (x := x.toNat) (by omega)
    have htext' := h'.length_text
    rw [length_append] at htext'
    exact .inr ⟨c', (if_neg hoff).trans hc', h', by omega⟩

/-! ## The text -/

/-- The last byte of a range. -/
def Range.last (range : Range) : UInt64 := range.offset + range.length - 1

/-- A range as it is written. -/
def Range.written (range : Range) : List UInt8 :=
  32 :: (decimal range.offset.toNat ++ 45 :: decimal range.last.toNat)

/-- The ranges as they are written, each after a separator. -/
def listing (ranges : List Range) : List UInt8 := ranges.flatMap fun range => 44 :: range.written

/-- The cookie line. -/
def cookieLine (dwltag : List UInt8) : List UInt8 :=
  if dwltag.length ≤ 40 ∧ 0 < dwltag.length then dwltagHeader ++ (dwltag ++ [13, 10]) else []

theorem Holds.addRange (h : Holds c text) (range : Range) : c.addRange range = .error .null ∨
    ∃ c', c.addRange range = .ok c' ∧ Holds c' (44 :: range.written ++ text) := by
  rw [Cursor.addRange]
  rcases h.addNumber range.last with hnull | ⟨c₁, hc1, h1, hoff1⟩
  · exact .inl (by
      rw [show range.offset + range.length - 1 = range.last from rfl, hnull, error_bind])
  · have htext1 := h1.length_text
    obtain ⟨c₂, hc2, h2⟩ := h1.put (by omega) 45
    rw [show range.offset + range.length - 1 = range.last from rfl, hc1]
    rcases h2.addNumber range.offset with hnull | ⟨c₃, hc3, h3, hoff3⟩
    · exact .inl (by rw [ok_bind, hc2, ok_bind, hnull, error_bind])
    · have htext3 := h3.length_text
      obtain ⟨c₄, hc4, h4⟩ := h3.put (by omega) 32
      obtain ⟨c₅, hc5, h5⟩ := h4.put (by rw [length_cons]; omega) 44
      refine .inr ⟨c₅, ?_, ?_⟩
      · rw [ok_bind, hc2, ok_bind, hc3, ok_bind, hc4, ok_bind, hc5]
      · simpa [Range.written, append_assoc] using h5

theorem listing_append_singleton (ranges : List Range) (range : Range) :
    listing (ranges ++ [range]) = listing ranges ++ 44 :: range.written := by
  rw [listing, flatMap_append, flatMap_singleton]
  rfl

theorem Holds.addRanges (h : Holds c text) (ranges : List Range) :
    c.addRanges ranges.reverse = .error .null ∨
      ∃ c', c.addRanges ranges.reverse = .ok c' ∧ Holds c' (listing ranges ++ text) := by
  -- From the last range on, with the text in front of which it is written.
  induction ranges using List.reverseRecOn generalizing c text with
  | nil => exact .inr ⟨c, rfl, h⟩
  | append_singleton ranges range ih =>
    rw [reverse_append, reverse_singleton, singleton_append]
    rcases h.addRange range with hnull | ⟨c₁, hc1, h1⟩
    · exact .inl (by rw [Cursor.addRanges, hnull, error_bind])
    · rw [Cursor.addRanges, hc1, ok_bind, listing_append_singleton, append_assoc]
      exact ih h1

/-- The cookie line, between the end of the header and the end of the text. -/
theorem Holds.addCookie (h : Holds c [13, 10, 0]) (dwltag : List UInt8) :
    ∃ c', c.addCookie dwltag = .ok c' ∧ Holds c' ([13, 10] ++ (cookieLine dwltag ++ [0])) := by
  by_cases htag : dwltag.length ≤ 40 ∧ 0 < dwltag.length
  · have hoff : c.off = 2044 := Nat.add_right_cancel (m := 4) h.length_text
    have hback : ∀ (c : Cursor) n, n ≤ c.off → c.back n = .ok { c with off := c.off - n } :=
      fun c n hn => if_pos hn
    have hat : At c (2044 - (dwltag.length - 1) + dwltag.length) [13, 10, 0] := by
      rw [show 2044 - (dwltag.length - 1) + dwltag.length = c.off + 1 by omega]
      exact h
    -- The tag, and its name before it.
    obtain ⟨c₂, hc2, hoff2, h2⟩ := At.copy (c := { c with off := 2044 - (dwltag.length - 1) })
      (l := dwltag) (i := 2044 - (dwltag.length - 1)) ⟨hat.length, hat.le, hat.drop⟩
    have hat2 : At c₂ (2044 - (dwltag.length - 1) - 15 + dwltagHeader.length)
        (dwltag ++ [13, 10, 0]) := by
      rw [show 2044 - (dwltag.length - 1) - 15 + dwltagHeader.length =
        2044 - (dwltag.length - 1) - 15 + 15 from rfl, Nat.sub_add_cancel (by omega)]
      exact h2
    obtain ⟨c₄, hc4, hoff4, h4⟩ :=
      At.copy (c := { c₂ with off := 2044 - (dwltag.length - 1) - 15 })
        (l := dwltagHeader) (i := 2044 - (dwltag.length - 1) - 15)
        ⟨hat2.length, hat2.le, hat2.drop⟩
    have hholds : Holds { c₄ with off := 2044 - (dwltag.length - 1) - 15 - 1 }
        (dwltagHeader ++ (dwltag ++ [13, 10, 0])) := by
      have hplace : 2044 - (dwltag.length - 1) - 15 - 1 + 1 = 2044 - (dwltag.length - 1) - 15 := by
        omega
      exact ⟨h4.length, by dsimp only; omega, by dsimp only; rw [hplace]; exact h4.drop⟩
    have hlen : (dwltagHeader ++ (dwltag ++ [13, 10, 0])).length < 2000 := by
      rw [length_append, length_append, show dwltagHeader.length = 15 from rfl,
        show ([13, 10, 0] : List UInt8).length = 3 from rfl]
      omega
    obtain ⟨c₆, hc6, h6⟩ := hholds.put (by omega) 10
    obtain ⟨c₇, hc7, h7⟩ := h6.put (by rw [length_cons]; omega) 13
    have hroom2 : dwltagHeader.length ≤ c₂.off := by
      rw [hoff2]
      show 15 ≤ 2044 - (dwltag.length - 1)
      omega
    have hroom4 : 1 ≤ c₄.off := by
      rw [hoff4]
      show 1 ≤ 2044 - (dwltag.length - 1) - 15
      omega
    refine ⟨c₇, ?_, ?_⟩
    · rw [Cursor.addCookie, if_pos htag, hback c _ (by omega), ok_bind, hoff]
      dsimp only
      rw [hc2, ok_bind, hback c₂ _ hroom2, ok_bind, hoff2]
      dsimp only
      rw [show dwltagHeader.length = 15 from rfl, hc4, ok_bind, hback c₄ _ hroom4, ok_bind, hoff4]
      dsimp only
      rw [hc6, ok_bind, hc7]
    · rw [cookieLine, if_pos htag]
      simpa [append_assoc] using h7
  · exact ⟨c, if_neg htag, by rw [cookieLine, if_neg htag]; exact h⟩

/-- The text which is returned, for the part of the buffer after the first separator. -/
theorem Holds.close (h : Holds c (44 :: text)) : c.close = .error .null ∨
    c.close = .ok ((constructHeader ++ text).takeWhile (· ≠ 0)) := by
  have htext := h.length_text
  by_cases hoff : c.off < constructHeader.length + 1
  · exact .inl (if_pos hoff)
  · right
    have hoff' : 14 ≤ c.off := Nat.not_lt.1 hoff
    have hat : At c (c.off - (constructHeader.length + 1) + 3 + constructHeader.length) text := by
      have hplace : c.off - (constructHeader.length + 1) + 3 + constructHeader.length =
          c.off + 1 + 1 := by
        show c.off - 14 + 3 + 13 = c.off + 1 + 1
        omega
      rw [length_cons] at htext
      rw [hplace]
      refine ⟨h.length, by omega, ?_⟩
      rw [← drop_drop, h.drop, drop_one, tail_cons]
    obtain ⟨c', hc', -, h'⟩ := At.copy hat
    rw [Cursor.close, if_neg hoff]
    dsimp only
    rw [hc', ok_bind, h'.drop]

/-! ## Reading the header -/

/-- A range: a blank, the first byte, a dash and the last byte. -/
def parseRange : List UInt8 → Option ((ℕ × ℕ) × List UInt8)
  | 32 :: l => (parseDecimal l).bind fun first =>
      match first.2 with
      | 45 :: l => (parseDecimal l).map fun last => ((first.1, last.1), last.2)
      | _ => none
  | _ => none

/-- Ranges with commas between them, up to the end of the line. -/
def parseRanges : ℕ → List UInt8 → Option (List (ℕ × ℕ) × List UInt8)
  | 0, _ => none
  | n + 1, l => (parseRange l).bind fun range =>
      match range.2 with
      | 44 :: l => (parseRanges n l).map fun ranges => (range.1 :: ranges.1, ranges.2)
      | 13 :: 10 :: l => some ([range.1], l)
      | _ => none

/-- The ranges of an `X-Range-Next` header, and what follows it. -/
def parseRangeNext (l : List UInt8) : Option (List (ℕ × ℕ) × List UInt8) :=
  if l.take constructHeader.length = constructHeader then
    parseRanges l.length (l.drop constructHeader.length)
  else none

theorem parseRange_written (range : Range) (hl : ∀ b ∈ l.head?, isDigitByte b = false) :
    parseRange (range.written ++ l) = some ((range.offset.toNat, range.last.toNat), l) := by
  rw [Range.written, cons_append, append_assoc, cons_append]
  have hdash : ∀ b ∈ (45 :: (decimal range.last.toNat ++ l)).head?, isDigitByte b = false := by
    rintro b hb
    cases hb
    decide
  show (parseDecimal (decimal range.offset.toNat ++ 45 :: (decimal range.last.toNat ++ l))).bind _ =
    _
  rw [parseDecimal_append _ hdash]
  show (parseDecimal (decimal range.last.toNat ++ l)).map _ = _
  rw [parseDecimal_append _ hl]
  rfl

theorem parseRanges_listing (range : Range) (ranges : List Range) {n : ℕ} (hn : ranges.length < n) :
    parseRanges n (range.written ++ (listing ranges ++ 13 :: 10 :: l)) =
      some ((range :: ranges).map fun r => (r.offset.toNat, r.last.toNat), l) := by
  induction ranges generalizing range n with
  | nil =>
    obtain ⟨n, rfl⟩ := Nat.exists_eq_succ_of_ne_zero (Nat.ne_of_gt hn)
    have hhead : ∀ b ∈ (listing [] ++ 13 :: 10 :: l).head?, isDigitByte b = false := by
      rintro b hb
      cases hb
      decide
    rw [parseRanges, parseRange_written _ hhead]
    rfl
  | cons r ranges ih =>
    obtain ⟨n, rfl⟩ := Nat.exists_eq_succ_of_ne_zero (Nat.ne_of_gt (Nat.zero_lt_of_lt hn))
    have hlisting : listing (r :: ranges) = 44 :: (r.written ++ listing ranges) := rfl
    have hhead : ∀ b ∈ (listing (r :: ranges) ++ 13 :: 10 :: l).head?, isDigitByte b = false := by
      rintro b hb
      cases hb
      decide
    rw [parseRanges, parseRange_written _ hhead, hlisting, cons_append, append_assoc]
    show (parseRanges n (r.written ++ (listing ranges ++ 13 :: 10 :: l))).map _ = _
    rw [ih r (Nat.lt_of_succ_lt_succ hn)]
    rfl

/-! ## The result -/

theorem ne_zero_of_mem_decimal {n : ℕ} {b : UInt8} (h : b ∈ decimal n) : b ≠ 0 := by
  rintro rfl
  exact absurd (isDigitByte_of_mem_decimal h) (by decide)

theorem ne_zero_of_mem_written {range : Range} {b : UInt8} (h : b ∈ range.written) : b ≠ 0 := by
  rw [Range.written, mem_cons, mem_append, mem_cons] at h
  rcases h with rfl | h | rfl | h
  · decide
  · exact ne_zero_of_mem_decimal h
  · decide
  · exact ne_zero_of_mem_decimal h

theorem ne_zero_of_mem_listing {ranges : List Range} {b : UInt8} (h : b ∈ listing ranges) :
    b ≠ 0 := by
  obtain ⟨range, -, h⟩ := mem_flatMap.1 h
  rcases mem_cons.1 h with rfl | h
  · decide
  · exact ne_zero_of_mem_written h

theorem length_le_listing (ranges : List Range) : ranges.length ≤ (listing ranges).length := by
  induction ranges with
  | nil => exact Nat.zero_le _
  | cons range ranges ih =>
    rw [listing, flatMap_cons, length_append, length_cons, length_cons]
    rw [listing] at ih
    omega

/-- A text in memory ends at its first zero. -/
theorem takeWhile_append_zero (l : List UInt8) :
    (l ++ [0]).takeWhile (· ≠ 0) = l.takeWhile (· ≠ 0) := by
  rw [takeWhile_append]
  split
  · rename_i h
    have hpre : l.takeWhile (· ≠ 0) <+: l := takeWhile_prefix _
    rw [hpre.eq_of_length h, takeWhile_cons_of_neg (by simp), append_nil]
  · rfl

/-- The function returns `NULL`, or a header which lists the ranges after the first one in their
    order, followed by the cookie line; it does not write outside the buffer. -/
theorem parse_construct (buff : Vector UInt8 2048) (first second : Range) (rest : List Range)
    (dwltag : List UInt8) :
    psyncHttpConstructRangeNextHeader buff (first :: second :: rest) dwltag = .error .null ∨
      ∃ text, psyncHttpConstructRangeNextHeader buff (first :: second :: rest) dwltag = .ok text ∧
        parseRangeNext text = some
          ((second :: rest).map fun range => (range.offset.toNat, range.last.toNat),
            (cookieLine dwltag).takeWhile (· ≠ 0)) := by
  have hbuff : Holds ⟨buff.toList, 2047⟩ [] :=
    ⟨Vector.length_toList, Nat.le_refl _, drop_of_length_le (Vector.length_toList).le⟩
  obtain ⟨c₁, hc1, h1⟩ := hbuff.put (by decide) 0
  obtain ⟨c₂, hc2, h2⟩ := h1.put (by decide) 10
  obtain ⟨c₃, hc3, h3⟩ := h2.put (by decide) 13
  obtain ⟨c₄, hc4, h4⟩ := h3.addCookie dwltag
  have hrun : psyncHttpConstructRangeNextHeader buff (first :: second :: rest) dwltag =
      c₄.addRanges (second :: rest).reverse >>= Cursor.close := by
    rw [psyncHttpConstructRangeNextHeader, hc1, ok_bind, hc2, ok_bind, hc3, ok_bind, hc4, ok_bind]
    rfl
  rw [hrun]
  rcases h4.addRanges (second :: rest) with hnull | ⟨c₅, hc5, h5⟩
  · exact .inl (by rw [hnull, error_bind])
  · rw [hc5, ok_bind]
    have hlisting : listing (second :: rest) = 44 :: (second.written ++ listing rest) := rfl
    rw [hlisting, cons_append] at h5
    refine h5.close.imp_right fun hclose => ⟨_, hclose, ?_⟩
    -- The text up to the cookie line has no zero.
    have htake : (constructHeader ++ (second.written ++ listing rest ++
        ([13, 10] ++ (cookieLine dwltag ++ [0])))).takeWhile (· ≠ 0) =
        constructHeader ++ (second.written ++ (listing rest ++
          13 :: 10 :: (cookieLine dwltag).takeWhile (· ≠ 0))) := by
      have hne : ∀ b ∈ constructHeader ++ (second.written ++ (listing rest ++ [13, 10])),
          decide (b ≠ 0) = true := by
        intro b hb
        rw [mem_append, mem_append, mem_append] at hb
        rw [decide_eq_true_iff]
        rcases hb with hb | hb | hb | hb
        · rintro rfl
          revert hb
          decide
        · exact ne_zero_of_mem_written hb
        · exact ne_zero_of_mem_listing hb
        · rintro rfl
          revert hb
          decide
      rw [← takeWhile_append_zero (cookieLine dwltag)]
      have h := @takeWhile_append_of_pos _ _ _ (cookieLine dwltag ++ [0]) hne
      simpa only [append_assoc, cons_append, nil_append] using h
    rw [htake, parseRangeNext, if_pos (take_left' rfl), drop_left' rfl]
    refine parseRanges_listing second rest ?_
    have := length_le_listing rest
    simp only [length_append, length_cons, show constructHeader.length = 13 from rfl]
    omega

end Pclsync.PageCache.RangeHeader
