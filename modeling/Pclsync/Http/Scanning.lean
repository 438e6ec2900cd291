import Pclsync.Http.Header

/-!
# The scan of a header

The text is what is received, in which lines are changed up to the place of the scan, and what will
be read; reading more does not change it (`At`). A round of the scan goes over one byte, or over
those from a colon to the value, which have to be received.

* `At.line`, `At.headers`: the scan over a header, and over all of them.
* `Response.Clear.stated`: in whatever reads a response comes, the functions find what its headers
  state and where its body begins, without the use of a byte that is not received, if it is one of
  those that are scanned as they are meant.
* `not_stated`: a response which is cut after a colon.
-/

namespace Pclsync.Http

open List Option

/-! ## Reading from memory -/

variable {byte : ℕ → UInt8} {p : ℕ} {l : List UInt8}

/-- The bytes of `l` are in memory from `p` on. -/
def Holds (byte : ℕ → UInt8) (p : ℕ) (l : List UInt8) : Prop :=
  ∀ i b, l[i]? = some b → byte (p + i) = b

theorem Holds.head {b : UInt8} (h : Holds byte p (b :: l)) : byte p = b := h 0 b rfl

theorem Holds.tail {b : UInt8} (h : Holds byte p (b :: l)) : Holds byte (p + 1) l := by
  intro i c hc
  rw [Nat.add_assoc, Nat.add_comm 1]
  exact h (i + 1) c hc

theorem Holds.right {l' : List UInt8} (h : Holds byte p (l ++ l')) :
    Holds byte (p + l.length) l' := by
  intro i b hb
  rw [Nat.add_assoc]
  refine h _ b ?_
  rw [getElem?_append_right (Nat.le_add_right _ _), Nat.add_sub_cancel_left, hb]

theorem skipSpace_eq {b : UInt8} {n : ℕ} (hl : ∀ b ∈ l, isspace b = true)
    (hb : isspace b = false) (h : Holds byte p (l ++ [b])) (hn : l.length < n) :
    skipSpace byte n p = p + l.length := by
  induction l generalizing n p with
  | nil =>
    cases n with
    | zero => cases hn
    | succ n =>
      rw [skipSpace, h.head, hb, if_neg Bool.false_ne_true]
      rfl
  | cons c l ih =>
    cases n with
    | zero => cases hn
    | succ n =>
      rw [skipSpace, Holds.head h, if_pos (hl c mem_cons_self),
        ih (fun b hb => hl b (mem_cons_of_mem c hb)) h.tail (Nat.lt_of_succ_lt_succ hn),
        length_cons, Nat.add_assoc, Nat.add_comm 1]

/-- A text of other bytes than zero, before a zero, is compared within itself and the zero. -/
theorem memcmp_eq {lit : List UInt8} (hlit : 0 ∉ lit) (h : Holds byte p (l ++ [0])) :
    (memcmp byte p lit).1 = lit.isPrefixOf l ∧ (memcmp byte p lit).2 ≤ p + l.length + 1 := by
  induction lit generalizing l p with
  | nil =>
    exact ⟨rfl, (by omega : p ≤ p + l.length + 1)⟩
  | cons b lit ih =>
    cases l with
    | nil =>
      have hb : byte p ≠ b := by
        rw [h.head]
        rintro rfl
        exact hlit mem_cons_self
      rw [memcmp, if_neg hb]
      exact ⟨rfl, Nat.le_refl _⟩
    | cons c l =>
      have hc : byte p = c := Holds.head h
      rw [memcmp, hc, isPrefixOf]
      by_cases hcb : c = b
      · obtain ⟨heq, hle⟩ := ih (fun hm => hlit (mem_cons_of_mem b hm)) h.tail
        rw [if_pos hcb, heq, hcb, beq_self_eq_true, Bool.true_and, length_cons]
        exact ⟨rfl, by omega⟩
      · rw [if_neg hcb, beq_eq_false_iff_ne.2 (Ne.symm hcb), Bool.false_and, length_cons]
        exact ⟨rfl, (by omega : p + 1 ≤ p + (l.length + 1) + 1)⟩

theorem digits_eq {n : ℕ} (h : Holds byte p (l ++ [0])) (hn : l.length < n) :
    digits byte n p = l.takeWhile isDigitByte := by
  induction l generalizing n p with
  | nil =>
    cases n with
    | zero => cases hn
    | succ n =>
      rw [digits, h.head]
      rfl
  | cons c l ih =>
    cases n with
    | zero => cases hn
    | succ n =>
      have hc : byte p = c := Holds.head h
      rw [digits, hc, takeWhile_cons, ih h.tail (Nat.lt_of_succ_lt_succ hn)]

/-! ## The place of the scan -/

variable {r : Response} {s : Scan} {done todo : List UInt8} {key : ℕ} {val : Option ℕ}
  {newline : Bool} {clen : ℤ} {keepalive : UInt32}

/-- The scan is after `done` and before `todo`, in a line from `key` on, of which the value is at
    `val` when its colon is scanned. -/
structure At (r : Response) (s : Scan) (done todo : List UInt8) (key : ℕ) (val : Option ℕ)
    (newline : Bool) (clen : ℤ) (keepalive : UInt32) : Prop where
  text : s.received ++ s.reads.flatten = done ++ todo
  le : done.length ≤ s.received.length
  ptr : s.ptr = done.length
  key : s.key = key
  isval : s.isval = val.isSome
  val : ∀ v ∈ val, s.val = v
  lch : s.lch = 10 ↔ newline = true
  clen : s.clen = clen
  keepalive : s.keepalive = keepalive
  found : s.found = false
  outside : s.outside = false
  reads : ∃ reads, r.reads = reads ++ s.reads ∧ s.received.length = reads.flatten.length

/-- The loop comes from one state to another, in as many rounds and reads as it goes forward. -/
def Goes (s t : Scan) : Prop :=
  ∃ n, (∀ k, headerLoop (n + k) s = headerLoop k t) ∧
    n + s.ptr + t.reads.length ≤ t.ptr + s.reads.length

theorem Goes.refl (s : Scan) : Goes s s :=
  ⟨0, fun k => by rw [Nat.zero_add], by omega⟩

theorem Goes.trans {s t u : Scan} (h : Goes s t) (h' : Goes t u) : Goes s u := by
  obtain ⟨n, hn, hle⟩ := h
  obtain ⟨m, hm, hle'⟩ := h'
  refine ⟨n + m, fun k => ?_, by omega⟩
  rw [Nat.add_assoc, hn, hm]

theorem goes_iterate (hfound : s.found = false) (hlt : s.ptr < s.received.length)
    (hptr : s.ptr < s.iterate.ptr) (hreads : s.iterate.reads = s.reads) : Goes s s.iterate := by
  refine ⟨1, fun k => ?_, by rw [hreads]; omega⟩
  rw [Nat.add_comm, headerLoop, hfound, if_neg Bool.false_ne_true, if_pos hlt]

theorem At.byte_eq {i : ℕ} {b : UInt8} (h : At r s done todo key val newline clen keepalive)
    (hi : i < s.received.length) (hb : (done ++ todo)[i]? = some b) : s.byte i = b := by
  rw [← h.text, getElem?_append_left hi] at hb
  rw [Scan.byte, hb, getD_some]

/-- The next byte is received, after a read where it is not. -/
theorem At.available {b : UInt8} (h : At r s done (b :: todo) key val newline clen keepalive) :
    ∃ t, Goes s t ∧ At r t done (b :: todo) key val newline clen keepalive ∧
      done.length < t.received.length := by
  by_cases hlt : done.length < s.received.length
  · exact ⟨s, .refl s, h, hlt⟩
  · have hlen := congrArg length h.text
    rw [length_append, length_append, length_cons] at hlen
    obtain ⟨reads, hreads, hreceived⟩ := h.reads
    have hfit := r.reads_fit
    rw [hreads, flatten_append, length_append] at hfit
    have hle := h.le
    -- what is not received is still to be read
    cases hs : s.reads with
    | nil =>
      rw [hs] at hlen
      exact absurd hlen (by rw [flatten_nil, length_nil]; omega)
    | cons chunk rest =>
      have hne : chunk ≠ [] := r.reads_ne chunk (by rw [hreads, hs]; simp)
      have hpos := length_pos_iff.2 hne
      have hmore : s.readMore = some { s with received := s.received ++ chunk, reads := rest } := by
        rw [Scan.readMore, if_neg (by omega), hs]
        exact if_neg hne
      refine ⟨{ s with received := s.received ++ chunk, reads := rest }, ⟨1, fun k => ?_, ?_⟩, ?_,
        ?_⟩
      · rw [Nat.add_comm, headerLoop, if_neg (ne_true_of_eq_false h.found),
          if_neg (by rw [h.ptr]; exact hlt), hmore, bind_some]
      · rw [hs, length_cons]
        dsimp only
        omega
      · exact { h with
          text := by
            rw [← h.text, hs, flatten_cons, append_assoc]
          le := by
            rw [length_append]
            omega
          reads := ⟨reads ++ [chunk], by rw [hreads, hs, append_assoc]; rfl, by
            rw [length_append, hreceived, flatten_append, length_append, flatten_singleton]⟩ }
      · rw [length_append]
        omega

/-! ## Rounds over one byte -/

/-- A byte of the text that is received is replaced. -/
theorem put_text {received rest : List UInt8} {b : UInt8} (v : UInt8)
    (h : received ++ rest = done ++ b :: todo) (hlt : done.length < received.length) :
    received.set done.length v ++ rest = done ++ v :: todo := by
  rw [← set_append_left _ _ hlt, h, set_append_right _ _ (Nat.le_refl _), Nat.sub_self]
  rfl

theorem At.byte_next {b : UInt8} (h : At r s done (b :: todo) key val newline clen keepalive)
    (hlt : done.length < s.received.length) : s.byte s.ptr = b := by
  rw [h.ptr]
  refine h.byte_eq hlt ?_
  rw [getElem?_append_right (Nat.le_refl _), Nat.sub_self, getElem?_cons_zero]

theorem At.next {b : UInt8} {t : Scan} (v : UInt8) {newline' : Bool}
    (h : At r s done (b :: todo) key val newline clen keepalive)
    (hlt : done.length < s.received.length) (hlch : t.lch = 10 ↔ newline' = true)
    (ht : t = { s.put s.ptr v with lch := t.lch, ptr := s.ptr + 1 }) :
    At r t (done ++ [v]) todo key val newline' clen keepalive := by
  rw [ht]
  exact { h with
    text := by
      rw [append_assoc, singleton_append, ← put_text v h.text hlt, ← h.ptr]
      rfl
    le := by
      rw [length_append, length_singleton]
      exact (@length_set _ s.received _ _).symm ▸ hlt
    ptr := by
      rw [length_append, length_singleton, ← h.ptr]
    lch := hlch
    reads := by
      obtain ⟨reads, hreads, hreceived⟩ := h.reads
      exact ⟨reads, hreads, length_set.trans hreceived⟩ }

/-- A byte which is neither a line end nor the colon after a name. -/
theorem At.simple {b : UInt8} (h : At r s done (b :: todo) key val newline clen keepalive)
    (h10 : b ≠ 10) (h13 : b ≠ 13) (h58 : b ≠ 58 ∨ val.isSome = true) :
    ∃ t, Goes s t ∧ At r t (done ++ [tolower b]) todo key val false clen keepalive := by
  obtain ⟨t, hgoes, hat, hlt⟩ := h.available
  have hb := hat.byte_next hlt
  have hcolon : ¬ (b = 58 ∧ t.isval = false) := by
    rintro ⟨rfl, hval⟩
    rw [hat.isval] at hval
    rcases h58 with h58 | h58
    · exact h58 rfl
    · rw [hval] at h58
      exact Bool.false_ne_true h58
  have hit : t.iterate = { t.put t.ptr (tolower b) with lch := b, ptr := t.ptr + 1 } := by
    rw [Scan.iterate, hb]
    exact (if_neg h13).trans ((if_neg h10).trans (if_neg hcolon))
  refine ⟨t.iterate, hgoes.trans (goes_iterate hat.found (hat.ptr ▸ hlt) ?_ ?_), ?_⟩
  · rw [hit]
    exact Nat.lt_succ_self _
  · rw [hit]
    rfl
  · refine hat.next (tolower b) hlt ?_ (by rw [hit])
    rw [hit]
    exact ⟨fun h => absurd h h10, fun h => by cases h⟩

theorem At.cr (h : At r s done (13 :: todo) key val newline clen keepalive) :
    ∃ t, Goes s t ∧ At r t (done ++ [0]) todo key val newline clen keepalive := by
  obtain ⟨t, hgoes, hat, hlt⟩ := h.available
  have hit : t.iterate = { t.put t.ptr 0 with ptr := t.ptr + 1 } := by
    rw [Scan.iterate, hat.byte_next hlt]
    exact if_pos rfl
  refine ⟨t.iterate, hgoes.trans (goes_iterate hat.found (hat.ptr ▸ hlt) ?_ ?_), ?_⟩
  · rw [hit]
    exact Nat.lt_succ_self _
  · rw [hit]
    rfl
  · refine hat.next 0 hlt ?_ (by rw [hit])
    rw [hit]
    exact hat.lch

theorem At.blank (h : At r s done (10 :: todo) key val true clen keepalive) :
    ∃ t, Goes s t ∧ t.found = true ∧ t.ptr = done.length + 1 ∧ t.clen = clen ∧
      t.keepalive = keepalive ∧ t.outside = false := by
  obtain ⟨t, hgoes, hat, hlt⟩ := h.available
  have hit : t.iterate = { t with ptr := t.ptr + 1, found := true } := by
    rw [Scan.iterate, hat.byte_next hlt]
    exact (if_neg (by decide)).trans ((if_pos rfl).trans (if_pos (hat.lch.2 rfl)))
  refine ⟨t.iterate, hgoes.trans (goes_iterate hat.found (hat.ptr ▸ hlt) ?_ ?_), ?_⟩
  · rw [hit]
    exact Nat.lt_succ_self _
  · rw [hit]
  · rw [hit]
    exact ⟨rfl, congrArg (· + 1) hat.ptr, hat.clen, hat.keepalive, hat.outside⟩

theorem At.word {word : List UInt8} (h : At r s done (word ++ todo) key val newline clen keepalive)
    (hword : ∀ b ∈ word, b ≠ 10 ∧ b ≠ 13 ∧ (b ≠ 58 ∨ val.isSome = true)) :
    ∃ t newline', Goes s t ∧ (word ≠ [] → newline' = false) ∧
      At r t (done ++ word.map tolower) todo key val newline' clen keepalive ∧
        (word = [] → newline' = newline) := by
  induction word generalizing s done newline with
  | nil =>
    exact ⟨s, newline, .refl s, fun hne => absurd rfl hne, by rwa [map_nil, append_nil],
      fun _ => rfl⟩
  | cons b word ih =>
    obtain ⟨h10, h13, h58⟩ := hword b mem_cons_self
    obtain ⟨t, hgoes, hat⟩ := h.simple h10 h13 h58
    obtain ⟨u, newline', hgoes', hne, hat', heq⟩ := ih hat fun c hc =>
      hword c (mem_cons_of_mem b hc)
    refine ⟨u, newline', hgoes.trans hgoes', fun _ => ?_, ?_, fun hnil => by cases hnil⟩
    · cases word with
      | nil => exact heq rfl
      | cons c word => exact hne (cons_ne_nil c word)
    · rwa [append_assoc, singleton_append, ← map_cons] at hat'

/-! ## The colon -/

theorem At.holds {l l' : List UInt8} (rest : List UInt8)
    (h : At r s done todo key val newline clen keepalive)
    (hl : done ++ todo = l ++ l' ++ rest) (hle : (l ++ l').length ≤ s.received.length) :
    Holds s.byte l.length l' := by
  intro i b hb
  obtain ⟨hi, _⟩ := List.getElem?_eq_some_iff.1 hb
  rw [length_append] at hle
  refine h.byte_eq (by omega) ?_
  rw [hl, append_assoc, getElem?_append_right (Nat.le_add_right _ _),
    Nat.add_sub_cancel_left, getElem?_append_left hi, hb]

/-- The colon after a name, and the bytes up to the first one of the value, if these are received
    with it. -/
theorem At.colon {space : List UInt8} {v : UInt8}
    (h : At r s done (58 :: (space ++ v :: todo)) key none newline clen keepalive)
    (hspace : ∀ b ∈ space, isspace b = true) (hv : isspace v = false)
    (hreads : ∀ reads rest, r.reads = reads ++ rest → reads.flatten.length ≤ done.length ∨
      done.length + 1 + space.length < reads.flatten.length) :
    ∃ t, Goes s t ∧ At r t (done ++ 0 :: (space ++ [tolower v])) todo key
      (some (done.length + 1 + space.length)) false clen keepalive := by
  obtain ⟨t, hgoes, hat, hlt⟩ := h.available
  obtain ⟨reads, hr, hreceived⟩ := hat.reads
  have hlt' : done.length + 1 + space.length < t.received.length := by
    rcases hreads reads t.reads hr with hle | hlt' <;> omega
  have hfit := r.reads_fit
  rw [hr, flatten_append, length_append] at hfit
  -- the value begins behind the whitespace
  have hskip : skipSpace t.byte respBuffer (t.ptr + 1) = done.length + 1 + space.length := by
    have hholds : Holds t.byte (done ++ [58]).length (space ++ [v]) := by
      refine hat.holds todo (by simp) ?_
      simp only [length_append, length_cons, length_nil]
      omega
    rw [length_append, length_singleton, ← hat.ptr] at hholds
    rw [skipSpace_eq hspace hv hholds (by omega), hat.ptr]
  have hvalue : t.byte (done.length + 1 + space.length) = v := by
    refine hat.byte_eq hlt' ?_
    have htext : done ++ 58 :: (space ++ v :: todo) = (done ++ 58 :: space) ++ v :: todo := by simp
    have hlen : (done ++ 58 :: space).length = done.length + 1 + space.length := by
      rw [length_append, length_cons]
      omega
    rw [htext, ← hlen, getElem?_append_right (Nat.le_refl _), Nat.sub_self, getElem?_cons_zero]
  have hit : t.iterate = { ((t.put t.ptr 0).touch (done.length + 1 + space.length + 1)).put
          (done.length + 1 + space.length) (tolower v) with
        val := done.length + 1 + space.length, isval := true, lch := 58,
        ptr := done.length + 1 + space.length + 1 } := by
    rw [Scan.iterate, hat.byte_next hlt]
    dsimp only
    rw [hskip, hvalue]
    exact (if_neg (by decide)).trans ((if_neg (by decide)).trans (if_pos ⟨rfl, hat.isval⟩))
  refine ⟨t.iterate, hgoes.trans (goes_iterate hat.found (hat.ptr ▸ hlt) ?_ ?_), ?_⟩
  · rw [hit, hat.ptr]
    exact (by omega : done.length < done.length + 1 + space.length + 1)
  · rw [hit]
    rfl
  · have htouch : decide ((t.put t.ptr 0).received.length < done.length + 1 + space.length + 1) =
        false := decide_eq_false (by rw [Scan.put, length_set]; omega)
    have hput := put_text 0 hat.text hlt
    rw [hit]
    exact { hat with
      text := by
        have htext : t.received.set done.length 0 ++ t.reads.flatten =
            (done ++ 0 :: space) ++ v :: todo := by
          rw [hput, append_assoc, cons_append]
        have hset := put_text (tolower v) htext (by
          rw [length_set, length_append, length_cons]
          omega)
        have hlen : (done ++ 0 :: space).length = done.length + 1 + space.length := by
          rw [length_append, length_cons]
          omega
        rw [hlen] at hset
        show ((t.received.set t.ptr 0).set _ _) ++ t.reads.flatten = _
        rw [hat.ptr, hset]
        simp
      le := by
        show _ ≤ ((t.received.set _ _).set _ _).length
        rw [length_set, length_set]
        simp only [length_append, length_cons, length_nil]
        omega
      ptr := by
        simp only [length_append, length_cons, length_nil]
        omega
      isval := rfl
      val := fun w hw => some.inj hw
      lch := ⟨fun h => absurd h (by decide : ¬ (58 : UInt8) = 10), fun h => by cases h⟩
      outside := by
        show (t.outside || _) = false
        rw [htouch, hat.outside, Bool.or_false]
      reads := ⟨reads, hr, by
        show ((t.received.set _ _).set _ _).length = _
        rw [length_set, length_set, hreceived]⟩ }

/-! ## Line ends -/

theorem isDigitByte_tolower (b : UInt8) : isDigitByte (tolower b) = isDigitByte b := by
  rw [tolower]
  split
  · rename_i h
    obtain ⟨h1, h2⟩ := h
    have h1 : 65 ≤ b.toNat := h1
    have h2 : b.toNat ≤ 90 := h2
    have hadd : (b + 32).toNat = b.toNat + 32 := by
      exact Nat.mod_eq_of_lt (by omega : b.toNat + 32 < 256)
    have hle : ¬ (b + 32) ≤ 57 := fun h => by
      have h := UInt8.le_iff_toNat_le.1 h
      rw [hadd] at h
      have h : b.toNat + 32 ≤ 57 := h
      omega
    have hle' : ¬ b ≤ 57 := fun h => by
      have h : b.toNat ≤ 57 := UInt8.le_iff_toNat_le.1 h
      omega
    rw [isDigitByte, isDigitByte, decide_eq_false hle, decide_eq_false hle', Bool.and_false,
      Bool.and_false]
  · rfl

theorem tolower_of_isDigitByte {b : UInt8} (h : isDigitByte b = true) : tolower b = b := by
  rw [isDigitByte, Bool.and_eq_true, decide_eq_true_iff, decide_eq_true_iff] at h
  have hle : b.toNat ≤ 57 := UInt8.le_iff_toNat_le.1 h.2
  refine if_neg fun hb => ?_
  have hge : 65 ≤ b.toNat := UInt8.le_iff_toNat_le.1 hb.1
  omega

theorem takeWhile_map_tolower (l : List UInt8) :
    (l.map tolower).takeWhile isDigitByte = l.takeWhile isDigitByte := by
  induction l with
  | nil => rfl
  | cons b l ih =>
    rw [map_cons, takeWhile_cons, takeWhile_cons, isDigitByte_tolower, ih]
    cases hb : isDigitByte b with
    | false => rfl
    | true =>
      rw [tolower_of_isDigitByte hb]

theorem zero_notMem_contentLength : (0 : UInt8) ∉ contentLength := by decide

theorem zero_notMem_keepAlive : (0 : UInt8) ∉ keepAlive := by decide

theorem zero_notMem_timeout : (0 : UInt8) ∉ timeout := by decide

namespace Header

variable (h : Header)

/-- The content length after the header. -/
def lengthAfter (clen : ℤ) : ℤ :=
  if h.Named contentLength then ato64 (h.value.takeWhile isDigitByte) else clen

/-- The timeout after the header. -/
def keepaliveAfter (keepalive : UInt32) : UInt32 :=
  if h.Named keepAlive ∧ timeout.isPrefixOf (h.value.map tolower) = true then
    ato32 (((h.value.map tolower).drop timeout.length).takeWhile isDigitByte)
  else keepalive

/-- The bytes of the header when it is scanned. -/
def scanned : List UInt8 :=
  h.name.map tolower ++ 0 :: (h.space ++ (h.value.map tolower ++ [0, 0]))

theorem length_scanned : h.scanned.length = h.bytes.length := by
  simp [scanned, bytes]

/-- No other name begins like one of the two. -/
def Distinct : Prop :=
  (contentLength.isPrefixOf (h.name.map tolower) = true → h.Named contentLength) ∧
    (keepAlive.isPrefixOf (h.name.map tolower) = true → h.Named keepAlive)

end Header

theorem isPrefixOf_self (l : List UInt8) : l.isPrefixOf l = true :=
  isPrefixOf_iff_prefix.2 (prefix_refl l)

theorem Scan.touch_of_le {e : ℕ} (h : e ≤ s.received.length) : s.touch e = s := by
  rw [Scan.touch, decide_eq_false (Nat.not_lt.2 h), Bool.or_false]

theorem endLine_eq {h : Header} (hkey : Holds s.byte s.key (h.name.map tolower ++ [0]))
    (hval : Holds s.byte s.val (h.value.map tolower ++ [0]))
    (hkey' : s.key + h.name.length + 1 ≤ s.received.length)
    (hval' : s.val + h.value.length + 1 ≤ s.received.length)
    (hfit : s.received.length ≤ respBuffer) (hnames : h.Distinct) :
    s.endLine = { s with
      clen := h.lengthAfter s.clen
      keepalive := h.keepaliveAfter s.keepalive } := by
  have hlength := memcmp_eq zero_notMem_contentLength hkey
  have hkeepalive := memcmp_eq zero_notMem_keepAlive hkey
  have htimeout := memcmp_eq zero_notMem_timeout hval
  rw [length_map] at hlength hkeepalive htimeout
  have hnumber : digits s.byte respBuffer s.val = h.value.takeWhile isDigitByte := by
    rw [digits_eq hval (by rw [length_map]; omega), takeWhile_map_tolower]
  have htouch := fun e (he : e ≤ s.received.length) => Scan.touch_of_le (s := s) he
  have htouch1 := htouch _ (Nat.le_trans hlength.2 hkey')
  have htouch2 := htouch _ (Nat.le_trans hkeepalive.2 hkey')
  have htouch3 := htouch _ (Nat.le_trans htimeout.2 hval')
  by_cases hl : h.Named contentLength
  · have hne : ¬ h.Named keepAlive := fun hk => by
      rw [Header.Named] at hl hk
      rw [hl] at hk
      exact absurd hk (by decide)
    have hle := (takeWhile_sublist isDigitByte (l := h.value)).length_le
    have hcmp : (memcmp s.byte s.key contentLength).1 = true := by
      rw [hlength.1, hl, isPrefixOf_self]
    rw [Scan.endLine]
    dsimp only
    rw [if_pos hcmp, htouch1, hnumber, htouch _ (by omega), Header.lengthAfter, if_pos hl,
      Header.keepaliveAfter, if_neg fun hc => hne hc.1]
  · have hcmp : ¬ (memcmp s.byte s.key contentLength).1 = true := by
      rw [hlength.1]
      exact fun hp => hl (hnames.1 hp)
    rw [Scan.endLine]
    dsimp only
    rw [if_neg hcmp, htouch1, htouch2, Header.lengthAfter, if_neg hl, Header.keepaliveAfter]
    by_cases hk : h.Named keepAlive
    · have hcmp' : (memcmp s.byte s.key keepAlive).1 = true := by
        rw [hkeepalive.1, hk, isPrefixOf_self]
      rw [if_pos hcmp', htimeout.1, htouch3]
      by_cases ht : timeout.isPrefixOf (h.value.map tolower) = true
      · obtain ⟨rest, hrest⟩ := isPrefixOf_iff_prefix.1 ht
        have hlen := congrArg length hrest
        rw [length_append, length_map] at hlen
        have htl : timeout.length = 8 := rfl
        have hholds : Holds s.byte (s.val + 8) (rest ++ [0]) := by
          rw [← hrest, append_assoc] at hval
          exact hval.right
        have hdigits := digits_eq hholds (by omega : rest.length < respBuffer)
        have hle := (takeWhile_sublist isDigitByte (l := rest)).length_le
        rw [if_pos ht, if_pos ⟨hk, ht⟩, ← hrest, drop_left, hdigits, htouch _ (by omega)]
      · rw [if_neg ht, if_neg fun hc => ht hc.2]
    · have hcmp' : ¬ (memcmp s.byte s.key keepAlive).1 = true := by
        rw [hkeepalive.1]
        exact fun hp => hk (hnames.2 hp)
      rw [if_neg hcmp', if_neg fun hc => hk hc.1]

theorem At.lf {h : Header} {pre : List UInt8}
    (hat : At r s (pre ++ (h.name.map tolower ++ 0 :: (h.space ++ (h.value.map tolower ++ [0]))))
      (10 :: todo) pre.length (some (pre.length + h.name.length + 1 + h.space.length)) false clen
      keepalive) (hnames : h.Distinct) :
    ∃ t, Goes s t ∧ At r t (pre ++ h.scanned) todo (pre ++ h.scanned).length none true
      (h.lengthAfter clen) (h.keepaliveAfter keepalive) := by
  obtain ⟨t, hgoes, hat, hlt⟩ := hat.available
  have hscanned : pre ++ (h.name.map tolower ++ 0 :: (h.space ++ (h.value.map tolower ++ [0]))) ++
      [0] = pre ++ h.scanned := by simp [Header.scanned]
  have hput : At r { t.put t.ptr 0 with lch := 10, ptr := t.ptr + 1 } (pre ++ h.scanned) todo
      pre.length (some (pre.length + h.name.length + 1 + h.space.length)) true clen keepalive :=
    hscanned ▸ hat.next 0 hlt ⟨fun _ => rfl, fun _ => rfl⟩ rfl
  have hle := hput.le
  obtain ⟨reads, hr, hreceived⟩ := hput.reads
  have hfit := r.reads_fit
  rw [hr, flatten_append, length_append] at hfit
  -- the name and the value are in the line, each with a zero behind it
  have hkey : Holds (t.put t.ptr 0).byte pre.length (h.name.map tolower ++ [0]) := by
    show Holds (Scan.byte { t.put t.ptr 0 with lch := 10, ptr := t.ptr + 1 }) _ _
    refine hput.holds (h.space ++ (h.value.map tolower ++ [0, 0]) ++ todo) ?_ ?_
    · simp [Header.scanned]
    · refine Nat.le_trans ?_ hle
      simp only [Header.scanned, length_append, length_cons, length_nil]
      omega
  have hval : Holds (t.put t.ptr 0).byte (pre.length + h.name.length + 1 + h.space.length)
      (h.value.map tolower ++ [0]) := by
    have hlen : (pre ++ (h.name.map tolower ++ 0 :: h.space)).length =
        pre.length + h.name.length + 1 + h.space.length := by
      simp only [length_append, length_cons, length_map]
      omega
    rw [← hlen]
    show Holds (Scan.byte { t.put t.ptr 0 with lch := 10, ptr := t.ptr + 1 }) _ _
    refine hput.holds ([0] ++ todo) ?_ ?_
    · simp [Header.scanned]
    · refine Nat.le_trans ?_ hle
      simp only [Header.scanned, length_append, length_cons, length_nil]
      omega
  have hlen : (pre ++ h.scanned).length =
      pre.length + h.name.length + 1 + h.space.length + h.value.length + 2 := by
    simp only [Header.scanned, length_append, length_cons, length_nil, length_map]
    omega
  have htkey : (t.put t.ptr 0).key = pre.length := hat.key
  have htval : (t.put t.ptr 0).val = pre.length + h.name.length + 1 + h.space.length :=
    hat.val _ rfl
  have hreceived : (t.put t.ptr 0).received.length = reads.flatten.length := hreceived
  have hend := endLine_eq (s := t.put t.ptr 0) (h := h) (htkey ▸ hkey) (htval ▸ hval) (by omega)
    (by omega) (by omega) hnames
  have hit : t.iterate = { t.put t.ptr 0 with
      clen := h.lengthAfter t.clen, keepalive := h.keepaliveAfter t.keepalive, key := t.ptr + 1
      isval := false, lch := 10, ptr := t.ptr + 1 } := by
    rw [Scan.iterate, hat.byte_next hlt]
    refine (if_neg (by decide)).trans ((if_pos rfl).trans ((if_neg fun hlch => ?_).trans ?_))
    · exact Bool.false_ne_true (hat.lch.1 hlch)
    · rw [hend]
      rfl
  refine ⟨t.iterate, hgoes.trans (goes_iterate hat.found (hat.ptr ▸ hlt) ?_ ?_), ?_⟩
  · rw [hit]
    exact Nat.lt_succ_self _
  · rw [hit]
    rfl
  · rw [hit, hat.clen, hat.keepalive]
    exact { hput with
      key := hput.ptr
      isval := rfl
      val := fun v hv => by cases hv
      clen := rfl
      keepalive := rfl }

/-! ## Headers -/

theorem isspace_of_space {h : Header} {b : UInt8} (hb : b ∈ h.space) : isspace b = true := by
  rcases h.space_ok b hb with rfl | rfl <;> rfl

theorem At.line {h : Header} {pre : List UInt8}
    (hat : At r s pre (h.bytes ++ todo) pre.length none newline clen keepalive)
    (hvalue : h.value ≠ []) (hnames : h.Distinct)
    (hcolon : ∀ reads rest, r.reads = reads ++ rest →
      reads.flatten.length ≤ pre.length + h.name.length ∨
        pre.length + h.name.length + 1 + h.space.length < reads.flatten.length) :
    ∃ t, Goes s t ∧ At r t (pre ++ h.scanned) todo (pre ++ h.scanned).length none true
      (h.lengthAfter clen) (h.keepaliveAfter keepalive) := by
  obtain ⟨v, vs, hv⟩ := exists_cons_of_ne_nil hvalue
  have hbytes : h.bytes ++ todo =
      h.name ++ (58 :: (h.space ++ v :: (vs ++ 13 :: (10 :: todo)))) := by
    simp [Header.bytes, hv]
  rw [hbytes] at hat
  obtain ⟨t₁, newline₁, hgoes1, _, hat1, _⟩ := hat.word fun b hb =>
    ⟨(h.name_ok b hb).2.1, (h.name_ok b hb).2.2.1, .inl (h.name_ok b hb).2.2.2⟩
  have hlen : (pre ++ h.name.map tolower).length = pre.length + h.name.length := by
    rw [length_append, length_map]
  obtain ⟨t₂, hgoes2, hat2⟩ := hat1.colon (fun b hb => isspace_of_space hb)
    (h.value_head v (by rw [hv]; rfl)) (by rwa [hlen])
  rw [hlen] at hat2
  have hvs : ∀ b ∈ vs, b ≠ 10 ∧ b ≠ 13 := fun b hb =>
    (h.value_ok b (hv ▸ mem_cons_of_mem v hb)).2
  obtain ⟨t₃, newline₃, hgoes3, hne3, hat3, heq3⟩ := hat2.word fun b hb =>
    ⟨(hvs b hb).1, (hvs b hb).2, .inr rfl⟩
  have hnewline : newline₃ = false := by
    cases vs with
    | nil => exact heq3 rfl
    | cons c cs => exact hne3 (cons_ne_nil c cs)
  subst hnewline
  obtain ⟨t₄, hgoes4, hat4⟩ := hat3.cr
  have htext : pre ++ h.name.map tolower ++ 0 :: (h.space ++ [tolower v]) ++ vs.map tolower ++ [0] =
      pre ++ (h.name.map tolower ++ 0 :: (h.space ++ (h.value.map tolower ++ [0]))) := by
    simp [hv]
  rw [htext] at hat4
  obtain ⟨t₅, hgoes5, hat5⟩ := hat4.lf hnames
  exact ⟨t₅, (((hgoes1.trans hgoes2).trans hgoes3).trans hgoes4).trans hgoes5, hat5⟩

/-- The content length and the timeout after headers. -/
def lengthAfter (hs : List Header) (clen : ℤ) : ℤ :=
  hs.foldl (fun clen h => h.lengthAfter clen) clen

def keepaliveAfter (hs : List Header) (keepalive : UInt32) : UInt32 :=
  hs.foldl (fun keepalive h => h.keepaliveAfter keepalive) keepalive

/-- The headers that are left to be scanned. -/
theorem At.headers (before : List Header) {hs : List Header} {pre : List UInt8} (hclear : r.Clear)
    (hr : r.headers = before ++ hs)
    (hpre : pre.length = r.status.bytes.length + (before.flatMap Header.bytes).length)
    (hat : At r s pre (hs.flatMap Header.bytes ++ todo) pre.length none newline clen keepalive)
    (hnewline : hs = [] → newline = true) :
    ∃ t done, Goes s t ∧
      done.length = r.status.bytes.length + (r.headers.flatMap Header.bytes).length ∧
      At r t done todo done.length none true (lengthAfter hs clen)
        (keepaliveAfter hs keepalive) := by
  induction hs generalizing s before pre newline clen keepalive with
  | nil =>
    obtain rfl := hnewline rfl
    refine ⟨s, pre, .refl s, ?_, hat⟩
    rw [hr, append_nil, hpre]
  | cons h hs ih =>
    have hmem : h ∈ r.headers := hr ▸ mem_append_right _ mem_cons_self
    rw [flatMap_cons, append_assoc] at hat
    obtain ⟨t, hgoes, hat'⟩ := hat.line (hclear.value h hmem) (hclear.names h hmem)
      fun reads rest hreads => by
        have hcut := hclear.colons before h hs reads rest hr hreads
        rwa [hpre]
    obtain ⟨u, done, hgoes', hdone, hat''⟩ := ih (before ++ [h]) (by rw [hr, append_assoc]; rfl) (by
        rw [length_append, hpre, h.length_scanned, flatMap_append, length_append,
          flatMap_singleton, Nat.add_assoc]) hat' fun _ => rfl
    exact ⟨u, done, hgoes.trans hgoes', hdone, hat''⟩

/-! ## What is stated -/

theorem not_named_of_once {name : List UInt8} {h : Header} {hs : List Header}
    (honce : ((h :: hs).filter fun h => h.Named name).length ≤ 1) (hnamed : h.Named name) :
    ∀ h' ∈ hs, ¬ h'.Named name := by
  intro h' hmem hnamed'
  rw [filter_cons, if_pos (decide_eq_true hnamed), length_cons] at honce
  have hmem' : h' ∈ hs.filter fun h => h.Named name :=
    mem_filter.2 ⟨hmem, decide_eq_true hnamed'⟩
  have hpos := length_pos_of_mem hmem'
  omega

theorem lengthAfter_of_not_named {hs : List Header} (h : ∀ h ∈ hs, ¬ h.Named contentLength)
    (clen : ℤ) : lengthAfter hs clen = clen := by
  induction hs generalizing clen with
  | nil => rfl
  | cons h₀ hs ih =>
    rw [lengthAfter, foldl_cons, Header.lengthAfter, if_neg (h h₀ mem_cons_self)]
    exact ih (fun h' hm => h h' (mem_cons_of_mem h₀ hm)) clen

theorem keepaliveAfter_of_not_named {hs : List Header} (h : ∀ h ∈ hs, ¬ h.Named keepAlive)
    (keepalive : UInt32) : keepaliveAfter hs keepalive = keepalive := by
  induction hs generalizing keepalive with
  | nil => rfl
  | cons h₀ hs ih =>
    rw [keepaliveAfter, foldl_cons, Header.keepaliveAfter, if_neg fun hc => h h₀ mem_cons_self hc.1]
    exact ih (fun h' hm => h h' (mem_cons_of_mem h₀ hm)) keepalive

theorem find?_named {name : List UInt8} {h : Header} {hs : List Header} :
    ((h :: hs).find? fun h => h.Named name) =
      if h.Named name then some h else hs.find? fun h => h.Named name := by
  rw [find?_cons]
  by_cases hn : h.Named name
  · rw [decide_eq_true hn, if_pos hn]
  · rw [decide_eq_false hn, if_neg hn]

theorem lengthAfter_eq {hs : List Header}
    (honce : (hs.filter fun h => h.Named contentLength).length ≤ 1)
    (hlt : statedLength hs < 9223372036854775808) : lengthAfter hs (-1) = statedLength hs := by
  induction hs with
  | nil => rfl
  | cons h hs ih =>
    rw [statedLength, find?_named] at hlt ⊢
    rw [lengthAfter, foldl_cons, Header.lengthAfter]
    by_cases hn : h.Named contentLength
    · rw [if_pos hn] at hlt ⊢
      rw [if_pos hn]
      refine (lengthAfter_of_not_named (not_named_of_once honce hn) _).trans ?_
      have hlt : (ofDecimal (h.value.takeWhile isDigitByte) : ℤ) < 9223372036854775808 := hlt
      exact Int.bmod_eq_of_le_mul_two (by omega) (by omega)
    · rw [filter_cons, if_neg (by rwa [decide_eq_true_iff])] at honce
      rw [if_neg hn] at hlt ⊢
      rw [if_neg hn]
      exact ih honce hlt

/-- The first part of a text before a separator. -/
theorem head?_splitOn (a : UInt8) (l : List UInt8) :
    (l.splitOn a).head? = some (l.takeWhile fun b => b ≠ a) := by
  induction l with
  | nil => rfl
  | cons b l ih =>
    rw [splitOn, splitOnP_cons_eq_if_modifyHead, takeWhile_cons]
    by_cases hb : b = a
    · rw [if_pos (beq_iff_eq.2 hb), hb]
      simp
    · rw [if_neg (by rwa [beq_iff_eq]), head?_modifyHead]
      rw [splitOn] at ih
      rw [ih, decide_eq_true hb]
      rfl

theorem dropWhile_space {l : List UInt8} (h : ∀ b ∈ l.head?, b ≠ 32) :
    (l.dropWhile fun b => b = 32) = l := by
  cases l with
  | nil => rfl
  | cons b l => rw [dropWhile_cons_of_neg (by simpa using h b rfl)]

theorem Header.head?_params {h : Header} (hvalue : h.value ≠ []) :
    h.params.head? = some ((h.value.map tolower).takeWhile fun b => b ≠ 44) := by
  rw [params, head?_map, head?_splitOn, map_some, dropWhile_space fun b hb => ?_]
  obtain ⟨v, vs, hv⟩ := exists_cons_of_ne_nil hvalue
  rw [hv, map_cons, takeWhile_cons] at hb
  split at hb
  · obtain ⟨⟩ := hb
    intro hspace
    have hnot := h.value_head v (by rw [hv]; rfl)
    -- only a space becomes a space
    rw [tolower] at hspace
    split at hspace
    · rename_i hupper
      have hge : 65 ≤ v.toNat := UInt8.le_iff_toNat_le.1 hupper.1
      have hle : v.toNat ≤ 90 := UInt8.le_iff_toNat_le.1 hupper.2
      have hnat := congrArg UInt8.toNat hspace
      rw [UInt8.toNat_add] at hnat
      omega
    · rw [hspace] at hnot
      cases hnot
  · cases hb

theorem takeWhile_timeout (rest : List UInt8) :
    ((timeout ++ rest).takeWhile fun b => b ≠ 44) = timeout ++ rest.takeWhile fun b => b ≠ 44 := rfl

theorem takeWhile_digit (rest : List UInt8) :
    (rest.takeWhile fun b => b ≠ 44).takeWhile isDigitByte = rest.takeWhile isDigitByte := by
  induction rest with
  | nil => rfl
  | cons b rest ih =>
    rw [takeWhile_cons, takeWhile_cons]
    by_cases hb : b = 44
    · subst hb
      rfl
    · rw [decide_eq_true hb, if_pos rfl, takeWhile_cons, ih]

theorem isPrefixOf_takeWhile {lit l : List UInt8} {p : UInt8 → Bool}
    (h : lit.isPrefixOf (l.takeWhile p) = true) : lit.isPrefixOf l = true := by
  have hprefix := isPrefixOf_iff_prefix.1 h
  exact isPrefixOf_iff_prefix.2 <| hprefix.trans <| takeWhile_prefix p

/-- What the scan takes for the timeout is the parameter. -/
theorem Header.keepaliveAfter_eq {h : Header} (hn : h.Named keepAlive) (hvalue : h.value ≠ [])
    (hfirst : ∀ p ∈ h.timeoutParam, h.params.head? = some p)
    (hlt : (h.timeoutParam.map fun p => atoi (p.drop timeout.length)).getD 0 < 4294967296) :
    (h.keepaliveAfter 0).toNat =
      (h.timeoutParam.map fun p => atoi (p.drop timeout.length)).getD 0 := by
  have hhead := head?_params hvalue
  by_cases ht : timeout.isPrefixOf (h.value.map tolower) = true
  · obtain ⟨rest, hrest⟩ := isPrefixOf_iff_prefix.1 ht
    rw [← hrest, takeWhile_timeout] at hhead
    obtain ⟨ps, hps⟩ := head?_eq_some_iff.1 hhead
    have hparam : h.timeoutParam = some (timeout ++ rest.takeWhile fun b => b ≠ 44) := by
      rw [timeoutParam, hps, find?_cons_of_pos]
      exact isPrefixOf_iff_prefix.2 (prefix_append _ _)
    rw [hparam, map_some, getD_some, drop_left, atoi, takeWhile_digit] at hlt ⊢
    rw [keepaliveAfter, if_pos ⟨hn, ht⟩, ← hrest, drop_left, ato32, UInt32.toNat_ofNat']
    exact Nat.mod_eq_of_lt hlt
  · rw [keepaliveAfter, if_neg fun hc => ht hc.2]
    cases hp : h.timeoutParam with
    | none => rfl
    | some p =>
      have hpre := find?_some hp
      obtain rfl := some.inj (hhead.symm.trans (hfirst p hp))
      exact absurd (isPrefixOf_takeWhile hpre) ht

theorem keepaliveAfter_eq {hs : List Header}
    (honce : (hs.filter fun h => h.Named keepAlive).length ≤ 1) (hvalue : ∀ h ∈ hs, h.value ≠ [])
    (hfirst : ∀ h ∈ hs, h.Named keepAlive → ∀ p ∈ h.timeoutParam, h.params.head? = some p)
    (hlt : statedKeepalive hs < 4294967296) :
    (keepaliveAfter hs 0).toNat = statedKeepalive hs := by
  induction hs with
  | nil => rfl
  | cons h hs ih =>
    have hmem : h ∈ h :: hs := mem_cons_self
    rw [statedKeepalive, find?_named] at hlt ⊢
    rw [keepaliveAfter, foldl_cons]
    by_cases hn : h.Named keepAlive
    · rw [if_pos hn] at hlt ⊢
      refine (congrArg UInt32.toNat
        (keepaliveAfter_of_not_named (not_named_of_once honce hn) _)).trans ?_
      exact Header.keepaliveAfter_eq hn (hvalue h hmem) (hfirst h hmem hn) hlt
    · rw [filter_cons, if_neg (by rwa [decide_eq_true_iff])] at honce
      rw [if_neg hn] at hlt ⊢
      rw [Header.keepaliveAfter, if_neg fun hc => hn hc.1]
      exact ih honce (fun h' hm => hvalue h' (mem_cons_of_mem h hm))
        (fun h' hm => hfirst h' (mem_cons_of_mem h hm)) hlt

/-! ## The status line -/

theorem parseStatus_bytes (l : StatusLine) (more : List UInt8) :
    parseStatus (l.bytes ++ more) = .ok l.bytes.length := by
  have hdigit : 48 ≤ l.digit.toNat ∧ l.digit.toNat ≤ 57 := by
    have h := l.digit_ok
    rw [isDigitByte, Bool.and_eq_true, decide_eq_true_iff, decide_eq_true_iff] at h
    exact ⟨UInt8.le_iff_toNat_le.1 h.1, UInt8.le_iff_toNat_le.1 h.2⟩
  have hbytes : l.bytes ++ more =
      l.version ++ 32 :: 50 :: 48 :: l.digit :: (l.reason ++ 13 :: 10 :: more) := by
    simp [StatusLine.bytes]
  have hversion : ((l.bytes ++ more).dropWhile fun b => b ≠ 0 && !isspace b).dropWhile
      (fun b => b ≠ 0 && isspace b) = 50 :: 48 :: l.digit :: (l.reason ++ 13 :: 10 :: more) := by
    rw [hbytes, dropWhile_append_of_pos fun b hb => ?_]
    · rfl
    · obtain ⟨h0, hspace⟩ := l.version_ok b hb
      rw [decide_eq_true h0, hspace]
      rfl
  have hatoi : atoi (50 :: 48 :: l.digit :: (l.reason ++ 13 :: 10 :: more)) =
      200 + (l.digit.toNat - 48) := by
    have hreason : (l.reason ++ 13 :: 10 :: more).takeWhile isDigitByte = [] := by
      cases hr : l.reason with
      | nil => rfl
      | cons b bs =>
        rw [cons_append, takeWhile_cons, l.reason_head b (by rw [hr]; rfl)]
        rfl
    have htake : (50 :: 48 :: l.digit :: (l.reason ++ 13 :: 10 :: more)).takeWhile isDigitByte =
        [50, 48, l.digit] := by
      show 50 :: 48 :: (l.digit :: (l.reason ++ 13 :: 10 :: more)).takeWhile isDigitByte = _
      rw [takeWhile_cons, l.digit_ok, if_pos rfl, hreason]
    rw [atoi, htake]
    show 10 * 20 + (l.digit.toNat - 48) = _
    omega
  have hdrop : (50 :: 48 :: l.digit :: (l.reason ++ 13 :: 10 :: more)).dropWhile
      (fun b => b ≠ 0 && b ≠ 10) = 10 :: more := by
    have h0 : l.digit ≠ 0 := fun h => absurd (h ▸ hdigit.1) (by decide)
    have h10 : l.digit ≠ 10 := fun h => absurd (h ▸ hdigit.1) (by decide)
    have hd : (decide (l.digit ≠ 0) && decide (l.digit ≠ 10)) = true := by
      rw [decide_eq_true h0, decide_eq_true h10]
      rfl
    show (l.digit :: (l.reason ++ 13 :: 10 :: more)).dropWhile
      (fun b => decide (b ≠ 0) && decide (b ≠ 10)) = _
    rw [dropWhile_cons, if_pos hd, dropWhile_append_of_pos fun b hb => ?_]
    · rfl
    · obtain ⟨h0, h10⟩ := l.reason_ok b hb
      rw [decide_eq_true h0, decide_eq_true h10]
      rfl
  have hhead : ((50 :: 48 :: l.digit :: (l.reason ++ 13 :: 10 :: more)).head?.map
      isDigitByte).getD false = true := rfl
  rw [parseStatus, hversion, hhead, hatoi, hdrop, if_neg (by decide),
    if_neg (not_not_intro (by omega)), length_append]
  exact (if_neg (by decide)).trans (congrArg _ (Nat.add_sub_cancel _ _))

/-! ## The functions -/

theorem headerLoop_found {t : Scan} (hgoes : Goes s t) (hfound : t.found = true)
    (hptr : t.ptr ≤ respBuffer) :
    headerLoop (respBuffer + 1 + s.reads.length) s = some t := by
  obtain ⟨n, hn, hle⟩ := hgoes
  obtain ⟨k, hk⟩ := Nat.exists_eq_add_of_le (by omega : n + 1 ≤ respBuffer + 1 + s.reads.length)
  rw [hk, Nat.add_assoc, hn, Nat.add_comm 1, headerLoop, if_pos hfound]

/-- In whatever reads the response comes, the functions find what it states. -/
theorem Response.Clear.stated (hclear : r.Clear) (behind : ℕ → UInt8) :
    ∃ sock, psyncHttpNextRequest behind r.reads = .ok sock ∧ r.Stated sock ∧
      psyncHttpConnect behind r.reads = some (sock, sock.readbuffoff != sock.readbuffsize) := by
  have hbytes := r.reads_bytes
  have hstatus := hclear.status
  have hfit := r.reads_fit
  have hlenpos : 0 < r.status.bytes.length := by
    simp only [StatusLine.bytes, length_append, length_cons]
    omega
  cases hr : r.reads with
  | nil =>
    rw [hr] at hbytes
    have hlen := congrArg length hbytes
    rw [length_append, flatten_nil, length_nil] at hlen
    omega
  | cons chunk rest =>
    rw [hr, flatten_cons] at hbytes
    have hle := hstatus chunk (by rw [hr]; rfl)
    obtain ⟨more, hmore⟩ : ∃ more, chunk = r.status.bytes ++ more :=
      (prefix_of_prefix_length_le ⟨_, hbytes.symm⟩ ⟨_, rfl⟩ hle).imp fun _ h => h.symm
    have hne : chunk ≠ [] := r.reads_ne chunk (by rw [hr]; exact mem_cons_self)
    have hstart : At r (.start chunk behind r.status.bytes.length rest) r.status.bytes
        (r.headers.flatMap Header.bytes ++ ([13, 10] ++ r.body)) r.status.bytes.length none false
        (-1) 0 :=
      { text := hbytes
        le := hle
        ptr := rfl
        key := rfl
        isval := rfl
        val := fun v hv => by cases hv
        lch := ⟨fun h => absurd h (by decide : ¬ (0 : UInt8) = 10), fun h => by cases h⟩
        clen := rfl
        keepalive := rfl
        found := rfl
        outside := rfl
        reads := ⟨[chunk], hr, by rw [flatten_singleton]; rfl⟩ }
    obtain ⟨t, done, hgoes, hdone, hat⟩ := hstart.headers [] hclear rfl rfl
      fun hnil => absurd hnil hclear.headers
    obtain ⟨u, hgoes', hat'⟩ := hat.cr
    obtain ⟨v, hgoes'', hfound, hptr, hclen, hka, houtside⟩ := hat'.blank
    have hoffset : v.ptr = r.bodyOffset := by
      rw [hptr, length_append, hdone]
      rfl
    have hend : v.ptr ≤ respBuffer := by
      have hlen := congrArg length r.reads_bytes
      rw [length_append, length_append, length_append] at hlen
      rw [hoffset, Response.bodyOffset]
      have htwo : ([13, 10] : List UInt8).length = 2 := rfl
      omega
    have hloop : headerLoop (respBuffer + 1 + rest.length)
        (.start chunk behind r.status.bytes.length rest) = some v :=
      headerLoop_found ((hgoes.trans hgoes').trans hgoes'') hfound hend
    have hread : readHeader behind (chunk :: rest) = .ok v.socket := by
      rw [readHeader, if_neg hne, hmore, parseStatus_bytes, ← hmore]
      dsimp only
      rw [hloop]
    refine ⟨v.socket, hread, ⟨?_, ?_, hoffset, houtside⟩, ?_⟩
    · exact hclen.trans (lengthAfter_eq r.lengthOnce hclear.length_lt)
    · refine (congrArg UInt32.toNat hka).trans ?_
      exact keepaliveAfter_eq r.keepaliveOnce hclear.value hclear.timeout hclear.keepalive_lt
    · rw [psyncHttpConnect, hread]

/-! ## Examples -/

theorem forall_mem_of_all {p : UInt8 → Prop} [DecidablePred p] {bytes : List UInt8}
    (h : (bytes.all fun b => decide (p b)) = true) : ∀ b ∈ bytes, p b :=
  fun b hb => of_decide_eq_true (all_eq_true.1 h b hb)

/-- `HTTP/1.1 200 OK`. -/
def okLine : StatusLine :=
  ⟨[72, 84, 84, 80, 47, 49, 46, 49], 48, [32, 79, 75], forall_mem_of_all rfl, rfl,
    forall_mem_of_all rfl, fun _ hb => some.inj hb ▸ rfl⟩

/-- `Content-Length: 5`. -/
def lengthHeader : Header :=
  ⟨[67, 111, 110, 116, 101, 110, 116, 45, 76, 101, 110, 103, 116, 104], [32], [53],
    cons_ne_nil _ _, forall_mem_of_all rfl, forall_mem_of_all rfl, forall_mem_of_all rfl,
    fun _ hb => some.inj hb ▸ rfl⟩

/-- A response with a content length, in two reads of which the first has `n` bytes. -/
def cutAt (n : ℕ) : List (List UInt8) :=
  [(okLine.bytes ++ (lengthHeader.bytes ++ [13, 10])).take n,
    (okLine.bytes ++ (lengthHeader.bytes ++ [13, 10])).drop n]

set_option maxRecDepth 4000 in
/-- The response is cut in the blank line. -/
def cutInBlankLine : Response :=
  ⟨okLine, [lengthHeader], [], cutAt 37, by decide, by decide, by decide, by decide, by decide⟩

set_option maxRecDepth 4000 in
/-- The response is cut after the colon. -/
def cutAfterColon : Response :=
  ⟨okLine, [lengthHeader], [], cutAt 32, by decide, by decide, by decide, by decide, by decide⟩

theorem clear_cutInBlankLine : cutInBlankLine.Clear where
  status := by decide
  headers := cons_ne_nil _ _
  value := by decide
  colons before h after reads rest hh hr := by
    obtain ⟨rfl, rfl, rfl⟩ : before = [] ∧ h = lengthHeader ∧ after = [] := by
      rcases before with _ | ⟨_, _ | ⟨_, _⟩⟩
      · exact ⟨rfl, (cons.inj hh).1.symm, (cons.inj hh).2.symm⟩
      · exact absurd (cons.inj hh).2 (by simp)
      · exact absurd (cons.inj hh).2 (by simp)
    rcases reads with _ | ⟨a, reads⟩
    · exact .inl (Nat.zero_le _)
    · -- the first read is longer
      obtain ⟨rfl, _⟩ := cons.inj hr
      refine .inr ?_
      rw [flatten_cons, length_append]
      exact Nat.lt_of_lt_of_le (by decide) (Nat.le_add_right _ _)
  names := by decide
  timeout := by decide
  length_lt := by decide
  keepalive_lt := by decide

/-- The length is found, and the body behind the blank line. -/
theorem stated_cutInBlankLine : ∃ sock,
    psyncHttpNextRequest (fun _ => 0) cutInBlankLine.reads = .ok sock ∧
      cutInBlankLine.Stated sock ∧ psyncHttpConnect (fun _ => 0) cutInBlankLine.reads =
        some (sock, sock.readbuffoff != sock.readbuffsize) :=
  clear_cutInBlankLine.stated fun _ => 0

/-- The first byte after the colon is taken for the value, which is a space. -/
theorem not_stated : ¬ ∃ sock, psyncHttpNextRequest (fun _ => 0) cutAfterColon.reads = .ok sock ∧
      cutAfterColon.Stated sock := by
  rintro ⟨sock, hsock, hlength, _⟩
  have hzero : (psyncHttpNextRequest (fun _ => 0) cutAfterColon.reads).toOption.map
      Socket.contentlength = some 0 := by decide +kernel
  rw [hsock] at hzero
  obtain hzero := some.inj hzero
  rw [hlength] at hzero
  exact absurd hzero (by decide)

end Pclsync.Http
