import Mathlib.Data.List.Basic
import Mathlib.Data.List.TakeDrop
import Pclsync.Transition

/-!
# Writing to a socket with a buffer

A `psync_socket` (`pcompat.c`) may have a list of write buffers. `psync_socket_writeall_thread`
takes `socket_mutex` for each write: with a buffer the bytes are added to it, else they are written
to the socket, or to its SSL connection. Other threads make the buffer, and write from it to the
socket; an empty buffer is removed.

* `writeToBuf`, `tryWriteBuffer`: bytes go to the end of the buffers and leave at their beginning.
* `step`: the sections of all threads.
* `Intact`: what is on the wire and in the buffers is what was written.
* `intact_of_reachable`: this holds as long as no buffer is found and no write fails when a part of
  the argument is already sent.
-/

namespace Pclsync.Sockets

open List Option

/-! ## Buffers -/

/-- `PSYNC_FIRST_SOCK_WRITE_BUFF_SIZE` -/
def firstSockWriteBuffSize : ℕ := 2700

/-- `PSYNC_SECOND_SOCK_WRITE_BUFF_SIZE` -/
def secondSockWriteBuffSize : ℕ := 65536

/-- A `psync_socket_buffer`; `written` has the bytes before `woffset`. -/
structure SocketBuffer where
  size : ℕ
  written : List UInt8
  roffset : ℕ

/-- A new buffer. -/
def SocketBuffer.new (size : ℕ) : SocketBuffer := ⟨size, [], 0⟩

/-- Bytes are copied to `woffset`. -/
def SocketBuffer.add (b : SocketBuffer) (data : List UInt8) : SocketBuffer :=
  { b with written := b.written ++ data }

/-- The offsets are in order. -/
structure SocketBuffer.Valid (b : SocketBuffer) : Prop where
  roffset_le : b.roffset ≤ b.written.length
  woffset_le : b.written.length ≤ b.size

/-- The bytes that are still to be sent. -/
def buffered (buffer : List SocketBuffer) : List UInt8 :=
  buffer.flatMap fun b => b.written.drop b.roffset

/-- How many bytes there is room for. -/
def SocketBuffer.room (b : SocketBuffer) : ℕ := b.size - b.written.length

/-- Where the next bytes go to: a full buffer is followed by a new one. -/
def SocketBuffer.next (b : SocketBuffer) : List SocketBuffer × SocketBuffer :=
  if b.room = 0 then ([b], .new secondSockWriteBuffSize) else ([], b)

theorem SocketBuffer.room_next_pos (b : SocketBuffer) : 0 < b.next.2.room := by
  rw [SocketBuffer.next]
  split
  · exact Nat.succ_pos _
  · next h => exact Nat.pos_of_ne_zero h

theorem length_drop_min_lt {data : List UInt8} {n : ℕ} (hn : 0 < n)
    (h : data.drop (min n data.length) ≠ []) :
    (data.drop (min n data.length)).length < data.length := by
  have hpos := length_pos_of_ne_nil h
  rw [length_drop] at hpos ⊢
  omega

/-- The loop of `psync_socket_write_to_buf`. -/
def writeToBufLoop (b : SocketBuffer) (data : List UInt8) : List SocketBuffer :=
  let wr := min b.next.2.room data.length
  let c := b.next.2.add (data.take wr)
  if _h : data.drop wr = [] then b.next.1 ++ [c]
  else b.next.1 ++ writeToBufLoop c (data.drop wr)
termination_by data.length
decreasing_by exact length_drop_min_lt b.room_next_pos _h

/-- `psync_socket_write_to_buf`, for a socket with a buffer. -/
def writeToBuf : List SocketBuffer → List UInt8 → List SocketBuffer
  | [], _ => []
  | [b], data =>
    if data.length ≤ b.room then [b.add data]
    else writeToBufLoop b data
  | b :: c :: rest, data => b :: writeToBuf (c :: rest) data

/-- What a write to the socket, or to its SSL connection, comes to. -/
inductive Written
  /-- So many bytes, or all. -/
  | bytes (n : ℕ)
  | wouldBlock
  | interrupted
  | error

/-- The loop of `psync_socket_try_write_buffer`. A buffer that becomes empty is removed at the
    beginning of the next round; when there are no more answers the socket would block. -/
def tryWriteLoop (ssl : Bool) :
    List SocketBuffer → List Written → List UInt8 → ℤ → ℤ × List SocketBuffer × List UInt8
  | [], _, wire, wrt => (wrt, [], wire)
  | b :: rest, answers, wire, wrt =>
    let data := b.written.drop b.roffset
    if b.roffset = b.written.length then tryWriteLoop ssl rest answers wire wrt
    else match answers with
      | [] => (wrt, b :: rest, wire)
      | .wouldBlock :: _ => (wrt, b :: rest, wire)
      | .interrupted :: _ => (if ssl ∧ wrt = 0 then -1 else wrt, b :: rest, wire)
      | .error :: _ => (if wrt = 0 then -1 else wrt, b :: rest, wire)
      | .bytes n :: answers =>
        let cw := min n data.length
        if b.roffset + cw = b.written.length then
          tryWriteLoop ssl rest answers (wire ++ data) (wrt + cw)
        else (wrt + cw, { b with roffset := b.roffset + cw } :: rest, wire ++ data.take cw)

/-- `psync_socket_try_write_buffer`: its result, the buffers and the wire. -/
def tryWriteBuffer (ssl : Bool) (buffer : List SocketBuffer) (answers : List Written)
    (wire : List UInt8) : ℤ × List SocketBuffer × List UInt8 :=
  tryWriteLoop ssl buffer answers wire 0

variable {b : SocketBuffer} {buffer : List SocketBuffer} {data : List UInt8}

@[simp] theorem buffered_nil : buffered [] = [] := rfl

@[simp] theorem buffered_cons (b : SocketBuffer) (buffer : List SocketBuffer) :
    buffered (b :: buffer) = b.written.drop b.roffset ++ buffered buffer := rfl

theorem buffered_append (buffer buffer' : List SocketBuffer) :
    buffered (buffer ++ buffer') = buffered buffer ++ buffered buffer' := flatMap_append

theorem valid_new (size : ℕ) : (SocketBuffer.new size).Valid := ⟨Nat.le_refl _, Nat.zero_le _⟩

theorem SocketBuffer.Valid.next (h : b.Valid) : (∀ c ∈ b.next.1, c.Valid) ∧ b.next.2.Valid ∧
    buffered b.next.1 ++ buffered [b.next.2] = buffered [b] := by
  rw [SocketBuffer.next]
  split
  · exact ⟨forall_mem_singleton.2 h, valid_new _, append_nil _⟩
  · exact ⟨forall_mem_nil _, h, rfl⟩

theorem SocketBuffer.Valid.add (h : b.Valid) (data : List UInt8) (hroom : data.length ≤ b.room) :
    (b.add data).Valid ∧ buffered [b.add data] = buffered [b] ++ data := by
  have hsize : b.written.length + data.length ≤ b.size := by
    have hle := h.woffset_le
    rw [SocketBuffer.room] at hroom
    omega
  rw [SocketBuffer.add]
  refine ⟨⟨?_, ?_⟩, ?_⟩
  · rw [length_append]
    exact Nat.le_add_right_of_le h.roffset_le
  · rw [length_append]
    exact hsize
  · rw [buffered_cons, buffered_cons, buffered_nil, append_nil, append_nil,
      drop_append_of_le_length h.roffset_le]

theorem SocketBuffer.Valid.add_next (h : b.Valid) (data : List UInt8) {n : ℕ}
    (hn : n = min b.next.2.room data.length) :
    (∀ c ∈ b.next.1, c.Valid) ∧ (b.next.2.add (data.take n)).Valid ∧
      buffered b.next.1 ++ buffered [b.next.2.add (data.take n)] = buffered [b] ++ data.take n := by
  obtain ⟨hfull, hnext, hbuf⟩ := h.next
  obtain ⟨hvalid, hadd⟩ := hnext.add (data.take n) (by rw [length_take]; omega)
  exact ⟨hfull, hvalid, by rw [hadd, ← append_assoc, hbuf]⟩

/-- All bytes are put behind those of the last buffer. -/
theorem writeToBufLoop_spec (h : b.Valid) : (∀ c ∈ writeToBufLoop b data, c.Valid) ∧
    buffered (writeToBufLoop b data) = buffered [b] ++ data := by
  fun_induction writeToBufLoop b data with
  | case1 b data wr c hall =>
    obtain ⟨hfull, hc, hbuf⟩ := h.add_next data (n := wr) rfl
    refine ⟨forall_mem_append.2 ⟨hfull, forall_mem_singleton.2 hc⟩, ?_⟩
    rw [buffered_append, hbuf, take_of_length_le (drop_eq_nil_iff.1 hall)]
  | case2 b data wr c hrest ih =>
    obtain ⟨hfull, hc, hbuf⟩ := h.add_next data (n := wr) rfl
    obtain ⟨hvalid, hloop⟩ := ih hc
    refine ⟨forall_mem_append.2 ⟨hfull, hvalid⟩, ?_⟩
    rw [buffered_append, hloop, ← append_assoc, hbuf, append_assoc, take_append_drop]

theorem writeToBuf_spec (data : List UInt8) (h : ∀ b ∈ buffer, b.Valid) (hne : buffer ≠ []) :
    (∀ b ∈ writeToBuf buffer data, b.Valid) ∧
      buffered (writeToBuf buffer data) = buffered buffer ++ data := by
  induction buffer with
  | nil => exact absurd rfl hne
  | cons b buffer ih =>
    obtain ⟨hb, hbuffer⟩ := forall_mem_cons.1 h
    cases buffer with
    | nil =>
      rw [writeToBuf]
      split
      · next hroom =>
        obtain ⟨hvalid, hadd⟩ := hb.add data hroom
        exact ⟨forall_mem_singleton.2 hvalid, hadd⟩
      · exact writeToBufLoop_spec hb
    | cons c buffer =>
      obtain ⟨hvalid, hadd⟩ := ih hbuffer (cons_ne_nil _ _)
      rw [writeToBuf, buffered_cons, hadd, buffered_cons b, append_assoc]
      exact ⟨forall_mem_cons.2 ⟨hb, hvalid⟩, rfl⟩

/-- What leaves the buffers goes to the wire. -/
theorem tryWriteLoop_spec (ssl : Bool) (answers : List Written) (wire : List UInt8) (wrt : ℤ)
    (h : ∀ b ∈ buffer, b.Valid) :
    (∀ b ∈ (tryWriteLoop ssl buffer answers wire wrt).2.1, b.Valid) ∧
      (tryWriteLoop ssl buffer answers wire wrt).2.2 ++
        buffered (tryWriteLoop ssl buffer answers wire wrt).2.1 = wire ++ buffered buffer := by
  induction buffer generalizing answers wire wrt with
  | nil => exact ⟨h, rfl⟩
  | cons b buffer ih =>
    obtain ⟨hb, hbuffer⟩ := forall_mem_cons.1 h
    rw [tryWriteLoop.eq_def]
    dsimp only
    split
    · next hempty =>
      rw [buffered_cons, hempty, drop_length, nil_append]
      exact ih answers wire wrt hbuffer
    · split
      · exact ⟨h, rfl⟩
      · exact ⟨h, rfl⟩
      · exact ⟨h, rfl⟩
      · exact ⟨h, rfl⟩
      · next n answers =>
        split
        · -- The whole buffer is written, and the next one follows.
          obtain ⟨hvalid, hrest⟩ :=
            ih answers (wire ++ b.written.drop b.roffset) (wrt + ↑(min n _)) hbuffer
          exact ⟨hvalid, by rw [hrest, buffered_cons, append_assoc]⟩
        · have hle := hb.roffset_le
          refine ⟨forall_mem_cons.2 ⟨⟨?_, hb.woffset_le⟩, hbuffer⟩, ?_⟩
          · rw [length_drop]
            dsimp only
            omega
          · rw [buffered_cons, buffered_cons, ← drop_drop, append_assoc,
              ← append_assoc (take _ _), take_append_drop]

theorem tryWriteBuffer_spec (ssl : Bool) (answers : List Written) (wire : List UInt8)
    (h : ∀ b ∈ buffer, b.Valid) :
    (∀ b ∈ (tryWriteBuffer ssl buffer answers wire).2.1, b.Valid) ∧
      (tryWriteBuffer ssl buffer answers wire).2.2 ++
        buffered (tryWriteBuffer ssl buffer answers wire).2.1 = wire ++ buffered buffer :=
  tryWriteLoop_spec ssl answers wire 0 h

/-! ## Threads -/

/-- A call of `psync_socket_writeall_thread`: its argument, and `br`. -/
structure Writing where
  buff : List UInt8
  br : ℕ

/-- A socket, the wire, the call that is going on, and the arguments of the calls which have
    returned the length of their argument. -/
structure State where
  ssl : Bool
  buffer : List SocketBuffer
  wire : List UInt8
  writing : Option Writing
  successful : List (List UInt8)

/-- A socket that was just connected. -/
def State.start (ssl : Bool) : State := ⟨ssl, [], [], none, []⟩

/-- The call returns. -/
def State.ret (s : State) (buff : List UInt8) (r : ℤ) : State :=
  { s with
    writing := none
    successful := if r = buff.length then s.successful ++ [buff] else s.successful }

/-- `while (br<num)`, and `return br` behind it. -/
def State.loop (s : State) (w : Writing) : State :=
  if w.br < w.buff.length then { s with writing := some w } else s.ret w.buff w.br

/-- The loop of `psync_socket_writeall_plain_thread` or `psync_socket_writeall_ssl_thread`, once:
    what the write comes to, if it is done, and whether waiting for the socket succeeds. -/
def State.round (s : State) (w : Writing) (answer : Written) (ready : Bool) : State :=
  if s.buffer ≠ [] then
    { s with buffer := writeToBuf s.buffer w.buff }.loop ⟨w.buff, w.br + w.buff.length⟩
  else match answer with
    | .bytes n =>
      let r := min n (w.buff.drop w.br).length
      if s.ssl ∧ r = 0 then s.ret w.buff w.br
      else { s with wire := s.wire ++ (w.buff.drop w.br).take r }.loop ⟨w.buff, w.br + r⟩
    | .wouldBlock => if ready then s else s.ret w.buff (-1)
    | .interrupted => s.ret w.buff (-1)
    | .error => s.ret w.buff (-1)

/-- What a thread does next. -/
inductive Action
  /-- The writer calls `psync_socket_writeall_thread`. -/
  | writeall (buff : List UInt8)
  /-- One round of its loop. -/
  | round (answer : Written) (ready : Bool)
  /-- `psync_socket_set_write_buffered_thread` -/
  | setWriteBuffered
  /-- `psync_socket_try_write_buffer_thread`, or the same section of a reader. -/
  | tryWriteBuffer (answers : List Written)

/-- One section. -/
def step (s : State) : Action → Option State
  | .writeall buff => if s.writing = none then some (s.loop ⟨buff, 0⟩) else none
  | .round answer ready => s.writing.map fun w => s.round w answer ready
  | .setWriteBuffered =>
    some (if s.buffer = [] then { s with buffer := [.new firstSockWriteBuffSize] } else s)
  | .tryWriteBuffer answers =>
    let r := Sockets.tryWriteBuffer s.ssl s.buffer answers s.wire
    some { s with buffer := r.2.1, wire := r.2.2 }

/-- All interleavings. -/
def machine (ssl : Bool) : Machine State Action where
  init s := s = .start ssl
  step := step

/-- What the current call has sent. -/
def State.sent (s : State) : List UInt8 := s.writing.elim [] fun w => w.buff.take w.br

/-- What is on the wire and in the buffers are the arguments of the successful calls, and what the
    current one has sent. -/
def Intact (s : State) : Prop := s.wire ++ buffered s.buffer = s.successful.flatten ++ s.sent

/-- A write ends the call without success. -/
def Written.Ends (ssl ready : Bool) : Written → Prop
  | .bytes n => ssl = true ∧ n = 0
  | .wouldBlock => ready = false
  | .interrupted => True
  | .error => True

instance (ssl ready : Bool) (answer : Written) : Decidable (answer.Ends ssl ready) :=
  match answer with
  | .bytes n => inferInstanceAs (Decidable (ssl = true ∧ n = 0))
  | .wouldBlock => inferInstanceAs (Decidable (ready = false))
  | .interrupted => .isTrue trivial
  | .error => .isTrue trivial

/-- When a buffer is found, or a call ends without success, it has not yet sent a part. -/
def Fine (s : State) : Action → Prop
  | .round answer ready =>
    ∀ w ∈ s.writing, s.buffer ≠ [] ∨ answer.Ends s.ssl ready → w.br = 0
  | _ => True

instance (s : State) (a : Action) : Decidable (Fine s a) :=
  match a with
  | .writeall _ => .isTrue trivial
  | .round answer ready => inferInstanceAs
      (Decidable (∀ w ∈ s.writing, s.buffer ≠ [] ∨ answer.Ends s.ssl ready → w.br = 0))
  | .setWriteBuffered => .isTrue trivial
  | .tryWriteBuffer _ => .isTrue trivial

/-- What holds between sections. -/
structure Inv (s : State) : Prop where
  intact : Intact s
  valid : ∀ b ∈ s.buffer, b.Valid
  br_lt : ∀ w ∈ s.writing, w.br < w.buff.length

variable {s s' : State} {w : Writing} {a : Action}

theorem inv_loop (hvalid : ∀ b ∈ s.buffer, b.Valid)
    (hwire : s.wire ++ buffered s.buffer = s.successful.flatten ++ w.buff.take w.br)
    (hle : w.br ≤ w.buff.length) : Inv (s.loop w) := by
  rw [State.loop]
  split
  · next hlt => exact ⟨hwire, hvalid, fun _ hw => some.inj hw ▸ hlt⟩
  · next hge =>
    have hbr : w.br = w.buff.length := Nat.le_antisymm hle (Nat.not_lt.1 hge)
    refine ⟨?_, hvalid, fun _ hw => (by cases hw)⟩
    rw [Intact, State.ret, if_pos (by rw [hbr])]
    dsimp only [State.sent, elim_none]
    rw [hwire, hbr, take_length, flatten_append, flatten_singleton, append_nil]

/-- A call which has sent nothing returns without success. -/
theorem inv_ret {buff : List UInt8} {r : ℤ} (hvalid : ∀ b ∈ s.buffer, b.Valid)
    (hwire : s.wire ++ buffered s.buffer = s.successful.flatten) (hr : r ≠ buff.length) :
    Inv (s.ret buff r) := by
  refine ⟨?_, hvalid, fun _ hw => (by cases hw)⟩
  rw [Intact, State.ret, if_neg hr]
  exact hwire.trans (append_nil _).symm

theorem Inv.round (h : Inv s) (hw : s.writing = some w) (answer : Written) (ready : Bool)
    (hfine : s.buffer ≠ [] ∨ answer.Ends s.ssl ready → w.br = 0) :
    Inv (s.round w answer ready) := by
  have hintact : s.wire ++ buffered s.buffer = s.successful.flatten ++ w.buff.take w.br := by
    have hintact := h.intact
    rw [Intact, State.sent, hw, elim_some] at hintact
    exact hintact
  have hlt := h.br_lt w hw
  have hends : w.br = 0 → s.wire ++ buffered s.buffer = s.successful.flatten := fun hbr => by
    rw [hintact, hbr, take_zero, append_nil]
  rw [State.round.eq_def]
  split
  · next hne =>
    have hbr := hfine (.inl hne)
    obtain ⟨hvalid, hadd⟩ := writeToBuf_spec w.buff h.valid hne
    refine inv_loop hvalid ?_ ?_
    · dsimp only
      rw [hadd, ← append_assoc, hends hbr, hbr, Nat.zero_add, take_length]
    · dsimp only
      rw [hbr, Nat.zero_add]
  · next hnil =>
    have hlen : 0 < (w.buff.drop w.br).length := by
      rw [length_drop]
      omega
    split
    · next n =>
      dsimp only
      split
      · next hzero =>
        have hn : n = 0 := by omega
        have hbr := hfine (.inr ⟨hzero.1, hn⟩)
        exact inv_ret h.valid (hends hbr) (by omega)
      · refine inv_loop h.valid ?_ ?_
        · have hnil : s.buffer = [] := not_not.1 hnil
          rw [hnil, buffered_nil, append_nil] at hintact
          dsimp only
          rw [hnil, buffered_nil, append_nil, hintact, append_assoc, take_add]
        · rw [length_drop]
          dsimp only
          omega
    · cases ready with
      | true => exact h
      | false =>
        exact inv_ret h.valid (hends (hfine (.inr rfl))) (by omega)
    · exact inv_ret h.valid (hends (hfine (.inr trivial))) (by omega)
    · exact inv_ret h.valid (hends (hfine (.inr trivial))) (by omega)

theorem Inv.step (h : Inv s) (hfine : Fine s a) (hstep : step s a = some s') : Inv s' := by
  cases a with
  | writeall buff =>
    obtain ⟨hidle, hstep⟩ := ite_none_right_eq_some.1 hstep
    obtain ⟨⟩ := hstep
    have hintact := h.intact
    rw [Intact, State.sent, hidle, elim_none] at hintact
    exact inv_loop h.valid (hintact.trans (by rw [take_zero])) (Nat.zero_le _)
  | round answer ready =>
    obtain ⟨w, hw, rfl⟩ := map_eq_some_iff.1 hstep
    exact h.round hw answer ready (hfine w hw)
  | setWriteBuffered =>
    obtain ⟨⟩ := hstep
    split
    · next hnil =>
      refine ⟨?_, forall_mem_singleton.2 (valid_new _), h.br_lt⟩
      have hintact := h.intact
      rw [Intact, hnil] at hintact
      exact hintact
    · exact h
  | tryWriteBuffer answers =>
    obtain ⟨⟩ := hstep
    obtain ⟨hvalid, hwire⟩ := tryWriteBuffer_spec s.ssl answers s.wire h.valid
    exact ⟨hwire.trans h.intact, hvalid, h.br_lt⟩

/-- In every interleaving in which no call is disturbed when it has sent a part. -/
theorem intact_of_reachable (ssl : Bool) (h : (machine ssl).Reachable Fine s) : Intact s := by
  refine (h.invariant (P := Inv) ?_ fun _ _ _ => Inv.step).intact
  rintro _ rfl
  exact ⟨rfl, forall_mem_nil _, fun _ hw => (by cases hw)⟩

/-- A call in two parts, and one into the buffer, of which a part is then sent. -/
theorem intact_buffered : Intact ⟨false, [⟨2700, [3, 4, 5], 2⟩], [1, 2, 3, 4], none,
    [[1, 2], [3, 4, 5]]⟩ := by
  have h : (machine false).Reachable Fine (.start false) := .init rfl
  replace h := h.next (.writeall [1, 2]) (by decide) rfl
  replace h := h.next (.round (.bytes 1) true) (by decide) rfl
  replace h := h.next (.round (.bytes 1) true) (by decide) rfl
  replace h := h.next .setWriteBuffered (by decide) rfl
  replace h := h.next (.writeall [3, 4, 5]) (by decide) rfl
  replace h := h.next (.round .wouldBlock true) (by decide) rfl
  replace h := h.next (.tryWriteBuffer [.bytes 2]) (by decide) rfl
  exact intact_of_reachable false h

/-- A buffer is made when a call has sent a part of its argument, which is then sent again; and a
    call fails when it has sent a part. -/
theorem not_intact :
    (∃ s, (machine false).run (.start false) [.writeall [1, 2], .round (.bytes 1) true,
      .setWriteBuffered, .round (.bytes 1) true] = some s ∧
      s.wire ++ buffered s.buffer = [1, 1, 2] ∧ ¬Intact s) ∧
    ∃ s, (machine true).run (.start true) [.writeall [1, 2], .round (.bytes 1) true,
      .round .error true] = some s ∧ ¬Intact s :=
  ⟨⟨_, rfl, rfl, by unfold Intact; decide⟩, ⟨_, rfl, by unfold Intact; decide⟩⟩

end Pclsync.Sockets
