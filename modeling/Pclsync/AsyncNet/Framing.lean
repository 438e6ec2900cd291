import Pclsync.AsyncNet.State

/-!
# The packets that the async transfer thread reads

The bytes which the thread has read of a packet, with those it has not read yet, are what the server
has sent after the packets that are dispatched (`Thread.Framed`). So however the stream of bytes is
cut into reads, the packets are dispatched as they were sent: `Thread.Framed.receive` says what a
read does.
-/

namespace Pclsync.AsyncNet

open List

/-! ## Encoded packets -/

theorem Packet.length_header (p : Packet) :
    (toLE 4 p.streamid ++ toLE 2 (p.payload.length - 1)).length = streamHeaderLen := by
  simp [streamHeaderLen]

theorem Packet.ofLE_streamid (p : Packet) : ofLE (toLE 4 p.streamid) = p.streamid :=
  ofLE_toLE_of_lt p.streamid_lt

theorem Packet.ofLE_length (p : Packet) :
    ofLE (toLE 2 (p.payload.length - 1)) + 1 = p.payload.length := by
  have hle := p.payload_le
  have hpos := p.payload_pos
  rw [ofLE_toLE_of_lt (by omega), Nat.sub_add_cancel hpos]

/-- Bytes of the length of a header, at the start of what is sent, are the header of the first
    packet. -/
theorem header_of_flatMap {ps : List Packet} {buffer incoming : List UInt8}
    (h : buffer ++ incoming = ps.flatMap Packet.encode) (hlen : buffer.length = streamHeaderLen) :
    ∃ p qs, ps = p :: qs ∧ buffer = toLE 4 p.streamid ++ toLE 2 (p.payload.length - 1) ∧
      incoming = p.payload ++ qs.flatMap Packet.encode := by
  cases ps with
  | nil =>
    have h0 := append_eq_nil_iff.1 h
    rw [h0.1] at hlen
    cases hlen
  | cons p qs =>
    rw [flatMap_cons, Packet.encode, append_assoc (_ ++ _)] at h
    obtain ⟨hb, hi⟩ := append_inj h (hlen.trans p.length_header.symm)
    exact ⟨p, qs, rfl, hb, hi⟩

/-! ## Reads -/

/-- What is read and what comes in are the packets sent and not dispatched yet. -/
def Thread.Framed (th : Thread) : Prop :=
  ∃ inflight, th.sent = th.dispatched ++ inflight ∧ th.buffer.length < th.reading.len ∧
    match th.reading with
    | .header => th.buffer ++ th.incoming = inflight.flatMap Packet.encode
    | .data id n => ∃ p ps, inflight = p :: ps ∧ p.streamid = id ∧ p.payload.length = n ∧
        th.buffer ++ th.incoming = p.payload ++ ps.flatMap Packet.encode

/-- A read of `n` bytes completes the packet `p`. -/
def Thread.Completes (th : Thread) (n : ℕ) (p : Packet) : Prop :=
  th.reading = .data p.streamid p.payload.length ∧ p.payload = th.buffer ++ th.incoming.take n

/-- The thread with another state of the reader. -/
def Thread.read (th : Thread) (reading : Reading) (buffer incoming : List UInt8) : Thread :=
  { th with reading, buffer, incoming }

theorem framed_idle : State.idleThread.Framed := ⟨[], rfl, by decide, rfl⟩

theorem Thread.Framed.send {th : Thread} (h : th.Framed) (p : Packet) :
    Thread.Framed { th with incoming := th.incoming ++ p.encode, sent := th.sent ++ [p] } := by
  obtain ⟨inflight, hsent, hlen, hr⟩ := h
  refine ⟨inflight ++ [p], ?_, hlen, ?_⟩
  · rw [← append_assoc, ← hsent]
  · dsimp only at hr ⊢
    split at hr
    · rw [← append_assoc, hr, flatMap_append, flatMap_cons, flatMap_nil, append_nil]
    · obtain ⟨q, qs, rfl, hid, hn, hb⟩ := hr
      refine ⟨q, qs ++ [p], rfl, hid, hn, ?_⟩
      rw [← append_assoc, hb, flatMap_append, flatMap_cons, flatMap_nil, append_nil, append_assoc]

/-- What a read does: the thread waits for more, or it dispatches the next packet. -/
theorem Thread.Framed.receive {sha1hex : List UInt8 → List UInt8} {st st' : State} {n : ℕ}
    {o : Outcome} (h : st.thread.Framed) (hr : st.receive sha1hex n o = some st') :
    ∃ reading buffer incoming, let th := st.thread.read reading buffer incoming
      (th.Framed ∧ st' = st.setThread th) ∨
        ∃ p, st.thread.Completes n p ∧ (th.dispatch p).Framed ∧
          st' = let r := (st.setThread th).processStreamData sha1hex p o
            if r.2 then { r.1 with phase := .ending } else r.1 := by
  obtain ⟨inflight, hsent, -, hin⟩ := h
  rw [State.receive] at hr
  split_ifs at hr with hn
  obtain ⟨hpos, hle, hroom⟩ := hn
  have hcut : st.thread.buffer ++ st.thread.incoming.take n ++ st.thread.incoming.drop n =
      st.thread.buffer ++ st.thread.incoming := by
    rw [append_assoc, take_append_drop]
  have hlen : (st.thread.buffer ++ st.thread.incoming.take n).length =
      st.thread.buffer.length + n := by
    rw [length_append, length_take_of_le hle]
  dsimp only at hr
  split_ifs at hr with hfull
  · -- the packet or its header is not complete
    refine ⟨st.thread.reading, st.thread.buffer ++ st.thread.incoming.take n,
      st.thread.incoming.drop n, .inl ⟨⟨inflight, hsent, hfull, ?_⟩, (Option.some.inj hr).symm⟩⟩
    cases hreading : st.thread.reading with
    | header =>
      rw [hreading] at hin
      simp only [Thread.read]
      rw [hcut]
      exact hin
    | data id m =>
      rw [hreading] at hin
      simp only [Thread.read]
      rw [hcut]
      exact hin
  · have hfull :
        (st.thread.buffer ++ st.thread.incoming.take n).length = st.thread.reading.len := by
      omega
    cases hreading : st.thread.reading with
    | header =>
      simp only [hreading] at hr hin hfull
      -- `process_stream_header`
      obtain ⟨p, ps, rfl, hb, hi⟩ := header_of_flatMap (hcut.trans hin) hfull
      refine ⟨_, _, _, .inl ⟨?_, (Option.some.inj hr).symm⟩⟩
      have hid : ((st.thread.buffer ++ st.thread.incoming.take n).take 4) = toLE 4 p.streamid := by
        rw [hb, take_left' (length_toLE _ _)]
      have hl : (((st.thread.buffer ++ st.thread.incoming.take n).drop 4).take 2) =
          toLE 2 (p.payload.length - 1) := by
        rw [hb, drop_left' (length_toLE _ _), take_of_length_le (length_toLE _ _).le]
      rw [hid, hl, p.ofLE_streamid, p.ofLE_length]
      exact ⟨p :: ps, hsent, p.payload_pos, p, ps, rfl, rfl, rfl, hi⟩
    | data id m =>
      simp only [hreading] at hr hin hfull
      -- `process_stream_data`
      obtain ⟨p, ps, rfl, rfl, rfl, hb⟩ := hin
      obtain ⟨hpay, hi⟩ := append_inj (hcut.trans hb) hfull
      have hp := hpay.symm ▸ And.intro p.streamid_lt (And.intro p.payload_pos p.payload_le)
      rw [dif_pos hp] at hr
      refine ⟨.header, [], st.thread.incoming.drop n, .inr ⟨p, ⟨hreading, hpay.symm⟩, ?_, ?_⟩⟩
      · refine ⟨ps, ?_, Nat.succ_pos 5, hi⟩
        exact hsent.trans (append_cons _ _ _)
      · have hmk :
          (⟨p.streamid, st.thread.buffer ++ st.thread.incoming.take n, hp.1, hp.2.1, hp.2.2⟩ :
            Packet) = p := by
          cases p
          congr
        rw [← Option.some.inj hr, hmk]
        rfl

theorem Thread.Framed.dispatched_prefix {th : Thread} (h : th.Framed) :
    th.dispatched <+: th.sent := by
  obtain ⟨inflight, hsent, -⟩ := h
  exact ⟨inflight, hsent.symm⟩

end Pclsync.AsyncNet
