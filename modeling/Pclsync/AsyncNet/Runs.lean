import Pclsync.AsyncNet.Downloads

/-!
# Runs of the async transfer thread

What the thread does in every state of a run (`Correct`), when the steps keep the conditions
(`Keeps`): `downloads_correct`. Without them a run stores a size that was not passed in, reports an
empty file as complete whatever its checksum, or calls the callback of a task that was refused.
-/

namespace Pclsync.AsyncNet

open List

variable (sha1hex : List UInt8 → List UInt8)

structure Correct (st : State) : Prop where
  /-- The packets are read as they were sent. -/
  packets : st.thread.dispatched <+: st.thread.sent
  /-- A stream is given the payload of its packets. -/
  delivered : ∀ s ∈ st.thread.streams.toList, s.received = st.thread.own s
  delivered_all : ∀ c ∈ st.callbacks, c.received = c.own
  /-- The callback of a task that was taken is called once, at the latest when the thread ends. -/
  once : ∀ id sub, st.submissions[id]? = some sub → sub.returned = some 0 →
    st.callbacks.countP (fun c => c.task = id) +
      st.thread.streams.toList.countP (fun s => s.active = true ∧ s.task = id) = 1
  ended : st.phase = .none → st.thread.streams = .nil
  /-- The callback of a task that was refused is not called. -/
  never : ∀ id sub ret, st.submissions[id]? = some sub → sub.returned = some ret → ret ≠ 0 →
    (∀ c ∈ st.callbacks, c.task ≠ id) ∧
      ∀ s ∈ st.thread.streams.toList, s.active = true → s.task ≠ id
  success : ∀ c ∈ st.callbacks, c.error = 0 → c.Complete sha1hex
  rows : ∀ w ∈ st.stored, ∃ t, st.task? w.task = some t ∧ w.Announced t

variable {sha1hex} {st : State}

theorem Inv.correct (hf : st.thread.Framed) (h : Inv sha1hex st) : Correct sha1hex st where
  packets := hf.dispatched_prefix
  delivered s hs := (h.own s hs).1
  delivered_all c hc := (h.callbacks c hc).1
  once id sub hsub hret := by
    rw [h.counts id, State.owed, hsub]
    simp [hret]
  ended hl := by
    rw [h.idle hl]
    rfl
  never id sub ret hsub hret hne := by
    have hpend : st.pending ≠ some id := by
      intro hp
      have hshake := h.handshake
      rw [State.Handshake, hp] at hshake
      obtain ⟨⟨sub', hsub', hnone⟩, -⟩ := hshake
      rw [hsub] at hsub'
      cases hsub'
      rw [hnone] at hret
      cases hret
    have hcount := h.counts id
    rw [State.owed, hsub, if_neg (by simp [hret, hne, hpend]), Nat.add_eq_zero_iff,
      countP_eq_zero, countP_eq_zero] at hcount
    refine ⟨fun c hc he => hcount.1 c hc (by simpa using he), fun s hs hact he => ?_⟩
    exact hcount.2 s hs (by simpa using ⟨hact, he⟩)
  success c hc := (h.callbacks c hc).2
  rows := h.rows

theorem downloads_correct (h : (system sha1hex).Reachable (Keeps sha1hex) st) :
    Correct sha1hex st := by
  have hinv : st.thread.Framed ∧ Inv sha1hex st := by
    refine h.invariant (P := fun st => st.thread.Framed ∧ Inv sha1hex st) ?_ ?_
    · rintro st ⟨files, rfl⟩
      exact ⟨framed_idle, inv_start sha1hex files⟩
    · exact fun st a st' ⟨hf, hi⟩ hok hs => inv_step hf hi hok hs
  exact hinv.2.correct hinv.1

/-! ## A download -/

/-- The bytes of a response without an error, to a client which has an old revision. -/
def respBytes (size : ℕ) (sha1 : List UInt8) : List UInt8 :=
  toLE 4 0 ++ toLE 4 0 ++ toLE 8 size ++ toLE 8 5 ++ toLE 8 9 ++ toLE 8 4 ++ toLE 8 3 ++ sha1

def demoStart : State := start fun _ => none

def digest (_ : List UInt8) : List UInt8 := replicate 40 48

/-- The state after a run from the start. -/
def after (as : List Action) : State := ((system digest).run demoStart as).getD demoStart

/-- A file of one byte is downloaded; the file which was there had `size` bytes. -/
def oneDownload (size : ℕ) : List Action :=
  [.submit ⟨7, "a", some ⟨size, []⟩⟩ true, .handleCommand true true 0 [], .answer,
    .send ⟨1, respBytes 1 (digest []) ++ [42], by decide, by decide, by decide⟩,
    .receive 6 ⟨true, none⟩, .receive 89 ⟨true, none⟩]

theorem downloads_correct_one : (after (oneDownload 44)).callbacks.length = 1 ∧
    Correct digest (after (oneDownload 44)) := by
  have hruns : (system digest).Runs (Keeps digest) demoStart (oneDownload 44)
      (after (oneDownload 44)) :=
    .cons (forall_mem_nil _) rfl <| .cons ⟨rfl, by decide⟩ rfl <| .cons trivial rfl <|
    .cons trivial rfl <| .cons (fun p hp => by
      have hreading : Reading.header = .data p.streamid p.payload.length := hp.1
      cases hreading) rfl <|
    .cons (fun p hp s hs _ _ _ => by
      have hpay : p.payload = respBytes 1 (digest []) ++ [42] := hp.2
      rw [hpay]
      refine ⟨⟨by decide, fun _ h => absurd h (by decide)⟩, fun t ht _ _ => ?_⟩
      obtain rfl := mem_singleton.1 hs
      cases ht
      exact ⟨⟨44, []⟩, rfl, by decide⟩) rfl .nil
  exact ⟨rfl, downloads_correct (.runs (.init ⟨_, rfl⟩) hruns)⟩

/-! ## Defects -/

/-- The size of the old file is cut to a byte. -/
theorem old_size_truncated : ∃ st, (system digest).Reachable (fun _ _ => True) st ∧
    ¬ Correct digest st := by
  refine ⟨after (oneDownload 300), .of_run (.init ⟨_, rfl⟩)
    (rfl : (system digest).run demoStart (oneDownload 300) = some (after (oneDownload 300))),
    fun h => ?_⟩
  obtain ⟨t, ht, hann⟩ := h.rows _ (mem_singleton.2 rfl :
    ⟨0, [respBytes 1 (digest []) ++ [42]], [⟨5, 1, digest []⟩, ⟨4, 44, []⟩],
        [⟨7, 5, 9, 1⟩, ⟨7, 4, 3, 44⟩]⟩
      ∈
      (after (oneDownload 300)).stored)
  cases ht
  exact absurd hann.hashchecksum (by decide)

end Pclsync.AsyncNet
