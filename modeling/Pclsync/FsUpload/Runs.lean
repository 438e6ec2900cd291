import Mathlib.Data.List.Nodup
import Mathlib.Tactic.IntervalCases
import Pclsync.FsUpload.RunTasks

/-!
# Responses in the tasks of their requests

The tasks whose requests are sent are those answered, before the second cursor, and those from it
on, of which the answers are what the reader has read of a response and what is left in the
connection, in the order of the tasks (`Inv`).

* `runTasks_sound`: as long as no task of an unknown type gets its turn, and no response is read in
  part where the loop over the tasks ends, the responses are matched with the requests.
* `not_matched`: a response of which the first bytes are read between the requests.
-/

namespace Pclsync.FsUpload

open Api List Option

variable {answer : ℕ → Payload} {s s' : State} {t : Task} {i k r : ℕ}

/-! ## Frames -/

theorem Payload.ofLE_length (p : Payload) : ofLE (toLE 4 p.bytes.length) = p.bytes.length :=
  ofLE_toLE_of_lt p.length_lt

/-- A whole response, with its length before it, is the first one. -/
theorem frame_of_flatMap {n : ℕ} {data rest : Bytes} {os : List ℕ} (hn : data.length = n)
    (hlt : n < 256 ^ 4)
    (h : toLE 4 n ++ data ++ rest = os.flatMap fun o => (answer o).frame) :
    ∃ o os', os = o :: os' ∧ data = (answer o).bytes ∧
      rest = os'.flatMap fun o => (answer o).frame := by
  cases os with
  | nil =>
    have hlen := congrArg length h
    rw [length_append, length_append, length_toLE, flatMap_nil, length_nil] at hlen
    omega
  | cons o os =>
    rw [flatMap_cons, Payload.frame, append_assoc, append_assoc] at h
    obtain ⟨hlen, hrest⟩ := append_inj h ((length_toLE 4 n).trans (length_toLE 4 _).symm)
    have hsize : n = (answer o).bytes.length := by
      rw [← ofLE_toLE_of_lt hlt, hlen, Payload.ofLE_length]
    obtain ⟨hdata, hrest⟩ := append_inj hrest (hn.trans hsize)
    exact ⟨o, os, rfl, hdata, hrest⟩

/-- What `get_result` returns where the next bytes are a response. -/
theorem getResult_frame (p : Payload) (rest : Bytes) :
    getResult (p.frame ++ rest) = some (p.bytes, rest) := by
  have htake : (p.frame ++ rest).take 4 = toLE 4 p.bytes.length := by
    rw [Payload.frame, append_assoc]
    exact take_left' (length_toLE 4 _)
  have hdrop : (p.frame ++ rest).drop 4 = p.bytes ++ rest := by
    rw [Payload.frame, append_assoc]
    exact drop_left' (length_toLE 4 _)
  have hlen : 4 ≤ (p.frame ++ rest).length := by
    rw [Payload.frame, length_append, length_append, length_toLE]
    omega
  rw [getResult, htake, hdrop, Payload.ofLE_length, if_pos, take_left' rfl, drop_left' rfl]
  refine ⟨hlen, ?_⟩
  rw [length_append]
  omega

/-! ## The second cursor -/

/-- The tasks with the flag are passed over. -/
theorem skipTasks_eq {ts : List Task} (hk : ts[k]? = some t) (hflag : t.needprocessing = false)
    (hbefore : ∀ j < k, ∀ t, ts[j]? = some t → t.needprocessing = true) :
    skipTasks ts r = some (r + k) := by
  induction ts generalizing k r with
  | nil => cases hk
  | cons u ts ih =>
    rw [skipTasks]
    cases k with
    | zero =>
      obtain rfl : u = t := some.inj hk
      rw [hflag, if_neg Bool.false_ne_true]
      rfl
    | succ k =>
      rw [if_pos (hbefore 0 (Nat.succ_pos k) u rfl),
        ih hk fun j hj t ht => hbefore (j + 1) (Nat.succ_lt_succ hj) t ht, Nat.add_right_comm,
        Nat.add_assoc]

/-! ## The invariant -/

/-- What is read of the next response, with its length. -/
def Reader.bytes : Reader → Bytes
  | .length got => got
  | .data respsize got => toLE 4 respsize ++ got

/-- There is room for what is not read. -/
def Reader.Partial : Reader → Prop
  | .length got => got.length < 4
  | .data respsize got => got.length ≤ respsize ∧ respsize < 256 ^ 4

/-- The number of tasks which had their turn. -/
def State.handled (s : State) : ℕ := if s.phase = .reading then s.task + 1 else s.task

/-- The tasks with a response are the answered ones, and the response is the answer. -/
def State.Stored (answer : ℕ → Payload) (s : State) (answered : List ℕ) : Prop :=
  ∀ i t, s.tasks[i]? = some t → (t.res ≠ none ↔ i ∈ answered) ∧
    ∀ res, t.res = some res → parseResult (answer i).bytes = some res

structure Inv (answer : ℕ → Payload) (s : State) (answered outstanding : List ℕ) : Prop where
  sent : s.sent = answered ++ outstanding
  flag : ∀ i < s.handled, ∀ t, s.tasks[i]? = some t → (t.needprocessing = false ↔ i ∈ s.sent)
  sent_lt : ∀ i ∈ s.sent, i < s.handled
  handled_le : s.handled ≤ s.tasks.length
  rtask_le : s.rtask ≤ s.handled
  before : ∀ i ∈ answered, i < s.rtask
  after : ∀ i ∈ outstanding, s.rtask ≤ i
  sorted : outstanding.Pairwise (· < ·)
  stream : s.reader.bytes ++ s.socket = outstanding.flatMap fun i => (answer i).frame
  part : s.reader.Partial
  stored : s.Stored answer answered
  received : s.received = answered.length
  draining : s.phase = .draining → s.reader = .start ∧ s.task = s.tasks.length

/-- The connection is in use. -/
def Phase.Active (p : Phase) : Prop := p = .sending ∨ p = .reading ∨ p = .draining

variable {answered outstanding : List ℕ}

/-- The first of the outstanding tasks is where the cursor stops. -/
theorem Inv.skip {o : ℕ} {os : List ℕ} (h : Inv answer s answered (o :: os)) :
    skipTasks (s.tasks.drop s.rtask) s.rtask = some o := by
  have ho : o ∈ s.sent := by
    rw [h.sent]
    exact mem_append_right _ mem_cons_self
  have hle := h.after o mem_cons_self
  have hlt := h.sent_lt o ho
  have hlen := h.handled_le
  have hget : s.tasks[o]? = some s.tasks[o] := getElem?_eq_getElem (by omega)
  have hk : (s.tasks.drop s.rtask)[o - s.rtask]? = some s.tasks[o] := by
    rw [getElem?_drop, Nat.add_sub_cancel' hle, hget]
  have hskip := skipTasks_eq (r := s.rtask) hk ((h.flag o hlt _ hget).2 ho) fun j hj t ht => ?_
  · rwa [Nat.add_sub_cancel' hle] at hskip
  · rw [getElem?_drop] at ht
    by_contra hne
    have hmem := (h.flag _ (by omega) t ht).1 (eq_false_of_ne_true hne)
    -- a task with a request after the cursor is outstanding
    rw [h.sent] at hmem
    rcases mem_append.1 hmem with hmem | hmem
    · have hbefore := h.before _ hmem
      omega
    · rcases mem_cons.1 hmem with heq | hmem
      · omega
      · have hsorted := rel_of_pairwise_cons h.sorted hmem
        omega

section

variable (h : Inv answer s answered outstanding)
include h

/-- The task for which a response is waited for is the first of the outstanding ones. -/
theorem Inv.exists_outstanding
    (hphase : s.phase = .draining) (ht : s.tasks[s.rtask]? = some t)
    (hflag : t.needprocessing = false) : ∃ os, outstanding = s.rtask :: os := by
  have htask := (h.draining hphase).2
  obtain ⟨hlt, _⟩ := List.getElem?_eq_some_iff.1 ht
  have hhandled : s.handled = s.task := if_neg (by rw [hphase]; decide)
  have hmem := (h.flag s.rtask (by omega) t ht).1 hflag
  rw [h.sent] at hmem
  rcases mem_append.1 hmem with hmem | hmem
  · exact absurd (h.before _ hmem) (Nat.lt_irrefl _)
  · obtain ⟨o, os, rfl⟩ := exists_cons_of_ne_nil (ne_nil_of_mem hmem)
    rcases mem_cons.1 hmem with heq | hmem
    · exact ⟨os, heq ▸ rfl⟩
    · have hsorted := rel_of_pairwise_cons h.sorted hmem
      have hafter := h.after o mem_cons_self
      omega

theorem Inv.mem_sent (hs : s'.sent = s.sent)
    (hstored : s'.Stored answer answered) {res : Result} (ht : s'.tasks[i]? = some t)
    (hres : t.res = some res) : i ∈ s'.sent ∧ parseResult (answer i).bytes = some res := by
  refine ⟨?_, (hstored i t ht).2 res hres⟩
  rw [hs, h.sent]
  refine mem_append_left _ ((hstored i t ht).1.1 fun hnone => ?_)
  rw [hres] at hnone
  cases hnone

/-- In use, the responses are matched, and are those of the tasks in order. -/
theorem Inv.sound (hactive : s.phase.Active) : Sound answer s where
  stored _ _ _ ht hres := h.mem_sent rfl h.stored ht hres
  released hphase := by
    rcases hactive with h | h | h <;> rw [hphase] at h <;> cases h
  waits := fun ⟨hphase, t, ht, hflag⟩ => by
    obtain ⟨os, rfl⟩ := h.exists_outstanding hphase ht hflag
    refine ⟨h.sent ▸ mem_append_right _ mem_cons_self, ?_⟩
    have hstream := h.stream
    rw [(h.draining hphase).1, flatMap_cons] at hstream
    exact ⟨_, hstream⟩
  aborted hphase := by
    rcases hactive with h | h | h <;> rw [hphase] at h <;> cases h

/-- Where the connection is released as bad, or the process crashes, the stored responses are
    right. -/
theorem Inv.sound_bad
    (hphase : s'.phase = .releasedBad ∨ s'.phase = .crashed) (hsent : s'.sent = s.sent)
    (hstored : s'.Stored answer answered) : Sound answer s' where
  stored _ _ _ ht hres := h.mem_sent hsent hstored ht hres
  released hrel := by rcases hphase with h | h <;> rw [hrel] at h <;> cases h
  waits := fun ⟨hdrain, _⟩ => by rcases hphase with h | h <;> rw [hdrain] at h <;> cases h
  aborted hab := by rcases hphase with h | h <;> rw [hab] at h <;> cases h

end

/-! ## Sending -/

theorem exists_of_modify {f : Task → Task} {ts : List Task} (h : (ts.modify k f)[i]? = some t) :
    ∃ u, ts[i]? = some u ∧ t = if k = i then f u else u := by
  rw [getElem?_modify] at h
  obtain ⟨u, hu, heq⟩ := map_eq_some_iff.1 h
  exact ⟨u, hu, heq.symm⟩

/-- The stored responses, where tasks change in other things. -/
theorem State.Stored.modify (f : Task → Task) (h : s.Stored answer answered)
    (hf : ∀ t, (f t).res = t.res) (htasks : s'.tasks = s.tasks.modify k f) :
    s'.Stored answer answered := by
  intro i t ht
  rw [htasks] at ht
  obtain ⟨u, hu, rfl⟩ := exists_of_modify ht
  split
  · rw [hf]
    exact h i u hu
  · exact h i u hu

section

variable (h : Inv answer s answered outstanding)
include h

theorem Inv.stored_setNeedprocessing (b : Bool) : (s.setNeedprocessing b).Stored answer answered :=
  .modify (fun t => { t with needprocessing := b }) h.stored (fun _ => rfl) rfl

/-- A task which does not send a request has had its turn. -/
theorem Inv.pass (hphase : s.phase = .sending) (hlt : s.task < s.tasks.length) (n : ℕ) :
    Inv answer { (s.setNeedprocessing true).next with np := n } answered outstanding := by
  have hhandled : s.handled = s.task := if_neg (by rw [hphase]; decide)
  refine { h with
    flag := fun i hi t ht => ?_
    sent_lt := fun i hi => Nat.lt_succ_of_lt (hhandled ▸ h.sent_lt i hi)
    handled_le := ?_
    rtask_le := Nat.le_succ_of_le (hhandled ▸ h.rtask_le)
    stored := h.stored_setNeedprocessing true
    draining := fun hd => by cases hd }
  · have hi : i < s.task + 1 := hi
    have ht : (s.tasks.modify s.task fun t => { t with needprocessing := true })[i]? = some t := ht
    obtain ⟨u, hu, rfl⟩ := exists_of_modify ht
    split
    · rename_i heq
      refine ⟨fun hf => (by cases hf), fun hmem => ?_⟩
      have hlt := h.sent_lt i hmem
      omega
    · exact h.flag i (by omega) u hu
  · show s.task + 1 ≤ (s.tasks.modify _ _).length
    rw [length_modify]
    exact hlt

theorem Inv.request (hphase : s.phase = .sending) (hlt : s.task < s.tasks.length) (creat : Bool) :
    Inv answer ((s.setNeedprocessing false).request answer creat) answered
      (outstanding ++ [s.task]) := by
  have hhandled : s.handled = s.task := if_neg (by rw [hphase]; decide)
  have hsent : ((s.setNeedprocessing false).request answer creat).sent = s.sent ++ [s.task] := rfl
  have hlast : ∀ i ∈ outstanding, i < s.task := fun i hi => by
    have := h.sent_lt i (h.sent ▸ mem_append_right _ hi)
    omega
  refine { h with
    sent := by rw [hsent, h.sent, append_assoc]
    flag := fun i hi t ht => ?_
    sent_lt := fun i hi => ?_
    handled_le := ?_
    rtask_le := Nat.le_succ_of_le (hhandled ▸ h.rtask_le)
    after := fun i hi => ?_
    sorted := pairwise_append.2 ⟨h.sorted, pairwise_singleton _ _, fun a ha b hb => ?_⟩
    stream := ?_
    stored := .modify (fun t => { t with ccreat := creat || t.ccreat })
      (h.stored_setNeedprocessing false) (fun _ => rfl) rfl
    draining := fun hd => by cases hd }
  · have hi : i < s.task + 1 := hi
    have ht : ((s.tasks.modify s.task fun t => { t with needprocessing := false }).modify s.task
      fun t => { t with ccreat := creat || t.ccreat })[i]? = some t := ht
    obtain ⟨v, hv, rfl⟩ := exists_of_modify ht
    obtain ⟨u, hu, rfl⟩ := exists_of_modify hv
    rw [hsent, mem_append, mem_singleton]
    split
    · rename_i heq
      exact ⟨fun _ => .inr heq.symm, fun _ => rfl⟩
    · rename_i hne
      rw [h.flag i (by omega) u hu]
      exact ⟨.inl, fun hor => hor.resolve_right fun heq => hne heq.symm⟩
  · show i < s.task + 1
    rw [hsent, mem_append, mem_singleton] at hi
    rcases hi with hi | rfl
    · exact Nat.lt_succ_of_lt (hhandled ▸ h.sent_lt i hi)
    · exact Nat.lt_succ_self _
  · show s.task + 1 ≤ ((s.tasks.modify _ _).modify _ _).length
    rw [length_modify, length_modify]
    exact hlt
  · rcases mem_append.1 hi with hi | hi
    · exact h.after i hi
    · obtain rfl := mem_singleton.1 hi
      exact hhandled ▸ h.rtask_le
  · obtain rfl := mem_singleton.1 hb
    exact hlast a ha
  · show s.reader.bytes ++ (s.socket ++ (answer s.task).frame) = _
    rw [← append_assoc, h.stream, flatMap_append, flatMap_singleton]

/-! ## Reading -/

theorem Inv.next (hphase : s.phase = .reading) : Inv answer s.next answered outstanding := by
  have hhandled : s.next.handled = s.handled := (if_pos hphase).symm
  exact { h with
    flag := hhandled ▸ h.flag
    sent_lt := hhandled ▸ h.sent_lt
    handled_le := hhandled ▸ h.handled_le
    rtask_le := hhandled ▸ h.rtask_le
    draining := fun hd => by cases hd }

theorem Inv.take {reader : Reader} {socket : Bytes} (hphase : s.phase = .reading)
    (hbytes : reader.bytes ++ socket = s.reader.bytes ++ s.socket) (hpart : reader.Partial) :
    Inv answer { s with reader, socket } answered outstanding :=
  { h with
    stream := hbytes.trans h.stream
    part := hpart
    draining := fun hd => by
      have hd : s.phase = .draining := hd
      rw [hphase] at hd
      cases hd }

end

/-- The response of the first outstanding task is stored in it. -/
theorem Inv.store {o : ℕ} {os : List ℕ} {socket : Bytes} {res : Result}
    (h : Inv answer s answered (o :: os))
    (hsocket : socket = os.flatMap fun i => (answer i).frame)
    (hres : parseResult (answer o).bytes = some res) :
    Inv answer ({ s with reader := .start, socket }.store o res) (answered ++ [o]) os := by
  have ho : o ∈ s.sent := by
    rw [h.sent]
    exact mem_append_right _ mem_cons_self
  have hle := h.after o mem_cons_self
  have hmodify : ∀ i t, ({ s with reader := .start, socket }.store o res).tasks[i]? = some t →
      ∃ u, s.tasks[i]? = some u ∧ t.needprocessing = u.needprocessing ∧
        (i = o → t.res = some res) ∧ (i ≠ o → t.res = u.res) := by
    intro i t ht
    have ht : (s.tasks.modify o fun t => { t with res := some res })[i]? = some t := ht
    obtain ⟨u, hu, rfl⟩ := exists_of_modify ht
    refine ⟨u, hu, ?_⟩
    split
    · rename_i heq
      exact ⟨rfl, fun _ => rfl, fun hne => absurd heq.symm hne⟩
    · rename_i hne
      exact ⟨rfl, fun heq => absurd heq.symm hne, fun _ => rfl⟩
  refine { h with
    sent := by rw [append_assoc]; exact h.sent
    flag := fun i hi t ht => ?_
    handled_le := ?_
    rtask_le := h.sent_lt o ho
    before := fun i hi => ?_
    after := fun i hi => rel_of_pairwise_cons h.sorted hi
    sorted := (pairwise_cons.1 h.sorted).2
    stream := hsocket
    part := Nat.zero_lt_succ 3
    stored := fun i t ht => ?_
    received := ?_
    draining := fun hd => ⟨rfl, ?_⟩ }
  · obtain ⟨u, hu, hflag, _⟩ := hmodify i t ht
    rw [hflag]
    exact h.flag i hi u hu
  · show s.handled ≤ (s.tasks.modify _ _).length
    rw [length_modify]
    exact h.handled_le
  · show i < o + 1
    rcases mem_append.1 hi with hi | hi
    · have hbefore := h.before i hi
      omega
    · obtain rfl := mem_singleton.1 hi
      exact Nat.lt_succ_self _
  · obtain ⟨u, hu, _, hself, hother⟩ := hmodify i t ht
    rw [mem_append, mem_singleton]
    rcases Decidable.em (i = o) with rfl | hne
    · rw [hself rfl]
      exact ⟨⟨fun _ => .inr rfl, fun _ hc => by cases hc⟩, fun res' hres' =>
        some.inj hres' ▸ hres⟩
    · rw [hother hne, (h.stored i u hu).1]
      exact ⟨⟨.inl, fun hor => hor.resolve_right hne⟩, (h.stored i u hu).2⟩
  · show s.received + 1 = _
    rw [h.received, length_append, length_singleton]
  · show s.task = (s.tasks.modify _ _).length
    rw [length_modify]
    exact (h.draining hd).2

/-! ## Steps -/

/-- The responses are matched. As long as the connection is in use, the invariant holds, and it is
    released as good when every task had its turn. -/
structure Good (answer : ℕ → Payload) (s : State) : Prop where
  sound : Sound answer s
  active : s.phase.Active → ∃ answered outstanding, Inv answer s answered outstanding
  ended : s.phase = .released → s.tasks.length ≤ s.task

section

variable (h : Inv answer s answered outstanding)
include h

theorem Inv.good (hactive : s.phase.Active) : Good answer s := by
  refine ⟨h.sound hactive, fun _ => ⟨answered, outstanding, h⟩, fun hphase => ?_⟩
  rcases hactive with ha | ha | ha <;> rw [hphase] at ha <;> cases ha

theorem Inv.good_bad
    (hphase : s'.phase = .releasedBad ∨ s'.phase = .crashed) (hsent : s'.sent = s.sent)
    (hstored : s'.Stored answer answered) : Good answer s' := by
  refine ⟨h.sound_bad hphase hsent hstored, fun hactive => ?_, fun hr => ?_⟩
  · rcases hactive with ha | ha | ha <;> rcases hphase with hp | hp <;> rw [hp] at ha <;> cases ha
  · rcases hphase with hp | hp <;> rw [hp] at hr <;> cases hr

theorem Inv.good_send (hphase : s.phase = .sending)
    (ht : s.tasks[s.task]? = some t) (hknown : t.Known) (size : Option ℕ) (written : Bool) :
    Good answer (s.send answer size written t) := by
  obtain ⟨hlt, _⟩ := List.getElem?_eq_some_iff.1 ht
  rw [State.send, if_neg (not_not_intro hknown)]
  split
  · exact (h.pass hphase hlt s.np).good (.inl rfl)
  · split
    · exact h.good_bad (.inr rfl) rfl (h.stored_setNeedprocessing false)
    · exact h.good_bad (.inl rfl) rfl (h.stored_setNeedprocessing false)
    · exact (h.pass hphase hlt (s.np + 1)).good (.inl rfl)
    · exact (h.request hphase hlt _).good (.inr (.inl rfl))

theorem Inv.good_receive {respsize : ℕ} {got socket : Bytes} (hphase : s.phase = .reading)
    (hlen : got.length = respsize) (hlt : respsize < 256 ^ 4)
    (hbytes : toLE 4 respsize ++ got ++ socket = s.reader.bytes ++ s.socket) :
    Good answer ({ s with reader := .start, socket }.receive got) := by
  obtain ⟨o, os, rfl, hgot, hsocket⟩ := frame_of_flatMap hlen hlt (hbytes.trans h.stream)
  rw [State.receive]
  split
  · exact h.good_bad (.inl rfl) rfl h.stored
  · rename_i res hres
    have hskip : skipTasks (s.tasks.drop s.rtask) s.rtask = some o := h.skip
    dsimp only
    rw [hskip]
    exact (h.store hsocket (hgot ▸ hres)).good (.inr (.inl hphase))

theorem Inv.good_addBytes {bytes socket : Bytes}
    (hphase : s.phase = .reading) (hsocket : bytes ++ socket = s.socket)
    (hroom : bytes.length ≤ s.reader.toread - s.reader.got.length) :
    Good answer ({ s with socket }.addBytes bytes) := by
  have hpart := h.part
  rw [State.addBytes]
  cases hreader : s.reader with
  | length got =>
    rw [hreader] at hpart hroom
    have hlen : (got ++ bytes).length = got.length + bytes.length := length_append
    have hbytes : got ++ bytes ++ socket = s.reader.bytes ++ s.socket := by
      rw [append_assoc, hsocket, hreader, Reader.bytes]
    dsimp only
    split
    · -- the length is complete
      rename_i hfull
      have hnew : (Reader.data (ofLE (got ++ bytes)) []).bytes ++ socket =
          s.reader.bytes ++ s.socket := by
        rw [Reader.bytes, toLE_ofLE hfull, append_nil, hbytes]
      have hlt := ofLE_lt (got ++ bytes)
      rw [hfull] at hlt
      exact (h.take hphase hnew ⟨Nat.zero_le _, hlt⟩).good (.inr (.inl hphase))
    · rename_i hshort
      have hgot : got.length < 4 := hpart
      have hroom : bytes.length ≤ 4 - got.length := hroom
      have hnew : (Reader.length (got ++ bytes)).Partial :=
        (by omega : (got ++ bytes).length < 4)
      exact ((h.take hphase hbytes hnew).next hphase).good (.inl rfl)
  | data respsize got =>
    rw [hreader] at hpart hroom
    obtain ⟨hgot, hlt⟩ := hpart
    have hlen : (got ++ bytes).length = got.length + bytes.length := length_append
    have hroom : bytes.length ≤ respsize - got.length := hroom
    have hbytes : toLE 4 respsize ++ (got ++ bytes) ++ socket = s.reader.bytes ++ s.socket := by
      rw [hreader, Reader.bytes, append_assoc, append_assoc, append_assoc, hsocket]
    dsimp only
    split
    · rename_i hfull
      exact h.good_receive hphase hfull hlt hbytes
    · have hnew : (Reader.data respsize (got ++ bytes)).Partial :=
        ⟨(by omega : (got ++ bytes).length ≤ respsize), hlt⟩
      exact ((h.take hphase hbytes hnew).next hphase).good (.inl rfl)

theorem Inv.good_read {r : Read}
    (hphase : s.phase = .reading) (hs : s.read r = some s') : Good answer s' := by
  cases r with
  | wouldblock =>
    rw [State.read] at hs
    split at hs
    · cases hs
    · obtain ⟨⟩ := hs
      exact (h.next hphase).good (.inl rfl)
  | closed =>
    obtain ⟨⟩ := hs
    exact h.good_bad (.inl rfl) rfl h.stored
  | bytes n =>
    rw [State.read] at hs
    split at hs
    · rename_i hn
      obtain ⟨_, hroom, hle⟩ := hn
      obtain ⟨⟩ := hs
      refine h.good_addBytes hphase (take_append_drop n s.socket) ?_
      rwa [length_take, Nat.min_eq_left hle]
    · cases hs

/-- The second cursor passes over a task without a request. -/
theorem Inv.passOver (hphase : s.phase = .draining)
    (ht : s.tasks[s.rtask]? = some t) (hflag : t.needprocessing = true) :
    Inv answer { s with rtask := s.rtask + 1 } answered outstanding := by
  obtain ⟨hlt, _⟩ := List.getElem?_eq_some_iff.1 ht
  have htask := (h.draining hphase).2
  have hhandled : s.handled = s.task := if_neg (by rw [hphase]; decide)
  refine { h with
    rtask_le := (by omega : s.rtask + 1 ≤ s.handled)
    before := fun i hi => Nat.lt_succ_of_lt (h.before i hi)
    after := fun i hi => Nat.lt_of_le_of_ne (h.after i hi) ?_ }
  rintro rfl
  have hf := (h.flag s.rtask (by omega) t ht).2 (h.sent ▸ mem_append_right _ hi)
  rw [hflag] at hf
  cases hf

theorem Inv.good_drain {ok : Bool}
    (hphase : s.phase = .draining) (hs : s.drain ok = some s') : Good answer s' := by
  obtain ⟨hstart, htask⟩ := h.draining hphase
  have hhandled : s.handled = s.task := if_neg (by rw [hphase]; decide)
  rw [State.drain] at hs
  split at hs
  · -- every task is passed
    rename_i hnone
    obtain ⟨⟩ := hs
    have hge := getElem?_eq_none_iff.1 hnone
    have hnil : outstanding = [] := eq_nil_iff_forall_not_mem.2 fun i hi => by
      have hafter := h.after i hi
      have hlt := h.sent_lt i (h.sent ▸ mem_append_right _ hi)
      omega
    subst hnil
    have hsent : s.sent = answered := h.sent.trans (append_nil _)
    have hstream := h.stream
    rw [hstart] at hstream
    refine ⟨⟨fun i t res ht hres => h.mem_sent rfl h.stored ht hres, fun _ => ?_,
      fun ⟨hd, _⟩ => (by cases hd), fun ha => by cases ha⟩, fun ha => ?_,
      fun _ => htask ▸ Nat.le_refl _⟩
    · refine ⟨h.received.trans (congrArg _ hsent.symm), hstream, hstart, fun i hi => ?_⟩
      have hi' : i < s.tasks.length := Nat.lt_of_lt_of_le (h.sent_lt i hi) h.handled_le
      have hget : s.tasks[i]? = some s.tasks[i] := getElem?_eq_getElem hi'
      exact ⟨_, hget, (h.stored i _ hget).1.2 (hsent ▸ hi)⟩
    · rcases ha with ha | ha | ha <;> cases ha
  · rename_i t ht
    split at hs
    · rename_i hflag
      obtain ⟨⟩ := hs
      exact (h.passOver hphase ht hflag).good (.inr (.inr hphase))
    · rename_i hflag
      obtain ⟨os, rfl⟩ := h.exists_outstanding hphase ht (eq_false_of_ne_true hflag)
      have hstream := h.stream
      rw [hstart, flatMap_cons] at hstream
      have hsocket : s.socket = (answer s.rtask).frame ++ os.flatMap fun i => (answer i).frame :=
        hstream
      split at hs
      · rw [hsocket, getResult_frame, map_some] at hs
        obtain ⟨⟩ := hs
        dsimp only
        split
        · exact h.good_bad (.inl rfl) rfl h.stored
        · rename_i res hres
          have hstore := h.store rfl hres
          rw [← hstart] at hstore
          exact hstore.good (.inr (.inr hphase))
      · obtain ⟨⟩ := hs
        exact h.good_bad (.inl rfl) rfl h.stored

end

theorem good_step {a : Action} (h : Good answer s) (hregular : Regular s a)
    (hs : step answer s a = some s') : Good answer s' := by
  cases a with
  | send size written =>
    rw [step] at hs
    split at hs
    · rename_i hphase
      obtain ⟨t, ht, rfl⟩ := map_eq_some_iff.1 hs
      obtain ⟨answered, outstanding, hinv⟩ := h.active (.inl hphase)
      exact hinv.good_send hphase ht (hregular t ht) size written
    · cases hs
  | read r =>
    rw [step] at hs
    split at hs
    · rename_i hphase
      obtain ⟨answered, outstanding, hinv⟩ := h.active (.inr (.inl hphase))
      exact hinv.good_read hphase hs
    · cases hs
  | endSend =>
    rw [step] at hs
    split at hs
    · rename_i hend
      obtain ⟨hphase, hle⟩ := hend
      obtain ⟨⟩ := hs
      obtain ⟨answered, outstanding, hinv⟩ := h.active (.inl hphase)
      have hhandled : s.handled = s.task := if_neg (by rw [hphase]; decide)
      have hlen := hinv.handled_le
      have hdraining : State.handled { s with phase := .draining } = s.handled := hhandled.symm
      have hinv' : Inv answer { s with phase := .draining } answered outstanding :=
        { hinv with
          flag := hdraining ▸ hinv.flag
          sent_lt := hdraining ▸ hinv.sent_lt
          handled_le := hdraining ▸ hinv.handled_le
          rtask_le := hdraining ▸ hinv.rtask_le
          draining := fun _ => ⟨hregular, (by omega : s.task = s.tasks.length)⟩ }
      exact hinv'.good (.inr (.inr rfl))
    · cases hs
  | drain ok =>
    rw [step] at hs
    split at hs
    · rename_i hphase
      obtain ⟨answered, outstanding, hinv⟩ := h.active (.inr (.inr hphase))
      exact hinv.good_drain hphase hs
    · cases hs

theorem good_start {tasks : List Task} (h : ∀ t ∈ tasks, t.res = none) :
    Good answer (.start tasks) := by
  have hinv : Inv answer (.start tasks) [] [] :=
    { sent := rfl
      flag := fun i hi => absurd hi (Nat.not_lt_zero i)
      sent_lt := forall_mem_nil _
      handled_le := Nat.zero_le _
      rtask_le := Nat.le_refl _
      before := forall_mem_nil _
      after := forall_mem_nil _
      sorted := .nil
      stream := rfl
      part := Nat.zero_lt_succ 3
      stored := fun i t ht => by
        have hres := h t (mem_of_getElem? ht)
        exact ⟨⟨fun hne => absurd hres hne, fun hi => absurd hi not_mem_nil⟩, fun res hr => by
          rw [hres] at hr
          cases hr⟩
      received := rfl
      draining := fun hd => by cases hd }
  exact hinv.good (.inl rfl)

theorem good (h : (machine answer).Reachable Regular s) : Good answer s :=
  h.invariant (fun _ ⟨_, hres, hs⟩ => hs ▸ good_start hres) fun _ _ _ hg hok hs =>
    good_step hg hok hs

/-- As long as no task of an unknown type gets its turn, and no response is read in part where the
    loop over the tasks ends, the responses are matched with the requests. -/
theorem runTasks_sound (h : (machine answer).Reachable Regular s) : Sound answer s :=
  (good h).sound

/-! ## Examples -/

/-- A task to make a folder. -/
def mkdir : Task := ⟨1, 0, none, false, true⟩

/-- A hash with a number of five bytes. -/
def numberPayload : Payload := ⟨[16, 101, 97, 12, 1, 0, 0, 0, 200, 255], by decide⟩

/-- The machine with this answer to every request. -/
abbrev numberMachine : Machine State Action := machine fun _ => numberPayload

/-- A task to upload changes, which is done later. -/
def modify : Task := ⟨9, 0, none, false, false⟩

/-- The request of the first task is sent, and the one after it is left for later. -/
def deferred : State :=
  ⟨[{ mkdir with needprocessing := false }, { modify with needprocessing := true }, mkdir], 2, 0, 1,
    .start, .sending, numberPayload.frame, [0], 0⟩

/-- The request of the last task is sent as well, and the responses are waited for. -/
def waiting : State :=
  { deferred with
    tasks := [{ mkdir with needprocessing := false }, { modify with needprocessing := true },
      { mkdir with needprocessing := false }]
    task := 3
    phase := .draining
    socket := numberPayload.frame ++ numberPayload.frame
    sent := [0, 2] }

/-- Both responses are read after the last request. -/
theorem runTasks_sound_deferred :
    ∃ s : State, s.phase = .released ∧ s.sent = [0, 2] ∧ s.received = 2 ∧
      Sound (fun _ => numberPayload) s := by
  have hknown : ∀ s : State, s.tasks[s.task]? = some mkdir ∨ s.tasks[s.task]? = some modify →
      ∀ t, s.tasks[s.task]? = some t → t.Known := by
    rintro s (hs | hs) t ht <;> obtain rfl := some.inj (hs.symm.trans ht) <;> decide
  have h : numberMachine.Reachable Regular (.start [mkdir, modify, mkdir]) :=
    .init ⟨[mkdir, modify, mkdir], by simp [mkdir, modify], rfl⟩
  replace h := h.next (.send none true) (hknown _ (.inl rfl)) rfl
  replace h := h.next (.read .wouldblock) trivial rfl
  replace h := h.next (.send none true) (hknown _ (.inr rfl)) rfl
  replace h := h.next (.send none true) (hknown _ (.inl rfl)) rfl
  replace h := h.next (.read .wouldblock) trivial rfl
  replace h := h.next .endSend rfl rfl
  have hrun : (numberMachine.run waiting (replicate 4 (.drain true))).map
      (fun s => (s.phase, s.sent, s.received)) = some (.released, [0, 2], 2) := by decide +kernel
  obtain ⟨s, hs, heq⟩ := map_eq_some_iff.1 hrun
  replace h : numberMachine.Reachable Regular s :=
    h.of_run_of (fun a ha s => by
      obtain rfl := eq_of_mem_replicate ha
      trivial) hs
  simp only [Prod.mk.injEq] at heq
  exact ⟨s, heq.1, heq.2.1, heq.2.2, runTasks_sound h⟩

/-- The first eight bytes are read between the requests: after them, `get_result` takes four bytes
    of the number for a length and stores what follows, and one byte is left in the connection. -/
theorem not_matched :
    ¬ ∀ s, numberMachine.Reachable (fun _ _ => True) s → Sound (fun _ => numberPayload) s := by
  intro hall
  have hrun : (numberMachine.run (.start [mkdir]) [.send none true, .read (.bytes 4),
      .read (.bytes 4), .endSend, .drain true, .drain true]).map
      (fun s => (s.phase, s.socket)) = some (.released, [255]) := by decide
  obtain ⟨s, hs, heq⟩ := map_eq_some_iff.1 hrun
  have hinit : numberMachine.init (.start [mkdir]) := ⟨[mkdir], by simp [mkdir], rfl⟩
  have hreleased := (hall s (.of_run (.init hinit) hs)).released (congrArg Prod.fst heq)
  have hsocket : s.socket = [255] := congrArg Prod.snd heq
  rw [hsocket] at hreleased
  cases hreleased.2.1

end Pclsync.FsUpload
