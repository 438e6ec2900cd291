import Pclsync.AsyncNet.Streams
import Mathlib.Data.List.Nodup

/-!
# The downloads of the async transfer thread

What holds in every state of the system: every stream gets the payload of its packets, a task that
was taken gets its callback once, a callback without an error is a complete download, and the rows
stored hold what was announced and passed in (`Correct`). It holds in the runs whose steps keep the
conditions that the code relies on (`Keeps`).

* `Inv`: the invariant; `inv_step` says that every step keeps it.
* `downloads_correct`: the theorem about runs.
-/

namespace Pclsync.AsyncNet

open List Option

variable (sha1hex : List UInt8 → List UInt8)

/-! ## Tasks -/

def State.task? (st : State) (id : TaskId) : Option Task := st.submissions[id]?.map (·.task)

/-- The rows of `hashchecksum` for a response: of the file that is announced, and of the old file
    when the server knows it and it was passed in. -/
def Task.hashRows (t : Task) (r : Resp) : List HashRow :=
  ⟨r.hash, r.size, r.sha1hex⟩ ::
    if r.oldmtime ≠ 0 then t.old.toList.map fun old => ⟨r.oldhash, old.size, old.sha1hex⟩ else []

/-- The rows of `filerevision` for a response. -/
def Task.revisionRows (t : Task) (r : Resp) : List RevisionRow :=
  ⟨t.fileid, r.hash, r.mtime, r.size⟩ ::
    if r.oldmtime ≠ 0 then t.old.toList.map fun old => ⟨t.fileid, r.oldhash, r.oldmtime, old.size⟩
    else []

/-- The size passed in fits into an `unsigned char`, when it is stored. -/
def Task.Fits (t : Task) (r : Resp) : Prop :=
  r.error = 0 → r.oldmtime ≠ 0 → ∃ old, t.old = some old ∧ old.size < 2 ^ 8

/-- The rows are those of the task for the response in the packets of the stream. -/
structure Stored.Announced (t : Task) (w : Stored) : Prop where
  hashchecksum : w.hashchecksum = t.hashRows (announced w.own)
  filerevision : w.filerevision = t.revisionRows (announced w.own)

/-- A stream has the arguments of its task. -/
structure Stream.Performs (t : Task) (s : Stream) : Prop where
  localpath : s.localpath = t.localpath
  fileid : s.fileid = t.fileid
  old : ∀ old, t.old = some old → s.osize = old.size % 2 ^ 8 ∧ s.osha1hex = old.sha1hex

theorem storeResp_announced {st : State} {s : Stream} {t : Task} (hs : s.Performs t)
    (ht : t.Fits (announced (st.thread.own s)))
    (herr : (announced (st.thread.own s)).error = 0) :
    ∀ w ∈ (st.storeResp s (announced (st.thread.own s))).stored,
      w ∈ st.stored ∨ w.task = s.task ∧ w.Announced t := by
  intro w hw
  rcases mem_append.1 hw with hw | hw
  · exact .inl hw
  obtain rfl := mem_singleton.1 hw
  refine .inr ⟨rfl, ?_, ?_⟩ <;> dsimp only [Task.hashRows, Task.revisionRows]
  all_goals
    by_cases hold : (announced (st.thread.own s)).oldmtime = 0
    · simp [hold, hs.fileid]
    · obtain ⟨old, htold, hsize⟩ := ht herr hold
      obtain ⟨hosize, hosha⟩ := hs.old old htold
      rw [Nat.mod_eq_of_lt hsize] at hosize
      simp [hold, htold, hosize, hosha, hs.fileid]

/-! ## The conditions -/

/-- The conditions of the steps. The submitter does not stop waiting and the thread can answer it,
    numbers of streams do not come again, no two open streams are for one file, and the server
    sends responses that are handled well. -/
def Keeps (st : State) : Action → Prop
  | .submit task _ => ∀ s ∈ st.thread.streams.toList, s.localpath ≠ task.localpath
  | .timeout => False
  | .handleCommand _ replied _ _ => replied = true ∧ st.thread.laststreamid + 1 < 2 ^ 32
  | .receive n _ => ∀ p, st.thread.Completes n p → ∀ s ∈ st.thread.streams.toList,
      s.streamid = p.streamid → s.headers = true → respLen ≤ p.payload.length →
        (announced [p.payload]).Fine sha1hex ∧
          ∀ t, st.task? s.task = some t → t.Fits (announced [p.payload])
  | _ => True

/-! ## The invariant -/

/-- The number of callbacks that a task has had or will have. -/
def State.owed (st : State) (id : TaskId) : ℕ :=
  if st.submissions[id]?.any (fun sub => sub.returned = some 0) = true ∨
    st.pending = some id ∧ st.thread.replies = [true] then 1 else 0

/-- What is in the pair of sockets. -/
def State.Handshake (st : State) : Prop :=
  match st.pending with
  | none => st.thread.commands = [] ∧ st.thread.replies = []
  | some id => (∃ sub, st.submissions[id]? = some sub ∧ sub.returned = none) ∧
      (st.thread.commands = [id] ∧ st.thread.replies = [] ∨
        st.thread.commands = [] ∧ ∃ b, st.thread.replies = [b])

/-- The invariant, besides `Thread.Framed`. -/
structure Inv (st : State) : Prop where
  sorted : (st.thread.streams.toList.map (·.streamid)).Pairwise (· < ·)
  le_last : ∀ s ∈ st.thread.streams.toList, s.streamid ≤ st.thread.laststreamid
  paths : (st.thread.streams.toList.map (·.localpath)).Nodup
  fresh : ∀ id ∈ st.thread.commands, ∀ t, st.task? id = some t →
    ∀ s ∈ st.thread.streams.toList, s.localpath ≠ t.localpath
  task : ∀ s ∈ st.thread.streams.toList, ∃ t, st.task? s.task = some t ∧ s.Performs t
  own : ∀ s ∈ st.thread.streams.toList,
    s.received = st.thread.own s ∧ s.since ≤ st.thread.dispatched.length
  rests : ∀ s ∈ st.thread.streams.toList, s.Rests (st.files s.localpath) (st.phase = .looping)
  active : st.phase = .looping → ∀ s ∈ st.thread.streams.toList, s.active = true
  idle : st.phase = .none → st.thread = State.idleThread
  handshake : st.Handshake
  counts : ∀ id, st.callbacks.countP (fun c => c.task = id) +
    st.thread.streams.toList.countP (fun s => s.active = true ∧ s.task = id) = st.owed id
  callbacks : ∀ c ∈ st.callbacks, c.received = c.own ∧ (c.error = 0 → c.Complete sha1hex)
  rows : ∀ w ∈ st.stored, ∃ t, st.task? w.task = some t ∧ w.Announced t

theorem inv_start (files : Path → Option File) : Inv sha1hex (start files) where
  sorted := .nil
  le_last := by simp [start, State.idleThread]
  paths := .nil
  fresh := by simp [start, State.idleThread]
  task := by simp [start, State.idleThread]
  own := by simp [start, State.idleThread]
  rests := by simp [start, State.idleThread]
  active := by simp [start]
  idle _ := rfl
  handshake := ⟨rfl, rfl⟩
  counts id := by simp [start, State.idleThread, State.owed]
  callbacks := by simp [start]
  rows := by simp [start]

variable {sha1hex} {st st' : State}

theorem Stream.Rests.mono {s : Stream} {f : Option File} {a b : Prop} (h : s.Rests f a)
    (hab : b → a) : s.Rests f b :=
  h.imp_left fun ⟨hh, hr⟩ => ⟨hh, fun hb => hr (hab hb)⟩

/-- A task that is added leaves the others. -/
theorem task?_append {st₀ : State} {sub : Submission} {id : TaskId} {t : Task}
    (hst : st'.submissions = st₀.submissions ++ [sub]) (h : st₀.task? id = some t) :
    st'.task? id = some t := by
  obtain ⟨sub', hsub, rfl⟩ := map_eq_some_iff.1 h
  obtain ⟨hlt, -⟩ := List.getElem?_eq_some_iff.1 hsub
  rw [State.task?, hst, getElem?_append_left hlt, hsub, map_some]

/-- The counts of what is added by a task that is submitted. -/
theorem owed_append {st₀ : State} {t : Task} {a : Option ℤ} (ha : a ≠ some 0)
    (hpend : st₀.pending = none) (hst : st'.submissions = st₀.submissions ++ [⟨t, a⟩])
    (hrep : st'.pending = none ∨ st'.thread.replies = []) (id : TaskId) :
    st'.owed id = st₀.owed id := by
  have hany : st'.submissions[id]?.any (fun sub => sub.returned = some 0) =
      st₀.submissions[id]?.any fun sub => sub.returned = some 0 := by
    rw [hst]
    rcases lt_trichotomy id st₀.submissions.length with hlt | rfl | hgt
    · rw [getElem?_append_left hlt]
    · simp [ha]
    · rw [getElem?_eq_none hgt.le, getElem?_eq_none]
      rw [length_append]
      exact hgt
  have hnot : ¬(st'.pending = some id ∧ st'.thread.replies = [true]) := by
    rcases hrep with h | h <;> simp [h]
  rw [State.owed, State.owed, hany, hpend]
  simp only [hnot, reduceCtorEq, false_and]

theorem inv_submit {task : Task} {started : Bool} (h : Inv sha1hex st)
    (hok : Keeps sha1hex st (.submit task started))
    (hs : step sha1hex st (.submit task started) = some st') : Inv sha1hex st' := by
  rw [step] at hs
  by_cases hpend : st.pending = none
  swap
  · rw [if_neg hpend] at hs
    cases hs
  rw [if_pos hpend] at hs
  have hshake := h.handshake
  rw [State.Handshake, hpend] at hshake
  by_cases hfail : st.phase = .none ∧ started = false
  · -- no thread could be started
    rw [if_pos hfail] at hs
    cases hs
    exact { h with
      fresh := by simp [hshake.1]
      task := fun s hs' => (h.task s hs').imp fun t ht => ⟨task?_append rfl ht.1, ht.2⟩
      handshake := by
        rw [State.Handshake, hpend]
        exact hshake
      counts := by
        intro id
        refine (h.counts id).trans (owed_append (a := some (-1)) ?_ hpend rfl ?_ id).symm
        · decide
        · exact .inl hpend
      rows := fun w hw => (h.rows w hw).imp fun t ht => ⟨task?_append rfl ht.1, ht.2⟩ }
  · rw [if_neg hfail] at hs
    cases hs
    -- a thread that is started has no streams
    have hphase : ∀ s ∈ st.thread.streams.toList,
        (if st.phase = .none then Phase.looping else st.phase) = .looping → st.phase =
          .looping := by
      intro s hs'
      split_ifs with hnone
      · rw [h.idle hnone] at hs'
        cases hs'
      · exact id
    have htask : State.task? { st with submissions := st.submissions ++ [⟨task, none⟩] }
        st.submissions.length = some task := by
      simp [State.task?]
    exact { h with
      fresh := by
        intro id hid t ht s hs'
        rw [hshake.1, nil_append, mem_singleton] at hid
        rw [hid] at ht
        obtain rfl := some.inj (ht.symm.trans htask)
        exact hok s hs'
      task := fun s hs' => (h.task s hs').imp fun t ht => ⟨task?_append rfl ht.1, ht.2⟩
      rests := fun s hs' => (h.rests s hs').mono (hphase s hs')
      active := fun hl s hs' => h.active (hphase s hs' hl) s hs'
      idle := by
        intro hl
        dsimp only at hl
        split_ifs at hl with hnone
        exact absurd hl hnone
      handshake := by
        refine ⟨⟨⟨task, none⟩, by simp, rfl⟩, .inl ⟨?_, hshake.2⟩⟩
        rw [hshake.1]
        rfl
      counts := by
        intro id
        refine (h.counts id).trans (owed_append (a := none) ?_ hpend rfl ?_ id).symm
        · decide
        · exact .inr hshake.2
      rows := fun w hw => (h.rows w hw).imp fun t ht => ⟨task?_append rfl ht.1, ht.2⟩ }

theorem task?_return (id id' : TaskId) (ret : ℤ) :
    (st.return_ id ret).task? id' = st.task? id' := by
  simp only [State.task?, State.return_, getElem?_modify]
  cases st.submissions[id']? with
  | none => simp
  | some sub =>
    by_cases he : id = id' <;> simp [he]

theorem inv_return {commands : List TaskId} {replies : List Bool} {id : TaskId} {ret : ℤ}
    (h : Inv sha1hex st) (hpend : st.pending = some id) (hcmd : commands = []) (hrep : replies = [])
    (hret : ret = if st.thread.replies = [true] then 0 else -1) :
    Inv sha1hex ((st.setThread { st.thread with commands, replies }).return_ id ret) := by
  have hshake := h.handshake
  rw [State.Handshake, hpend] at hshake
  obtain ⟨⟨sub, hsub, hnone⟩, hboth⟩ := hshake
  have hphase : st.phase ≠ .none := by
    intro hl
    rw [h.idle hl] at hboth
    rcases hboth with ⟨hc, -⟩ | ⟨-, b, hb⟩
    · cases hc
    · cases hb
  subst hcmd hrep
  exact { h with
    fresh := forall_mem_nil _
    task := fun s hs' => (h.task s hs').imp fun t ht => ⟨(task?_return ..).trans ht.1, ht.2⟩
    idle := fun hl => absurd hl hphase
    handshake := ⟨rfl, rfl⟩
    counts := by
      intro id'
      refine (h.counts id').trans (Eq.symm ?_)
      rw [State.owed, State.owed, hpend]
      simp only [State.return_, State.setThread, getElem?_modify, reduceCtorEq, false_and, or_false]
      by_cases he : id = id'
      · rw [← he, hsub, hret]
        by_cases hr : st.thread.replies = [true] <;> simp [hnone, hr]
      · cases st.submissions[id']? <;> simp [he]
    rows := fun w hw => (h.rows w hw).imp fun t ht => ⟨(task?_return ..).trans ht.1, ht.2⟩ }

theorem inv_answer (h : Inv sha1hex st) (hs : step sha1hex st .answer = some st') :
    Inv sha1hex st' := by
  rw [step] at hs
  split at hs
  · next id reply replies hpend hrep =>
    have hshake := h.handshake
    rw [State.Handshake, hpend, hrep] at hshake
    rcases hshake.2 with ⟨-, hr⟩ | ⟨hcmd, b, hr⟩
    · cases hr
    cases hs
    refine inv_return h hpend hcmd (cons.inj hr).2 ?_
    rw [hrep, (cons.inj hr).2]
    cases reply <;> rfl
  · cases hs

theorem inv_lost (h : Inv sha1hex st) (hs : step sha1hex st .lost = some st') :
    Inv sha1hex st' := by
  rw [step] at hs
  split at hs
  · next id hpend hrep =>
    split_ifs at hs
    cases hs
    refine inv_return h hpend rfl hrep ?_
    rw [hrep]
    rfl
  · cases hs

/-- A stream that is opened, for the task whose submitter waits. -/
theorem inv_open {id : TaskId} {t : Task} {s : Stream} {phase : Phase} (h : Inv sha1hex st)
    (hsub : ∃ sub, st.submissions[id]? = some sub ∧ sub.returned = none ∧ sub.task = t)
    (hpend : st.pending = some id) (hcmd : id ∈ st.thread.commands) (hrep : st.thread.replies = [])
    (hs : s.Performs t ∧ s.task = id ∧ s.headers = true ∧ s.received = [] ∧
      s.streamid = st.thread.laststreamid + 1 ∧ s.since = st.thread.dispatched.length)
    (hphase : phase ≠ .none ∧ (phase = .looping → st.phase = .looping ∧ s.active = true)) :
    Inv sha1hex { st with
      phase
      thread := { st.thread with
        commands := []
        laststreamid := s.streamid
        streams := st.thread.streams.insertAt st.thread.streams.size s
        replies := [s.active] } } := by
  obtain ⟨sub, hsub, hnone, rfl⟩ := hsub
  obtain ⟨hperf, rfl, hh, hrec, hid, hsince⟩ := hs
  have htask : st.task? s.task = some sub.task := by rw [State.task?, hsub, map_some]
  have hlist : (st.thread.streams.insertAt st.thread.streams.size s).toList =
      st.thread.streams.toList ++ [s] := by
    rw [← Tree.length_toList]
    exact Tree.toList_insertAt s (append_nil _).symm
  have hmem {P : Stream → Prop} (hold : ∀ s' ∈ st.thread.streams.toList, P s') (hnew : P s) :
      ∀ s' ∈ (st.thread.streams.insertAt st.thread.streams.size s).toList, P s' := by
    rw [hlist]
    intro s' hs'
    rcases mem_append.1 hs' with hs' | hs'
    · exact hold s' hs'
    · exact mem_singleton.1 hs' ▸ hnew
  exact { h with
    sorted := by
      rw [hlist, map_append, pairwise_append]
      refine ⟨h.sorted, by simp, ?_⟩
      intro i hi j hj
      obtain ⟨s', hs', rfl⟩ := mem_map.1 hi
      have hle := h.le_last s' hs'
      rw [map_singleton, mem_singleton] at hj
      omega
    le_last := by
      refine hmem (fun s' hs' => ?_) le_rfl
      have hle := h.le_last s' hs'
      dsimp only
      omega
    paths := by
      rw [hlist, map_append, nodup_append]
      refine ⟨h.paths, by simp, ?_⟩
      intro i hi j hj
      obtain ⟨s', hs', rfl⟩ := mem_map.1 hi
      rw [map_singleton, mem_singleton] at hj
      rw [hj, hperf.localpath]
      exact h.fresh _ hcmd _ htask s' hs'
    fresh := forall_mem_nil _
    task := hmem h.task ⟨sub.task, htask, hperf⟩
    own := by
      refine hmem h.own ⟨?_, hsince.le⟩
      rw [hrec, Thread.own, hsince, drop_length]
      rfl
    rests := hmem (fun s' hs' => (h.rests s' hs').mono fun hl => (hphase.2 hl).1)
      (.inl ⟨hh, fun _ => hrec⟩)
    active := fun hl => hmem (h.active (hphase.2 hl).1) (hphase.2 hl).2
    idle := fun hl => absurd hl hphase.1
    handshake := by
      rw [State.Handshake, hpend]
      exact ⟨⟨sub, hsub, hnone⟩, .inr ⟨rfl, s.active, rfl⟩⟩
    counts := by
      intro id'
      have hcount := h.counts id'
      rw [State.owed] at hcount ⊢
      rw [hlist, countP_append, ← Nat.add_assoc, hcount, hpend, hrep, countP_singleton]
      by_cases he : s.task = id'
      · subst he
        rw [hsub]
        cases s.active <;> simp [hnone]
      · simp [he] }

theorem inv_handleCommand {sent replied : Bool} {osize : ℕ} {osha1 : List UInt8}
    (hf : st.thread.Framed) (h : Inv sha1hex st)
    (hok : Keeps sha1hex st (.handleCommand sent replied osize osha1))
    (hs : step sha1hex st (.handleCommand sent replied osize osha1) = some st') :
    st'.thread.Framed ∧ Inv sha1hex st' := by
  obtain ⟨rfl, hlast⟩ := hok
  rw [step] at hs
  split_ifs at hs with hloop
  rw [State.handleCommand] at hs
  split at hs
  · cases hs
  next id commands hcmd =>
  have hshake := h.handshake
  rw [State.Handshake] at hshake
  -- the task that is taken is the one whose submitter waits
  have hpend : st.pending = some id ∧ commands = [] ∧ st.thread.replies = [] ∧
      ∃ sub, st.submissions[id]? = some sub ∧ sub.returned = none := by
    split at hshake
    · rw [hcmd] at hshake
      cases hshake.1
    · next id' hp =>
      obtain ⟨hsub, ⟨hc, hr⟩ | ⟨hc, -⟩⟩ := hshake
      · rw [hcmd] at hc
        cases hc
        exact ⟨hp, rfl, hr, hsub⟩
      · rw [hcmd] at hc
        cases hc
  obtain ⟨hp, rfl, hrep, sub, hsub, hnone⟩ := hpend
  rw [hsub] at hs
  simp only [State.createStream, State.setThread, Nat.mod_eq_of_lt hlast, if_true, and_true,
    hrep] at hs
  have hmem : id ∈ st.thread.commands := hcmd ▸ mem_cons_self
  cases sent
  · -- the request is not sent, and the thread ends
    obtain ⟨⟩ := hs
    refine ⟨hf, inv_open h ⟨sub, hsub, hnone, rfl⟩ hp hmem hrep
      ⟨⟨rfl, rfl, ?_⟩, rfl, rfl, rfl, rfl, rfl⟩ ⟨by decide, fun hl => absurd hl (by decide)⟩⟩
    intro old hold
    simp [hold]
  · obtain ⟨⟩ := hs
    refine ⟨hf, inv_open h ⟨sub, hsub, hnone, rfl⟩ hp hmem hrep
      ⟨⟨rfl, rfl, ?_⟩, rfl, rfl, rfl, rfl, rfl⟩ ⟨?_, fun _ => ⟨hloop, rfl⟩⟩⟩
    · intro old hold
      simp [hold]
    · rw [hloop]
      decide

/-! ## Packets -/

theorem sorted_compare {t : Tree Stream} (h : (t.toList.map (·.streamid)).Pairwise (· < ·))
    (id : ℕ) : t.Sorted fun s => compare id s.streamid := by
  refine (pairwise_map.1 h).imp fun {x y} hxy => ⟨fun hx => ?_, fun hy => ?_⟩
  · have hle : id ≤ x.streamid := not_lt.1 fun hlt => hx (compare_gt_iff_gt.2 hlt)
    exact compare_lt_iff_lt.2 (lt_of_le_of_lt hle hxy)
  · have hle : y.streamid ≤ id := not_lt.1 fun hlt => hy (compare_lt_iff_lt.2 hlt)
    exact compare_gt_iff_gt.2 (lt_of_lt_of_le hxy hle)

/-- The streams besides the one that a packet is for. -/
theorem Inv.others (h : Inv sha1hex st) {as bs : List Stream} {s : Stream}
    (hl : st.thread.streams.toList = as ++ s :: bs) :
    ∀ x ∈ as ++ bs, x ∈ st.thread.streams.toList ∧ x.streamid ≠ s.streamid ∧
      x.localpath ≠ s.localpath := by
  have hids := h.sorted.imp fun {a b} (hab : a < b) => hab.ne
  have hpaths := h.paths
  rw [hl, map_append, map_cons] at hids hpaths
  intro x hx
  have hmem : x ∈ as ∨ x ∈ bs := mem_append.1 hx
  have hxl : x ∈ as ++ s :: bs := by
    rw [mem_append, mem_cons]
    exact hmem.imp id .inr
  refine ⟨hl ▸ hxl, fun he => ?_, fun he => ?_⟩
  · refine (nodup_middle.1 hids).notMem ?_
    rw [← map_append, ← he]
    exact mem_map_of_mem hx
  · refine (nodup_middle.1 hpaths).notMem ?_
    rw [← map_append, ← he]
    exact mem_map_of_mem hx

theorem length_dispatch (th : Thread) (p : Packet) :
    th.dispatched.length ≤ (th.dispatch p).dispatched.length := by
  rw [Thread.dispatch, length_append]
  exact Nat.le_add_right _ _

theorem Inv.own_other (h : Inv sha1hex st) {p : Packet} {s : Stream}
    (hs : s ∈ st.thread.streams.toList) (hne : p.streamid ≠ s.streamid) :
    s.received = (st.thread.dispatch p).own s ∧
      s.since ≤ (st.thread.dispatch p).dispatched.length := by
  obtain ⟨hown, hsince⟩ := h.own s hs
  refine ⟨?_, hsince.trans (length_dispatch _ p)⟩
  rw [Thread.own_dispatch hsince, if_neg hne, append_nil, hown]

section

variable {as bs : List Stream} {s s' : Stream} {p : Packet} {files : Path → Option File}
  {stored : List Stored} {phase : Phase}

/-- A packet after which its stream rests. -/
theorem inv_kept (h : Inv sha1hex st) (hl : st.thread.streams.toList = as ++ s :: bs)
    (hid : p.streamid = s.streamid)
    (hsame : Stream.Same { s with received := s.received ++ [p.payload] } s')
    (hfiles : ∀ path ≠ s.localpath, files path = st.files path)
    (hrests : s'.Rests (files s.localpath) (phase = .looping))
    (hrows : ∀ w ∈ stored, ∃ t, st.task? w.task = some t ∧ w.Announced t)
    (hloop : st.phase = .looping) (hphase : phase ≠ .none) :
    Inv sha1hex { (st.setThread (st.thread.dispatch p)).setStream as.length s' with
      files, stored, phase } := by
  have hlist : (st.thread.streams.modifyAt as.length fun _ => s').toList = as ++ s' :: bs :=
    Tree.toList_modifyAt _ hl
  have hmem {P : Stream → Prop} (hnew : P s')
      (hold : ∀ x ∈ st.thread.streams.toList, x.streamid ≠ s.streamid →
        x.localpath ≠ s.localpath → P x) :
      ∀ x ∈ (st.thread.streams.modifyAt as.length fun _ => s').toList, P x := by
    rw [hlist]
    intro x hx
    rcases mem_append.1 hx with hx | hx
    · obtain ⟨hxl, hi, hp⟩ := h.others hl x (mem_append_left _ hx)
      exact hold x hxl hi hp
    · rcases mem_cons.1 hx with rfl | hx
      · exact hnew
      · obtain ⟨hxl, hi, hp⟩ := h.others hl x (mem_append_right _ hx)
        exact hold x hxl hi hp
  have hs : s ∈ st.thread.streams.toList := by simp [hl]
  obtain ⟨t, ht, hperf⟩ := h.task s hs
  obtain ⟨hown, hsince⟩ := h.own s hs
  have hown' : s'.received = (st.thread.dispatch p).own s' := by
    have hd : (st.thread.dispatch p).dispatched = (st.thread.dispatch p).dispatched := rfl
    rw [Thread.own_congr hsame hd, hsame.received]
    refine Eq.trans ?_ (Thread.own_dispatch hsince p).symm
    rw [if_pos hid, hown]
  have hids : (as ++ s' :: bs).map (·.streamid) = st.thread.streams.toList.map (·.streamid) := by
    rw [hl, map_append, map_cons, hsame.streamid, map_append, map_cons]
  have hpaths : (as ++ s' :: bs).map (·.localpath) =
      st.thread.streams.toList.map (·.localpath) := by
    rw [hl, map_append, map_cons, hsame.localpath, map_append, map_cons]
  have hcounts (id : TaskId) : (as ++ s' :: bs).countP (fun x => x.active = true ∧ x.task = id) =
      st.thread.streams.toList.countP fun x => x.active = true ∧ x.task = id := by
    simp only [hl, countP_append, countP_cons, hsame.active, hsame.task]
  rw [← hlist] at hids hpaths
  simp only [← hlist] at hcounts
  exact { h with
    sorted := hids ▸ h.sorted
    le_last := hmem (hsame.streamid ▸ h.le_last s hs) fun x hx _ _ => h.le_last x hx
    paths := hpaths ▸ h.paths
    fresh := fun id hc t ht => hmem (hsame.localpath ▸ h.fresh id hc t ht s hs)
      fun x hx _ _ => h.fresh id hc t ht x hx
    task := by
      refine hmem ⟨t, hsame.task ▸ ht, ?_, ?_, ?_⟩ fun x hx _ _ => h.task x hx
      · rw [hsame.localpath]
        exact hperf.localpath
      · rw [hsame.fileid]
        exact hperf.fileid
      · rw [hsame.osize, hsame.osha1hex]
        exact hperf.old
    own := hmem ⟨hown', (hsame.since ▸ hsince).trans (length_dispatch _ p)⟩
      fun x hx hi _ => h.own_other hx fun he => hi (he.symm.trans hid)
    rests := by
      refine hmem ?_ fun x hx _ hp => ?_
      · rw [hsame.localpath]
        exact hrests
      · dsimp only
        rw [hfiles _ hp]
        exact (h.rests x hx).mono fun _ => hloop
    active := fun _ => hmem (hsame.active.trans (h.active hloop s hs))
      fun x hx _ _ => h.active hloop x hx
    idle := fun hl => absurd hl hphase
    counts := fun id => (congrArg (st.callbacks.countP (fun c => c.task = id) + ·)
      (hcounts id)).trans (h.counts id)
    rows := hrows }

/-- A packet after which its stream is closed. -/
theorem inv_closed {c : Callback} (h : Inv sha1hex st)
    (hl : st.thread.streams.toList = as ++ s :: bs) (hid : p.streamid = s.streamid)
    (hc : c.task = s.task ∧ c.received = c.own ∧ (c.error = 0 → c.Complete sha1hex))
    (hfiles : ∀ path ≠ s.localpath, files path = st.files path)
    (hrows : ∀ w ∈ stored, ∃ t, st.task? w.task = some t ∧ w.Announced t)
    (hloop : st.phase = .looping) (hphase : phase ≠ .none) :
    Inv sha1hex { st with
      phase
      files
      stored
      thread := { st.thread.dispatch p with streams := st.thread.streams.removeAt as.length }
      callbacks := st.callbacks ++ [c] } := by
  have hlist : (st.thread.streams.removeAt as.length).toList = as ++ bs := Tree.toList_removeAt hl
  have hsub : (as ++ bs).Sublist (as ++ s :: bs) :=
    (Sublist.refl _).append (sublist_cons_self s bs)
  rw [← hl, ← hlist] at hsub
  have hothers := h.others hl
  rw [← hlist] at hothers
  have hs : s ∈ st.thread.streams.toList := by simp [hl]
  have hactive := h.active hloop s hs
  have hcounts (id : TaskId) :
      st.thread.streams.toList.countP (fun x => x.active = true ∧ x.task = id) =
        (if s.task = id then 1 else 0) +
          (as ++ bs).countP fun x => x.active = true ∧ x.task = id := by
    simp only [hl, countP_append, countP_cons, hactive, true_and, decide_eq_true_eq]
    omega
  simp only [← hlist] at hcounts
  exact { h with
    sorted := h.sorted.sublist (hsub.map _)
    le_last := fun x hx => h.le_last x (hsub.subset hx)
    paths := h.paths.sublist (hsub.map _)
    fresh := fun id hid t ht x hx => h.fresh id hid t ht x (hsub.subset hx)
    task := fun x hx => h.task x (hsub.subset hx)
    own := fun x hx => h.own_other (hsub.subset hx)
      fun he => (hothers x hx).2.1 (he.symm.trans hid)
    rests := by
      intro x hx
      dsimp only
      rw [hfiles _ (hothers x hx).2.2]
      exact (h.rests x (hsub.subset hx)).mono fun _ => hloop
    active := fun _ x hx => h.active hloop x (hsub.subset hx)
    idle := fun hl => absurd hl hphase
    counts := by
      intro id
      have hcount := h.counts id
      rw [hcounts id] at hcount
      refine Eq.trans ?_ hcount
      dsimp only
      rw [countP_append, countP_singleton, hc.1]
      simp only [decide_eq_true_eq]
      omega
    callbacks := by
      intro c' hc'
      rcases mem_append.1 hc' with hc' | hc'
      · exact h.callbacks c' hc'
      · exact mem_singleton.1 hc' ▸ hc.2
    rows := hrows }

end

theorem inv_packet {p : Packet} {o : Outcome} (h : Inv sha1hex st) (hloop : st.phase = .looping)
    (hok : ∀ s ∈ st.thread.streams.toList, s.streamid = p.streamid → s.headers = true →
      respLen ≤ p.payload.length → (announced [p.payload]).Fine sha1hex ∧
        ∀ t, st.task? s.task = some t → t.Fits (announced [p.payload])) :
    let r := st.processStreamData sha1hex p o
    let st' := if r.2 then { r.1 with phase := .ending } else r.1
    (∃ streams, st'.thread = { st.thread.dispatch p with streams }) ∧ Inv sha1hex st' := by
  dsimp only
  rcases hloc : st.thread.streams.locate fun s => compare p.streamid s.streamid with ⟨k, s⟩ | k
  · obtain ⟨as, bs, hl, rfl, hcmp⟩ := Tree.locate_found hloc
    have hid : p.streamid = s.streamid := compare_eq_iff_eq.1 hcmp
    have hs : s ∈ st.thread.streams.toList := by simp [hl]
    obtain ⟨hown, hsince⟩ := h.own s hs
    obtain ⟨t, ht, hperf⟩ := h.task s hs
    have hrests : s.Rests (st.files s.localpath) True := (h.rests s hs).mono fun _ => hloop
    obtain ⟨stored, hstored, hp⟩ := State.processed_packet o hloc hrests hown hsince
      fun hh hlen => (hok s hs hid.symm hh hlen).1
    have hrows : ∀ w ∈ stored, ∃ t, st.task? w.task = some t ∧ w.Announced t := by
      rcases hstored with rfl | ⟨hh, hlen, herr, rfl⟩
      · exact h.rows
      -- the first packet of the stream
      have hrec : s.received = [] := by
        rcases hrests with ⟨-, hrec⟩ | hd
        · exact hrec trivial
        · rw [hd.headers] at hh
          cases hh
      have hownp : (st.thread.dispatch p).own s = [p.payload] := by
        rw [Thread.own_dispatch hsince, if_pos hid, ← hown, hrec, nil_append]
      have hfits := (hok s hs hid.symm hh hlen).2 t ht
      rw [← hownp] at herr hfits ⊢
      intro w hw
      rcases storeResp_announced hperf hfits herr w hw with hw | ⟨hw, hann⟩
      · exact h.rows w hw
      · exact ⟨t, hw ▸ ht, hann⟩
    have hphase (err : Bool) : (if err = true then Phase.ending else st.phase) ≠ .none := by
      rw [hloop]
      cases err <;> decide
    generalize st.processStreamData sha1hex p o = r at hp ⊢
    cases hp with
    | @kept s' files err hsame hfiles hr =>
      have hr' : s'.Rests (files s.localpath)
          ((if err = true then Phase.ending else st.phase) = .looping) := by
        refine hr.mono fun he => ?_
        cases err
        · rfl
        · cases he
      have hinv := inv_kept h hl hid hsame hfiles hr' hrows hloop (hphase err)
      cases err <;> exact ⟨⟨_, rfl⟩, hinv⟩
    | @closed c files err htask hrec hcown hdone hfiles =>
      have hc : c.received = c.own := by
        rw [hrec, hcown]
        refine Eq.trans ?_ (Thread.own_dispatch hsince p).symm
        rw [if_pos hid, hown]
      have hinv := inv_closed h hl hid ⟨htask, hc, hdone⟩ hfiles hrows hloop (hphase err)
      cases err <;> exact ⟨⟨_, rfl⟩, hinv⟩
  · -- no stream has the number of the packet
    have hne : ∀ s ∈ st.thread.streams.toList, p.streamid ≠ s.streamid := by
      obtain ⟨as, bs, hl, -, has, hbs⟩ := Tree.locate_vacant (sorted_compare h.sorted _) hloc
      intro s hs he
      rw [hl] at hs
      have heq : compare p.streamid s.streamid = .eq := compare_eq_iff_eq.2 he
      rcases mem_append.1 hs with hs | hs
      · cases heq.symm.trans (has s hs)
      · cases heq.symm.trans (hbs s hs)
    rw [State.processStreamData]
    simp only [State.setThread, Thread.dispatch, hloc]
    rw [if_neg Bool.false_ne_true]
    refine ⟨⟨_, rfl⟩, { h with own := ?_, idle := ?_ }⟩
    · exact fun s hs => h.own_other hs (hne s hs)
    · exact fun hl => absurd (hloop.symm.trans hl) (by decide)

theorem inv_receive {n : ℕ} {o : Outcome} (hf : st.thread.Framed) (h : Inv sha1hex st)
    (hok : Keeps sha1hex st (.receive n o))
    (hs : step sha1hex st (.receive n o) = some st') : st'.thread.Framed ∧ Inv sha1hex st' := by
  rw [step] at hs
  split_ifs at hs with hloop
  obtain ⟨reading, buffer, incoming, ⟨hframed, rfl⟩ | ⟨p, hp, hframed, rfl⟩⟩ := hf.receive hs
  all_goals
    have hread : Inv sha1hex (st.setThread (st.thread.read reading buffer incoming)) :=
      { h with idle := fun hl => absurd (hloop.symm.trans hl) (by decide) }
  · exact ⟨hframed, hread⟩
  · obtain ⟨⟨streams, hth⟩, hinv⟩ := inv_packet (o := o) hread hloop (hok p hp)
    refine ⟨?_, hinv⟩
    rw [hth]
    exact hframed

/-! ## The end of the thread -/

/-- The streams `l` are freed. -/
structure Freed (st : State) (l : List Stream) (st' : State) : Prop where
  submissions : st'.submissions = st.submissions
  pending : st'.pending = st.pending
  thread : st'.thread = st.thread
  stored : st'.stored = st.stored
  counts : ∀ id, st'.callbacks.countP (fun c => c.task = id) =
    st.callbacks.countP (fun c => c.task = id) +
      l.countP fun s => s.active = true ∧ s.task = id
  callbacks : ∀ c ∈ st'.callbacks, c ∈ st.callbacks ∨
    ∃ s ∈ l, c.received = s.received ∧ c.own = st.thread.own s ∧ c.error = errorNet

theorem freed_one (st : State) (s : Stream) : Freed st [s] (st.freeStream s) := by
  have hfree (st₁ : State) : Freed st₁ [] (st₁.fileDownloadFree s errorNet) := by
    rw [State.fileDownloadFree]
    split_ifs <;> exact ⟨rfl, rfl, rfl, rfl, fun _ => rfl, fun c hc => .inl hc⟩
  rw [State.freeStream]
  split_ifs with hact
  · obtain ⟨h1, h2, h3, h4, h5, h6⟩ := hfree
      (st.callback s errorNet flagRetryAsIs 0 0 (replicate 40 0))
    refine ⟨h1, h2, h3, h4, fun id => ?_, fun c hc => ?_⟩
    · rw [h5 id, State.callback, countP_append]
      simp [hact]
    · rcases h6 c hc with hc | ⟨_, hs, -⟩
      · rcases mem_append.1 hc with hc | hc
        · exact .inl hc
        · obtain rfl := mem_singleton.1 hc
          exact .inr ⟨s, mem_cons_self, rfl, rfl, rfl⟩
      · cases hs
  · obtain ⟨h1, h2, h3, h4, h5, h6⟩ := hfree st
    refine ⟨h1, h2, h3, h4, fun id => ?_, fun c hc => .inl ?_⟩
    · rw [h5 id]
      simp [hact]
    · rcases h6 c hc with hc | ⟨_, hs, -⟩
      · exact hc
      · cases hs

theorem freed_foldl (l : List Stream) (st : State) : Freed st l (l.foldl State.freeStream st) := by
  induction l generalizing st with
  | nil => exact ⟨rfl, rfl, rfl, rfl, fun _ => rfl, fun c hc => .inl hc⟩
  | cons s l ih =>
    obtain ⟨h1, h2, h3, h4, h5, h6⟩ := freed_one st s
    obtain ⟨k₁, k₂, k₃, k₄, k₅, k₆⟩ := ih (st.freeStream s)
    refine ⟨k₁.trans h1, k₂.trans h2, k₃.trans h3, k₄.trans h4, fun id => ?_, fun c hc => ?_⟩
    · rw [foldl_cons, k₅ id, h5 id, Nat.add_assoc, ← countP_append, singleton_append]
    · rcases k₆ c hc with hc | ⟨s', hs', hc⟩
      · rcases h6 c hc with hc | ⟨s', hs', hc⟩
        · exact .inl hc
        · exact .inr ⟨s', mem_singleton.1 hs' ▸ mem_cons_self, hc⟩
      · exact .inr ⟨s', mem_cons_of_mem _ hs', h3 ▸ hc⟩

theorem inv_finish (h : Inv sha1hex st) (hs : step sha1hex st .finish = some st') :
    Inv sha1hex st' := by
  rw [step] at hs
  split_ifs at hs with hend
  cases hs
  obtain ⟨hsub, hpend, -, hstored, hcounts, hcalls⟩ := freed_foldl st.thread.streams.postOrder st
  have hperm := st.thread.streams.postOrder_perm
  have htask (id : TaskId) : st.finish.task? id = st.task? id := by
    simp only [State.task?, State.finish, hsub]
  exact {
    sorted := .nil
    le_last := forall_mem_nil _
    paths := .nil
    fresh := forall_mem_nil _
    task := forall_mem_nil _
    own := forall_mem_nil _
    rests := forall_mem_nil _
    active := fun hl => by cases hl
    idle := fun _ => rfl
    handshake := by
      rw [State.Handshake, State.finish, hpend, hend.2]
      exact ⟨rfl, rfl⟩
    counts := by
      intro id
      have hcount := h.counts id
      rw [← hperm.countP_eq, ← hcounts id, State.owed, hend.2] at hcount
      rw [State.owed, State.finish, hsub, hpend, hend.2]
      refine hcount.trans ?_
      simp
    callbacks := by
      intro c hc
      rcases hcalls c hc with hc | ⟨s, hs, hrec, hown, herr⟩
      · exact h.callbacks c hc
      · refine ⟨?_, fun he => ?_⟩
        · rw [hrec, hown, (h.own s (hperm.mem_iff.1 hs)).1]
        · rw [herr] at he
          cases he
    rows := by
      intro w hw
      simp only [htask]
      exact h.rows w (hstored ▸ hw) }

/-! ## Runs -/

theorem inv_step {a : Action} (hf : st.thread.Framed) (h : Inv sha1hex st)
    (hok : Keeps sha1hex st a) (hs : step sha1hex st a = some st') :
    st'.thread.Framed ∧ Inv sha1hex st' := by
  cases a with
  | submit task started =>
    refine ⟨?_, inv_submit h hok hs⟩
    rw [step] at hs
    by_cases hpend : st.pending = none
    · rw [if_pos hpend] at hs
      dsimp only at hs
      split_ifs at hs <;> cases hs <;> exact hf
    · rw [if_neg hpend] at hs
      cases hs
  | answer =>
    refine ⟨?_, inv_answer h hs⟩
    rw [step] at hs
    split at hs
    · cases hs
      exact hf
    · cases hs
  | lost =>
    refine ⟨?_, inv_lost h hs⟩
    rw [step] at hs
    split at hs
    · split_ifs at hs
      cases hs
      exact hf
    · cases hs
  | timeout => exact absurd hok not_false
  | handleCommand sent replied osize osha1 => exact inv_handleCommand hf h hok hs
  | send p =>
    rw [step] at hs
    split_ifs at hs with hloop
    cases hs
    exact ⟨hf.send p, { h with idle := fun hl => absurd (hloop.symm.trans hl) (by decide) }⟩
  | receive n o => exact inv_receive hf h hok hs
  | disconnect =>
    rw [step] at hs
    split_ifs at hs with hloop
    cases hs
    exact ⟨hf, { h with
      rests := fun s hs => (h.rests s hs).mono fun hl => by cases hl
      active := fun hl => by cases hl
      idle := fun hl => by cases hl }⟩
  | finish =>
    refine ⟨?_, inv_finish h hs⟩
    rw [step] at hs
    split_ifs at hs
    cases hs
    exact framed_idle

end Pclsync.AsyncNet
