import Pclsync.BigUpload.Walk

/-!
# Runs of the upload of a large file

* `Sound`: what is asked of every state. The requests that are not answered are counted and find
  their ranges, the list tiles the file, and a connection is given back once, as a good one only
  without such requests. Before `upload_save` the server has the file.
* `Inv`: what holds at each place of `upload_big_file`; `step_inv` is the step lemma.
* `sound_of_reachable`: as long as the row of the local file is there after `upload_create`, and ids
  do not wrap, every state that is reached is sound. `localfile_disappeared` is a run in which the
  row is gone: the function returns with the connection.
-/

namespace Pclsync.BigUpload

open Option

variable {H : Type} {u : Upload H} {s s' : State} {req : Request} {q m v : ℕ}

/-! ## What is asked of the states -/

/-- The sizes and the checksums that are compared at the end agree. -/
def Checked (u : Upload H) (s : State) : Prop :=
  s.content.size = u.fsize ∧ u.checksum s.content = u.hashhex

/-- The property of the states of a run. -/
structure Sound (u : Upload H) (s : State) : Prop where
  not_aborted : s.pc ≠ .aborted
  respwait : s.respwait = s.unanswered.length
  /-- A response, and one that is looked for, has the id of the range that caused its request. -/
  matched : ∀ req, req ∈ s.unanswered ∨ s.pc = .drain req →
    s.rlist.findIdx? (fun r => r.id = req.id) = some req.range
  /-- The response with the id of the range at the position of the walk is that to its request. -/
  own : s.pc = .wait → ∀ req ∈ s.unanswered, ∀ r, s.rlist[s.le]? = some r →
    (r.id = req.id ↔ req.range = s.le)
  tiled : s.rlist ≠ [] → ∃ body l, s.rlist = body ++ [l] ∧ l.type = .last ∧
    Tiles u.uploadoffset (max u.uploadoffset u.fsize) body
  /-- What is saved is the local file, when what was found is right, or when no other file has its
      checksum. -/
  saved : s.pc = .save → Checked u s ∧
    (u.SourcesRight ∨ (∀ f : File, f.size = u.fsize → u.checksum f = u.hashhex → f = u.localFile) →
      s.content = u.localFile)
  running : (∀ ret, s.pc ≠ .returned ret) → s.released = []
  returned : ∀ ret, s.pc = .returned ret →
    s.released.length = (if s.api then 1 else 0) ∧ (true ∈ s.released → s.unanswered = [])

/-- The steps that the theorem is about: the row of the local file is there, and the next id does
    not wrap. -/
def Fine (s : State) (e : Event) : Prop :=
  e ≠ .localfile false ∧ (s.pc = .head → s.rid + 1 < 2 ^ 32)

instance (s : State) (e : Event) : Decidable (Fine s e) := inferInstanceAs (Decidable (_ ∧ _))

/-! ## The invariant -/

/-- What is kept at every place. -/
structure Consistent (u : Upload H) (s : State) : Prop where
  respwait : s.respwait = s.unanswered.length
  matched : ∀ req ∈ s.unanswered, s.rlist.findIdx? (fun r => r.id = req.id) = some req.range
  tiled : s.rlist ≠ [] → u.Tiled s.rlist

/-- Before the list is made. -/
structure Fresh (u : Upload H) (s : State) : Prop where
  rlist : s.rlist = []
  uploadoffset : s.uploadoffset = u.uploadoffset
  respwait : s.respwait = 0
  unanswered : s.unanswered = []
  content : s.content = u.content
  released : s.released = []

/-- In the loop, from the responses of a range to its request. -/
structure Waiting (u : Upload H) (s : State) (q m : ℕ) : Prop where
  walk : Walk u s q m (s.le + 1)
  settled : Settled u s.rlist s.content q
  uploadoffset : s.uploadoffset = u.place s.rlist s.le
  other : (rangeAt s.rlist s.le).type ≠ .last → m = s.le
  last : (rangeAt s.rlist s.le).type = .last → m = s.le + 1 ∧ (q = m → Checked u s)

/-- After the loop. -/
structure Complete (u : Upload H) (s : State) : Prop where
  walk : Walk u s s.rlist.length s.rlist.length s.rlist.length
  settled : Settled u s.rlist s.content s.rlist.length
  checked : Checked u s

/-- What holds at a place of the function. -/
def InvAt (u : Upload H) (s : State) : Pc → Prop
  | .start => Fresh u s ∧ s.api = false
  | .create => Fresh u s ∧ s.api = true
  | .insert => Fresh u s ∧ s.api = true
  | .openFile => Fresh u s ∧ s.api = true
  | .scan => Fresh u s ∧ s.api = true
  | .head => s.le < s.rlist.length ∧ s.uploadoffset = u.place s.rlist s.le ∧
      ∃ q, Walk u s q s.le s.le ∧ Settled u s.rlist s.content q
  | .wait => ∃ q m, Waiting u s q m
  | .drain req => ∃ k q m v, k < q ∧ Walk u s q m v ∧ Settled u s.rlist s.content k ∧
      req = u.request k (rangeAt s.rlist k)
  | .send => ∃ q m, Waiting u s q m ∧ ((rangeAt s.rlist s.le).type = .last → q = m)
  | .size => Complete u s
  | .save => Complete u s
  | .returned _ => Consistent u s ∧ s.released.length = (if s.api then 1 else 0) ∧
      (true ∈ s.released → s.unanswered = [])
  | .aborted => False

/-- The invariant. -/
def Inv (u : Upload H) (s : State) : Prop := InvAt u s s.pc

theorem Inv.at_pc {pc : Pc} (h : Inv u s) (hpc : s.pc = pc) : InvAt u s pc := hpc ▸ h

theorem Fresh.consistent (h : Fresh u s) : Consistent u s where
  respwait := by rw [h.respwait, h.unanswered, List.length_nil]
  matched req hreq := by
    rw [h.unanswered] at hreq
    cases hreq
  tiled hne := absurd h.rlist hne

theorem Fresh.withPc (h : Fresh u s) (pc : Pc) : Fresh u { s with pc := pc } := { h with }

theorem Walk.consistent (h : Walk u s q m v) : Consistent u s where
  respwait := by rw [h.respwait, h.unanswered_length]
  matched req hreq := (h.findIdx?_unanswered hreq).1
  tiled _ := h.tiled

/-- Giving the connection back, which is good only without unanswered requests. -/
theorem exit_inv (h : Consistent u s) (hapi : s.api = true) (hrel : s.released = []) {good : Bool}
    (hgood : good = true → s.unanswered = []) (ret : ℤ) : Inv u (s.exit good ret) := by
  refine ⟨⟨h.respwait, h.matched, h.tiled⟩, ?_, fun ht => hgood ?_⟩
  · change (s.released ++ [good]).length = if s.api then 1 else 0
    rw [hrel, hapi]
    rfl
  · have hmem : true ∈ s.released ++ [good] := ht
    rw [hrel, List.nil_append, List.mem_singleton] at hmem
    exact hmem.symm

theorem Fresh.exit_inv (h : Fresh u s) (hapi : s.api = true) (good : Bool) (ret : ℤ) :
    Inv u (s.exit good ret) :=
  BigUpload.exit_inv h.consistent hapi h.released (fun _ => h.unanswered) ret

theorem Walk.err_inv (h : Walk u s q m v) : Inv u s.err :=
  exit_inv h.consistent h.api h.released (fun hc => (by cases hc)) (-1)

/-! ## The steps of the loop -/

theorem stepScan_inv (h : Fresh u s) (hapi : s.api = true) : Inv u (stepScan u s) := by
  have ht := tiled_splitCopies u
  refine ⟨ht.length_pos, h.uploadoffset, 0, ?_, ?_⟩
  · exact
      { tiled := ht, q_le := Nat.le_refl 0, m_le := Nat.le_refl 0, v_le := Nat.zero_le _
        v_le_rid := Nat.le_refl 0, rid_lt := Nat.two_pow_pos 32
        unanswered := h.unanswered, respwait := rfl
        ids := fun i j _ hj => absurd hj (Nat.not_lt_zero j)
        ids_pos := fun i hi => absurd hi (Nat.not_lt_zero i)
        ids_le := fun i hi => absurd hi (Nat.not_lt_zero i)
        places := fun i hi => absurd hi (Nat.not_lt_zero i)
        api := hapi, released := h.released }
  · change Settled u _ s.content 0
    rw [h.content]
    exact .init _

theorem stepHead_inv (h : InvAt u s .head) (hid : s.rid + 1 < 2 ^ 32) (stop infoOk : Bool) :
    Inv u (stepHead u s stop infoOk) := by
  obtain ⟨hlt, hoff, q, hw, hset⟩ := h
  have hr := getElem?_eq_rangeAt hlt
  have hn := hw.number hr hid hoff
  have hself : rangeAt (s.numbered (rangeAt s.rlist s.le)).rlist s.le =
      { rangeAt s.rlist s.le with uploadoffset := s.uploadoffset, id := s.rid + 1 } :=
    rangeAt_set_self hlt
  have hset' : Settled u (s.numbered (rangeAt s.rlist s.le)).rlist s.content q :=
    hset.set hr rfl hw.q_le
  have hplace : u.place (s.numbered (rangeAt s.rlist s.le)).rlist s.le = u.place s.rlist s.le :=
    place_set hr rfl
  have hoff' := hoff.trans hplace.symm
  rw [stepHead_eq hid hr]
  split
  · exact hw.err_inv
  split
  · next hlast =>
    split
    · -- the request for the checksum is sent before its response is waited for
      have hsent := hn.sent (Nat.lt_succ_self _)
      rw [hself] at hsent
      refine ⟨q, s.le + 1, hsent, hset', hoff', fun hne => absurd ?_ hne, fun _ => ⟨rfl, ?_⟩⟩
      · exact (congrArg UploadRange.type hself).trans hlast
      · exact fun hq => absurd hw.q_le (by omega)
    · exact hn.err_inv
  · next hlast =>
    refine ⟨q, s.le, hn, hset', hoff', fun _ => rfl, fun hl => absurd ?_ hlast⟩
    exact (congrArg UploadRange.type hself).symm.trans hl

theorem stepResult_inv [DecidableEq H] (h : Waiting u s q m) (hpc : s.pc = .wait)
    {result : Option ℕ}
    (hs : stepResult u s (rangeAt s.rlist s.le) result = some s') : Inv u s' := by
  have hw := h.walk
  cases result with
  | none =>
    obtain ⟨⟩ := hs
    exact hw.err_inv
  | some result =>
    cases hreq : s.unanswered with
    | nil =>
      rw [stepResult.eq_def, hreq] at hs
      cases hs
    | cons req rest =>
      rw [stepResult.eq_def, hreq] at hs
      dsimp only at hs
      have hans := hw.answered hreq
      have hqm := (hans s.content).1
      have hq := (hans s.content).2.1
      split at hs
      · -- refused
        have hw' := (hans s.content).2.2
        obtain ⟨⟩ := hs
        split
        · exact hw'.err_inv
        · exact ⟨q, q + 1, m, s.le + 1, Nat.lt_succ_self q, hw'.moved _ _ _, h.settled, hq⟩
      · obtain ⟨c, hc, rfl⟩ := map_eq_some_iff.1 hs
        have hw' := (hans c).2.2
        have hqv : q < s.le + 1 := Nat.lt_of_lt_of_le hqm hw.m_le
        rw [hq] at hc
        have hset : Settled u s.rlist c (q + 1) :=
          h.settled.serve_succ hw.tiled (Nat.lt_of_lt_of_le hqv hw.v_le) (hw.places q hqv) hc
        have hid : req.id = (rangeAt s.rlist q).id := by
          rw [hq]
          rfl
        split
        · next hlast =>
          obtain ⟨htype, hown⟩ := hlast
          have hqle : s.le = q := hw.eq_of_id_eq (Nat.lt_succ_self _) hqv (hown.trans hid)
          have hm := (h.last htype).1
          rw [checkInfo]
          split
          · exact hw'.err_inv
          split
          · exact hw'.err_inv
          · next hsize hsum =>
            have hchecked : Checked u (s.answered rest c) :=
              ⟨not_not.1 hsize, not_not.1 hsum⟩
            have hrw : (s.answered rest c).respwait = 0 := by
              rw [hw'.respwait, hm, hqle, Nat.sub_self]
            rw [if_pos hrw]
            have hinv : InvAt u (s.answered rest c) .wait :=
              ⟨q + 1, m, hw', hset, h.uploadoffset, h.other, fun _ => ⟨hm, fun _ => hchecked⟩⟩
            rw [← hpc] at hinv
            exact hinv
        · next hlast =>
          have hinv : InvAt u (s.answered rest c) .wait := by
            refine ⟨q + 1, m, hw', hset, h.uploadoffset, h.other, fun htype => ?_⟩
            have hm := (h.last htype).1
            refine ⟨hm, fun hend => absurd ⟨htype, ?_⟩ hlast⟩
            have hqle : s.le = q := by omega
            rw [hid, hqle]
          rw [← hpc] at hinv
          exact hinv

theorem stepDrain_inv (hpc : s.pc = .drain req) (h : Inv u s) {result : Option ℕ}
    (hs : stepDrain u s result = some s') : Inv u s' := by
  obtain ⟨k, q, m, v, hk, hw, hset, hreq'⟩ := h.at_pc hpc
  cases result with
  | none =>
    obtain ⟨⟩ := hs
    exact hw.err_inv
  | some result =>
    cases hreq : s.unanswered with
    | nil =>
      rw [stepDrain.eq_def, hreq] at hs
      cases hs
    | cons next rest =>
      rw [stepDrain.eq_def, hreq] at hs
      dsimp only at hs
      have hans := hw.answered hreq
      have hnext := (hans s.content).2.1
      have hqv : q < v := Nat.lt_of_lt_of_le (hans s.content).1 hw.m_le
      have hinv : ∀ c, Settled u s.rlist c k → Inv u (s.answered rest c) := by
        intro c hc
        have hat : InvAt u (s.answered rest c) (.drain req) :=
          ⟨k, q + 1, m, v, Nat.lt_succ_of_lt hk, (hans c).2.2, hc, hreq'⟩
        rw [← hpc] at hat
        exact hat
      split at hs
      · obtain ⟨⟩ := hs
        exact hinv _ hset
      · obtain ⟨c, hc, rfl⟩ := map_eq_some_iff.1 hs
        rw [hnext] at hc
        exact hinv c (hset.serve hw.tiled hk.le (Nat.lt_of_lt_of_le hqv hw.v_le)
          (hw.places q hqv) hc)

/-- The walk jumps back to the range that was refused. -/
theorem stepFindId_inv (hpc : s.pc = .drain req) (h : Inv u s) (hrw : s.respwait = 0)
    (hs : stepFindId s req = some s') : Inv u s' := by
  obtain ⟨k, q, m, v, hk, hw, hset, rfl⟩ := h.at_pc hpc
  have hqm := hw.q_le
  have hmv := hw.m_le
  have hkv : k < v := by omega
  have hlt := Nat.lt_of_lt_of_le hkv hw.v_le
  have hr := getElem?_eq_rangeAt hlt
  have hfind : s.rlist.findIdx? (fun r => r.id = (u.request k (rangeAt s.rlist k)).id) = some k :=
    hw.findIdx?_eq hkv
  rw [stepFindId, hfind] at hs
  dsimp only at hs
  rw [hr, map_some] at hs
  obtain ⟨⟩ := hs
  split
  · next hcopy =>
    have hne : (rangeAt s.rlist k).type ≠ .last := by
      intro hl
      rw [hl] at hcopy
      cases hcopy
    have hw' := hw.replace hrw hk hr hne .send k (rangeAt s.rlist k).uploadoffset
    set r' : UploadRange :=
      { rangeAt s.rlist k with type := .upload, off := (rangeAt s.rlist k).uploadoffset }
    have hplace : u.place (s.rlist.set k r') k = u.place s.rlist k := place_set hr rfl
    have hupload : (rangeAt (s.rlist.set k r') k).type = .upload :=
      congrArg UploadRange.type (rangeAt_set_self hlt)
    have hnot : (rangeAt (s.rlist.set k r') k).type ≠ .last := by
      rw [hupload]
      exact fun hc => (by cases hc)
    exact ⟨k, k, ⟨hw', hset.set hr rfl (Nat.le_refl k), (hw.places k hkv).trans hplace.symm,
      fun _ => rfl, fun hl => absurd hl hnot⟩, fun hl => absurd hl hnot⟩
  · exact hw.err_inv

/-- The request of a range is sent, or the loop ends. -/
theorem stepSend_inv (h : InvAt u s .send) {ok : Bool} (hs : stepSend u s ok = some s') :
    Inv u s' := by
  obtain ⟨q, m, hwait, hend⟩ := h
  have hw := hwait.walk
  have hlt : s.le < s.rlist.length := hw.v_le
  have htype := hw.tiled.type_eq_last_iff hlt
  rw [stepSend, getElem?_eq_rangeAt hlt, map_some] at hs
  obtain ⟨⟩ := hs
  split
  · next hlast =>
    obtain ⟨hm, hchecked⟩ := hwait.last hlast
    have hq := hend hlast
    have hlen := htype.1 hlast
    obtain rfl : m = s.rlist.length := hm.trans hlen
    subst hq
    have hset := hwait.settled
    rw [hlen] at hw
    exact ⟨hw.moved _ _ _, hset, hchecked rfl⟩
  · next hlast =>
    have hm := hwait.other hlast
    split
    · have hsent := hw.sent (m := m) (by omega)
      rw [hm] at hsent
      have hnext : s.le + 1 < s.rlist.length :=
        Nat.lt_of_le_of_ne hlt fun hl => hlast (htype.2 hl)
      refine ⟨hnext, ?_, q, hsent.moved _ _ _, hwait.settled⟩
      change s.uploadoffset + _ = u.place s.rlist (s.le + 1)
      rw [place_succ hlt, hwait.uploadoffset]
    · exact hw.err_inv

/-! ## Runs -/

theorem step_inv [DecidableEq H] {e : Event} (h : Inv u s) (hok : Fine s e)
    (hs : step u s e = some s') : Inv u s' := by
  rw [step.eq_def] at hs
  dsimp only at hs
  split at hs
  · next ok hpc =>
    obtain ⟨hf, hapi⟩ := h.at_pc hpc
    obtain ⟨⟩ := hs
    split
    · split
      · exact ⟨{ hf with }, rfl⟩
      · exact ⟨{ hf with }, rfl⟩
    · refine ⟨(hf.withPc _).consistent, ?_, fun _ => hf.unanswered⟩
      change s.released.length = if s.api then 1 else 0
      rw [hf.released, hapi]
      rfl
  · next result hpc =>
    obtain ⟨hf, hapi⟩ := h.at_pc hpc
    split at hs
    · obtain ⟨⟩ := hs
      exact hf.exit_inv hapi false (-1)
    · obtain ⟨⟩ := hs
      split
      · exact hf.exit_inv hapi true _
      · exact ⟨hf.withPc _, hapi⟩
  · next found hpc =>
    obtain ⟨hf, hapi⟩ := h.at_pc hpc
    obtain ⟨⟩ := hs
    have hfound : found = true := by
      rcases found
      · exact absurd rfl hok.1
      · rfl
    rw [if_pos hfound]
    exact ⟨hf.withPc _, hapi⟩
  · next ok hpc =>
    obtain ⟨hf, hapi⟩ := h.at_pc hpc
    obtain ⟨⟩ := hs
    split
    · exact ⟨hf.withPc _, hapi⟩
    · exact hf.exit_inv hapi true _
  · next ok hpc =>
    obtain ⟨hf, hapi⟩ := h.at_pc hpc
    obtain ⟨⟩ := hs
    split
    · exact stepScan_inv hf hapi
    · exact hf.exit_inv hapi false _
  · next stop infoOk hpc =>
    obtain ⟨⟩ := hs
    exact stepHead_inv (h.at_pc hpc) (hok.2 hpc) stop infoOk
  · next hpc =>
    obtain ⟨q, m, hwait⟩ := h.at_pc hpc
    have hw := hwait.walk
    rw [getElem?_eq_rangeAt hw.v_le, bind_some] at hs
    split at hs
    · next hquiet =>
      obtain ⟨⟩ := hs
      refine ⟨q, m, ⟨hw.moved _ _ _, hwait.settled, hwait.uploadoffset, hwait.other,
        hwait.last⟩, fun hlast => ?_⟩
      -- the loop over the responses ends at the last range when all are read
      have hrw := hquiet.resolve_right (not_not.2 hlast)
      rw [hw.respwait] at hrw
      have hqm := hw.q_le
      omega
    · cases hs
  · next result hpc =>
    obtain ⟨q, m, hwait⟩ := h.at_pc hpc
    rw [getElem?_eq_rangeAt hwait.walk.v_le, bind_some] at hs
    split at hs
    · cases hs
    · exact stepResult_inv hwait hpc hs
  · next req result hpc =>
    split at hs
    · cases hs
    · exact stepDrain_inv hpc h hs
  · next req hpc =>
    split at hs
    · next hrw => exact stepFindId_inv hpc h hrw hs
    · cases hs
  · next ok hpc => exact stepSend_inv (h.at_pc hpc) hs
  · next same hpc =>
    have hc : Complete u s := h.at_pc hpc
    obtain ⟨⟩ := hs
    split
    · exact ⟨hc.walk.moved _ _ _, hc.settled, hc.checked⟩
    · exact hc.walk.err_inv
  · next result hpc =>
    have hc : Complete u s := h.at_pc hpc
    have hnone : s.unanswered = [] := by
      rw [hc.walk.unanswered, Nat.sub_self]
      rfl
    split at hs
    · obtain ⟨⟩ := hs
      exact hc.walk.err_inv
    · obtain ⟨⟩ := hs
      split
      · exact hc.walk.err_inv
      · exact exit_inv hc.walk.consistent hc.walk.api hc.walk.released (fun _ => hnone) 0
  · cases hs

theorem Inv.consistent (h : Inv u s) : Consistent u s := by
  rcases hpc : s.pc <;> have hat := h.at_pc hpc
  case start => exact hat.1.consistent
  case create => exact hat.1.consistent
  case insert => exact hat.1.consistent
  case openFile => exact hat.1.consistent
  case scan => exact hat.1.consistent
  case head =>
    obtain ⟨-, -, q, hw, -⟩ := hat
    exact hw.consistent
  case wait =>
    obtain ⟨q, m, hwait⟩ := hat
    exact hwait.walk.consistent
  case drain req =>
    obtain ⟨k, q, m, v, -, hw, -⟩ := hat
    exact hw.consistent
  case send =>
    obtain ⟨q, m, hwait, -⟩ := hat
    exact hwait.walk.consistent
  case size => exact hat.walk.consistent
  case save => exact hat.walk.consistent
  case returned ret => exact hat.1
  case aborted => exact hat.elim

/-- Before it returns, the function has its connection. -/
theorem Inv.released (h : Inv u s) (hret : ∀ ret, s.pc ≠ .returned ret) : s.released = [] := by
  rcases hpc : s.pc <;> have hat := h.at_pc hpc
  case start => exact hat.1.released
  case create => exact hat.1.released
  case insert => exact hat.1.released
  case openFile => exact hat.1.released
  case scan => exact hat.1.released
  case head =>
    obtain ⟨-, -, q, hw, -⟩ := hat
    exact hw.released
  case wait =>
    obtain ⟨q, m, hwait⟩ := hat
    exact hwait.walk.released
  case drain req =>
    obtain ⟨k, q, m, v, -, hw, -⟩ := hat
    exact hw.released
  case send =>
    obtain ⟨q, m, hwait, -⟩ := hat
    exact hwait.walk.released
  case size => exact hat.walk.released
  case save => exact hat.walk.released
  case returned ret => exact absurd hpc (hret ret)
  case aborted => exact hat.elim

theorem Complete.content_eq (h : Complete u s) (hright : u.SourcesRight ∨
      (∀ f : File, f.size = u.fsize → u.checksum f = u.hashhex → f = u.localFile)) :
    s.content = u.localFile := by
  obtain ⟨hsize, hsum⟩ := h.checked
  rcases hright with hright | hunique
  · refine File.ext_of_lt hsize fun x hx => ?_
    rw [hsize] at hx
    exact h.settled.byte_eq h.walk.tiled hright hx
  · exact hunique s.content hsize hsum

theorem Inv.sound (h : Inv u s) : Sound u s where
  not_aborted hpc := h.at_pc hpc
  respwait := h.consistent.respwait
  matched req hreq := by
    rcases hreq with hreq | hpc
    · exact h.consistent.matched req hreq
    · obtain ⟨k, q, m, v, hk, hw, -, rfl⟩ := h.at_pc hpc
      have hqm := hw.q_le
      have hmv := hw.m_le
      exact hw.findIdx?_eq (by omega)
  own hpc req hreq r hr := by
    obtain ⟨q, m, hwait⟩ := h.at_pc hpc
    have hw := hwait.walk
    obtain ⟨-, heq, hlt⟩ := hw.findIdx?_unanswered hreq
    have hid : req.id = (rangeAt s.rlist req.range).id := by
      conv_lhs => rw [heq]
      rfl
    rw [← rangeAt_of_getElem? hr, hid]
    exact ⟨fun he => hw.eq_of_id_eq hlt (Nat.lt_succ_self _) he.symm, fun he => by rw [he]⟩
  tiled hne := by
    obtain ⟨body, l, hbody, hl, ht, -⟩ := h.consistent.tiled hne
    exact ⟨body, l, hbody, hl, ht⟩
  saved hpc :=
    have hc : Complete u s := h.at_pc hpc
    ⟨hc.checked, hc.content_eq⟩
  running := h.released
  returned ret hpc := (h.at_pc hpc).2

theorem init_inv (u : Upload H) : Inv u (.init u) := ⟨⟨rfl, rfl, rfl, rfl, rfl, rfl⟩, rfl⟩

/-- Every state of a run in which the row of the local file is there and ids do not wrap is
    sound. -/
theorem sound_of_reachable [DecidableEq H] (u : Upload H)
    (h : (uploadMachine u).Reachable Fine s) : Sound u s := by
  have hinv : Inv u s := by
    refine h.invariant ?_ fun s e s' hi hok hs => step_inv hi hok hs
    rintro s rfl
    exact init_inv u
  exact hinv.sound

/-! ## A file of three bytes -/

theorem tiles_three : Tiles 0 (max 0 (File.ofList [1, 2, 3]).size) [⟨0, 0, 3, .upload, 0⟩] :=
  ⟨⟨⟨fun hc => (by cases hc), fun _ => rfl⟩, trivial⟩, rfl⟩

/-- The upload of a file of three bytes from its start, in which nothing is found. -/
def threeBytes : Upload (List UInt8) where
  localFile := .ofList [1, 2, 3]
  uploadid := 0
  uploadoffset := 0
  files _ _ := .empty
  uploads _ := .empty
  content := .empty
  rlist := [⟨0, 0, 3, .upload, 0⟩]
  tiles := tiles_three
  junk := ⟨0, 0, 0, .upload, 0⟩
  checksum f := f.pread f.size 0
  hashhex := [1, 2, 3]
  tempfail _ := false

/-- The run that uploads the three bytes, up to `upload_save`. -/
theorem uploaded_threeBytes : ∃ s, s.pc = .save ∧ s.content.size = 3 ∧ Sound threeBytes s := by
  have h : (uploadMachine threeBytes).Reachable Fine (.init threeBytes) := .init rfl
  replace h := h.next (.apipoolGet true) (by decide) rfl
  replace h := h.next (.uploadCreate (some 0)) (by decide) rfl
  replace h := h.next (.localfile true) (by decide) rfl
  replace h := h.next (.fileOpen true) (by decide) rfl
  replace h := h.next (.scanBlocks true) (by decide) rfl
  replace h := h.next (.next false true) (by decide) rfl
  replace h := h.next .quiet (by decide) rfl
  replace h := h.next (.sendRange true) (by decide) rfl
  replace h := h.next (.next false true) (by decide) rfl
  replace h := h.next (.getResult (some 0)) (by decide) rfl
  replace h := h.next (.getResult (some 0)) (by decide) rfl
  replace h := h.next .quiet (by decide) rfl
  replace h := h.next (.sendRange true) (by decide) rfl
  replace h := h.next (.fileSize true) (by decide) rfl
  exact ⟨_, rfl, rfl, sound_of_reachable threeBytes h⟩

/-- The row of the local file is gone after `upload_create`: the connection is not given back. -/
theorem localfile_disappeared : ∃ s,
    (uploadMachine threeBytes).Reachable (fun _ _ => True) s ∧ s.pc = .returned (-1) ∧
      s.api = true ∧ s.released = [] ∧ ¬Sound threeBytes s := by
  have hrun : (uploadMachine threeBytes).run (.init threeBytes)
    [.apipoolGet true, .uploadCreate (some 0), .localfile false] = some _ := rfl
  refine ⟨_, (Machine.Reachable.init rfl).of_run hrun, rfl, rfl, rfl, fun h => ?_⟩
  have hlen := (h.returned (-1) rfl).1
  cases hlen

end Pclsync.BigUpload
