import Mathlib.Data.List.GetD
import Pclsync.BigUpload.Machine

/-!
# The walk over the ranges

* `Tiled`: the list that the function walks over, with its last element.
* `Walk u s q m v`: the ranges from `q` up to `m` are those with an unanswered request, and those up
  to `v` have got an id and a place. Ids increase along the list, also after the walk has jumped
  back, so that a response finds its range (`Walk.findIdx?_eq`).
* `Settled`: the ranges up to one have their bytes on the server.
* `Walk.number`, `Walk.sent`, `Walk.answered`, `Walk.replace`: what the parts of the loop do to it.
-/

namespace Pclsync.BigUpload

open List

variable {H : Type} {u : Upload H} {s : State} {rs : List UploadRange}
  {r r' : UploadRange} {c content : File} {req : Request} {rest : List Request}
  {i j k q m v n : ℕ}

/-! ## Positions -/

/-- The range at a position. -/
def rangeAt (rs : List UploadRange) (i : ℕ) : UploadRange := rs.getD i ⟨0, 0, 0, .last, 0⟩

/-- The place in the file of the range at a position. -/
def Upload.place (u : Upload H) (rs : List UploadRange) (i : ℕ) : ℕ :=
  u.uploadoffset + total (rs.take i)

theorem place_def : u.place rs i = u.uploadoffset + total (rs.take i) := rfl

theorem rangeAt_of_getElem? (h : rs[i]? = some r) : rangeAt rs i = r := by
  rw [rangeAt, getD_eq_getElem?_getD, h]
  rfl

theorem getElem?_eq_rangeAt (h : i < rs.length) : rs[i]? = some (rangeAt rs i) := by
  rw [rangeAt, getD_eq_getElem _ _ h]
  exact getElem?_eq_getElem h

theorem lt_of_getElem? (h : rs[i]? = some r) : i < rs.length := by
  obtain ⟨hlt, -⟩ := List.getElem?_eq_some_iff.1 h
  exact hlt

theorem rangeAt_set_self (h : i < rs.length) : rangeAt (rs.set i r) i = r :=
  rangeAt_of_getElem? (getElem?_set_self h)

theorem rangeAt_set_ne (h : i ≠ j) : rangeAt (rs.set i r) j = rangeAt rs j := by
  rw [rangeAt, rangeAt, getD_eq_getElem?_getD, getD_eq_getElem?_getD, getElem?_set_ne h]

theorem place_succ (h : i < rs.length) :
    u.place rs (i + 1) = u.place rs i + (rangeAt rs i).len := by
  have hr := getElem?_eq_rangeAt h
  rw [place_def, place_def, take_add_one, hr, total_append, Option.toList_some, total_cons,
    total_nil, Nat.add_zero, Nat.add_assoc]

theorem place_add_len_le (hij : i < j) (hj : j ≤ rs.length) :
    u.place rs i + (rangeAt rs i).len ≤ u.place rs j := by
  induction j, hij using Nat.le_induction with
  | base => exact (place_succ hj).ge
  | succ j _ ih =>
    rw [place_succ hj]
    exact (ih (Nat.le_of_lt hj)).trans (Nat.le_add_right ..)

theorem place_set (h : rs[i]? = some r) (hlen : r'.len = r.len) :
    u.place (rs.set i r') j = u.place rs j := by
  rw [place_def, place_def, total_take_set]
  intro p hp
  rw [h] at hp
  rw [← Option.some.inj hp, hlen]

/-! ## The list with its last element -/

/-- The list of the function: ranges that tile the rest of the file, which are right when what was
    found is, and an element that ends it. -/
def Upload.Tiled (u : Upload H) (rs : List UploadRange) : Prop :=
  ∃ body l, rs = body ++ [l] ∧ l.type = .last ∧
    Tiles u.uploadoffset (max u.uploadoffset u.fsize) body ∧
    (u.SourcesRight → EachAt u.Right u.uploadoffset body)

/-- Splitting the copies and adding the last element. -/
theorem tiled_splitCopies (u : Upload H) :
    u.Tiled (splitCopies u.rlist ++ [{ u.junk with type := .last }]) :=
  ⟨_, _, rfl, rfl, u.tiles.splitCopies, fun h => eachAt_splitCopies (splits_right u) h.ranges⟩

/-- What is known of a range at its place. -/
structure Upload.Fits (u : Upload H) (r : UploadRange) (p : ℕ) : Prop where
  placed : r.Placed p
  right : u.SourcesRight → u.Right r p

namespace Upload.Tiled

section

variable (h : u.Tiled rs)
include h

theorem ne_nil : rs ≠ [] := by
  obtain ⟨body, l, rfl, -⟩ := h
  exact append_ne_nil_of_right_ne_nil _ (cons_ne_nil _ _)

theorem length_pos : 0 < rs.length := length_pos_of_ne_nil h.ne_nil

/-- Only the last element has the type of the last element. -/
theorem type_eq_last_iff (hi : i < rs.length) :
    (rangeAt rs i).type = .last ↔ i + 1 = rs.length := by
  obtain ⟨body, l, rfl, hl, ht, -⟩ := h
  rw [length_append, length_singleton] at hi ⊢
  have hplaced := eachAt_iff.1 ht.placed i
  rcases Nat.lt_or_ge i body.length with hlt | hge
  · have hr : rangeAt (body ++ [l]) i = body[i] := by
      rw [rangeAt, getD_append _ _ _ _ hlt]
      exact getD_eq_getElem _ _ hlt
    have hne := (hplaced _ (getElem?_eq_getElem hlt)).1
    rw [hr]
    exact ⟨fun h => absurd h hne, fun h => by omega⟩
  · obtain rfl : i = body.length := by omega
    have hr : rangeAt (body ++ [l]) body.length = l := by
      rw [rangeAt, getD_append_right _ _ _ _ (Nat.le_refl _), Nat.sub_self]
      rfl
    rw [hr]
    exact ⟨fun _ => rfl, fun _ => hl⟩

/-- The other elements fit where they are. -/
theorem fits (hi : i + 1 < rs.length) : u.Fits (rangeAt rs i) (u.place rs i) := by
  obtain ⟨body, l, rfl, hl, ht, hr⟩ := h
  rw [length_append, length_singleton] at hi
  have hlt : i < body.length := Nat.lt_of_succ_lt_succ hi
  have hat : body[i]? = some (rangeAt (body ++ [l]) i) := by
    rw [rangeAt, getD_append _ _ _ _ hlt]
    exact getElem?_eq_rangeAt hlt
  rw [place_def, take_append_of_le_length hlt.le]
  exact ⟨eachAt_iff.1 ht.placed i _ hat, fun hs => eachAt_iff.1 (hr hs) i _ hat⟩

theorem place_length : u.place rs (rs.length - 1) = max u.uploadoffset u.fsize := by
  obtain ⟨body, l, rfl, hl, ht, -⟩ := h
  rw [place_def, length_append, length_singleton, Nat.add_sub_cancel, take_left]
  exact ht.total_eq

/-- An element that replaces another one of the same length where it fits. -/
theorem set (hi : rs[i]? = some r) (hlen : r'.len = r.len)
    (hlast : r.type = .last → r'.type = .last)
    (hfits : r.type ≠ .last → u.Fits r' (u.place rs i)) : u.Tiled (rs.set i r') := by
  have hlt := lt_of_getElem? hi
  have htype := h.type_eq_last_iff hlt
  rw [rangeAt_of_getElem? hi] at htype
  obtain ⟨body, l, rfl, hl, ht, hr⟩ := h
  rw [length_append, length_singleton] at hlt htype
  rcases Nat.lt_or_ge i body.length with hb | hb
  · rw [getElem?_append_left hb] at hi
    have hne : r.type ≠ .last := fun hr' => absurd (htype.1 hr') (by omega)
    have hf := hfits hne
    have hlens : ∀ p, body[i]? = some p → r'.len = p.len := by
      intro p hp
      rw [hi] at hp
      rw [← Option.some.inj hp, hlen]
    rw [place_def, take_append_of_le_length hb.le] at hf
    rw [set_append_left _ _ hb]
    refine ⟨_, _, rfl, hl, ⟨eachAt_set ht.placed hlens hf.placed, ?_⟩,
      fun hs => eachAt_set (hr hs) hlens (hf.right hs)⟩
    have htotal := total_take_set hlens body.length
    rw [take_of_length_le (length_set.trans_le (Nat.le_refl _)), take_length] at htotal
    rw [htotal, ht.total_eq]
  · obtain rfl : i = body.length := by omega
    rw [set_append_right _ _ hb, Nat.sub_self]
    exact ⟨_, _, rfl, hlast (htype.2 rfl), ht, hr⟩

/-- The bytes of a range that is uploaded are in the local file. -/
theorem off_add_len_le (hi : i < rs.length) (hup : (rangeAt rs i).type = .upload) :
    (rangeAt rs i).len = 0 ∨ (rangeAt rs i).off + (rangeAt rs i).len ≤ u.localFile.size := by
  have hne : i + 1 ≠ rs.length := by
    intro hl
    rw [(h.type_eq_last_iff hi).2 hl] at hup
    cases hup
  have hoff := (h.fits (i := i) (by omega)).placed.2 hup
  have hle := place_add_len_le (u := u) (i := i) (j := rs.length - 1) (by omega) (Nat.sub_le ..)
  have hstart : u.uploadoffset ≤ u.place rs i := Nat.le_add_right ..
  rw [h.place_length, Upload.fsize] at hle
  rw [hoff]
  omega

end

end Upload.Tiled

/-! ## The walk -/

/-- The range at the head of the loop gets its place and the next id. -/
def State.numbered (s : State) (r : UploadRange) : State :=
  { s with
    pc := .wait
    rid := s.rid + 1
    rlist := s.rlist.set s.le { r with uploadoffset := s.uploadoffset, id := s.rid + 1 } }

theorem stepHead_eq (hid : s.rid + 1 < 2 ^ 32) (hr : s.rlist[s.le]? = some r) (stop infoOk : Bool) :
    stepHead u s stop infoOk = if stop then s.err
      else if r.type = .last then
        if infoOk then
          (s.numbered r).sent
            (u.request s.le { r with uploadoffset := s.uploadoffset, id := s.rid + 1 })
        else (s.numbered r).err
      else s.numbered r := by
  have hrid : (s.rid + 1) % 2 ^ 32 = s.rid + 1 := Nat.mod_eq_of_lt hid
  rw [stepHead, hr]
  dsimp only
  rw [hrid]
  rfl

/-- Where the walk is. -/
structure Walk (u : Upload H) (s : State) (q m v : ℕ) : Prop where
  tiled : u.Tiled s.rlist
  q_le : q ≤ m
  m_le : m ≤ v
  v_le : v ≤ s.rlist.length
  v_le_rid : v ≤ s.rid
  rid_lt : s.rid < 2 ^ 32
  unanswered : s.unanswered = (range' q (m - q)).map fun i => u.request i (rangeAt s.rlist i)
  respwait : s.respwait = m - q
  ids : ∀ i j, i < j → j < v → (rangeAt s.rlist i).id < (rangeAt s.rlist j).id
  ids_pos : ∀ i < v, 0 < (rangeAt s.rlist i).id
  ids_le : ∀ i < v, (rangeAt s.rlist i).id ≤ s.rid
  places : ∀ i < v, (rangeAt s.rlist i).uploadoffset = u.place s.rlist i
  api : s.api = true
  released : s.released = []

/-- The bytes of the ranges up to one are on the server. -/
structure Settled (u : Upload H) (rs : List UploadRange) (content : File) (k : ℕ) : Prop where
  before : ∀ x < u.uploadoffset, content.byte x = u.content.byte x
  ranges : ∀ i < k, (rangeAt rs i).type ≠ .last → ∀ j < (rangeAt rs i).len,
    content.byte (u.place rs i + j) = (u.source (rangeAt rs i)).byte ((rangeAt rs i).off + j)

namespace Walk

theorem unanswered_length (h : Walk u s q m v) : s.unanswered.length = m - q := by
  rw [h.unanswered, length_map, length_range']

theorem findIdx?_eq (h : Walk u s q m v) (hi : i < v) :
    s.rlist.findIdx? (fun r => r.id = (rangeAt s.rlist i).id) = some i := by
  have hlen := Nat.lt_of_lt_of_le hi h.v_le
  have hget : ∀ j, (hj : j < s.rlist.length) → s.rlist[j] = rangeAt s.rlist j :=
    fun j hj => (getD_eq_getElem _ _ hj).symm
  rw [findIdx?_eq_some_iff_getElem]
  refine ⟨hlen, by rw [hget]; exact decide_eq_true rfl, fun j hj => ?_⟩
  rw [hget]
  have hlt := h.ids j i hj hi
  simpa using hlt.ne

theorem eq_of_id_eq (h : Walk u s q m v) (hi : i < v) (hj : j < v)
    (hid : (rangeAt s.rlist i).id = (rangeAt s.rlist j).id) : i = j := by
  have hfi := h.findIdx?_eq hi
  rw [hid, h.findIdx?_eq hj] at hfi
  exact (Option.some.inj hfi).symm

theorem findIdx?_unanswered (h : Walk u s q m v) (hreq : req ∈ s.unanswered) :
    s.rlist.findIdx? (fun r => r.id = req.id) = some req.range ∧
      req = u.request req.range (rangeAt s.rlist req.range) ∧ req.range < v := by
  rw [h.unanswered, mem_map] at hreq
  obtain ⟨i, hi, rfl⟩ := hreq
  obtain ⟨-, hlt⟩ := mem_range'_1.1 hi
  have hv : i < v := by
    have hq := h.q_le
    have hm := h.m_le
    omega
  exact ⟨h.findIdx?_eq hv, rfl, hv⟩

/-- The same walk at another place of the function. -/
theorem moved (h : Walk u s q m v) (pc : Pc) (le uploadoffset : ℕ) :
    Walk u { s with pc := pc, le := le, uploadoffset := uploadoffset } q m v :=
  { h with }

/-- The range at the position of the walk gets its place and the next id. -/
theorem number (h : Walk u s q s.le s.le) (hr : s.rlist[s.le]? = some r)
    (hid : s.rid + 1 < 2 ^ 32) (hoff : s.uploadoffset = u.place s.rlist s.le) :
    Walk u (s.numbered r) q s.le (s.le + 1) := by
  have hlt := lt_of_getElem? hr
  have hri := rangeAt_of_getElem? hr
  set r' : UploadRange := { r with uploadoffset := s.uploadoffset, id := s.rid + 1 }
  have hplace : ∀ j, u.place (s.numbered r).rlist j = u.place s.rlist j := fun j => place_set hr rfl
  have hbelow : ∀ j, j < s.le → rangeAt (s.numbered r).rlist j = rangeAt s.rlist j :=
    fun j hj => rangeAt_set_ne hj.ne'
  have hself : rangeAt (s.numbered r).rlist s.le = r' := rangeAt_set_self hlt
  have hq := h.q_le
  refine
    { tiled := h.tiled.set hr rfl id fun hne => ?_, q_le := hq, m_le := Nat.le_succ s.le
      v_le := length_set.symm ▸ hlt, v_le_rid := Nat.succ_le_succ h.v_le_rid, rid_lt := hid
      unanswered := ?_, respwait := h.respwait, ids := fun j k hjk hk => ?_
      ids_pos := fun j hj => ?_, ids_le := fun j hj => ?_, places := fun j hj => ?_
      api := h.api, released := h.released }
  · have hne' : s.le + 1 ≠ s.rlist.length := fun hl =>
      hne (hri ▸ (h.tiled.type_eq_last_iff hlt).2 hl)
    have hfits := h.tiled.fits (i := s.le) (by omega)
    rw [hri] at hfits
    exact ⟨hfits.placed, hfits.right⟩
  · change s.unanswered = _
    rw [h.unanswered]
    refine map_congr_left fun j hj => ?_
    obtain ⟨-, hj⟩ := mem_range'_1.1 hj
    rw [hbelow j (by omega)]
  · -- the new id is larger than all before
    rw [hbelow j (by omega)]
    rcases Nat.lt_succ_iff_lt_or_eq.1 hk with hki | hki
    · rw [hbelow k hki]
      exact h.ids j k hjk hki
    · rw [hki, hself]
      exact Nat.lt_succ_of_le (h.ids_le j (hki ▸ hjk))
  · rcases Nat.lt_succ_iff_lt_or_eq.1 hj with hji | hji
    · rw [hbelow j hji]
      exact h.ids_pos j hji
    · rw [hji, hself]
      exact Nat.succ_pos _
  · rcases Nat.lt_succ_iff_lt_or_eq.1 hj with hji | hji
    · rw [hbelow j hji]
      exact (h.ids_le j hji).trans (Nat.le_succ _)
    · rw [hji, hself]
      exact Nat.le_refl _
  · rw [hplace]
    rcases Nat.lt_succ_iff_lt_or_eq.1 hj with hji | hji
    · rw [hbelow j hji]
      exact h.places j hji
    · rw [hji, hself]
      exact hoff

theorem sent (h : Walk u s q m v) (hm : m < v) :
    Walk u (s.sent (u.request m (rangeAt s.rlist m))) q (m + 1) v := by
  have hq := h.q_le
  have hv := h.v_le_rid
  have hrid := h.rid_lt
  have hrw := h.respwait
  refine
    { h with
      q_le := hq.trans (Nat.le_succ m), m_le := hm, unanswered := ?_, respwait := ?_ }
  · change s.unanswered ++ _ = _
    rw [h.unanswered, Nat.succ_sub hq, range'_concat, map_append, Nat.one_mul,
      Nat.add_sub_cancel' hq]
    rfl
  · change (s.respwait + 1) % 2 ^ 32 = _
    omega

theorem answered (h : Walk u s q m v) (hreq : s.unanswered = req :: rest) (content : File) :
    q < m ∧ req = u.request q (rangeAt s.rlist q) ∧
      Walk u (s.answered rest content) (q + 1) m v := by
  have hlen := h.unanswered_length
  have heq := h.unanswered
  have hrw := h.respwait
  rw [hreq, length_cons] at hlen
  have hlt : q < m := by omega
  obtain ⟨n, hn⟩ : ∃ n, m - q = n + 1 := ⟨rest.length, hlen.symm⟩
  rw [hreq, hn, range'_succ, map_cons] at heq
  obtain ⟨hhead, htail⟩ := cons.inj heq
  refine ⟨hlt, hhead, { h with q_le := hlt, unanswered := ?_, respwait := ?_ }⟩
  · change rest = _
    rw [htail, Nat.sub_add_eq, hn]
    rfl
  · change s.respwait - 1 = _
    omega

/-- All responses are read, and the range at a position that was passed is replaced by one that is
    uploaded. -/
theorem replace (h : Walk u s q m v) (hrw : s.respwait = 0) (hk : k < q)
    (hr : s.rlist[k]? = some r) (hne : r.type ≠ .last) (pc : Pc) (le uploadoffset : ℕ) :
    Walk u { s with
      pc := pc
      le := le
      uploadoffset := uploadoffset
      rlist := s.rlist.set k { r with type := .upload, off := r.uploadoffset } } k k (k + 1) := by
  have hlt := lt_of_getElem? hr
  have hri := rangeAt_of_getElem? hr
  have hqm := h.q_le
  have hmv := h.m_le
  have hkv : k < v := by omega
  have hoff := h.places k hkv
  rw [hri] at hoff
  set r' : UploadRange := { r with type := .upload, off := r.uploadoffset }
  have hplace : ∀ j, u.place (s.rlist.set k r') j = u.place s.rlist j := fun j => place_set hr rfl
  have hat : ∀ j, (rangeAt (s.rlist.set k r') j).id = (rangeAt s.rlist j).id ∧
      (rangeAt (s.rlist.set k r') j).uploadoffset = (rangeAt s.rlist j).uploadoffset := by
    intro j
    rcases eq_or_ne k j with rfl | hkj
    · rw [rangeAt_set_self hlt, hri]
      exact ⟨rfl, rfl⟩
    · rw [rangeAt_set_ne hkj]
      exact ⟨rfl, rfl⟩
  have hnone : s.unanswered = [] := by
    have hlen := h.unanswered_length
    rw [← h.respwait, hrw] at hlen
    exact length_eq_zero_iff.1 hlen
  have hplaced : r'.Placed (u.place s.rlist k) :=
    ⟨fun hc => (by cases hc), fun _ => hoff⟩
  exact
    { tiled := h.tiled.set hr rfl (fun hl => absurd hl hne) fun _ =>
        ⟨hplaced, fun _ => hplaced.right rfl⟩
      q_le := Nat.le_refl _, m_le := Nat.le_succ _
      v_le := length_set.symm ▸ hlt
      v_le_rid := (Nat.succ_le_of_lt hkv).trans h.v_le_rid, rid_lt := h.rid_lt
      unanswered := by rw [Nat.sub_self]; exact hnone
      respwait := by rw [Nat.sub_self]; exact hrw
      ids := fun i j hij hj => by
        rw [(hat i).1, (hat j).1]
        exact h.ids i j hij (by omega)
      ids_pos := fun i hi => by
        rw [(hat i).1]
        exact h.ids_pos i (by omega)
      ids_le := fun i hi => by
        rw [(hat i).1]
        exact h.ids_le i (by omega)
      places := fun i hi => by
        change _ = u.place (s.rlist.set k r') i
        rw [(hat i).2, hplace]
        exact h.places i (by omega)
      api := h.api, released := h.released }

end Walk

/-! ## What the server has -/

theorem serve_request (hup : r.type = .upload → r.len = 0 ∨ r.off + r.len ≤ u.localFile.size)
    (h : serve u content (u.request i r) = some c) :
    (r.type = .last ∧ c = content) ∨
      (((u.source r).pread r.len r.off).length = r.len ∧
        c = content.pwrite ((u.source r).pread r.len r.off) r.uploadoffset) := by
  rw [Upload.source]
  rw [serve, Upload.request] at h
  rw [File.length_pread]
  rcases ht : r.type with _ | ⟨fileid, hash⟩ | uploadid | _ <;> simp only [ht] at h
  · have hsize := hup ht
    exact .inr ⟨by simp only; omega, (Option.some.inj h).symm⟩
  · split at h
    · next hle => exact .inr ⟨by simp only; omega, (Option.some.inj h).symm⟩
    · cases h
  · split at h
    · next hle => exact .inr ⟨by simp only; omega, (Option.some.inj h).symm⟩
    · cases h
  · exact .inl ⟨rfl, (Option.some.inj h).symm⟩

namespace Settled

theorem init (rs : List UploadRange) : Settled u rs u.content 0 :=
  ⟨fun _ _ => rfl, fun _ hi => absurd hi (Nat.not_lt_zero _)⟩

theorem set (h : Settled u rs content k) (hi : rs[i]? = some r) (hlen : r'.len = r.len)
    (hk : k ≤ i) : Settled u (rs.set i r') content k where
  before := h.before
  ranges j hj := by
    rw [rangeAt_set_ne (by omega : i ≠ j), place_set hi hlen]
    exact h.ranges j hj

theorem pwrite (h : Settled u rs content k) (hk : k ≤ i) (hi : i < rs.length) (data : List UInt8) :
    Settled u rs (content.pwrite data (u.place rs i)) k where
  before x hx := by
    have hstart : u.uploadoffset ≤ u.place rs i := Nat.le_add_right ..
    rw [File.byte_pwrite_of_lt (by omega)]
    exact h.before x hx
  ranges j hj hne y hy := by
    have hle := place_add_len_le (u := u) (Nat.lt_of_lt_of_le hj hk) hi.le
    rw [File.byte_pwrite_of_lt (by omega)]
    exact h.ranges j hj hne y hy

theorem serve (h : Settled u rs content k) (ht : u.Tiled rs) (hk : k ≤ i) (hi : i < rs.length)
    (hplace : (rangeAt rs i).uploadoffset = u.place rs i)
    (hc : serve u content (u.request i (rangeAt rs i)) = some c) : Settled u rs c k := by
  rcases serve_request (ht.off_add_len_le hi) hc with ⟨-, rfl⟩ | ⟨-, rfl⟩
  · exact h
  · rw [hplace]
    exact h.pwrite hk hi _

theorem serve_succ (h : Settled u rs content k) (ht : u.Tiled rs) (hk : k < rs.length)
    (hplace : (rangeAt rs k).uploadoffset = u.place rs k)
    (hc : BigUpload.serve u content (u.request k (rangeAt rs k)) = some c) :
    Settled u rs c (k + 1) := by
  have hold := h.serve ht (Nat.le_refl k) hk hplace hc
  refine ⟨hold.before, fun i hi hne j hj => ?_⟩
  rcases Nat.lt_or_ge i k with hik | hik
  · exact hold.ranges i hik hne j hj
  obtain rfl : i = k := by omega
  rcases serve_request (ht.off_add_len_le hk) hc with ⟨hlast, -⟩ | ⟨hlen, rfl⟩
  · exact absurd hlast hne
  · rw [hplace, File.byte_pwrite, hlen, if_pos ⟨Nat.le_add_right .., Nat.add_lt_add_left hj _⟩,
      Nat.add_sub_cancel_left]
    exact File.getD_pread (hlen.symm ▸ hj)

/-- With right sources all bytes up to the end of the file are right. -/
theorem byte_eq (h : Settled u rs content rs.length) (ht : u.Tiled rs) (hs : u.SourcesRight)
    {x : ℕ} (hx : x < u.fsize) : content.byte x = u.localFile.byte x := by
  rcases Nat.lt_or_ge x u.uploadoffset with hlt | hge
  · rw [h.before x hlt, hs.content x hlt]
  obtain ⟨body, l, rfl, hl, htiles, hright⟩ := ht
  have hend : x < u.uploadoffset + total body := by
    rw [htiles.total_eq]
    exact Nat.lt_of_lt_of_le hx (Nat.le_max_right ..)
  obtain ⟨i, r, hi, hle, hlt⟩ := exists_range hge hend
  have hib := lt_of_getElem? hi
  have hat : (body ++ [l])[i]? = some r := by
    rw [getElem?_append_left hib]
    exact hi
  have hlen : i < (body ++ [l]).length := lt_of_getElem? hat
  have hbytes := h.ranges i hlen
  rw [rangeAt_of_getElem? hat, place_def, take_append_of_le_length hib.le] at hbytes
  obtain ⟨j, rfl⟩ := Nat.exists_eq_add_of_le hle
  have hj : j < r.len := Nat.lt_of_add_lt_add_left hlt
  rw [hbytes (eachAt_iff.1 htiles.placed i r hi).1 j hj]
  exact eachAt_iff.1 (hright hs) i r hi j hj

end Settled

end Pclsync.BigUpload
