import Pclsync.AsyncNet.Framing

/-!
# What a packet does to its stream

The data that a stream has received is a response, of `respLen` bytes, and the content of the file
(`announced`, `content`). While the stream is there the file holds the content so far
(`Stream.Downloading`). A packet leaves the stream so, or closes it with a callback
(`State.Processed`), and a callback without an error is a download which is complete
(`Callback.Complete`).
-/

namespace Pclsync

open Function List

theorem File.pwrite_ofList (as bs : List UInt8) :
    (File.ofList as).pwrite bs as.length = File.ofList (as ++ bs) := by
  have hs : ((File.ofList as).pwrite bs as.length).size = (File.ofList (as ++ bs)).size := by
    rcases eq_or_ne bs [] with rfl | hbs
    · simp [File.pwrite]
    · rw [File.size_pwrite hbs, File.size_ofList, File.size_ofList, length_append]
      omega
  refine File.ext_of_lt hs fun i _ => ?_
  rw [File.byte_pwrite]
  split_ifs with h
  · simp [File.ofList, getElem?_append_right h.1]
  · rcases lt_or_ge i as.length with hi | hi
    · simp [File.ofList, getElem?_append_left hi]
    · have hbs : (as ++ bs).length ≤ i := by
        rw [length_append]
        omega
      simp [File.ofList, getElem?_eq_none hi, getElem?_eq_none hbs]

namespace AsyncNet

variable (sha1hex : List UInt8 → List UInt8)

/-! ## Streams -/

/-- The response at the start of the data of a stream. -/
def announced (own : List (List UInt8)) : Resp := Resp.ofBytes (own.flatten.take respLen)

/-- What follows the response. -/
def content (own : List (List UInt8)) : List UInt8 := own.flatten.drop respLen

/-- The content of the file, in the data of a stream. -/
def download (own : List (List UInt8)) : List UInt8 := (content own).take (announced own).size

/-- A callback of a complete download: the file holds what was sent, which has the size and the
    checksum announced. -/
structure Callback.Complete (c : Callback) : Prop where
  file : c.file = some (File.ofList (download c.own))
  size : (download c.own).length = (announced c.own).size
  checksum : sha1hex (download c.own) = (announced c.own).sha1hex
  result : c.size = (announced c.own).size ∧ c.hash = (announced c.own).hash ∧
    c.sha1hex = (announced c.own).sha1hex

/-- What the functions of a stream do not change. -/
structure Stream.Same (s s' : Stream) : Prop where
  streamid : s'.streamid = s.streamid
  active : s'.active = s.active
  task : s'.task = s.task
  localpath : s'.localpath = s.localpath
  fileid : s'.fileid = s.fileid
  osize : s'.osize = s.osize
  osha1hex : s'.osha1hex = s.osha1hex
  received : s'.received = s.received
  since : s'.since = s.since

/-- A stream after its response, with its file `f`, when `buff` is still to be written. -/
structure Stream.Downloading (f : Option File) (buff : List UInt8) (s : Stream) : Prop where
  headers : s.headers = false
  long : respLen ≤ s.received.flatten.length
  size : s.size = (announced s.received).size
  hash : s.hash = (announced s.received).hash
  checksum : s.sha1hex = (announced s.received).sha1hex
  data : content s.received = s.sha1ctx ++ buff
  file : f = some (File.ofList s.sha1ctx)
  rem : s.sha1ctx.length + s.remsize = s.size

/-- A stream between two packets. A packet shorter than a response ends the thread. -/
def Stream.Rests (f : Option File) (looping : Prop) (s : Stream) : Prop :=
  (s.headers = true ∧ (looping → s.received = [])) ∨ s.Downloading f []

theorem Thread.own_congr {th th' : Thread} {s s' : Stream} (h : s.Same s')
    (hd : th'.dispatched = th.dispatched) : th'.own s' = th.own s := by
  rw [Thread.own, Thread.own, hd, h.since, h.streamid]

theorem Thread.own_dispatch {th : Thread} {s : Stream} (h : s.since ≤ th.dispatched.length)
    (p : Packet) :
    (th.dispatch p).own s = th.own s ++ if p.streamid = s.streamid then [p.payload] else [] := by
  rw [Thread.own, Thread.dispatch, drop_append_of_le_length h, filter_append,
    map_append, Thread.own]
  split_ifs with hp <;> simp [hp]

theorem Stream.Downloading.receive {s : Stream} {f : Option File} (h : s.Downloading f [])
    (p : List UInt8) :
    Stream.Downloading f p { s with received := s.received ++ [p] } := by
  have hflat : (s.received ++ [p]).flatten = s.received.flatten ++ p := by simp
  have hann : announced (s.received ++ [p]) = announced s.received := by
    rw [announced, announced, hflat, take_append_of_le_length h.long]
  refine ⟨h.headers, ?_, ?_, ?_, ?_, ?_, h.file, h.rem⟩ <;> dsimp only
  · rw [hflat, length_append]
    exact h.long.trans (Nat.le_add_right _ _)
  · rw [hann]
    exact h.size
  · rw [hann]
    exact h.hash
  · rw [hann]
    exact h.checksum
  · have hd := h.data
    rw [append_nil] at hd
    rw [content, hflat, drop_append_of_le_length h.long, ← hd, content]

/-- A response for which the functions do what they are there for: its error is still one when 100
    is added, and an empty file has the checksum of one. -/
structure Resp.Fine (r : Resp) : Prop where
  error : r.error + 100 < 2 ^ 32
  empty : r.error = 0 → r.size = 0 → r.sha1hex = sha1hex []

/-! ## Packets -/

namespace State

/-- What the functions of a stream `s` at a place of the tree may do: the stream stays and rests, or
    it is closed with a callback. Only its file is changed. -/
inductive Processed (st : State) (k : ℕ) (s : Stream) (stored : List Stored) : State × Bool → Prop
  | kept {s' : Stream} {files : Path → Option File} {err : Bool} : s.Same s' →
      (∀ path ≠ s.localpath, files path = st.files path) →
      s'.Rests (files s.localpath) (err = false) →
      Processed st k s stored ({ st.setStream k s' with files, stored }, err)
  | closed {c : Callback} {files : Path → Option File} {err : Bool} : c.task = s.task →
      c.received = s.received → c.own = st.thread.own s →
      (c.error = 0 → c.Complete sha1hex) →
      (∀ path ≠ s.localpath, files path = st.files path) →
      Processed st k s stored
        ({ st.setThread { st.thread with streams := st.thread.streams.removeAt k } with
          files, stored, callbacks := st.callbacks ++ [c] }, err)

variable {sha1hex} {st : State} {k : ℕ} {s₀ s : Stream} {files : Path → Option File}
  {stored : List Stored}

theorem update_frame {path : Path} (f : Option File)
    (hf : ∀ path' ≠ path, files path' = st.files path') :
    ∀ path' ≠ path, update files path f path' = st.files path' := by
  intro path' hne
  rw [update_of_ne hne]
  exact hf path' hne

/-- `file_download_send_error`, after changes to the file and to the rows. -/
theorem processed_sendError (hs : s₀.Same s)
    (hf : ∀ path ≠ s₀.localpath, files path = st.files path) {error flags : ℕ} (err : Bool)
    (hown : s.received = st.thread.own s)
    (hok : error = 0 → Callback.Complete sha1hex ⟨s.task, error, flags, s.size, s.hash, s.sha1hex,
      files s.localpath, s.received, s.received⟩) :
    Processed sha1hex st k s₀ stored
      (State.fileDownloadSendError { st with files, stored } k s error flags, err) := by
  nth_rewrite 2 [hown] at hok
  rw [fileDownloadSendError, fileDownloadFree]
  split_ifs
  · refine .closed hs.task hs.received (Thread.own_congr hs rfl) hok ?_
    exact hs.localpath ▸ update_frame none (hs.localpath.symm ▸ hf)
  · exact .closed hs.task hs.received (Thread.own_congr hs rfl) hok hf

theorem processed_data (hs : s₀.Same s)
    (hf : ∀ path ≠ s₀.localpath, files path = st.files path) {buff : List UInt8} (o : Outcome)
    (hd : s.Downloading (files s.localpath) buff) (hown : s.received = st.thread.own s) :
    Processed sha1hex st k s₀ stored
      (State.processFileDownloadData sha1hex { st with files, stored } k s buff o) := by
  have hne (e : ℕ) (he : e ≠ 0) (c : Callback) : e = 0 → c.Complete sha1hex := fun h => absurd h he
  rw [processFileDownloadData]
  split_ifs with hrem
  · exact processed_sendError hs hf true hown (hne _ (by decide) _)
  have hs' : s₀.Same { s with remsize := s.remsize - buff.length, sha1ctx := s.sha1ctx ++ buff } :=
    ⟨hs.1, hs.2, hs.3, hs.4, hs.5, hs.6, hs.7, hs.8, hs.9⟩
  have hupd (f : Option File) : ∀ path ≠ s₀.localpath,
      update files s.localpath f path = st.files path := by
    rw [← hs.localpath] at hf ⊢
    exact update_frame f hf
  rcases hw : o.write with - | ⟨n, nospc⟩
  · -- everything is written, after what is in the file
    have hfile : (files s.localpath).map (fun f => f.pwrite buff s.sha1ctx.length) =
        some (File.ofList (s.sha1ctx ++ buff)) := by
      rw [hd.file, Option.map_some, File.pwrite_ofList]
    simp only [writeFile, hfile, setFile]
    have hlen : (s.sha1ctx ++ buff).length + (s.remsize - buff.length) = s.size := by
      have hr := hd.rem
      rw [length_append]
      omega
    split_ifs with h0 hsum
    · exact processed_sendError hs' (hupd _) false hown (hne _ (Nat.succ_ne_zero 4) _)
    · have hdown : download s.received = s.sha1ctx ++ buff := by
        rw [download, hd.data, ← hd.size, ← hlen, h0, Nat.add_zero, take_length]
      refine processed_sendError hs' (hupd _) false hown fun _ => ⟨?_, ?_, ?_, ?_⟩ <;> dsimp only
      · rw [hdown, update_self]
      · rw [hdown, ← hd.size, ← hlen, h0, Nat.add_zero]
      · rw [hdown, ← hd.checksum]
        exact not_not.1 hsum
      · exact ⟨hd.size, hd.hash, hd.checksum⟩
    · refine .kept hs' (hupd _) (.inr ⟨hd.headers, hd.long, hd.size, hd.hash, hd.checksum, ?_, ?_,
        hlen⟩)
      · rw [append_nil]
        exact hd.data
      · rw [← hs.localpath]
        exact update_self s.localpath _ _
  · refine processed_sendError hs' (hupd _) false hown (hne _ ?_ _)
    cases nospc <;> exact Nat.succ_ne_zero _

theorem processed_headers {buff : List UInt8} (o : Outcome) (hs : s₀.Same s)
    (hh : s.headers = true) (hrec : s.received = [buff]) (hown : s.received = st.thread.own s)
    (hfine : respLen ≤ buff.length → (announced [buff]).Fine sha1hex) :
    ∃ stored, (stored = st.stored ∨ respLen ≤ buff.length ∧ (announced [buff]).error = 0 ∧
        stored = (st.storeResp s (announced [buff])).stored) ∧
      Processed sha1hex st k s₀ stored (st.processFileDownloadHeaders sha1hex k s buff o) := by
  have hr : Resp.ofBytes (buff.take respLen) = announced [buff] := by
    rw [announced, flatten_cons, flatten_nil, append_nil]
  rw [processFileDownloadHeaders]
  by_cases hlen : buff.length < respLen
  · -- a short packet: the thread ends
    rw [if_pos hlen]
    exact ⟨st.stored, .inl rfl, .kept hs (fun _ _ => rfl)
      (.inl ⟨hh, fun h => absurd h (by decide)⟩)⟩
  rw [if_neg hlen]
  have hlen : respLen ≤ buff.length := not_lt.1 hlen
  obtain ⟨hadd, hempty⟩ := hfine hlen
  dsimp only
  rw [hr]
  have hs' (headers : Bool) (sha1ctx : List UInt8) (remsize : ℕ) (fd : Bool) : s₀.Same
      { s with size := (announced [buff]).size, hash := (announced [buff]).hash,
               sha1hex := (announced [buff]).sha1hex, headers, sha1ctx, remsize, fd } :=
    ⟨hs.1, hs.2, hs.3, hs.4, hs.5, hs.6, hs.7, hs.8, hs.9⟩
  by_cases herr : (announced [buff]).error ≠ 0
  · -- the error of the server
    rw [if_pos herr]
    refine ⟨st.stored, .inl rfl, processed_sendError (hs' ..) (fun _ _ => rfl)
      false hown fun h => ?_⟩
    rw [Nat.mod_eq_of_lt hadd] at h
    exact absurd h (Nat.succ_ne_zero _)
  rw [if_neg herr]
  have herr : (announced [buff]).error = 0 := not_not.1 herr
  refine ⟨_, .inr ⟨hlen, herr, rfl⟩, ?_⟩
  by_cases hopen : o.opened = false
  · rw [if_pos hopen]
    exact processed_sendError (hs' ..) (fun _ _ => rfl) false hown
      fun h => absurd h (Nat.succ_ne_zero _)
  rw [if_neg hopen]
  have hf : ∀ path ≠ s₀.localpath,
      update st.files s.localpath (some File.empty) path = st.files path := by
    rw [← hs.localpath]
    exact update_frame _ fun _ _ => rfl
  have hlong : respLen ≤ s.received.flatten.length := by
    rw [hrec, flatten_cons, flatten_nil, append_nil]
    exact hlen
  have hcontent : content s.received = buff.drop respLen := by
    rw [hrec, content, flatten_cons, flatten_nil, append_nil]
  have hempty' : File.ofList [] = File.empty := File.ext_of_lt rfl (by simp [File.ofList])
  by_cases hsize : (announced [buff]).size = 0
  · -- an empty file
    rw [if_pos hsize]
    have hdown : download s.received = [] := by
      rw [download, hrec, hsize, take_zero]
    refine processed_sendError (hs' ..) hf false hown fun _ => ⟨?_, ?_, ?_, ?_⟩ <;> dsimp only
    · rw [hdown, hempty', update_self]
    · rw [hdown, hrec, hsize, length_nil]
    · rw [hdown, hrec, hempty herr hsize]
    · rw [hrec]
      exact ⟨rfl, rfl, rfl⟩
  have hd (buff' : List UInt8) (hbuff : buff.drop respLen = buff') : Stream.Downloading
      (some File.empty) buff'
      { s with size := (announced [buff]).size, hash := (announced [buff]).hash,
               sha1hex := (announced [buff]).sha1hex, headers := false, sha1ctx := [],
               remsize := (announced [buff]).size, fd := true } := by
    refine ⟨rfl, hlong, ?_, ?_, ?_, hcontent.trans hbuff, ?_, Nat.zero_add _⟩ <;> dsimp only
    · rw [hrec]
    · rw [hrec]
    · rw [hrec]
    · rw [hempty']
  rw [if_neg hsize]
  split_ifs with hmore
  · refine processed_data (hs' ..) hf o ?_ hown
    rw [update_self]
    exact hd _ rfl
  · refine .kept (hs' ..) hf (.inr ?_)
    have hfile := update_self s.localpath (some File.empty) st.files
    rw [← hs.localpath]
    have hdone := hd _ (drop_eq_nil_of_le (not_lt.1 hmore))
    rw [← hfile] at hdone
    exact hdone

theorem processed_packet {p : Packet} (o : Outcome)
    (hloc : st.thread.streams.locate (fun s => compare p.streamid s.streamid) = .found k s)
    (hrests : s.Rests (st.files s.localpath) True) (hown : s.received = st.thread.own s)
    (hsince : s.since ≤ st.thread.dispatched.length)
    (hfine : s.headers = true → respLen ≤ p.payload.length →
      (announced [p.payload]).Fine sha1hex) :
    ∃ stored, (stored = st.stored ∨ s.headers = true ∧ respLen ≤ p.payload.length ∧
        (announced [p.payload]).error = 0 ∧
        stored = (State.storeResp (st.setThread (st.thread.dispatch p)) s
          (announced [p.payload])).stored) ∧
      Processed sha1hex (st.setThread (st.thread.dispatch p)) k
        { s with received := s.received ++ [p.payload] } stored
        (st.processStreamData sha1hex p o) := by
  have hid : p.streamid = s.streamid := compare_eq_iff_eq.1 (Tree.mem_of_locate hloc).2
  have hown' : s.received ++ [p.payload] = (st.thread.dispatch p).own s := by
    rw [Thread.own_dispatch hsince, if_pos hid, hown]
  rw [processStreamData]
  simp only [setThread, Thread.dispatch, hloc]
  rcases hrests with ⟨hh, hrec⟩ | hd
  · rw [if_pos hh]
    have hnil : s.received ++ [p.payload] = [p.payload] := by rw [hrec trivial, nil_append]
    have hsame : Stream.Same { s with received := s.received ++ [p.payload] }
        { s with received := s.received ++ [p.payload] } :=
      ⟨rfl, rfl, rfl, rfl, rfl, rfl, rfl, rfl, rfl⟩
    have hown'' : s.received ++ [p.payload] = (st.setThread (st.thread.dispatch p)).thread.own
        { s with received := s.received ++ [p.payload] } := hown'
    obtain ⟨stored, hst, hp⟩ := processed_headers (k := k) o hsame hh hnil hown'' (hfine hh)
    exact ⟨stored, hst.imp id fun ⟨hlen, herr, hs⟩ => ⟨hh, hlen, herr, hs⟩, hp⟩
  · rw [if_neg (Bool.eq_false_iff.1 hd.headers)]
    exact ⟨st.stored, .inl rfl, processed_data
      ⟨rfl, rfl, rfl, rfl, rfl, rfl, rfl, rfl, rfl⟩ (fun _ _ => rfl) o
      (hd.receive p.payload) hown'⟩

end State

end AsyncNet

end Pclsync
