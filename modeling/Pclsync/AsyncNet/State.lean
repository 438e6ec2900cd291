import Pclsync.Bytes
import Pclsync.File
import Pclsync.KeyedTree
import Pclsync.Transition

/-!
# The async transfer thread

One thread of `pasyncnet.c` downloads files for others. A task is written to it through a pair of
sockets, and answered by one byte. The server sends packets of many streams, one for each task, in
one compressed stream, of which the thread reads the decompressed bytes in pieces of any length.

* `Packet`: what the server sends, and `Packet.encode` its bytes.
* `Stream`, `Thread`, `State`: a download, the thread with its streams and the bytes of the packet
  it is reading, and the state with the files and the database.
* `State.processFileDownloadHeaders` and so on: the functions. The SHA-1 of data, as hexadecimal
  digits, is a parameter `sha1hex`.
* `Action`, `step`: the system.

`Stream.received` and `Thread.dispatched` are only there to state what the thread does.
-/

namespace Pclsync.AsyncNet

abbrev Path := String

/-- A task is known by its number. -/
abbrev TaskId := ℕ

/-! ## Packets -/

/-- A packet of the server: the length of its payload is sent less one, in two bytes. -/
structure Packet where
  streamid : ℕ
  payload : List UInt8
  streamid_lt : streamid < 2 ^ 32
  payload_pos : 0 < payload.length
  payload_le : payload.length ≤ 2 ^ 16

def Packet.encode (p : Packet) : List UInt8 :=
  toLE 4 p.streamid ++ toLE 2 (p.payload.length - 1) ++ p.payload

/-- `STREAM_HEADER_LEN`. -/
def streamHeaderLen : ℕ := 6

/-- `task_file_download_resp_t`. -/
structure Resp where
  error : ℕ
  errorflags : ℕ
  size : ℕ
  hash : ℕ
  mtime : ℕ
  oldhash : ℕ
  oldmtime : ℕ
  sha1hex : List UInt8

/-- `sizeof(task_file_download_resp_t)`. -/
def respLen : ℕ := 88

def Resp.ofBytes (bs : List UInt8) : Resp where
  error := ofLE (bs.take 4)
  errorflags := ofLE ((bs.drop 4).take 4)
  size := ofLE ((bs.drop 8).take 8)
  hash := ofLE ((bs.drop 16).take 8)
  mtime := ofLE ((bs.drop 24).take 8)
  oldhash := ofLE ((bs.drop 32).take 8)
  oldmtime := ofLE ((bs.drop 40).take 8)
  sha1hex := (bs.drop 48).take 40

/-! ## The state -/

/-- The size and the checksum of the file that is there, in `task_file_download_if_not_mod_t`. -/
structure Old where
  size : ℕ
  sha1hex : List UInt8

/-- `task_file_download_t`, or with `old` `task_file_download_if_not_mod_t`. -/
structure Task where
  fileid : ℕ
  localpath : Path
  old : Option Old

/-- A task, and what the function that submitted it has returned. -/
structure Submission where
  task : Task
  returned : Option ℤ

/-- `stream_t` with its `file_download_add_t`. -/
structure Stream where
  streamid : ℕ
  /-- `STREAM_FLAG_ACTIVE` -/
  active : Bool
  /-- the task, for the callback -/
  task : TaskId
  /-- `process_data` is `process_file_download_headers` -/
  headers : Bool
  localpath : Path
  fileid : ℕ
  size : ℕ
  hash : ℕ
  /-- an `unsigned char` -/
  osize : ℕ
  sha1hex : List UInt8
  osha1hex : List UInt8
  /-- the bytes in `sha1ctx` -/
  sha1ctx : List UInt8
  remsize : ℕ
  /-- `fd` is open -/
  fd : Bool
  /-- the data given to `process_data` so far -/
  received : List (List UInt8)
  /-- the number of packets before the stream was there -/
  since : ℕ

/-- The state of the reader: `process_buf` is `process_stream_header`, or `process_stream_data`. -/
inductive Reading
  | header
  | data (currentstreamid curreadbufflen : ℕ)

/-- The number of bytes that are read before `process_buf` is called. -/
def Reading.len : Reading → ℕ
  | header => streamHeaderLen
  | data _ n => n

inductive Phase
  | none
  | looping
  /-- The thread has left its loop and closed its sockets. -/
  | ending
  deriving DecidableEq

/-- `async_thread_params_t`, with what is in its two sockets. -/
structure Thread where
  streams : Tree Stream
  laststreamid : ℕ
  reading : Reading
  buffer : List UInt8
  /-- what the server has sent and is not read yet -/
  incoming : List UInt8
  sent : List Packet
  /-- the packets that are read -/
  dispatched : List Packet
  /-- tasks and answers in the pair of sockets -/
  commands : List TaskId
  replies : List Bool

/-- `psync_async_result_t`, with the file as it is when the callback is called. -/
structure Callback where
  task : TaskId
  error : ℕ
  errorflags : ℕ
  size : ℕ
  hash : ℕ
  sha1hex : List UInt8
  file : Option File
  /-- what the stream has received, and the payload of its packets -/
  received : List (List UInt8)
  own : List (List UInt8)

/-- Rows of `hashchecksum` and of `filerevision`. -/
structure HashRow where
  hash : ℕ
  size : ℕ
  checksum : List UInt8
  deriving DecidableEq

structure RevisionRow where
  fileid : ℕ
  hash : ℕ
  ctime : ℕ
  size : ℕ

/-- The rows stored for a response, with the payload that the packets of the stream had by then. -/
structure Stored where
  task : TaskId
  own : List (List UInt8)
  hashchecksum : List HashRow
  filerevision : List RevisionRow

structure State where
  phase : Phase
  thread : Thread
  submissions : List Submission
  /-- the task whose submitter holds `amutex` and waits for the answer -/
  pending : Option TaskId
  files : Path → Option File
  stored : List Stored
  callbacks : List Callback

/-- What the calls do that a packet leads to: the file can be opened, and `psync_file_write` writes
    everything, or fails after some bytes (`true` for `P_NOSPC`). -/
structure Outcome where
  opened : Bool
  write : Option (ℕ × Bool)

/-! ## Errors -/

def errorNet : ℕ := 1
def errorFile : ℕ := 2
def errorDiskFull : ℕ := 3
def errorIo : ℕ := 4
def errorChecksum : ℕ := 5
def flagRetryAsIs : ℕ := 2

/-! ## Streams -/

/-- The payload of the packets for a stream, since it is there. -/
def Thread.own (th : Thread) (s : Stream) : List (List UInt8) :=
  ((th.dispatched.drop s.since).filter (·.streamid = s.streamid)).map (·.payload)

def Thread.dispatch (th : Thread) (p : Packet) : Thread :=
  { th with dispatched := th.dispatched ++ [p] }

namespace State

variable (sha1hex : List UInt8 → List UInt8) (st : State)

def setThread (th : Thread) : State := { st with thread := th }

/-- The stream at a place of the tree is changed. -/
def setStream (k : ℕ) (s : Stream) : State :=
  st.setThread { st.thread with streams := st.thread.streams.modifyAt k fun _ => s }

def setFile (path : Path) (f : Option File) : State :=
  { st with files := Function.update st.files path f }

/-- `file_download_free`. -/
def fileDownloadFree (s : Stream) (error : ℕ) : State :=
  if s.fd ∧ error ≠ 0 then st.setFile s.localpath none else st

/-- The callback of a stream is called. -/
def callback (s : Stream) (error errorflags size hash : ℕ) (sha1 : List UInt8) : State :=
  { st with
    callbacks := st.callbacks ++ [⟨s.task, error, errorflags, size, hash, sha1,
      st.files s.localpath, s.received, st.thread.own s⟩] }

/-- `file_download_send_error`, for the stream at a place of the tree. -/
def fileDownloadSendError (k : ℕ) (s : Stream) (error errorflags : ℕ) : State :=
  let st := st.callback s error errorflags s.size s.hash s.sha1hex
  -- `close_stream`
  let st := st.setThread { st.thread with streams := st.thread.streams.removeAt k }
  st.fileDownloadFree s error

/-- `psync_file_write` at the end of what the stream has written. -/
def writeFile (s : Stream) (buff : List UInt8) : State :=
  st.setFile s.localpath ((st.files s.localpath).map fun f => f.pwrite buff s.sha1ctx.length)

/-- `process_file_download_data`; the flag says that it returned an error. -/
def processFileDownloadData (k : ℕ) (s : Stream) (buff : List UInt8) (o : Outcome) : State × Bool :=
  if s.remsize < buff.length then
    (st.fileDownloadSendError k s errorNet flagRetryAsIs, true)
  else
    let s' := { s with remsize := s.remsize - buff.length, sha1ctx := s.sha1ctx ++ buff }
    match o.write with
    | some (n, nospc) =>
      ((st.writeFile s (buff.take n)).fileDownloadSendError k s'
        (if nospc then errorDiskFull else errorIo) 0, false)
    | none =>
      let st := st.writeFile s buff
      if s'.remsize = 0 then
        if sha1hex s'.sha1ctx ≠ s'.sha1hex then
          (st.fileDownloadSendError k s' errorChecksum 0, false)
        else (st.fileDownloadSendError k s' 0 0, false)
      else (st.setStream k s', false)

/-- The rows of `process_file_download_headers`. -/
def storeResp (s : Stream) (r : Resp) : State :=
  let old : Bool := r.oldmtime ≠ 0
  { st with
    stored := st.stored ++ [⟨s.task, st.thread.own s,
      ⟨r.hash, r.size, r.sha1hex⟩ :: (if old then [⟨r.oldhash, s.osize, s.osha1hex⟩] else []),
      ⟨s.fileid, r.hash, r.mtime, r.size⟩ ::
        (if old then [⟨s.fileid, r.oldhash, r.oldmtime, s.osize⟩] else [])⟩] }

/-- `process_file_download_headers`. -/
def processFileDownloadHeaders (k : ℕ) (s : Stream) (buff : List UInt8) (o : Outcome) :
    State × Bool :=
  if buff.length < respLen then (st.setStream k s, true)
  else
    let r := Resp.ofBytes (buff.take respLen)
    let s := { s with size := r.size, hash := r.hash, sha1hex := r.sha1hex }
    if r.error ≠ 0 then
      (st.fileDownloadSendError k s ((r.error + 100) % 2 ^ 32) r.errorflags, false)
    else
      let st := st.storeResp s r
      if o.opened = false then (st.fileDownloadSendError k s errorFile 0, false)
      else
        let st := st.setFile s.localpath (some .empty)
        let s := { s with fd := true, remsize := s.size }
        if s.remsize = 0 then (st.fileDownloadSendError k s 0 0, false)
        else
          let s := { s with headers := false, sha1ctx := [] }
          if respLen < buff.length then
            st.processFileDownloadData sha1hex k s (buff.drop respLen) o
          else (st.setStream k s, false)

/-- `process_stream_data` with a packet. -/
def processStreamData (p : Packet) (o : Outcome) : State × Bool :=
  let st := st.setThread (st.thread.dispatch p)
  match st.thread.streams.locate fun s => compare p.streamid s.streamid with
  | .vacant _ => (st, false)
  | .found k s =>
    let s := { s with received := s.received ++ [p.payload] }
    if s.headers then st.processFileDownloadHeaders sha1hex k s p.payload o
    else st.processFileDownloadData sha1hex k s p.payload o

/-- `psync_deflate_read` in `handle_decompressed_data`, which gives `n` bytes, and what is done with
    them when the buffer is full. -/
def receive (n : ℕ) (o : Outcome) : Option State :=
  let th := st.thread
  if 0 < n ∧ n ≤ th.incoming.length ∧ th.buffer.length + n ≤ th.reading.len then
    let buffer := th.buffer ++ th.incoming.take n
    let th := { th with incoming := th.incoming.drop n, buffer }
    if buffer.length < th.reading.len then some (st.setThread th)
    else
      match th.reading with
      | .header =>
        let streamid := ofLE (buffer.take 4)
        let len := ofLE ((buffer.drop 4).take 2)
        some (st.setThread { th with buffer := [], reading := .data streamid (len + 1) })
      | .data streamid _ =>
        let th := { th with buffer := [], reading := .header }
        if h : streamid < 2 ^ 32 ∧ 0 < buffer.length ∧ buffer.length ≤ 2 ^ 16 then
          let r :=
            (st.setThread th).processStreamData sha1hex ⟨streamid, buffer, h.1, h.2.1, h.2.2⟩ o
          some (if r.2 then { r.1 with phase := .ending } else r.1)
        else none
  else none

/-! ## Tasks -/

/-- `create_stream`, with the fields that `handle_file_download` and `handle_file_download_nm` set;
    `osize` and `osha1` are what is there in the memory. -/
def createStream (id : TaskId) (task : Task) (active : Bool) (osize : ℕ) (osha1 : List UInt8) :
    State :=
  let th := st.thread
  let streamid := (th.laststreamid + 1) % 2 ^ 32
  let s : Stream := {
    streamid
    active
    task := id
    headers := true
    localpath := task.localpath
    fileid := task.fileid
    size := 0
    hash := 0
    osize := (match task.old with | some old => old.size | none => osize) % 2 ^ 8
    sha1hex := []
    osha1hex := match task.old with | some old => old.sha1hex | none => osha1
    sha1ctx := []
    remsize := 0
    fd := false
    received := []
    since := th.dispatched.length }
  st.setThread { th with
    laststreamid := streamid
    streams := th.streams.insertAt th.streams.size s }

/-- `handle_command`: `sent` says whether the request is written, `replied` whether the answer is.
    -/
def handleCommand (sent replied : Bool) (osize : ℕ) (osha1 : List UInt8) : Option State :=
  match st.thread.commands with
  | [] => none
  | id :: commands =>
    match st.submissions[id]? with
    | none => none
    | some sub =>
      let st := st.setThread { st.thread with commands }
      let st := st.createStream id sub.task sent osize osha1
      let st := if replied then
        st.setThread { st.thread with replies := st.thread.replies ++ [sent] } else st
      some (if sent ∧ replied then st else { st with phase := .ending })

/-- The submitter returns. -/
def return_ (id : TaskId) (ret : ℤ) : State :=
  { st with
    pending := none
    submissions := st.submissions.modify id fun sub => { sub with returned := some ret } }

/-- `free_stream`. -/
def freeStream (s : Stream) : State :=
  let st := if s.active then st.callback s errorNet flagRetryAsIs 0 0 (List.replicate 40 0) else st
  st.fileDownloadFree s errorNet

def idleThread : Thread := ⟨.nil, 0, .header, [], [], [], [], [], []⟩

/-- The end of `psync_async_thread`, once it has `amutex`: that it is no longer running, and that
    all streams are freed, is one step. -/
def finish : State :=
  { st.thread.streams.postOrder.foldl freeStream st with phase := .none, thread := idleThread }

end State

/-! ## The system -/

inductive Action
  /-- A task is submitted; when no thread runs one is started, which may fail. -/
  | submit (task : Task) (started : Bool)
  /-- The submitter reads the answer. -/
  | answer
  /-- The submitter finds the sockets closed. -/
  | lost
  /-- The submitter has waited too long. -/
  | timeout
  | handleCommand (sent replied : Bool) (osize : ℕ) (osha1 : List UInt8)
  /-- The server sends a packet. -/
  | send (p : Packet)
  | receive (n : ℕ) (o : Outcome)
  /-- The connection is lost, or the thread is told to exit. -/
  | disconnect
  | finish

/-- The state after an action, when it is possible. -/
def step (sha1hex : List UInt8 → List UInt8) (st : State) : Action → Option State
  | .submit task started =>
    if st.pending = none then
      let id := st.submissions.length
      if st.phase = .none ∧ started = false then
        some { st with submissions := st.submissions ++ [⟨task, some (-1)⟩] }
      else
        some { st with
          phase := if st.phase = .none then .looping else st.phase
          thread := { st.thread with commands := st.thread.commands ++ [id] }
          submissions := st.submissions ++ [⟨task, none⟩]
          pending := some id }
    else none
  | .answer =>
    match st.pending, st.thread.replies with
    | some id, reply :: replies =>
      some ((st.setThread { st.thread with replies }).return_ id (if reply then 0 else -1))
    | _, _ => none
  | .lost =>
    match st.pending, st.thread.replies with
    | some id, [] =>
      if st.phase = .ending then
        some ((st.setThread { st.thread with commands := [] }).return_ id (-1))
      else none
    | _, _ => none
  | .timeout => st.pending.map fun id => st.return_ id (-1)
  | .handleCommand sent replied osize osha1 =>
    if st.phase = .looping then st.handleCommand sent replied osize osha1 else none
  | .send p =>
    if st.phase = .looping then
      some (st.setThread { st.thread with
        incoming := st.thread.incoming ++ p.encode
        sent := st.thread.sent ++ [p] })
    else none
  | .receive n o => if st.phase = .looping then st.receive sha1hex n o else none
  | .disconnect => if st.phase = .looping then some { st with phase := .ending } else none
  | .finish =>
    if st.phase = .ending ∧ st.pending = none then some st.finish else none

/-- Nothing was submitted yet. -/
def start (files : Path → Option File) : State :=
  ⟨.none, State.idleThread, [], none, files, [], []⟩

def system (sha1hex : List UInt8 → List UInt8) : Machine State Action where
  init st := ∃ files, st = start files
  step := step sha1hex

end Pclsync.AsyncNet
