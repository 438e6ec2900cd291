import Pclsync.BigUpload.Ranges
import Pclsync.Transition

/-!
# Uploading a large file

`upload_big_file` (`pupload.c`) as a machine: the requests of a walk over the ranges are sent
without waiting for their responses, which are read as they come. When the server refuses a copy,
the responses that are still to come are read and dropped, and the walk goes on from that range,
which is now uploaded.

* `serve`: what the server does with a request. It answers requests in order, and may refuse any.
* `State`, `Event`: the variables of the function with the requests that are not answered, the
  content of the upload on the server and the ways in which the connection was given back.
* `step`: the function from one call to the next.
-/

namespace Pclsync.BigUpload

/-! ## Requests -/

/-- The commands that are sent for ranges. -/
inductive Command
  | uploadWrite (data : List UInt8)
  | uploadWriteFromFile (fileid hash offset count : ℕ)
  | uploadWriteFromUpload (readuploadid offset count : ℕ)
  | uploadInfo
  deriving DecidableEq

/-- A request; `range` is the position of the range that caused it, which is not sent. -/
structure Request where
  uploadoffset : ℕ
  id : ℕ
  command : Command
  range : ℕ
  deriving DecidableEq

variable {H : Type} [DecidableEq H] (u : Upload H)

/-- The request of `upload_range`, `upload_from_file`, `upload_from_upload` and
    `upload_get_checksum` for the range at a position. -/
def Upload.request (u : Upload H) (i : ℕ) (r : UploadRange) : Request where
  uploadoffset := r.uploadoffset
  id := r.id
  range := i
  command :=
    match r.type with
    | .upload => .uploadWrite (u.localFile.pread r.len r.off)
    | .copyFile fileid hash => .uploadWriteFromFile fileid hash r.off r.len
    | .copyUpload uploadid => .uploadWriteFromUpload uploadid r.off r.len
    | .last => .uploadInfo

/-- The content of the upload after a request that the server does; it cannot copy what is not
    there. -/
def serve (content : File) (req : Request) : Option File :=
  match req.command with
  | .uploadWrite data => some (content.pwrite data req.uploadoffset)
  | .uploadWriteFromFile fileid hash offset count =>
    if offset + count ≤ (u.files fileid hash).size then
      some (content.pwrite ((u.files fileid hash).pread count offset) req.uploadoffset)
    else none
  | .uploadWriteFromUpload readuploadid offset count =>
    if offset + count ≤ (u.uploads readuploadid).size then
      some (content.pwrite ((u.uploads readuploadid).pread count offset) req.uploadoffset)
    else none
  | .uploadInfo => some content

/-! ## States -/

/-- Where the function is. -/
inductive Pc
  /-- before `psync_apipool_get` -/
  | start
  /-- before `upload_create` -/
  | create
  /-- before looking for the row of the local file -/
  | insert
  | openFile
  /-- before the search for known blocks -/
  | scan
  /-- at the head of the loop over the ranges -/
  | head
  /-- at the condition of the loop over the responses -/
  | wait
  /-- after a request was refused, while responses are dropped -/
  | drain (req : Request)
  /-- at the label `restart` -/
  | send
  /-- after the loop -/
  | size
  /-- before `upload_save` -/
  | save
  | returned (ret : ℤ)
  /-- after a failed assertion -/
  | aborted
  deriving DecidableEq

structure State where
  pc : Pc
  rlist : List UploadRange
  le : ℕ
  uploadoffset : ℕ
  rid : ℕ
  respwait : ℕ
  /-- the requests that were sent and are not answered -/
  unanswered : List Request
  /-- what the upload on the server has -/
  content : File
  /-- whether there is a connection -/
  api : Bool
  /-- how it was given back: as a good one, or as a bad one -/
  released : List Bool

/-- What happens next. -/
inductive Event
  /-- `psync_apipool_get` -/
  | apipoolGet (ok : Bool)
  /-- the result of `upload_create`, if there is one -/
  | uploadCreate (result : Option ℕ)
  /-- whether the row of the local file is there -/
  | localfile (found : Bool)
  | fileOpen (ok : Bool)
  /-- the search for known blocks, which may fail -/
  | scanBlocks (ok : Bool)
  /-- `upload->stop`, and whether `upload_get_checksum` can be sent -/
  | next (stop infoOk : Bool)
  /-- no data is there to read -/
  | quiet
  /-- `get_result`, with the result of the server -/
  | getResult (result : Option ℕ)
  /-- the search for the range that was refused -/
  | findId
  /-- whether the request of the range can be sent -/
  | sendRange (ok : Bool)
  /-- whether the local file has the same size -/
  | fileSize (same : Bool)
  /-- the result of `upload_save`, if there is one -/
  | uploadSave (result : Option ℕ)
  deriving DecidableEq

variable {u}

def State.init (u : Upload H) : State where
  pc := .start
  rlist := []
  le := 0
  uploadoffset := u.uploadoffset
  rid := 0
  respwait := 0
  unanswered := []
  content := u.content
  api := false
  released := []

namespace State

variable (s : State)

/-- `psync_apipool_release` or `psync_apipool_release_bad`, and the return. -/
def exit (good : Bool) (ret : ℤ) : State :=
  { s with pc := .returned ret, released := s.released ++ [good] }

/-- `err1` and `err0`. -/
def err : State := s.exit false (-1)

/-- A request is sent. -/
def sent (req : Request) : State :=
  { s with unanswered := s.unanswered ++ [req], respwait := (s.respwait + 1) % 2 ^ 32 }

/-- The first request is answered. -/
def answered (rest : List Request) (content : File) : State :=
  { s with unanswered := rest, respwait := s.respwait - 1, content := content }

end State

/-! ## Steps -/

variable (u) (s : State)

/-- `psync_list_init` and the list with its copies split, before the loop. -/
def stepScan : State :=
  { s with
    pc := .head
    rlist := splitCopies u.rlist ++ [{ u.junk with type := .last }]
    le := 0
    rid := 0
    respwait := 0 }

/-- The head of the loop; without a range it ends. -/
def stepHead (stop infoOk : Bool) : State :=
  match s.rlist[s.le]? with
  | none => { s with pc := .size }
  | some r =>
    if stop then s.err
    else
      let rid := (s.rid + 1) % 2 ^ 32
      let r := { r with uploadoffset := s.uploadoffset, id := rid }
      let s := { s with rlist := s.rlist.set s.le r, rid := rid, pc := .wait }
      if r.type = .last then if infoOk then s.sent (u.request s.le r) else s.err else s

/-- The end of the upload as `upload_info` shows it. -/
def checkInfo (s : State) : State :=
  if s.content.size ≠ u.fsize then s.err
  else if u.checksum s.content ≠ u.hashhex then s.err
  else if s.respwait = 0 then s
  else { s with pc := .aborted }

/-- A response, read for the range `r` at `le`. -/
def stepResult (r : UploadRange) (result : Option ℕ) : Option State :=
  match result, s.unanswered with
  | none, _ => some s.err
  | some _, [] => none
  | some result, req :: rest =>
    if result ≠ 0 then
      let s := s.answered rest s.content
      some (if req.id = 0 then s.err else { s with pc := .drain req })
    else
      (serve u s.content req).map fun content =>
        let s := s.answered rest content
        if r.type = .last ∧ r.id = req.id then checkInfo u s else s

/-- A response that is dropped. -/
def stepDrain (result : Option ℕ) : Option State :=
  match result, s.unanswered with
  | none, _ => some s.err
  | some _, [] => none
  | some result, req :: rest =>
    if result ≠ 0 then some (s.answered rest s.content)
    else (serve u s.content req).map (s.answered rest)

/-- The range with the id of the refused request is uploaded. -/
def stepFindId (req : Request) : Option State :=
  match s.rlist.findIdx? (fun r => r.id = req.id) with
  | none => some s.err
  | some i =>
    s.rlist[i]?.map fun r =>
      if r.type.isCopy then
        { s with
          pc := .send
          rlist := s.rlist.set i { r with type := .upload, off := r.uploadoffset }
          uploadoffset := r.uploadoffset
          le := i }
      else s.err

/-- The request of a range is sent; the local file must have the bytes. -/
def stepSend (ok : Bool) : Option State :=
  s.rlist[s.le]?.map fun r =>
    if r.type = .last then { s with pc := .size }
    else if ok ∧ (r.type = .upload → r.off + r.len ≤ u.localFile.size) then
      { s.sent (u.request s.le r) with
        uploadoffset := s.uploadoffset + r.len
        le := s.le + 1
        pc := .head }
    else s.err

/-- `upload_big_file`. -/
def step : State → Event → Option State
  | s, e =>
    match s.pc, e with
    | .start, .apipoolGet ok =>
      some (if ok then { s with api := true, pc := if u.uploadid = 0 then .create else .openFile }
        else { s with pc := .returned (-1) })
    | .create, .uploadCreate result =>
      match result with
      | none => some s.err
      | some result =>
        some (if result ≠ 0 then s.exit true (if u.tempfail result then -1 else 0)
          else { s with pc := .insert })
    | .insert, .localfile found =>
      -- without the row, the function returns at once
      some { s with pc := if found then .openFile else .returned (-1) }
    | .openFile, .fileOpen ok => some (if ok then { s with pc := .scan } else s.exit true (-1))
    | .scan, .scanBlocks ok => some (if ok then stepScan u s else s.err)
    | .head, .next stop infoOk => some (stepHead u s stop infoOk)
    | .wait, .quiet =>
      s.rlist[s.le]?.bind fun r =>
        if s.respwait = 0 ∨ r.type ≠ .last then some { s with pc := .send } else none
    | .wait, .getResult result =>
      s.rlist[s.le]?.bind fun r => if s.respwait = 0 then none else stepResult u s r result
    | .drain _, .getResult result => if s.respwait = 0 then none else stepDrain u s result
    | .drain req, .findId => if s.respwait = 0 then stepFindId s req else none
    | .send, .sendRange ok => stepSend u s ok
    | .size, .fileSize same => some (if same then { s with pc := .save } else s.exit false (-1))
    | .save, .uploadSave result =>
      match result with
      | none => some (s.exit false (-1))
      | some result =>
        some (if result ≠ 0 ∧ u.tempfail result = true then s.exit false (-1) else s.exit true 0)
    | _, _ => none

/-- The runs of `upload_big_file`. -/
def uploadMachine : Machine State Event where
  init s := s = .init u
  step := step u

end Pclsync.BigUpload
