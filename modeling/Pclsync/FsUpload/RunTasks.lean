import Pclsync.Api.BuildPass
import Pclsync.Transition

/-!
# Running the upload tasks

`psync_fsupload_run_tasks` (`pfsupload.c`) sends the requests of a list of tasks one after the other
over one connection, and stores the responses, which come in the order of the requests, in the
tasks, with a second cursor that passes over the tasks without a request. Between the requests it
reads what has arrived with `get_result_async`, after the last one it waits with `get_result`.

* `Task`, `Reader`, `State`: the tasks, the reader of a response in pieces, and the connection, of
  which the bytes that are sent to the client and not read yet are known.
* `machine`: the function and the connection, for any answers; what each socket read returns is in
  the action.
* `Sound`: each response is in the task whose request it answers, as many responses as requests are
  read when the connection is released as good, and what is waited for is the answer to a request.
-/

namespace Pclsync.FsUpload

open Api

/-! ## The tasks -/

/-- A parsed response. -/
abbrev Result := Ptr × Mem

/-- `fsupload_task_t`, as far as the function uses it. The flag `needprocessing` is not initialised
    when the task is made. -/
structure Task where
  type : ℕ
  status : UInt8
  res : Option Result
  ccreat : Bool
  needprocessing : Bool

/-- What the function of a type to send its request returns: `0`, `-1` or `-2`. -/
inductive Sent
  | ok
  | failed
  | deferred

/-- `PSYNC_FS_TASK_CREAT`. -/
def taskCreat : ℕ := 3

/-- `PSYNC_FS_DIRECT_UPLOAD_LIMIT`. -/
def directUploadLimit : ℕ := 256 * 1024

/-- `psync_send_task_mkdir` and the others that only write a command, which succeeds or not. -/
def sendTaskCommand (_size : Option ℕ) (written : Bool) : Sent := if written then .ok else .failed

/-- `psync_send_task_creat`; the size is that of the file of the task, if it can be opened. -/
def sendTaskCreat (size : Option ℕ) (written : Bool) : Sent :=
  match size with
  | none => .failed
  | some size =>
    if directUploadLimit < size then .deferred else if written then .ok else .failed

/-- `psync_send_task_modify`. -/
def sendTaskModify (_size : Option ℕ) (_written : Bool) : Sent := .deferred

/-- `psync_send_task_func`. -/
def sendTaskFunc : List (Option (Option ℕ → Bool → Sent)) :=
  [none, some sendTaskCommand, some sendTaskCommand, some sendTaskCreat, some sendTaskCommand, none,
    some sendTaskCommand, none, some sendTaskCommand, some sendTaskModify, some sendTaskCommand,
    some sendTaskCommand, some sendTaskCommand]

/-- The call through the table; `none` where there is no function. -/
def sendTask (type : ℕ) (size : Option ℕ) (written : Bool) : Option Sent :=
  (sendTaskFunc[type]?.join).map fun f => f size written

/-- The type has a place in the table. -/
def Task.Known (t : Task) : Prop := t.type ≠ 0 ∧ t.type < sendTaskFunc.length

instance : DecidablePred Task.Known := fun _ => inferInstanceAs (Decidable (_ ∧ _))

/-! ## Responses -/

/-- A response, of which the length is sent in four bytes before it. -/
structure Payload where
  bytes : Bytes
  length_lt : bytes.length < 256 ^ 4

/-- The bytes of the response in the connection. -/
def Payload.frame (p : Payload) : Bytes := toLE 4 p.bytes.length ++ p.bytes

/-- `async_result_reader`: the bytes that are read of the length, or those of the response and how
    many it has. -/
inductive Reader
  | length (got : Bytes)
  | data (respsize : ℕ) (got : Bytes)

/-- `async_result_reader_init`. -/
def Reader.start : Reader := .length []

/-- What is read of the next response. -/
def Reader.got : Reader → Bytes
  | .length got | .data _ got => got

/-- `bytestoread`. -/
def Reader.toread : Reader → ℕ
  | .length _ => 4
  | .data respsize _ => respsize

/-- What `psync_socket_read_noblock` returns: no bytes yet, an error or the end of the connection,
    or some bytes. -/
inductive Read
  | wouldblock
  | closed
  | bytes (n : ℕ)

/-! ## The state -/

inductive Phase
  /-- In the loop over the tasks. -/
  | sending
  /-- In the loop with `get_result_async`. -/
  | reading
  /-- In the loop after the last request. -/
  | draining
  /-- The connection is released as good. -/
  | released
  /-- The connection is released as bad. -/
  | releasedBad
  /-- The assertion fails, or the list head is used as a task. -/
  | aborted
  /-- There is no function for the type of the task. -/
  | crashed
deriving DecidableEq

/-- The function in its run. The cursors are positions in the list of tasks, the length of which
    stands for the list head. -/
structure State where
  tasks : List Task
  task : ℕ
  rtask : ℕ
  np : ℕ
  reader : Reader
  phase : Phase
  /-- The bytes of the answers to the requests sent which are not read. -/
  socket : Bytes
  /-- The tasks whose requests are sent. -/
  sent : List ℕ
  /-- The number of responses read. -/
  received : ℕ

/-- The state before the loop, with a connection on which nothing is pending. -/
def State.start (tasks : List Task) : State :=
  ⟨tasks, 0, 0, 0, .start, .sending, [], [], 0⟩

inductive Action
  /-- The next round of the loop over the tasks; the size of the task's file, and whether the
      request can be written. -/
  | send (size : Option ℕ) (written : Bool)
  /-- A read by `get_result_async`. -/
  | read (r : Read)
  /-- The loop over the tasks ends. -/
  | endSend
  /-- The next round of the loop after it, with `get_result` where a response is waited for, which
      can fail. -/
  | drain (ok : Bool)

/-! ## The functions -/

/-- `while (rtask->needprocessing)`: the position of the task for the next response, with the
    position of the first of the given ones; `none` at the list head. -/
def skipTasks : List Task → ℕ → Option ℕ
  | [], _ => none
  | t :: ts, r => if t.needprocessing then skipTasks ts (r + 1) else some r

/-- The current task with its flag. -/
def State.setNeedprocessing (s : State) (b : Bool) : State :=
  { s with tasks := s.tasks.modify s.task fun t => { t with needprocessing := b } }

def State.next (s : State) : State := { s with task := s.task + 1, phase := .sending }

/-- The response is stored. -/
def State.store (s : State) (r : ℕ) (res : Result) : State :=
  { s with
    tasks := s.tasks.modify r fun t => { t with res := some res }
    rtask := r + 1
    received := s.received + 1 }

/-- A response is read by `get_result_async`. -/
def State.receive (s : State) (data : Bytes) : State :=
  match parseResult data with
  | none => { s with phase := .releasedBad }
  | some res =>
    match skipTasks (s.tasks.drop s.rtask) s.rtask with
    | none => { s with phase := .aborted }
    | some r => s.store r res

variable (answer : ℕ → Payload)

/-- The request of the current task is sent, and will be answered. -/
def State.request (s : State) (creat : Bool) : State :=
  { s with
    tasks := s.tasks.modify s.task fun t => { t with ccreat := creat || t.ccreat }
    socket := s.socket ++ (answer s.task).frame
    sent := s.sent ++ [s.task]
    phase := .reading }

/-- A round of the loop over the tasks. -/
def State.send (s : State) (size : Option ℕ) (written : Bool) (t : Task) : State :=
  if ¬ t.Known then (s.setNeedprocessing false).next
  else if t.status = 11 then (s.setNeedprocessing true).next
  else
    match sendTask t.type size written with
    | none => { s.setNeedprocessing false with phase := .crashed }
    | some .failed => { s.setNeedprocessing false with phase := .releasedBad }
    | some .deferred => { (s.setNeedprocessing true).next with np := s.np + 1 }
    | some .ok => (s.setNeedprocessing false).request answer (t.type = taskCreat)

/-- Bytes are read by `get_result_async`. -/
def State.addBytes (s : State) (bytes : Bytes) : State :=
  match s.reader with
  | .length got =>
    if (got ++ bytes).length = 4 then { s with reader := .data (ofLE (got ++ bytes)) [] }
    else { s with reader := .length (got ++ bytes) }.next
  | .data respsize got =>
    if (got ++ bytes).length = respsize then { s with reader := .start }.receive (got ++ bytes)
    else { s with reader := .data respsize (got ++ bytes) }.next

/-- The reads of `get_result_async`. -/
def State.read (s : State) : Read → Option State
  | .wouldblock => if s.reader.toread = 0 then none else some s.next
  | .closed => some { s with reader := .start, phase := .releasedBad }
  | .bytes n =>
    if 0 < n ∧ n ≤ s.reader.toread - s.reader.got.length ∧ n ≤ s.socket.length then
      some ({ s with socket := s.socket.drop n }.addBytes (s.socket.take n))
    else none

/-- `get_result`, when the bytes for it come. -/
def getResult (socket : Bytes) : Option (Bytes × Bytes) :=
  if 4 ≤ socket.length ∧ ofLE (socket.take 4) ≤ (socket.drop 4).length then
    some ((socket.drop 4).take (ofLE (socket.take 4)), (socket.drop 4).drop (ofLE (socket.take 4)))
  else none

/-- A round of the loop after the last request. -/
def State.drain (s : State) (ok : Bool) : Option State :=
  match s.tasks[s.rtask]? with
  | none => some { s with phase := .released }
  | some t =>
    if t.needprocessing then some { s with rtask := s.rtask + 1 }
    else if ok then
      (getResult s.socket).map fun r =>
        match parseResult r.1 with
        | none => { s with socket := r.2, phase := .releasedBad }
        | some res => { s with socket := r.2 }.store s.rtask res
    else some { s with phase := .releasedBad }

/-- `psync_fsupload_run_tasks`, after it has a connection. -/
def step (s : State) : Action → Option State
  | .send size written =>
    if s.phase = .sending then s.tasks[s.task]?.map (s.send answer size written) else none
  | .read r => if s.phase = .reading then s.read r else none
  | .endSend =>
    if s.phase = .sending ∧ s.tasks.length ≤ s.task then some { s with phase := .draining }
    else none
  | .drain ok => if s.phase = .draining then s.drain ok else none

/-- The function with any tasks. -/
def machine : Machine State Action where
  init s := ∃ tasks : List Task, (∀ t ∈ tasks, t.res = none) ∧ s = .start tasks
  step := step answer

/-! ## What is to hold -/

/-- `get_result` is called for the response of the task at the second cursor. -/
def State.Waits (s : State) : Prop :=
  s.phase = .draining ∧ ∃ t, s.tasks[s.rtask]? = some t ∧ t.needprocessing = false

/-- The responses are matched with the requests. -/
structure Sound (s : State) : Prop where
  /-- A stored response is the answer to the request of the task. -/
  stored : ∀ i t res, s.tasks[i]? = some t → t.res = some res →
    i ∈ s.sent ∧ parseResult (answer i).bytes = some res
  /-- Before the connection is released as good, as many responses as requests are read, and
      nothing more. -/
  released : s.phase = .released → s.received = s.sent.length ∧ s.socket = [] ∧
    s.reader = .start ∧ ∀ i ∈ s.sent, ∃ t, s.tasks[i]? = some t ∧ t.res ≠ none
  /-- What is waited for is the answer to a request, and its bytes are the next ones. -/
  waits : s.Waits → s.rtask ∈ s.sent ∧ ∃ rest, s.socket = (answer s.rtask).frame ++ rest
  /-- No task is used which is not there. -/
  aborted : s.phase ≠ .aborted

/-- A known type where a request is sent, and no response that is read in part where the loop over
    the tasks ends. -/
def Regular (s : State) : Action → Prop
  | .send _ _ => ∀ t, s.tasks[s.task]? = some t → t.Known
  | .endSend => s.reader = .start
  | _ => True

end Pclsync.FsUpload
