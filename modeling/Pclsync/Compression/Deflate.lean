import Pclsync.RingBuffer
import Pclsync.Transition

/-!
# Compressed streams

`psync_deflate_t` (`pcompression.c`): what zlib produces goes to a ring of 4096 bytes, from which
`psync_deflate_read` takes it. A flush that does not fit in the ring goes on to an added buffer, of
any size, which is read after the ring; until then nothing can be written. When both are empty and
zlib has more, it writes to the buffer of the reader.

zlib is left open: an `Answer` says what one call of `deflate` or `inflate` does, as far as it meets
the contract of zlib (`Answer.Valid`). The answers are part of the actions of the machine `stream`.
-/

namespace Pclsync.Compression

/-- `BUFFER_SIZE`. -/
def bufferSize : ℕ := 4096

/-- What a call of zlib returns. -/
inductive ZResult
  | ok
  | streamEnd
  | bufError
  | streamError
  | dataError
  | other
  deriving DecidableEq

/-- `PSYNC_DEFLATE_NOFLUSH`, `PSYNC_DEFLATE_FLUSH` and `PSYNC_DEFLATE_FLUSH_END`. -/
inductive Flush
  | deflateNoflush
  | deflateFlush
  | deflateFlushEnd
  deriving DecidableEq

/-- What a call of zlib does. -/
structure Answer where
  /-- The number of bytes of input consumed. -/
  consumed : ℕ
  output : List UInt8
  ret : ZResult

/-- The call stays within the room it was given; `Z_BUF_ERROR` says that it could do nothing. -/
def Answer.Valid (a : Answer) (availIn availOut : ℕ) : Prop :=
  a.consumed ≤ availIn ∧ a.output.length ≤ availOut ∧ (a.ret = .bufError → a.output = [])

instance (a : Answer) (availIn availOut : ℕ) : Decidable (a.Valid availIn availOut) :=
  inferInstanceAs (Decidable (_ ∧ _ ∧ (_ → _)))

/-- What was produced by some calls. -/
def outputs (as : List Answer) : List UInt8 := as.flatMap Answer.output

/-- How a call of the functions below ends. -/
inductive Outcome (α : Type)
  /-- zlib does not give these answers. -/
  | impossible
  /-- An assertion fails, or memory is overrun. -/
  | aborted
  | done (a : α)

def Outcome.bind {α β : Type} (x : Outcome α) (f : α → Outcome β) : Outcome β :=
  match x with
  | .impossible => .impossible
  | .aborted => .aborted
  | .done a => f a

namespace Outcome

variable {α β : Type} (f : α → Outcome β)

@[simp] theorem bind_impossible : impossible.bind f = .impossible := rfl

@[simp] theorem bind_aborted : aborted.bind f = .aborted := rfl

@[simp] theorem bind_done (a : α) : (done a).bind f = f a := rfl

end Outcome

/-- `psync_deflate_t`; `lastout` is the room for output of the call which is being made. -/
structure Deflate where
  /-- `FLAG_DEFLATE`. -/
  deflate : Bool
  /-- `FLAG_MORE_DATA`. -/
  moreData : Bool
  /-- `FLAG_STREAM_END`. -/
  streamEnd : Bool
  /-- `flushbuff`, the first `flushbufflen` bytes of it. -/
  flushbuff : Option (List UInt8)
  flushbuffoff : ℕ
  bufferstartoff : ℕ
  bufferendoff : ℕ
  buffer : ℕ → UInt8

namespace Deflate

/-- `psync_deflate_init`. -/
def init (deflate : Bool) (memory : ℕ → UInt8) : Deflate where
  deflate := deflate
  moreData := false
  streamEnd := false
  flushbuff := none
  flushbuffoff := 0
  bufferstartoff := 0
  bufferendoff := 0
  buffer := memory

variable (d : Deflate)

/-- `psync_deflate_set_out_buff`: where in the ring the output goes, and how much of it; `none` when
    the ring is full. -/
def setOutBuff : Outcome (Option (ℕ × ℕ)) :=
  if d.bufferendoff - d.bufferstartoff = bufferSize then .done none
  else
    let last := d.bufferendoff % bufferSize
    let availOut :=
      if last < d.bufferstartoff then d.bufferstartoff - last else bufferSize - last
    if availOut = 0 then .aborted else .done (some (last, availOut))

/-- `psync_deflate_call_compressor`. -/
def callCompressor (availIn availOut : ℕ) (a : Answer) : Outcome Deflate :=
  if availOut = 0 then .aborted
  else if a.Valid availIn availOut then
    .done { d with moreData := decide (a.output.length = availOut) }
  else .impossible

/-- `psync_deflate_call_compressor`, with the output going to the ring. -/
def compressToRing (availIn last availOut : ℕ) (a : Answer) : Outcome Deflate :=
  (d.callCompressor availIn availOut a).bind fun d =>
    .done { d with
      buffer := Ring.put d.buffer last a.output
      bufferendoff := d.bufferendoff + a.output.length }

/-- The loop of `psync_deflate_finish_flush_add_buffer`: the result, the added buffer, and the input
    which is left. Sizes are `uint32_t`; a buffer that cannot be doubled is overrun. -/
def finishFlushLoop (availIn used alloced : ℕ) (buff : List UInt8) :
    List Answer → Outcome (ZResult × Option (List UInt8) × ℕ)
  | [] => .impossible
  | a :: as =>
    let current := alloced - used
    if ¬ a.Valid availIn current then .impossible
    else if a.ret ≠ .ok then
      if as ≠ [] then .impossible
      else if a.ret ≠ .bufError then .done (a.ret, none, availIn - a.consumed)
      else if used = 0 then .done (.ok, none, availIn - a.consumed)
      else .done (.ok, some buff, availIn - a.consumed)
    else if a.output.length < current then
      if as ≠ [] then .impossible else .done (.ok, some (buff ++ a.output), availIn - a.consumed)
    else if alloced * 2 < 2 ^ 32 then
      finishFlushLoop (availIn - a.consumed) (used + current) (alloced * 2) (buff ++ a.output) as
    else .aborted

/-- `psync_deflate_finish_flush_add_buffer`. -/
def finishFlushAddBuffer (availIn : ℕ) (as : List Answer) : Outcome (ZResult × ℕ × Deflate) :=
  (finishFlushLoop availIn 0 4096 [] as).bind fun (ret, buff, availIn) =>
    .done (ret, availIn, { d with
      moreData := false
      flushbuffoff := 0
      flushbuff := buff.orElse fun _ => d.flushbuff })

/-- The calls of `psync_deflate_write` whose output goes to the ring: one, and a second one when the
    first one filled the ring up to its end. -/
def writeRing (len last availOut : ℕ) : List Answer → Outcome (ZResult × ℕ × Deflate)
  | [] => .impossible
  | a :: as => (d.compressToRing len last availOut a).bind fun d =>
    let availIn := len - a.consumed
    if a.ret = .ok ∧ d.moreData then
      d.setOutBuff.bind fun room =>
        match room, as with
        | none, [] => .done (a.ret, availIn, d)
        | some (last, availOut), [a'] =>
          (d.compressToRing availIn last availOut a').bind fun d =>
            .done (if a'.ret = .bufError then .ok else a'.ret, availIn - a'.consumed, d)
        | _, _ => .impossible
    else if as = [] then .done (a.ret, availIn, d)
    else .impossible

/-- `PSYNC_DEFLATE_NODATA`. -/
def nodata : ℤ := -1

/-- `PSYNC_DEFLATE_FULL`. -/
def full : ℤ := -2

/-- `PSYNC_DEFLATE_ERROR`. -/
def error : ℤ := -3

/-- `PSYNC_DEFLATE_EOF`. -/
def eof : ℤ := 0

/-- `psync_deflate_write`, where the calls whose output goes to the ring are answered by `ring`, and
    those for the added buffer by `added`. -/
def write (len : ℕ) (flush : Flush) (ring added : List Answer) : Outcome (ℤ × Deflate) :=
  if len = 0 ∧ flush = .deflateNoflush then
    if ring = [] ∧ added = [] then .done (error, d) else .impossible
  else if d.flushbuff.isSome then
    if ring = [] ∧ added = [] then .done (full, d) else .impossible
  else d.setOutBuff.bind fun room =>
    match room with
    | none => if ring = [] ∧ added = [] then .done (full, d) else .impossible
    | some (last, availOut) => (d.writeRing len last availOut ring).bind fun (ret, availIn, d) =>
      Outcome.bind
        (if ret = .ok ∧ d.deflate ∧ flush ≠ .deflateNoflush ∧ d.moreData then
          d.finishFlushAddBuffer availIn added
        else if added = [] then .done (ret, availIn, d)
        else .impossible) fun (ret, availIn, d) =>
      let d := if ret = .streamEnd then { d with streamEnd := true } else d
      .done (if ret = .streamError ∨ ret = .dataError then error else len - availIn, d)

/-- `psync_deflate_read` from the ring. -/
def readRing (len : ℕ) : Outcome (ℤ × List UInt8 × Deflate) :=
  let len := min len (d.bufferendoff - d.bufferstartoff)
  if ¬ len ≤ bufferSize ∨ ¬ d.bufferstartoff ≤ bufferSize then .aborted
  else
    Outcome.bind
      (if d.bufferstartoff + len ≤ bufferSize then
        .done (Ring.cells d.buffer d.bufferstartoff len)
      else
        let first := bufferSize - d.bufferstartoff
        if len - first = d.bufferendoff % bufferSize then
          .done (Ring.cells d.buffer d.bufferstartoff first ++ Ring.cells d.buffer 0 (len - first))
        else .aborted) fun data =>
    let start := d.bufferstartoff + len
    if start = d.bufferendoff then
      .done (len, data, { d with bufferstartoff := 0, bufferendoff := 0 })
    else if start ≥ bufferSize then
      if d.bufferendoff ≥ bufferSize then
        .done (len, data, { d with
          bufferstartoff := start - bufferSize, bufferendoff := d.bufferendoff - bufferSize })
      else .aborted
    else .done (len, data, { d with bufferstartoff := start })

/-- `psync_deflate_read` when the ring and the added buffer are empty: zlib writes to the buffer of
    the reader. -/
def readDirect (len : ℕ) (a : Answer) : Outcome (ℤ × List UInt8 × Deflate) :=
  (d.callCompressor 0 len a).bind fun d =>
    if a.ret = .bufError then .done (nodata, [], d)
    else if a.ret = .streamError ∨ a.ret = .dataError then .done (error, [], d)
    else
      let d := if a.ret = .streamEnd then { d with streamEnd := true } else d
      .done (if a.output.length = 0 then nodata else a.output.length, a.output, d)

/-- `psync_deflate_read`, with the bytes it copied to the reader. -/
def read (len : ℕ) (answer : Option Answer) : Outcome (ℤ × List UInt8 × Deflate) :=
  if ¬ d.bufferstartoff ≤ d.bufferendoff then .aborted
  else if d.bufferendoff = d.bufferstartoff then
    match d.flushbuff, answer with
    | some buff, none =>
      let len := min len (buff.length - d.flushbuffoff)
      let off := d.flushbuffoff + len
      .done (len, (buff.drop d.flushbuffoff).take len, { d with
        flushbuffoff := off
        flushbuff := if off = buff.length then none else d.flushbuff })
    | some _, some _ => .impossible
    | none, none =>
      if d.moreData then .impossible else .done (if d.streamEnd then eof else nodata, [], d)
    | none, some a => if d.moreData then d.readDirect len a else .impossible
  else if answer = none then d.readRing len
  else .impossible

/-- `psync_deflate_pending`; the sum is returned as an `int`. -/
def pending : ℤ :=
  Int.bmod (d.bufferendoff - d.bufferstartoff + d.flushbuff.elim 0 List.length : ℕ) (2 ^ 32)

end Deflate

/-! ## The machine -/

/-- A stream, with what went through it. -/
structure Stream where
  deflate : Deflate
  /-- What zlib has produced. -/
  produced : List UInt8
  /-- What `psync_deflate_read` has delivered. -/
  delivered : List UInt8
  /-- For each call of `psync_deflate_pending`, what it returned, and how many bytes had been
      produced and not delivered. -/
  pendings : List (ℤ × ℕ)
  aborted : Bool

/-- The calls on a stream, with the answers of zlib. -/
inductive Action
  | write (len : ℕ) (flush : Flush) (ring added : List Answer)
  | read (len : ℕ) (answer : Option Answer)
  | pending

namespace Stream

variable (S : Stream)

def step : Action → Option Stream
  | .write len flush ring added =>
    if S.aborted then none
    else match S.deflate.write len flush ring added with
      | .impossible => none
      | .aborted => some { S with aborted := true }
      | .done (_, d) =>
        some { S with deflate := d, produced := S.produced ++ outputs (ring ++ added) }
  | .read len answer =>
    if S.aborted then none
    else match S.deflate.read len answer with
      | .impossible => none
      | .aborted => some { S with aborted := true }
      | .done (_, data, d) =>
        some { S with
          deflate := d
          produced := S.produced ++ outputs answer.toList
          delivered := S.delivered ++ data }
  | .pending =>
    if S.aborted then none
    else some { S with
      pendings := S.pendings ++
        [(S.deflate.pending, S.produced.length - S.delivered.length)] }

/-- A stream before the first call. -/
def start (deflate : Bool) (memory : ℕ → UInt8) : Stream where
  deflate := .init deflate memory
  produced := []
  delivered := []
  pendings := []
  aborted := false

end Stream

/-- The machine of the calls on a stream. -/
def stream : Machine Stream Action where
  init S := ∃ deflate memory, S = .start deflate memory
  step := Stream.step

end Pclsync.Compression
