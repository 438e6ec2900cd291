import Pclsync.Decimal

/-!
# The header of an HTTP response

`psync_http_connect` and `psync_http_next_request` (`pnetlibs.c`) read the header of a response into
a buffer of 4000 bytes and scan it in place. The scan goes on where it stopped when more bytes are
read.

* `Scan`: the buffer and the variables of the scan. The bytes received are apart from what is in the
  memory behind them, and an access there is recorded.
* `Scan.iterate`, `headerLoop`: a round of the scan, and the scan with the reads that it needs;
  `psyncHttpNextRequest`, `psyncHttpConnect`.
* `Header`, `StatusLine`, `Response`: well-formed responses, what they state, and the ways in which
  they are cut into reads.
-/

namespace Pclsync.Http

/-- `PSYNC_HTTP_RESP_BUFFER`. -/
def respBuffer : ℕ := 4000

/-- `isspace`. -/
def isspace (b : UInt8) : Bool := b = 32 || (9 ≤ b && b ≤ 13)

/-- `tolower`. -/
def tolower (b : UInt8) : UInt8 := if 65 ≤ b ∧ b ≤ 90 then b + 32 else b

/-- `content-length`. -/
def contentLength : List UInt8 :=
  [99, 111, 110, 116, 101, 110, 116, 45, 108, 101, 110, 103, 116, 104]

/-- `keep-alive`. -/
def keepAlive : List UInt8 := [107, 101, 101, 112, 45, 97, 108, 105, 118, 101]

/-- `timeout=`. -/
def timeout : List UInt8 := [116, 105, 109, 101, 111, 117, 116, 61]

/-! ## The scan -/

/-- The buffer, and the variables of the scan. -/
structure Scan where
  /-- The `rb` bytes received, as they are by now. -/
  received : List UInt8
  /-- The memory behind them, by its position from the beginning of the buffer. -/
  behind : ℕ → UInt8
  ptr : ℕ
  key : ℕ
  val : ℕ
  lch : UInt8
  isval : Bool
  clen : ℤ
  keepalive : UInt32
  /-- The blank line is found (`ex`). -/
  found : Bool
  /-- A byte outside those received is read or written. -/
  outside : Bool
  /-- What the next reads from the socket return. -/
  reads : List (List UInt8)

namespace Scan

variable (s : Scan)

def byte (i : ℕ) : UInt8 := s.received[i]?.getD (s.behind i)

/-- `readbuff[i]=b`. -/
def put (i : ℕ) (b : UInt8) : Scan :=
  { s with received := s.received.set i b, behind := Function.update s.behind i b }

/-- Bytes up to position `e` are read or written. -/
def touch (e : ℕ) : Scan := { s with outside := s.outside || decide (s.received.length < e) }

end Scan

/-- `while (isspace(*ptr)) ptr++`, for at most `n` bytes. -/
def skipSpace (byte : ℕ → UInt8) : ℕ → ℕ → ℕ
  | 0, p => p
  | n + 1, p => if isspace (byte p) then skipSpace byte n (p + 1) else p

/-- `memcmp`, whether the bytes are equal, and the end of those it looks at: it is taken to stop at
    the first difference, although it may read all of the bytes. -/
def memcmp (byte : ℕ → UInt8) : ℕ → List UInt8 → Bool × ℕ
  | p, [] => (true, p)
  | p, b :: bs => if byte p = b then memcmp byte (p + 1) bs else (false, p + 1)

/-- The digits that `psync_ato64` reads, at most `n` of them. -/
def digits (byte : ℕ → UInt8) : ℕ → ℕ → List UInt8
  | 0, _ => []
  | n + 1, p => if isDigitByte (byte p) then byte p :: digits byte n (p + 1) else []

/-- `psync_ato64`, as a signed number. -/
def ato64 (ds : List UInt8) : ℤ := Int.bmod (ofDecimal ds) 18446744073709551616

/-- `psync_ato32`. -/
def ato32 (ds : List UInt8) : UInt32 := UInt32.ofNat (ofDecimal ds)

namespace Scan

variable (s : Scan)

/-- A line is complete, with its name at `key` and its value at `val`. -/
def endLine : Scan :=
  let isLength := memcmp s.byte s.key contentLength
  if isLength.1 then
    let number := digits s.byte respBuffer s.val
    { (s.touch isLength.2).touch (s.val + number.length + 1) with clen := ato64 number }
  else
    let isKeepalive := memcmp s.byte s.key keepAlive
    if isKeepalive.1 then
      let isTimeout := memcmp s.byte s.val timeout
      if isTimeout.1 then
        let number := digits s.byte respBuffer (s.val + 8)
        { (((s.touch isLength.2).touch isKeepalive.2).touch isTimeout.2).touch
            (s.val + 8 + number.length + 1) with keepalive := ato32 number }
      else ((s.touch isLength.2).touch isKeepalive.2).touch isTimeout.2
    else (s.touch isLength.2).touch isKeepalive.2

/-- A round of the loop. -/
def iterate : Scan :=
  let ch := s.byte s.ptr
  if ch = 13 then { s.put s.ptr 0 with ptr := s.ptr + 1 }
  else if ch = 10 then
    if s.lch = 10 then { s with ptr := s.ptr + 1, found := true }
    else
      { (s.put s.ptr 0).endLine with
        key := s.ptr + 1, isval := false, lch := ch, ptr := s.ptr + 1 }
  else if ch = 58 ∧ s.isval = false then
    let val := skipSpace s.byte respBuffer (s.ptr + 1)
    { ((s.put s.ptr 0).touch (val + 1)).put val (tolower (s.byte val)) with
      val, isval := true, lch := ch, ptr := val + 1 }
  else { s.put s.ptr (tolower ch) with lch := ch, ptr := s.ptr + 1 }

/-- More bytes are read. -/
def readMore : Option Scan :=
  if s.received.length = respBuffer then none
  else
    match s.reads with
    | [] => none
    | chunk :: reads =>
      if chunk = [] then none else some { s with received := s.received ++ chunk, reads }

/-- The variables before the loop, after a first read; a zero is written behind it. -/
def start (chunk : List UInt8) (behind : ℕ → UInt8) (ptr : ℕ) (reads : List (List UInt8)) :
    Scan where
  received := chunk
  behind := Function.update behind chunk.length 0
  ptr := ptr
  key := ptr
  val := ptr
  lch := 0
  isval := false
  clen := -1
  keepalive := 0
  found := false
  outside := false
  reads := reads

end Scan

/-- The loop, with the reads between its rounds, for at most `n` of both. -/
def headerLoop : ℕ → Scan → Option Scan
  | 0, _ => none
  | n + 1, s =>
    if s.found then some s
    else if s.ptr < s.received.length then headerLoop n s.iterate
    else s.readMore.bind (headerLoop n)

/-! ## The functions -/

/-- `atoi` at the beginning of a text. -/
def atoi (l : List UInt8) : ℕ := ofDecimal (l.takeWhile isDigitByte)

/-- The status line in the first read, behind which there is a zero: the position after it, or the
    code which is returned. -/
def parseStatus (chunk : List UInt8) : Except ℤ ℕ :=
  let rest := (chunk.dropWhile fun b => b ≠ 0 && !isspace b).dropWhile fun b => b ≠ 0 && isspace b
  if (rest.head?.map isDigitByte).getD false = false then .error (-1)
  else if atoi rest / 10 ≠ 20 then .error (if atoi rest = 0 then -1 else atoi rest)
  else
    match rest.dropWhile fun b => b ≠ 0 && b ≠ 10 with
    | [] => .error (-1)
    | b :: rest => if b = 0 then .error (-1) else .ok (chunk.length - rest.length)

/-- `psync_http_socket`, as far as the functions set it, and whether a byte was used which was not
    received. -/
structure Socket where
  contentlength : ℤ
  readbytes : ℕ
  keepalive : UInt32
  readbuffoff : ℕ
  readbuffsize : ℕ
  outside : Bool

/-- What is set at `ex`. -/
def Scan.socket (s : Scan) : Socket where
  contentlength := s.clen
  readbytes := 0
  keepalive := s.keepalive
  readbuffoff := s.ptr
  readbuffsize := s.received.length
  outside := s.outside

/-- The reading of a header, where the reads from the socket return `reads`. -/
def readHeader (behind : ℕ → UInt8) : List (List UInt8) → Except ℤ Socket
  | [] => .error (-1)
  | chunk :: reads =>
    if chunk = [] then .error (-1)
    else
      match parseStatus chunk with
      | .error code => .error code
      | .ok ptr =>
        match headerLoop (respBuffer + 1 + reads.length) (.start chunk behind ptr reads) with
        | none => .error (-1)
        | some s => .ok s.socket

/-- `psync_http_next_request`. -/
def psyncHttpNextRequest (behind : ℕ → UInt8) (reads : List (List UInt8)) : Except ℤ Socket :=
  readHeader behind reads

/-- `psync_http_connect`, after its request is sent, and whether the buffer is kept for what follows
    the header. -/
def psyncHttpConnect (behind : ℕ → UInt8) (reads : List (List UInt8)) : Option (Socket × Bool) :=
  match readHeader behind reads with
  | .error _ => none
  | .ok sock => some (sock, sock.readbuffoff != sock.readbuffsize)

/-! ## Well-formed responses -/

/-- The status line of a response that is not refused. -/
structure StatusLine where
  version : List UInt8
  digit : UInt8
  reason : List UInt8
  version_ok : ∀ b ∈ version, b ≠ 0 ∧ isspace b = false
  digit_ok : isDigitByte digit = true
  reason_ok : ∀ b ∈ reason, b ≠ 0 ∧ b ≠ 10
  reason_head : ∀ b ∈ reason.head?, isDigitByte b = false

/-- `HTTP/1.1 200 OK` with its line end. -/
def StatusLine.bytes (l : StatusLine) : List UInt8 :=
  l.version ++ 32 :: 50 :: 48 :: l.digit :: (l.reason ++ [13, 10])

/-- A header, with the whitespace after its colon. -/
structure Header where
  name : List UInt8
  space : List UInt8
  value : List UInt8
  name_ne : name ≠ []
  name_ok : ∀ b ∈ name, b ≠ 0 ∧ b ≠ 10 ∧ b ≠ 13 ∧ b ≠ 58
  space_ok : ∀ b ∈ space, b = 32 ∨ b = 9
  value_ok : ∀ b ∈ value, b ≠ 0 ∧ b ≠ 10 ∧ b ≠ 13
  value_head : ∀ b ∈ value.head?, isspace b = false

namespace Header

variable (h : Header)

def bytes : List UInt8 := h.name ++ 58 :: (h.space ++ (h.value ++ [13, 10]))

/-- The name, in any case. -/
def Named (name : List UInt8) : Prop := h.name.map tolower = name

instance (name : List UInt8) : Decidable (h.Named name) := inferInstanceAs (Decidable (_ = _))

/-- The parameters of the value. -/
def params : List (List UInt8) :=
  ((h.value.map tolower).splitOn 44).map fun p => p.dropWhile fun b => b = 32

/-- The first parameter for the timeout. -/
def timeoutParam : Option (List UInt8) := h.params.find? fun p => timeout.isPrefixOf p

end Header

/-- The content length which headers state. -/
def statedLength (hs : List Header) : ℤ :=
  match hs.find? fun h => h.Named contentLength with
  | none => -1
  | some h => atoi h.value

/-- The keep-alive timeout which headers state. -/
def statedKeepalive (hs : List Header) : ℕ :=
  match hs.find? fun h => h.Named keepAlive with
  | none => 0
  | some h => (h.timeoutParam.map fun p => atoi (p.drop timeout.length)).getD 0

/-- A response, as far as it is received, in the reads from the socket. -/
structure Response where
  status : StatusLine
  headers : List Header
  body : List UInt8
  reads : List (List UInt8)
  lengthOnce : (headers.filter fun h => h.Named contentLength).length ≤ 1
  keepaliveOnce : (headers.filter fun h => h.Named keepAlive).length ≤ 1
  reads_ne : ∀ chunk ∈ reads, chunk ≠ []
  reads_bytes : reads.flatten = status.bytes ++ (headers.flatMap Header.bytes ++ ([13, 10] ++ body))
  reads_fit : reads.flatten.length ≤ respBuffer

namespace Response

variable (r : Response)

/-- The first byte after the blank line. -/
def bodyOffset : ℕ := r.status.bytes.length + (r.headers.flatMap Header.bytes).length + 2

/-- What the functions are to find: what the headers state, and where the body begins, without the
    use of a byte that is not received. -/
def Stated (sock : Socket) : Prop :=
  sock.contentlength = statedLength r.headers ∧ sock.keepalive.toNat = statedKeepalive r.headers ∧
    sock.readbuffoff = r.bodyOffset ∧ sock.outside = false

/-- The position of the colon of a header, with the headers before it. -/
def colon (before : List Header) (h : Header) : ℕ :=
  r.status.bytes.length + (before.flatMap Header.bytes).length + h.name.length

/-- The responses which are scanned as they are meant. -/
structure Clear : Prop where
  /-- The status line is in the first read. -/
  status : ∀ chunk ∈ r.reads.head?, r.status.bytes.length ≤ chunk.length
  /-- There is a header. -/
  headers : r.headers ≠ []
  /-- No value is empty. -/
  value : ∀ h ∈ r.headers, h.value ≠ []
  /-- The bytes from a colon to the first one of the value are in one read. -/
  colons : ∀ before h after reads rest, r.headers = before ++ h :: after →
    r.reads = reads ++ rest → reads.flatten.length ≤ r.colon before h ∨
      r.colon before h + 1 + h.space.length < reads.flatten.length
  /-- No other name begins like one of the two. -/
  names : ∀ h ∈ r.headers, (contentLength.isPrefixOf (h.name.map tolower) = true →
    h.Named contentLength) ∧ (keepAlive.isPrefixOf (h.name.map tolower) = true → h.Named keepAlive)
  /-- The timeout is the first parameter. -/
  timeout : ∀ h ∈ r.headers, h.Named keepAlive → ∀ p ∈ h.timeoutParam, h.params.head? = some p
  /-- The numbers fit. -/
  length_lt : statedLength r.headers < 9223372036854775808
  keepalive_lt : statedKeepalive r.headers < 4294967296

end Response

end Pclsync.Http
