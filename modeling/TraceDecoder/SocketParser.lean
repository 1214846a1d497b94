import TraceDecoder.Lib.RingIndex
import TraceDecoder.SliceFileParser

/-!
# Reading messages from a socket

`SliceFileParser` when it reads from a socket. `bufferSWT` moves what has arrived into a ring;
`readBinaryMsg` takes one byte at a time out of it and keeps a message it has read in part for the
next call.

The rounds of a loop are bounded by the bytes there are; `none` stands for a loop that does not end.
-/

namespace TraceDecoder

/-- The bytes that have not been received, and what happens at each call of `recv`: it fails, or so
many bytes have arrived. No byte stands for EAGAIN. -/
structure Socket where
  unread : List Byte
  arrivals : ℕ → Option ℕ

def Socket.recv (sock : Socket) (bytesToRead : ℕ) : Option (List Byte) × Socket :=
  let later := { sock with arrivals := fun i => sock.arrivals (i + 1) }
  match sock.arrivals 0 with
  | none => (none, later)
  | some k =>
    (some (sock.unread.take (min k bytesToRead)),
      { later with unread := sock.unread.drop (min k bytesToRead) })

def sockBufferSize : ℕ := 2048

structure SocketParser where
  status : DQErr
  SWTsock : Socket
  (bitIndex msgSlices : ℕ)
  msgOffset : BitVec 32
  pendingMsgIndex : ℕ
  msg : ℕ → Byte
  (eom flushMessage : Bool)
  (bufferInIndex bufferOutIndex : ℕ)
  sockBuffer : ℕ → Byte

/-- The constructor, for a connection that is made; the buffers hold what
was in the memory before. -/
def SocketParser.init (SWTsock : Socket) (msgOffset : BitVec 32) (msg sockBuffer : ℕ → Byte) :
    SocketParser where
  status := .ok
  SWTsock := SWTsock
  bitIndex := 0
  msgSlices := 0
  msgOffset := msgOffset
  pendingMsgIndex := 0
  msg := msg
  eom := false
  flushMessage := false
  bufferInIndex := 0
  bufferOutIndex := 0
  sockBuffer := sockBuffer

namespace SocketParser

variable (s : SocketParser)

/-- A call of `recv` that puts what it gets at index `i` of the ring; `none` for an error. -/
def receive (i bytesToRead : ℕ) : Option ℕ × SocketParser :=
  match s.SWTsock.recv bytesToRead with
  | (none, sock) => (none, { s with SWTsock := sock })
  | (some bytes, sock) =>
    (some bytes.length,
      { s with SWTsock := sock, sockBuffer := RingIndex.store s.sockBuffer i bytes })

/-- The part of `bufferSWT` that receives. -/
def fillRing : Option ℕ × SocketParser :=
  if s.bufferInIndex = s.bufferOutIndex then
    let (br, s) := s.receive 0 (sockBufferSize - 1)
    (br, if 0 < br.getD 0 then { s with bufferInIndex := br.getD 0, bufferOutIndex := 0 } else s)
  else if s.bufferInIndex < s.bufferOutIndex then
    let bytesToRead := s.bufferOutIndex - s.bufferInIndex - 1
    if 0 < bytesToRead then
      let (br, s) := s.receive s.bufferInIndex bytesToRead
      (br, { s with bufferInIndex := s.bufferInIndex + br.getD 0 })
    else (some 0, s)
  else
    -- the tail is not filled up if the input index could not go on to 0
    let bytesToRead :=
      if s.bufferOutIndex = 0 then sockBufferSize - s.bufferInIndex - 1
        else sockBufferSize - s.bufferInIndex
    if 0 < bytesToRead then
      let (br, s) := s.receive s.bufferInIndex bytesToRead
      if 0 < br.getD 0 ∧ sockBufferSize ≤ s.bufferInIndex + br.getD 0 then
        let s := { s with bufferInIndex := 0 }
        let bytesToRead := s.bufferOutIndex - 1
        if 0 < bytesToRead then
          let (br, s) := s.receive 0 bytesToRead
          (br, { s with bufferInIndex := br.getD 0 })
        else (br, s)
      else (br, { s with bufferInIndex := s.bufferInIndex + br.getD 0 })
    else (some 0, s)

def bufferSWT : DQErr × SocketParser :=
  match s.fillRing with
  | (none, s) => (.err, { s with status := .err })
  | (some _, s) => (.ok, s)

def nextByte : DQErr × Option Byte × SocketParser :=
  match s.bufferSWT with
  | (.ok, s) =>
    let s := { s with status := .ok }
    if s.bufferInIndex = s.bufferOutIndex then (.ok, none, s)
    else
      let next := s.bufferOutIndex + 1
      (.ok, some (s.sockBuffer s.bufferOutIndex), { s with bufferOutIndex := if sockBufferSize ≤
        next then 0 else next })
  | (rc, s) => (rc, none, { s with status := rc })

def setMsg (i : ℕ) (b : Byte) : SocketParser :=
  { s with msg := fun j => if j = i then b else s.msg j }

inductive Scan
  | ret (rc : DQErr) (s : SocketParser)
  | next (s : SocketParser)

def flushLoop : ℕ → SocketParser → Option Scan
  | 0, _ => none
  | n + 1, s =>
    match s.nextByte with
    | (.ok, none, s) => some (.ret .ok s)
    | (.ok, some b, s) =>
      if b &&& 0x03 ≠ MSEO_END then flushLoop n (s.setMsg 0 b)
      else some (.next { s.setMsg 0 b with flushMessage := false, pendingMsgIndex := 0 })
    | (_, _, s) => some (.ret .err { s with flushMessage := false, pendingMsgIndex := 0 })

def startLoop : ℕ → SocketParser → Option Scan
  | 0, _ => none
  | n + 1, s =>
    match s.nextByte with
    | (.ok, none, s) => some (.ret .ok s)
    | (.ok, some b, s) =>
      if b = 0x00 ∨ b &&& 0x03 ≠ MSEO_NORMAL then startLoop n (s.setMsg 0 b)
      else some (.next { s.setMsg 0 b with pendingMsgIndex := 1 })
    | (_, _, s) => some (.ret .err s)

def collectLoop : ℕ → SocketParser → Option Scan
  | 0, _ => none
  | n + 1, s =>
    if 64 ≤ s.pendingMsgIndex then
      some (.ret .bm { s with pendingMsgIndex := 0, flushMessage := false, status := .bm })
    else
      match s.nextByte with
      | (.ok, none, s) => some (.ret .ok s)
      | (.ok, some b, s) =>
        let i := s.pendingMsgIndex
        let s := { s.setMsg i b with pendingMsgIndex := i + 1 }
        if b &&& 0x03 = MSEO_END then some (.next { s with msgSlices := i + 1 })
          else collectLoop n s
      | (rc, _, s) => some (.ret rc s)

/-- The part of `readBinaryMsg` behind the start of a message. -/
def readRest (fuel : ℕ) : Option (DQErr × Bool × SocketParser) :=
  (collectLoop fuel { s with msgOffset := 0 }).map fun collected =>
    match collected with
    | .ret rc s => (rc, false, s)
    | .next s => (.ok, true, { s with eom := false, bitIndex := 0, pendingMsgIndex := 0 })

def readBinaryMsg : Option (DQErr × Bool × SocketParser) :=
  let fuel := sockBufferSize + s.SWTsock.unread.length + 1
  (if s.flushMessage then flushLoop fuel s else some (.next s)).bind fun flushed =>
    match flushed with
    | .ret rc s => some (rc, false, s)
    | .next s =>
      -- a message that has been read in part is gone on with
      (if s.pendingMsgIndex = 0 then startLoop fuel s else some (.next s)).bind fun started =>
        match started with
        | .ret rc s => some (rc, false, s)
        | .next s => s.readRest fuel

end SocketParser

/-! ### The messages of many calls -/

inductive Received
  | bm
  | msg (slices : List Byte)
  deriving DecidableEq, Repr

/-- What a call of `readBinaryMsg` produces. -/
def Received.of (rc : DQErr) (haveMsg : Bool) (slices : List Byte) : Option Received :=
  if rc = .bm then some .bm else if haveMsg then some (.msg slices) else none

/-- What `n` calls of `readBinaryMsg` produce in socket mode, and the state they end in. -/
def SocketParser.received : ℕ → SocketParser → Option (List Received × SocketParser)
  | 0, s => some ([], s)
  | n + 1, s =>
    s.readBinaryMsg.bind fun r =>
      (received n r.2.2).map fun t =>
        ((Received.of r.1 r.2.1 ((List.range r.2.2.msgSlices).map r.2.2.msg)).toList ++ t.1, t.2)

/-- What `n` calls of `readBinaryMsg` produce in file mode. -/
def SliceFileParser.received : ℕ → SliceFileParser → List Received
  | 0, _ => []
  | n + 1, s =>
    let r := readBinaryMsg s
    (Received.of r.1 r.2.1 (r.2.2.msg.take r.2.2.msgSlices)).toList ++ received n r.2.2

end TraceDecoder
