import TraceDecoder.NexusStream

/-!
# The clients of the serial wire trace server

`IoConnections` passes what it reads from the serial device on to its clients, which come and go,
and each of which takes as much at a time as its socket accepts. What the system calls of a pass
give is an argument of the pass.

The histories are not kept by the code; the properties are about them.
-/

namespace TraceDecoder

/-- The number of chunks that had been read when the connection was accepted, the
bytes that `send` has taken, and the chunks that have been read since, each with the
length of the queue at the time. -/
structure History where
  joined : ℕ
  sent : List Byte
  offered : List (List Byte × ℕ)

structure IoConnection where
  fd : ℤ
  bytesToSend : List Byte
  withholding : Bool
  history : History

namespace IoConnection

variable (c : IoConnection)

def init (fd : ℤ) (joined : ℕ) : IoConnection := ⟨fd, [], false, ⟨joined, [], []⟩⟩

def enqueue (str : List Byte) : IoConnection := { c with bytesToSend := c.bytesToSend ++ str }

/-- The length, as an `int`. -/
def getQueueLength : ℤ := (BitVec.ofNat 32 c.bytesToSend.length).toInt

def offer (bytes : List Byte) : IoConnection :=
  { c with history :=
    { c.history with offered := c.history.offered ++ [(bytes, c.bytesToSend.length)] } }

/-- `send` has taken some bytes. -/
def sendSome (numsent : ℕ) : IoConnection :=
  { c with
    bytesToSend := c.bytesToSend.drop numsent
    history := { c.history with sent := c.history.sent ++ c.bytesToSend.take numsent } }

end IoConnection

def SERIAL_BUFFER_NUMBYTES : ℕ := 1024 * 4
def QUEUE_STALLED_CLIENT_SUSPICION_THRESHOLD : ℤ := 512 * 1024

/-- `printed` is what `itcPrintChar` has written, `chunks` what has been read
from the serial device. -/
structure IoConnections where
  ns : NexusStream
  serialFd : ℤ
  connections : List IoConnection
  numClientsHighWater : ℕ
  warnedAboutSerialDeviceClosed : Bool
  (userDebugOutput itcPrint : Bool)
  itcPrintChannel : BitVec 32
  printed : List Byte
  chunks : List (List Byte)

/-- What the system calls give in a pass: whether there is any activity; the result of `accept`, if
the server socket is readable; what is there for each read of the serial device, nothing standing
for an error too; and for each connection in turn the result of `recv`, if it is readable, and that
of `send`. -/
structure Activity where
  active : Bool
  accept : Option ℤ
  serial : List (List Byte)
  recv : ℕ → Option ℤ
  send : ℕ → ℤ

namespace IoConnections

def init (srcbits : ℕ) (serialFd : ℤ) (userDebugOutput itcPrint : Bool)
    (itcPrintChannel : BitVec 32) : IoConnections where
  ns := .init srcbits
  serialFd := serialFd
  connections := []
  numClientsHighWater := 0
  warnedAboutSerialDeviceClosed := false
  userDebugOutput := userDebugOutput
  itcPrint := itcPrint
  itcPrintChannel := itcPrintChannel
  printed := []
  chunks := []

variable (io : IoConnections)

def setSerialDevice (serialFd : ℤ) : IoConnections :=
  { io with serialFd := serialFd, warnedAboutSerialDeviceClosed := false }

def acceptClient : Option ℤ → IoConnections
  | none => io
  | some fd =>
    if 0 ≤ fd then
      { io with
        connections := io.connections ++ [.init fd io.chunks.length]
        numClientsHighWater := max io.numClientsHighWater (io.connections.length + 1) }
    else io

/-! ### The serial device -/

def itcPrintChars (itcPrintChannel : BitVec 32) (msg : NexusDataAcquisitionMessage) : List Byte :=
  if msg.idtag / 4 = itcPrintChannel then
    if msg.idtag % 4 = 0 then
      [msg.dqdata.setWidth 8, (msg.dqdata >>> 8).setWidth 8, (msg.dqdata >>> 16).setWidth 8,
        (msg.dqdata >>> 24).setWidth 8]
    else if msg.idtag % 4 = 2 then [msg.dqdata.setWidth 8, (msg.dqdata >>> 8).setWidth 8]
    else if msg.idtag % 4 = 3 then [msg.dqdata.setWidth 8]
    else []
  else []

def printMessages (bytes : List Byte) : IoConnections :=
  if io.userDebugOutput || io.itcPrint then
    let (msgs, ns) := io.ns.feed bytes
    { io with
      ns := ns
      printed := if io.itcPrint then io.printed ++ msgs.flatMap (itcPrintChars io.itcPrintChannel)
        else io.printed }
  else io

/-- The loop over the connections. The flag of a connection is written after the step to the one
behind it, which gets it; behind the last one it is written outside the list. -/
def queueLoop (bytes : List Byte) : List IoConnection → Option Bool → List IoConnection
  | [], _ => []
  | c :: cs, flag =>
    let c := { c with withholding := flag.getD c.withholding }
    let shouldWithhold := decide (QUEUE_STALLED_CLIENT_SUSPICION_THRESHOLD < c.getQueueLength)
    (if shouldWithhold then c else c.enqueue bytes) :: queueLoop bytes cs (some shouldWithhold)

def queueSerialBytesToClients (bytes : List Byte) : IoConnections :=
  { io with connections := queueLoop bytes io.connections none }

def record (bytes : List Byte) : IoConnections :=
  { io with connections := io.connections.map (·.offer bytes), chunks := io.chunks ++ [bytes] }

def closeSerial : IoConnections := { io with serialFd := -1, warnedAboutSerialDeviceClosed := true }

def serialLoop : List (List Byte) → IoConnections → IoConnections
  | [], io => io
  | available :: rest, io =>
    let bytes := available.take SERIAL_BUFFER_NUMBYTES
    let io :=
      if bytes = [] then io.closeSerial
      else ((io.printMessages bytes).record bytes).queueSerialBytesToClients bytes
    if bytes.length = SERIAL_BUFFER_NUMBYTES then serialLoop rest io else io

/-! ### The clients -/

/-- Connections that have ended are closed and erased; what has been received is dropped. -/
def recvLoop (recv : ℕ → Option ℤ) : ℕ → List IoConnection → List IoConnection
  | _, [] => []
  | i, c :: cs =>
    match recv i with
    | some numrecv => if numrecv ≤ 0 then recvLoop recv (i + 1) cs else c :: recvLoop recv (i + 1)
        cs
    | none => c :: recvLoop recv (i + 1) cs

/-- A connection whose `send` fails is closed and erased. -/
def sendLoop (send : ℕ → ℤ) : ℕ → List IoConnection → List IoConnection
  | _, [] => []
  | i, c :: cs =>
    if c.bytesToSend ≠ [] then
      if send i < 0 then sendLoop send (i + 1) cs else c.sendSome (send i).toNat ::
        sendLoop send (i + 1) cs
    else c :: sendLoop send (i + 1) cs

def serviceConnections (a : Activity) : IoConnections :=
  if a.active then
    let io := serialLoop a.serial (io.acceptClient a.accept)
    let io := { io with connections := recvLoop a.recv 0 io.connections }
    { io with connections := sendLoop a.send 0 io.connections }
  else io

/-! ### Runs -/

inductive Op
  | service (a : Activity)
  | setSerialDevice (serialFd : ℤ)

def step : Op → IoConnections
  | .service a => io.serviceConnections a
  | .setSerialDevice serialFd => io.setSerialDevice serialFd

def run (ops : List Op) : IoConnections := ops.foldl step io

end IoConnections

end TraceDecoder
