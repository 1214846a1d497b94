import TraceDecoder.Basic
import TraceDecoder.Lib.ByteReader

/-!
# Writing the CTF files

`CTFConverter` collects the calls and returns of each core and writes them to the core's file in
packets. The structures it writes are packed; their bytes are those of a little-endian machine. The
cores are below `numCores`, and every write to their files succeeds.
-/

namespace TraceDecoder

open ByteReader

def event_funcEntry : BitVec 16 := 1
def event_funcExit : BitVec 16 := 2
def event_stateDumpStart : BitVec 16 := 3
def event_stateDumpBinInfo : BitVec 16 := 4
def event_stateDumpEnd : BitVec 16 := 7
def event_extended : BitVec 16 := 0xffff

/-- The event header and the call or return of an `event`. The time stamp of a compact header and
the event id of an extended one are the same word. -/
structure CTFEvent where
  event_id : BitVec 16
  word : BitVec 32
  timestamp : TIMESTAMP
  pc : ADDRESS
  pcDst : ADDRESS
  deriving DecidableEq, Repr

def CTFEvent.et (e : CTFEvent) : BitVec 32 :=
  if e.event_id = event_extended then e.word else e.event_id.setWidth 32

/-- What the constructor gets from the names of the files, which are strings in arrays of 512 and
256 characters. -/
structure CTFSettings where
  elfPath : List Byte
  elfName : List Byte
  numCores : ℕ
  elfPath_length : elfPath.length < 512
  elfName_length : elfName.length < 256
  chars : ∀ b ∈ elfPath ++ elfName, b ≠ 0
  numCores_le : numCores ≤ DQR_MAXCORES

/-- The member `elfName`, the complete path. -/
def CTFSettings.fullName (t : CTFSettings) : List Byte := t.elfPath ++ t.elfName

def CTFSettings.procname (t : CTFSettings) : List Byte :=
  t.elfName.take 16 ++ List.replicate (17 - (t.elfName.take 16).length) 0

/-- What is kept for a core: what has been written to its file, its buffer, once it is allocated,
and the header flag. -/
structure CTFCore where
  file : List Byte
  allocated : Bool
  eventBuffer : ℕ → CTFEvent
  eventIndex : ℕ
  headerFlag : Bool

def eventBufferSize : ℕ := 20

/-- The `int` of the code has the low 32 bits of `packetSeqNum`. -/
structure CTFConverter where
  status : DQErr
  packetSeqNum : ℕ
  cores : ℕ → CTFCore

/-- The constructor; `memory` is what the buffers will hold when they are allocated. -/
def CTFConverter.init (memory : ℕ → ℕ → CTFEvent) : CTFConverter where
  status := .ok
  packetSeqNum := 0
  cores core := ⟨[], false, memory core, 0, false⟩

/-- What `packet_seq_num` gets of the counter. -/
def seqNum (packetSeqNum : ℕ) : BitVec 64 := (BitVec.ofNat 32 packetSeqNum).signExtend 64

theorem seqNum_of_lt {n : ℕ} (h : n < 2 ^ 31) : seqNum n = BitVec.ofNat 64 n := by
  have hmsb : (BitVec.ofNat 32 n).msb = false := by
    rw [BitVec.msb_eq_false_iff_two_mul_lt, BitVec.toNat_ofNat]
    omega
  rw [seqNum, BitVec.signExtend_eq_setWidth_of_msb_false hmsb]
  apply BitVec.eq_of_toNat_eq
  simp only [BitVec.toNat_setWidth, BitVec.toNat_ofNat]
  omega

namespace CTFCore

variable (t : CTFSettings) (core : ℕ) (c : CTFCore)

def write (bytes : List Byte) : CTFCore := { c with file := c.file ++ bytes }

def writeTracePacketHeader : CTFCore :=
  c.write (ofWord 0xc1fc1fc1#32 ++ ofWord (BitVec.ofNat 32 core))

def writeStreamPacketContext (packetSeqNum : ℕ) (ts_begin ts_end : TIMESTAMP) (size : ℕ) :
    CTFCore :=
  let packetSize := BitVec.ofNat 64 (size * 8 + 52 * 8 + 8 * 8)
  c.write (ofWord ts_begin ++ (ofWord ts_end ++ (ofWord packetSize ++ (ofWord packetSize ++
    (ofWord (seqNum packetSeqNum) ++ (ofWord 0#64 ++ ofWord (BitVec.ofNat 32 core)))))))

def writeStreamHeaders (packetSeqNum : ℕ) (ts_begin ts_end : TIMESTAMP) (size : ℕ) : CTFCore :=
  (c.writeTracePacketHeader core).writeStreamPacketContext core packetSeqNum ts_begin ts_end size

/-- The member `eventContext` of the core. -/
def eventContext : List Byte := ofWord 1#32 ++ (ofWord (BitVec.ofNat 32 core) ++ t.procname)

/-- The size of an event; `none` for an event type that is not valid. -/
def eventSize (e : CTFEvent) : Option ℕ :=
  let header := if e.event_id = event_extended then 2 + 12 else 2 + 4
  if e.et = event_funcEntry.setWidth 32 then some (header + 25 + 16)
  else if e.et = event_funcExit.setWidth 32 then some (header + 25 + 16)
  else none

/-- The loop of `computeEventSizes`. -/
def computeEventSizes : Option ℕ :=
  ((List.range c.eventIndex).map c.eventBuffer).foldlM (fun size e => (eventSize e).map (size + ·))
    0

def computeBinInfoSize : ℕ :=
  2 * 3 + 12 * 3 + 25 * 3 + (8 + 8 + (t.fullName.length + 1) + 1 + 1 + 1)

def writeStateDumpHeader (id : BitVec 16) (timestamp : TIMESTAMP) : CTFCore :=
  (c.write (ofWord event_extended ++ (ofWord (id.setWidth 32) ++ ofWord timestamp))).write
    (eventContext t core)

/-- The last byte is the low one of `_baddr`. -/
def writeBinInfo (packetSeqNum : ℕ) (timestamp : TIMESTAMP) : CTFCore :=
  let c := c.writeStreamHeaders core packetSeqNum timestamp timestamp (computeBinInfoSize t)
  let c := c.writeStateDumpHeader t core event_stateDumpStart timestamp
  let c := c.writeStateDumpHeader t core event_stateDumpBinInfo timestamp
  let baddr := 0x40000000#64
  let c := (c.write (ofWord baddr)).write (ofWord 0x10000000#64)
  let c := c.write (t.fullName ++ [0])
  let c := ((c.write [0]).write [0]).write [baddr.setWidth 8]
  c.writeStateDumpHeader t core event_stateDumpEnd timestamp

def writeEvent (e : CTFEvent) : CTFCore :=
  let c := c.write (ofWord e.event_id)
  let c := c.write (if e.event_id = event_extended then ofWord e.word ++ ofWord e.timestamp
    else ofWord e.word)
  let c := c.write (eventContext t core)
  if e.et = event_funcEntry.setWidth 32 then c.write (ofWord e.pc ++ ofWord e.pcDst)
  else if e.et = event_funcExit.setWidth 32 then c.write (ofWord e.pc ++ ofWord e.pcDst)
  else c

def writeEvents : CTFCore :=
  ((List.range c.eventIndex).map c.eventBuffer).foldl (fun c e => c.writeEvent t core e) c

/-- The event at the index when a call or return has been stored there. The first one of a packet
has all of its time stamp. -/
def newEvent (id : BitVec 16) (srcAddr dstAddr : ADDRESS) (eventTS : TIMESTAMP) : CTFEvent where
  event_id := if c.eventIndex = 0 then event_extended else id
  word := if c.eventIndex = 0 then id.setWidth 32 else eventTS.setWidth 32
  timestamp := if c.eventIndex = 0 then eventTS else (c.eventBuffer c.eventIndex).timestamp
  pc := srcAddr
  pcDst := dstAddr

end CTFCore

namespace CTFConverter

variable (t : CTFSettings) (s : CTFConverter)

def update (core : ℕ) (c : CTFCore) : CTFConverter :=
  { s with cores := fun i => if i = core then c else s.cores i }

def flushEvents (core : ℕ) : DQErr × CTFConverter :=
  let c := s.cores core
  if c.eventIndex = 0 then (.ok, s)
  else if !c.allocated then (.ok, s)
  else
    let ts_begin := (c.eventBuffer 0).timestamp
    let c := if !c.headerFlag
      then { c.writeBinInfo t core s.packetSeqNum ts_begin with headerFlag := true } else c
    match c.computeEventSizes with
    | none => (.ok, { s.update core c with status := .err })
    | some size =>
      let ts_end :=
        if 1 < c.eventIndex then
          (ts_begin >>> 32) <<< 32 ||| ((c.eventBuffer (c.eventIndex - 1)).word.setWidth 64)
        else ts_begin
      let c := (c.writeStreamHeaders core s.packetSeqNum ts_begin ts_end size).writeEvents t core
      (.ok, { s.update core { c with eventIndex := 0 } with packetSeqNum := s.packetSeqNum + 1 })

def putEvent (id : BitVec 16) (core : ℕ) (srcAddr dstAddr : ADDRESS) (eventTS : TIMESTAMP) :
    CTFConverter :=
  let c := s.cores core
  s.update core { c with
    eventBuffer :=
      fun i => if i = c.eventIndex then c.newEvent id srcAddr dstAddr eventTS else c.eventBuffer i
    eventIndex := c.eventIndex + 1 }

/-- What `addCall` and `addRet` do, with the event type. The bound is the number of buffers. -/
def addEvent (id : BitVec 16) (core : ℕ) (srcAddr dstAddr : ADDRESS) (eventTS : TIMESTAMP) :
    DQErr × CTFConverter :=
  let s := s.update core { s.cores core with allocated := true }
  if (s.cores core).eventIndex = DQR_MAXCORES then
    match s.flushEvents t core with
    | (.ok, s) => (.ok, s.putEvent id core srcAddr dstAddr eventTS)
    | (rc, s) => (rc, { s with status := rc })
  else (.ok, s.putEvent id core srcAddr dstAddr eventTS)

def addCall : ℕ → ADDRESS → ADDRESS → TIMESTAMP → DQErr × CTFConverter :=
  s.addEvent t event_funcEntry

def addRet : ℕ → ADDRESS → ADDRESS → TIMESTAMP → DQErr × CTFConverter := s.addEvent t event_funcExit

def flushAll : CTFConverter :=
  (List.range DQR_MAXCORES).foldl (fun s core => if 0 < (s.cores core).eventIndex
    then (s.flushEvents t core).2 else s) s

/-- A call of `addCall` or `addRet`. -/
inductive Op
  | addCall (core : ℕ) (srcAddr dstAddr : ADDRESS) (eventTS : TIMESTAMP)
  | addRet (core : ℕ) (srcAddr dstAddr : ADDRESS) (eventTS : TIMESTAMP)
  deriving DecidableEq, Repr

def Op.core : Op → ℕ
  | .addCall core _ _ _ => core
  | .addRet core _ _ _ => core

def step : Op → CTFConverter
  | .addCall core srcAddr dstAddr eventTS => (s.addCall t core srcAddr dstAddr eventTS).2
  | .addRet core srcAddr dstAddr eventTS => (s.addRet t core srcAddr dstAddr eventTS).2

def run (ops : List Op) : CTFConverter := ops.foldl (fun s op => s.step t op) s

end CTFConverter

end TraceDecoder
