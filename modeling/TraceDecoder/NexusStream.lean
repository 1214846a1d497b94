import TraceDecoder.Basic

/-!
# The message stream of the serial wire trace server

`NexusStream` is fed one byte at a time. Its slice unwrapper collects the data bits of a field in a
buffer and tells the reassembler about each field, which makes data acquisition messages of them.
-/

namespace TraceDecoder

abbrev Buffer := ℕ → Byte

def buf_get_bit (buf : Buffer) (bitpos : ℕ) : Bool := buf (bitpos / 8) &&& 1#8 <<< (bitpos % 8) ≠ 0

def buf_set_bit (buf : Buffer) (bitpos : ℕ) (bitval : Bool) : Buffer := fun i =>
  if i = bitpos / 8 then
    if bitval then buf i ||| 1#8 <<< (bitpos % 8) else buf i &&& ~~~(1#8 <<< (bitpos % 8))
  else buf i

def u8_to_buf (val : Byte) : ℕ → Buffer → ℕ → Buffer
  | 0, buf, _ => buf
  | numbits + 1, buf, curpos =>
    u8_to_buf (val >>> 1) numbits (buf_set_bit buf curpos (val &&& 0x1 ≠ 0)) (curpos + 1)

def buf_to_u64 (buf : Buffer) (bufbitpos : ℕ) : ℕ → BitVec 64
  | 0 => 0
  | i + 1 => buf_to_u64 buf bufbitpos i ||| shl64 (if buf_get_bit buf (bufbitpos + i) then 1 else 0)
      i

structure NexusDataAcquisitionMessage where
  haveTimestamp : Bool
  timestamp : BitVec 64
  haveSrc : Bool
  src : BitVec 32
  tcode : BitVec 32
  idtag : BitVec 32
  dqdata : BitVec 32
  deriving DecidableEq, Repr

/-- The message `clear` makes. -/
def NexusDataAcquisitionMessage.cleared : NexusDataAcquisitionMessage :=
  ⟨false, 0, false, 0, 0x7, 0, 0⟩

/-! ### The reassembler -/

structure NexusMessageReassembler where
  srcbits : ℕ
  acceptingMessage : Bool
  fieldcount : ℕ
  messageHasOverflowedField : Bool
  messageReady : Bool
  dqm : NexusDataAcquisitionMessage
  deriving DecidableEq, Repr

namespace NexusMessageReassembler

def init (srcbits : ℕ) : NexusMessageReassembler := ⟨srcbits, false, 0, false, false, .cleared⟩

def startMessage (r : NexusMessageReassembler) (tcode : Byte) : NexusMessageReassembler :=
  { r with
    messageReady := false
    messageHasOverflowedField := false
    fieldcount := 0
    dqm := .cleared
    acceptingMessage := tcode = 7 }

/-- Where `numbits` is less than `srcbits` the tag is read from no bits, as in the source, where the
count is negative. -/
def messageData (r : NexusMessageReassembler) (numbits : ℕ) (data : Buffer) (overflowed : Bool) :
    NexusMessageReassembler :=
  if r.acceptingMessage then
    if overflowed then { r with messageHasOverflowedField := true }
    else
      match r.fieldcount with
      | 0 =>
        let dqm := if r.srcbits ≠ 0 then
            { r.dqm with haveSrc := true, src := (buf_to_u64 data 0 r.srcbits).setWidth 32 }
          else r.dqm
        { r with dqm :=
          { dqm with idtag := (buf_to_u64 data r.srcbits (numbits - r.srcbits)).setWidth 32 } }
      | 1 =>
        { r with dqm := { r.dqm with dqdata := (buf_to_u64 data 0 (min numbits 32)).setWidth 32 } }
      | 2 => { r with
          dqm :=
            { r.dqm with haveTimestamp := true, timestamp := buf_to_u64 data 0 (min numbits 64) } }
      | _ => r
  else r

def endField (r : NexusMessageReassembler) : NexusMessageReassembler :=
  { r with fieldcount := r.fieldcount + 1 }

def endMessage (r : NexusMessageReassembler) : NexusMessageReassembler :=
  if r.acceptingMessage then
    { r with
      acceptingMessage := false
      messageReady := r.messageReady ||
        decide (2 ≤ r.fieldcount ∧ r.fieldcount ≤ 3 ∧ r.messageHasOverflowedField = false) }
  else r

def getMessage (r : NexusMessageReassembler) :
    Option NexusDataAcquisitionMessage × NexusMessageReassembler :=
  if r.messageReady then (some r.dqm, { r with messageReady := false }) else (none, r)

end NexusMessageReassembler

/-! ### The unwrapper -/

def MAX_DATA : ℕ := 4096

structure NexusSliceUnwrapper where
  inMessage : Bool
  data : Buffer
  datanumbits : ℕ
  dataoverflowed : Bool

namespace NexusSliceUnwrapper

def emptyData (u : NexusSliceUnwrapper) : NexusSliceUnwrapper :=
  { u with data := fun _ => 0, dataoverflowed := false, datanumbits := 0 }

def init : NexusSliceUnwrapper := ⟨false, fun _ => 0, 0, false⟩

def collect (u : NexusSliceUnwrapper) (mdo : Byte) : NexusSliceUnwrapper :=
  if u.datanumbits < MAX_DATA * 8 - 6 then
    { u with data := u8_to_buf mdo 6 u.data u.datanumbits, datanumbits := u.datanumbits + 6 }
  else { u with dataoverflowed := true }

end NexusSliceUnwrapper

structure NexusStream where
  reassembler : NexusMessageReassembler
  unwrapper : NexusSliceUnwrapper

namespace NexusStream

def init (srcbits : ℕ) : NexusStream := ⟨.init srcbits, .init⟩

/-- `appendByte` of the unwrapper, with the calls it makes of the reassembler. -/
def appendByte (ns : NexusStream) (byte : Byte) : NexusStream :=
  let meso := byte &&& 0x3
  let mdo := byte >>> 2
  if ns.unwrapper.inMessage = false ∧ meso = 0 then
    -- any byte with these bits starts a message, also one of zeros
    ⟨ns.reassembler.startMessage mdo, { ns.unwrapper with inMessage := true }⟩
  else if ns.unwrapper.inMessage then
    let u := ns.unwrapper.collect mdo
    if meso ≠ 0 then
      let r := ns.reassembler.messageData u.datanumbits u.data u.dataoverflowed
      let r := if meso &&& 0x1 ≠ 0 then r.endField else r
      if meso &&& 0x2 ≠ 0 then ⟨r.endMessage, { u with inMessage := false }.emptyData⟩
        else ⟨r, u.emptyData⟩
    else ⟨ns.reassembler, u⟩
  else ns

def appendByteAndCheckForMessage (ns : NexusStream) (byte : Byte) :
    Option NexusDataAcquisitionMessage × NexusStream :=
  let ns := ns.appendByte byte
  let (msg, reassembler) := ns.reassembler.getMessage
  (msg, { ns with reassembler := reassembler })

/-- The messages that are delivered while the bytes are appended one after the other. -/
def feed (ns : NexusStream) : List Byte → List NexusDataAcquisitionMessage × NexusStream
  | [] => ([], ns)
  | byte :: bytes =>
    let (msg, ns) := ns.appendByteAndCheckForMessage byte
    let (msgs, ns) := ns.feed bytes
    (msg.toList ++ msgs, ns)

end NexusStream

end TraceDecoder
