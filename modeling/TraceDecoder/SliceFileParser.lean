import TraceDecoder.Analytics

/-!
# The slice file parser

`SliceFileParser` reading a trace file (not a socket). A message is a list of slices; each slice
holds six data bits above the two message end mark bits. The field readers keep a bit index into the
message and set `eom` as a side effect. A failed parse leaves its error in `status`, where
`readNextTraceMsg` finds it the next time.
-/

namespace TraceDecoder

/-- `tf` holds the bytes of the file that have not been read, `tellg` the
number of those that have. -/
structure SliceFileParser where
  status : DQErr
  srcbits : ℕ
  tf : List Byte
  tellg : ℕ
  bitIndex : ℕ
  msgSlices : ℕ
  msgOffset : BitVec 32
  msg : List Byte
  eom : Bool
  flushMessage : Bool
  deriving DecidableEq, Repr

def SliceFileParser.init (srcbits : ℕ) (file : List Byte) : SliceFileParser where
  status := .ok
  srcbits := srcbits
  tf := file
  tellg := 0
  bitIndex := 0
  msgSlices := 0
  msgOffset := 0
  msg := []
  eom := false
  flushMessage := false

abbrev ParseM := EStateM DQErr SliceFileParser

namespace SliceFileParser

def fail {α : Type} (rc : DQErr) : ParseM α := fun s => .error rc { s with status := rc }

def slice (msg : List Byte) (i : ℕ) : Byte := msg.getD i 0

/-- The six data bits of slice `i`. -/
def data (msg : List Byte) (i : ℕ) : BitVec 64 := (slice msg i >>> 2).setWidth 64

def mseo (msg : List Byte) (i : ℕ) : Byte := slice msg i &&& 0x03

def middleSlices (msg : List Byte) : ℕ → ℕ → ℕ → ℕ → BitVec 64 → ℕ × ℕ × ℕ × BitVec 64
  | 0, i, consumed, remainingWidth, tmp_val => (i, consumed, remainingWidth, tmp_val)
  | fuel + 1, i, consumed, remainingWidth, tmp_val =>
    if 6 ≤ remainingWidth then
      middleSlices msg fuel (i + 1) (consumed + 6) (remainingWidth - 6)
        (tmp_val ||| shl64 (data msg i) consumed)
    else (i, consumed, remainingWidth, tmp_val)

/-- The bits of a field that runs over the end of slice `i`, and the slice `eom` is read from. -/
def crossingField (msg : List Byte) (i b width : ℕ) : ℕ × BitVec 64 :=
  let tmp_val := (slice msg i >>> (b + 2)).setWidth 64
  let (i, consumed, remainingWidth, tmp_val) :=
    middleSlices msg width (i + 1) (6 - b) (width - (6 - b)) tmp_val
  if 0 < remainingWidth then
    let last := (slice msg i <<< (6 - remainingWidth)) >>> (6 - remainingWidth + 2)
    (i, tmp_val ||| shl64 (last.setWidth 64) consumed)
  else (i, tmp_val)

/-- The bits of a field inside slice `i`. -/
def insideField (msg : List Byte) (i b width : ℕ) : BitVec 64 :=
  ((slice msg i <<< (6 - (b + width))) >>> (6 - (b + width) + b + 2)).setWidth 64

def parseFixedField (width : ℕ) : ParseM (BitVec 64) := fun s =>
  if width = 0 then fail .err s
  else
    let i := s.bitIndex / 6
    let b := s.bitIndex % 6
    let s := { s with bitIndex := s.bitIndex + width }
    if s.msgSlices * 6 ≤ s.bitIndex then fail .eom s
    else
      let (i, val) :=
        if 6 < b + width then crossingField s.msg i b width else (i, insideField s.msg i b width)
      .ok val { s with eom := s.eom || mseo s.msg i == MSEO_END }

/-- The loop over the slices of a variable field; `left` slices follow slice `i`. `none` when the
message ends first. -/
def varSlices (msg : List Byte) : ℕ → ℕ → ℕ → BitVec 64 → Option (ℕ × ℕ × BitVec 64)
  | left, i, w, v =>
    if mseo msg i = MSEO_NORMAL then
      match left with
      | 0 => none
      | left + 1 => varSlices msg left (i + 1) (w + 6) (v ||| shl64 (data msg (i + 1)) w)
    else some (i, w, v)

def parseVarField : ParseM (BitVec 64 × ℕ) := fun s =>
  let i := s.bitIndex / 6
  let b := s.bitIndex % 6
  if s.msgSlices ≤ i then fail .eom s
  else
    match varSlices s.msg (s.msgSlices - 1 - i) i (6 - b) ((slice s.msg i >>> (b + 2)).setWidth
      64) with
    | none => fail .err s
    | some (i, w, v) =>
      if 64 < w ∧ slice s.msg i &&& 0xc0 ≠ 0 then fail .err s
      else
        .ok (v, w) { s with bitIndex := s.bitIndex + w, eom := s.eom || mseo s.msg i == MSEO_END }

/-! ### Messages -/

/-- What a parse function stores in the message, with the bit counts it reports to the analytics. -/
structure ParsedMsg where
  coreId : BitVec 8
  timestamp : Option TIMESTAMP
  body : MessageBody
  bits : ℕ
  ts_bits : ℕ
  addr_bits : ℕ
  deriving DecidableEq, Repr

def parseSrc : ParseM (BitVec 8) := do
  let s ← get
  if 0 < s.srcbits then
    let tmp ← parseFixedField s.srcbits
    return tmp.setWidth 8
  else return 0

def parseTimestamp : ParseM (Option TIMESTAMP × ℕ) := do
  let s ← get
  if s.eom then return (none, 0)
  else
    let (tmp, width) ← parseVarField
    let s ← get
    if s.eom then return (some tmp, width) else fail .bm

/-- The frame all parse functions share: the source, the fields of the message, the timestamp.
`fields` returns the body, its bits and its address bits. -/
def parseMessage (fields : ParseM (MessageBody × ℕ × ℕ)) : ParseM ParsedMsg := do
  let s ← get
  let coreId ← parseSrc
  let (body, bits, addr_bits) ← fields
  let (timestamp, ts_bits) ← parseTimestamp
  return ⟨coreId, timestamp, body, 6 + s.srcbits + bits + ts_bits, ts_bits, addr_bits⟩

/-- `parseICT` and `parseICTWS` read the same fields. -/
def parseICTFields (body : ICT → MessageBody) : ParseM (MessageBody × ℕ × ℕ) := do
  let cksrc ← parseFixedField 4
  let ckdf ← parseFixedField 2
  if 1 < ckdf.toNat then fail .err
  else
    let (ckdata0, width0) ← parseVarField
    if ckdf = 0 then
      return (body ⟨cksrc.setWidth 4, ckdf.setWidth 2, ckdata0, 0⟩, 6 + width0, width0)
    else
      let (ckdata1, width1) ← parseVarField
      return (body ⟨cksrc.setWidth 4, ckdf.setWidth 2, ckdata0, ckdata1⟩, 6 + width0 + width1,
        width1)

def parseICT : ParseM ParsedMsg := parseMessage (parseICTFields .ict)

def parseICTWS : ParseM ParsedMsg := parseMessage (parseICTFields .ictWS)

def parseIndirectHistory : ParseM ParsedMsg := parseMessage do
  let b_type ← parseFixedField 2
  let (i_cnt, width) ← parseVarField
  let (u_addr, addr_bits) ← parseVarField
  let (history, hwidth) ← parseVarField
  return (.indirectHistory (b_type.setWidth 2) (toInt32 i_cnt) u_addr history,
    2 + width + addr_bits + hwidth, addr_bits)

def parseIndirectHistoryWS : ParseM ParsedMsg := parseMessage do
  let sync ← parseFixedField 4
  let b_type ← parseFixedField 2
  let (i_cnt, width) ← parseVarField
  let (f_addr, addr_bits) ← parseVarField
  let (history, hwidth) ← parseVarField
  return (.indirectHistoryWS (sync.setWidth 4) (b_type.setWidth 2) (toInt32 i_cnt) f_addr history,
    6 + width + addr_bits + hwidth, addr_bits)

/-- The `rdata` union; `none` for an `rCode` the switch does not know. -/
def rdata (rCode rdata : BitVec 64) : Option ResourceFull :=
  if rCode = 0 then some (.i_cnt (toInt32 rdata))
  else if rCode = 1 then some (.history rdata)
  else if rCode = 8 then some (.notTakenCount (rdata.setWidth 32))
  else if rCode = 9 then some (.takenCount (rdata.setWidth 32))
  else none

def parseResourceFull : ParseM ParsedMsg := parseMessage do
  let rCode ← parseFixedField 4
  let (tmp, width) ← parseVarField
  match rdata rCode tmp with
  | some r => return (.resourceFull r, 4 + width, 0)
  | none => fail .err

def parseDirectBranch : ParseM ParsedMsg := parseMessage do
  let (i_cnt, width) ← parseVarField
  return (.directBranch (toInt32 i_cnt), width, 0)

def parseDirectBranchWS : ParseM ParsedMsg := parseMessage do
  let sync ← parseFixedField 4
  let (i_cnt, width) ← parseVarField
  let (f_addr, addr_bits) ← parseVarField
  return (.directBranchWS (sync.setWidth 4) (toInt32 i_cnt) f_addr, 4 + width + addr_bits,
    addr_bits)

def parseIndirectBranch : ParseM ParsedMsg := parseMessage do
  let b_type ← parseFixedField 2
  let (i_cnt, width) ← parseVarField
  let (u_addr, addr_bits) ← parseVarField
  return (.indirectBranch (b_type.setWidth 2) (toInt32 i_cnt) u_addr, 2 + width + addr_bits,
    addr_bits)

def parseIndirectBranchWS : ParseM ParsedMsg := parseMessage do
  let sync ← parseFixedField 4
  let b_type ← parseFixedField 2
  let (i_cnt, width) ← parseVarField
  let (f_addr, addr_bits) ← parseVarField
  return (.indirectBranchWS (sync.setWidth 4) (b_type.setWidth 2) (toInt32 i_cnt) f_addr,
    6 + width + addr_bits, addr_bits)

def parseSync : ParseM ParsedMsg := parseMessage do
  let sync ← parseFixedField 4
  let (i_cnt, width) ← parseVarField
  let (f_addr, addr_bits) ← parseVarField
  return (.sync (sync.setWidth 4) (toInt32 i_cnt) f_addr, 4 + width + addr_bits, addr_bits)

def parseCorrelation : ParseM ParsedMsg := parseMessage do
  let evcode ← parseFixedField 4
  let cdf ← parseFixedField 2
  let (i_cnt, width) ← parseVarField
  if cdf = 0 then
    return (.correlation (evcode.setWidth 4) (cdf.setWidth 2) (toInt32 i_cnt) 0, 6 + width, 0)
  else if cdf = 1 then
    let (history, hwidth) ← parseVarField
    return (.correlation (evcode.setWidth 4) (cdf.setWidth 2) (toInt32 i_cnt) history,
      6 + width + hwidth, 0)
  else fail .err

def parseError : ParseM ParsedMsg := parseMessage do
  let etype ← parseFixedField 4
  let (_, width) ← parseVarField
  return (.error (etype.setWidth 4), 4 + width, 0)

def parseOwnershipTrace : ParseM ParsedMsg := parseMessage do
  let (tmp, width) ← parseVarField
  return (.ownership (toInt32 (tmp >>> 5)) ((tmp >>> 4).setWidth 1) ((tmp >>> 2).setWidth 2)
    (tmp.setWidth 2), width, 0)

def parseAuxAccessWrite : ParseM ParsedMsg := parseMessage do
  let (addr, width) ← parseVarField
  let (data, width') ← parseVarField
  return (.auxAccessWrite (addr.setWidth 32) (data.setWidth 32), width + width', 0)

def parseDataAcquisition : ParseM ParsedMsg := parseMessage do
  let (idTag, width) ← parseVarField
  let (data, width') ← parseVarField
  return (.dataAcquisition (idTag.setWidth 32) (data.setWidth 32), width + width', 0)

/-- The `switch (tcode)` of `readNextTraceMsg`; `none` for codes that are unsupported or unknown. -/
def parserOf : TCode → Option (ParseM ParsedMsg)
  | .ownershipTrace => some parseOwnershipTrace
  | .directBranch => some parseDirectBranch
  | .indirectBranch => some parseIndirectBranch
  | .dataAcquisition => some parseDataAcquisition
  | .error => some parseError
  | .sync => some parseSync
  | .directBranchWS => some parseDirectBranchWS
  | .indirectBranchWS => some parseIndirectBranchWS
  | .correlation => some parseCorrelation
  | .auxAccessWrite => some parseAuxAccessWrite
  | .indirectBranchHistory => some parseIndirectHistory
  | .indirectBranchHistoryWS => some parseIndirectHistoryWS
  | .inCircuitTrace => some parseICT
  | .inCircuitTraceWS => some parseICTWS
  | .resourceFull => some parseResourceFull
  | _ => none

/-- An unsupported code is an error of the call but not of the parser: `status` stays as it is. -/
def parseTraceMsg : ParseM ParsedMsg := do
  let tcode ← parseFixedField 6
  match parserOf (TCode.ofCode tcode.toNat) with
  | some parse => parse
  | none => throw .err

/-! ### Reading the file -/

/-- The outcome of reading one message, with the unread bytes that follow it. -/
inductive BinaryMsg
  | eof
  | bm (tf : List Byte)
  | msg (slices tf : List Byte)
  deriving DecidableEq, Repr

/-- Skips to the first byte that can start a message; it is left at the head. -/
def skipIdle : List Byte → List Byte
  | [] => []
  | b :: tf => if b = 0x00 ∨ b &&& 0x03 ≠ MSEO_NORMAL then skipIdle tf else b :: tf

def skipMessage : List Byte → List Byte
  | [] => []
  | b :: tf => if b &&& 0x03 = MSEO_END then tf else skipMessage tf

/-- Collects slices behind those in `msg`, which has room for 64. -/
def collectSlices (msg : List Byte) : List Byte → BinaryMsg
  | [] => if 64 ≤ msg.length then .bm [] else .eof
  | b :: tf =>
    if 64 ≤ msg.length then .bm (b :: tf)
    else if b &&& 0x03 = MSEO_END then .msg (msg ++ [b]) tf
    else collectSlices (msg ++ [b]) tf

def readBinaryMsg (s : SliceFileParser) : DQErr × Bool × SliceFileParser :=
  let tf := if s.flushMessage then skipMessage s.tf else s.tf
  match skipIdle tf with
  | [] =>
    (.eof, false, { s with
      tf := [], tellg := s.tellg + s.tf.length, flushMessage := false, status := .eof })
  | b :: tf =>
    -- the offset of a message is that of its first slice
    let start := s.tellg + (s.tf.length - tf.length)
    let s := { s with msgOffset := BitVec.ofNat 32 start - 1, flushMessage := false }
    match collectSlices [b] tf with
    | .eof => (.eof, false, { s with tf := [], tellg := start + tf.length, status := .eof })
    | .bm tf' =>
      (.bm, false, { s with tf := tf', tellg := start + (tf.length - tf'.length), status := .bm })
    | .msg slices tf' =>
      (.ok, true, { s with
        tf := tf', tellg := start + (tf.length - tf'.length), msg := slices
        msgSlices := slices.length, bitIndex := 0, eom := false })

structure ReadResult where
  rc : DQErr
  haveMsg : Bool
  nm : NexusMessage
  parser : SliceFileParser
  analytics : Analytics

def rawData (msg : List Byte) : List Byte := msg.take 32

def readNextTraceMsg (s : SliceFileParser) (analytics : Analytics) (nm : NexusMessage) :
    ReadResult :=
  if s.status ≠ .ok then ⟨s.status, false, nm, s, analytics⟩
  else
    match readBinaryMsg s with
    | (.ok, haveMsg, s) =>
      if haveMsg = false then ⟨.ok, false, nm, s, analytics⟩
      else
        match parseTraceMsg s with
        | .error _ s => ⟨.bm, false, nm, s, analytics⟩
        | .ok m s =>
          let nm := { nm with
            offset := s.msgOffset
            rawData := rawData s.msg
            coreId := m.coreId
            haveTimestamp := m.timestamp.isSome
            timestamp := m.timestamp.getD 0
            body := m.body }
          let mseo_bits := s.msgSlices * 2
          let analytics := analytics.updateTraceInfo nm (BitVec.ofNat 32 (m.bits + mseo_bits))
            (BitVec.ofNat 32 mseo_bits) (BitVec.ofNat 32 m.ts_bits) (BitVec.ofNat 32 m.addr_bits)
          let nm := { nm with msgNum := analytics.currentTraceMsgNum }
          if analytics.status ≠ .ok then
            ⟨.bm, false, nm, { s with status := analytics.status }, analytics⟩
          else ⟨.ok, true, nm, { s with status := .ok }, analytics⟩
    | (rc, _, s) => ⟨rc, false, nm, s, analytics⟩

end SliceFileParser

end TraceDecoder
