import TraceDecoder.Basic
import TraceDecoder.Lib.Program

/-!
# Cycle-accurate traces

`CATrace` and `CATraceRec`: records of 32 words, each with 30 bits of trace below two bits of the
record's address. Of an instruction trace every set bit is the end of an instruction in one of two
pipes. A vector trace has six bits a cycle, which are queued until the instructions they belong to
are seen.
-/

namespace TraceDecoder

inductive CATraceType
  | none | instruction | vector
  deriving DecidableEq, Repr

def CAFLAG_PIPE0 : BitVec 32 := 0x01
def CAFLAG_PIPE1 : BitVec 32 := 0x02

/-- `data[0 .. 32)`; `offset` counts bits in an instruction trace and words in a vector trace. -/
structure CATraceRec where
  offset : ℕ
  address : ADDRESS
  data : ℕ → BitVec 32

structure CATraceQItem where
  cycle : BitVec 32
  record : Byte
  qDepth : Byte
  arithInProcess : Byte
  loadInProcess : Byte
  storeInProcess : Byte
  deriving DecidableEq, Repr

/-- `caBufferSize` is the length of `caBuffer`. The queue is null when its size is 0. -/
structure CATrace where
  status : DQErr
  caType : CATraceType
  caBuffer : List Byte
  caBufferIndex : ℕ
  blockRecNum : ℕ
  startAddr : ADDRESS
  catr : CATraceRec
  traceQSize : ℕ
  traceQOut : ℕ
  traceQIn : ℕ
  caTraceQ : ℕ → CATraceQItem

namespace CATraceRec

variable (data : ℕ → BitVec 32)

/-- The loop over the bits of a word, from bit `bits - 1` down. -/
def scanWord (word : BitVec 32) : ℕ → ℕ → Option ℕ × ℕ
  | 0, offset => (none, offset)
  | bits + 1, offset => if word.getLsbD bits then (some bits, offset) else scanWord word bits
      (offset + 1)

/-- The loop over the words; `left` of them are left. -/
def scanWords : ℕ → ℕ → ℕ → ℕ → Option ℕ × ℕ
  | 0, _, _, offset => (none, offset)
  | left + 1, dataIndex, bits, offset =>
    match scanWord (data dataIndex) bits offset with
    | (some bitIndex, offset) => (some bitIndex, offset)
    | (none, offset) => scanWords left (dataIndex + 1) 30 offset

/-- The pipe and the cycle of the next set bit; `none` when the record is used up. -/
def consumeCAInstruction (r : CATraceRec) : Option (BitVec 32 × BitVec 32) × CATraceRec :=
  if 30 * 32 ≤ r.offset then (none, r)
  else
    let dataIndex := r.offset / 30
    match scanWords r.data (32 - dataIndex) dataIndex (30 - r.offset % 30) r.offset with
    | (some bitIndex, offset) =>
      (some (if bitIndex % 2 = 1 then CAFLAG_PIPE0 else CAFLAG_PIPE1, BitVec.ofNat 32 (offset / 2)),
        { r with offset := offset + 1 })
    | (none, offset) => (none, { r with offset := offset })

/-- The loop over empty words. It may look at a word behind the last, which makes no difference. -/
def skipEmpty : ℕ → ℕ → ℕ
  | 0, dataIndex => dataIndex
  | left + 1, dataIndex =>
    if data dataIndex &&& 0x3fffffff#32 = 0 then skipEmpty left (dataIndex + 1) else dataIndex

def consumeCAVector (r : CATraceRec) : Option (BitVec 32 × BitVec 32) × CATraceRec :=
  let dataIndex := skipEmpty r.data (32 - r.offset) r.offset
  if 32 ≤ dataIndex then (none, r)
  else (some (r.data dataIndex, BitVec.ofNat 32 (dataIndex * 5)),
    { r with offset := dataIndex + 1 })

end CATraceRec

abbrev CAM := EStateM DQErr CATrace

namespace CATrace

/-- `*(uint32_t*)&caBuffer[i]`, on a little-endian host. -/
def word (caBuffer : List Byte) (i : ℕ) : BitVec 32 :=
  caBuffer.getD (i + 3) 0 ++ caBuffer.getD (i + 2) 0 ++ caBuffer.getD (i + 1) 0 ++ caBuffer.getD i 0

/-- The loop that looks for the start of the first record; `false` at the end of the buffer. -/
def findStart (caBuffer : List Byte) : ℕ → BitVec 32 → ℕ → Bool × BitVec 32 × ℕ
  | 0, d, i => (false, d, i)
  | n + 1, d, i =>
    let last := d >>> 30
    let d := word caBuffer i
    if caBuffer.length < i + 4 + 4 then (false, d, i + 4)
    else if d >>> 30 ≠ 0x3 ∧ last ≠ 0 then findStart caBuffer n d (i + 4)
    else (true, d, i + 4)

def address (caBuffer : List Byte) (i : ℕ) : ADDRESS :=
  (List.range 31).foldl (fun addr j => addr ||| ((word caBuffer (i + 4 * j)) >>> 30).setWidth 64 <<<
    (2 * j)) 0

/-- The data of a record with first word `d` and the others from `i` on. The first bit of the trace
is always set. -/
def recordData (caBuffer : List Byte) (firstRecord : Bool) (d : BitVec 32) (i j : ℕ) : BitVec 32 :=
  if j = 0 then (if firstRecord then (d &&& 0x3fffffff#32) ||| 1#32 <<< 29 else d &&& 0x3fffffff#32)
  else word caBuffer (i + 4 * (j - 1)) &&& 0x3fffffff#32

def parseNextCATraceRec : CAM Unit := fun s =>
  if s.status ≠ .ok then .error s.status s
  else if s.caBuffer.length < s.caBufferIndex + 4 then .error .eof { s with status := .eof }
  else
    let firstRecord : Bool := s.caBufferIndex = 0
    match if firstRecord then findStart s.caBuffer s.caBuffer.length 0 0
      else (true, word s.caBuffer s.caBufferIndex, s.caBufferIndex + 4) with
    | (false, _, i) => .error .eof { s with status := .eof, caBufferIndex := i }
    | (true, d, i) =>
      if s.caBuffer.length < i + 4 * 31 then .error .eof { s with caBufferIndex := i }
      else
        .ok () { s with
          caBufferIndex := i + 4 * 31
          blockRecNum := if firstRecord then 0 else s.blockRecNum + 1
          catr := ⟨0, address s.caBuffer i, recordData s.caBuffer firstRecord d i⟩ }

/-- The constructor, for a file that opens; `garbage` is what the new queue holds. -/
def init (caType : CATraceType) (file : List Byte) (garbage : ℕ → CATraceQItem) : CATrace :=
  let s : CATrace := ⟨.ok, caType, file, 0, 0, 0, ⟨0, 0, fun _ => 0⟩, if caType = .vector then 512
    else 0, 0, 0, garbage⟩
  if caType = .none then { s with status := .err }
  else
    match parseNextCATraceRec s with
    | .ok _ s => { s with status := .ok, startAddr := s.catr.address }
    | .error rc s => { s with status := rc, startAddr := s.catr.address }

/-- The loop around a function that consumes from the record and fails when it is used up. -/
def untilConsumed {α : Type} (consume : CATraceRec → Option α × CATraceRec) : ℕ → CAM α
  | 0 => fun s => .error .err s
  | n + 1 => fun s =>
    match consume s.catr with
    | (some a, r) => .ok a { s with catr := r }
    | (none, r) =>
      match parseNextCATraceRec { s with catr := r } with
      | .ok _ s => untilConsumed consume n s
      | .error rc s => .error rc { s with status := rc }

/-- The pipe and the cycle of the next instruction. Every turn of the loop reads a record. -/
def consumeCAInstruction : CAM (BitVec 32 × BitVec 32) := fun s =>
  match untilConsumed CATraceRec.consumeCAInstruction (s.caBuffer.length + 1) s with
  | .ok (pipe, cycles) s => .ok (pipe, cycles + BitVec.ofNat 32 (s.blockRecNum * 15 * 32)) s
  | .error rc s => .error rc s

end CATrace

end TraceDecoder
