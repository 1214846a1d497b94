import Mathlib.Logic.Function.Basic
import TraceDecoder.CATrace
import TraceDecoder.Trace

/-!
# The queue of a cycle-accurate vector trace

`CATrace::consume` and what it calls. The queue is a ring of the groups of six bits that have been
read; a search walks from an entry towards the end of the queue, counts what it passes and reads on
when it gets there.
-/

namespace TraceDecoder

def CAVFLAG_V0 : Byte := 0x20
def CAVFLAG_V1 : Byte := 0x10
def CAVFLAG_VISTART : Byte := 0x08
def CAVFLAG_VIARITH : Byte := 0x04
def CAVFLAG_VISTORE : Byte := 0x02
def CAVFLAG_VILOAD : Byte := 0x01

def CAFLAG_VSTART : BitVec 32 := 0x08
def CAFLAG_VSTORE : BitVec 32 := 0x10
def CAFLAG_VLOAD : BitVec 32 := 0x20
def CAFLAG_VARITH : BitVec 32 := 0x40

/-- The flags that `consumeCAVector` is called with. -/
inductive CAVectorTraceFlags
  | start | arith | store | load
  deriving DecidableEq, Repr

def CAVectorTraceFlags.code : CAVectorTraceFlags → Byte
  | start => CAVFLAG_VISTART
  | arith => CAVFLAG_VIARITH
  | store => CAVFLAG_VISTORE
  | load => CAVFLAG_VILOAD

structure CAInfos where
  qInfo : Byte
  arithInfo : Byte
  loadInfo : Byte
  storeInfo : Byte
  deriving DecidableEq, Repr

namespace CATraceQItem

def infos (item : CATraceQItem) : CAInfos :=
  ⟨item.qDepth, item.arithInProcess, item.loadInProcess, item.storeInProcess⟩

def visitPipe (item : CATraceQItem) : CATraceQItem × Option (BitVec 32 × BitVec 32) :=
  if item.record &&& CAVFLAG_V0 ≠ 0 then
    ({ item with record := item.record &&& ~~~CAVFLAG_V0 }, some (CAFLAG_PIPE0, item.cycle))
  else if item.record &&& CAVFLAG_V1 ≠ 0 then
    ({ item with record := item.record &&& ~~~CAVFLAG_V1 }, some (CAFLAG_PIPE1, item.cycle))
  else (item, none)

def count (type : CAVectorTraceFlags) (item : CATraceQItem) : CATraceQItem :=
  match type with
  | .start => { item with qDepth := item.qDepth + 1 }
  | .arith => { item with arithInProcess := item.arithInProcess + 1 }
  | .store => { item with storeInProcess := item.storeInProcess + 1 }
  | .load => { item with loadInProcess := item.loadInProcess + 1 }

def visitVector (type : CAVectorTraceFlags) (item : CATraceQItem) :
    CATraceQItem × Option (BitVec 32) :=
  let item := item.count type
  if item.record &&& type.code ≠ 0 then ({ item with record := item.record &&& ~~~type.code },
    some item.cycle)
  else (item, none)

end CATraceQItem

def CAInfos.count (type : CAVectorTraceFlags) (infos : CAInfos) : CAInfos :=
  match type with
  | .start => { infos with qInfo := infos.qInfo + 1 }
  | .arith => { infos with arithInfo := infos.arithInfo + 1 }
  | .store => { infos with storeInfo := infos.storeInfo + 1 }
  | .load => { infos with loadInfo := infos.loadInfo + 1 }

namespace CATrace

open EStateM

def next (s : CATrace) (i : ℕ) : ℕ := if s.traceQSize ≤ i + 1 then 0 else i + 1

def roomQ (s : CATrace) : ℕ :=
  if s.traceQIn = s.traceQOut then s.traceQSize - 1
  else if s.traceQIn < s.traceQOut then s.traceQOut - s.traceQIn - 1
  else s.traceQSize - s.traceQIn + s.traceQOut - 1

def seek (s : CATrace) (skip : CATraceQItem → Bool) : ℕ → ℕ → ℕ
  | 0, i => i
  | n + 1, i => if i ≠ s.traceQIn ∧ skip (s.caTraceQ i) then seek s skip n (s.next i) else i

def moveQ (s : CATrace) (dst src : ℕ) : CATrace :=
  let caTraceQ := Function.update s.caTraceQ dst (s.caTraceQ src)
  { s with caTraceQ := Function.update caTraceQ src ⟨(caTraceQ src).cycle, 0, 0, 0, 0, 0⟩ }

/-- The outer loop of `packQ`, with the entry `dst` ends at. -/
def packLoop : ℕ → ℕ → ℕ → CATrace → ℕ × CATrace
  | 0, dst, _, s => (dst, s)
  | n + 1, dst, src, s =>
    if dst ≠ s.traceQIn ∧ src ≠ s.traceQIn then
      let dst := s.seek (fun item => item.record ≠ 0) s.traceQSize dst
      if dst ≠ s.traceQIn then
        let src := s.seek (fun item => item.record = 0) s.traceQSize (s.next dst)
        packLoop n dst src (if src ≠ s.traceQIn then s.moveQ dst src else s)
      else packLoop n dst src s
    else (dst, s)

def packQ : CAM Unit := fun s =>
  let (dst, s) := packLoop (s.traceQSize + 1) s.traceQOut s.traceQOut s
  .ok () (if dst ≠ s.traceQIn then { s with traceQIn := s.next dst } else s)

/-- Group `i` of a word. -/
def group (data : BitVec 32) (i : ℕ) : Byte := (data >>> (6 * (4 - i))).setWidth 8 &&& 0x3f

def addGroup (rec : Byte) (t : BitVec 32) (s : CATrace) : CATrace :=
  if rec ≠ 0 then
    { s with caTraceQ := Function.update s.caTraceQ s.traceQIn ⟨t, rec, 0, 0, 0, 0⟩, traceQIn := s.next s.traceQIn }
  else s

def checked {α : Type} (p : CAM α) : CAM α := fun s =>
  match p s with
  | .ok a s => .ok a s
  | .error rc s => .error rc { s with status := rc }

section
variable (packQ : CAM Unit)

/-- `addQ`, for a way to pack the queue. -/
def addQ (data t : BitVec 32) : CAM Unit := do
  let r ← read roomQ
  onlyIf (r < 5) packQ
  let r ← read roomQ
  onlyIf (r < 5) (throw .err)
  modify fun s => (List.range 5).foldl (fun s i => addGroup (group data i) (t + BitVec.ofNat 32 i)
    s) s

def parseNextVectorRecord : CAM ℕ := do
  let fuel ← read (·.caBuffer.length + 1)
  let (record, cycles) ← untilConsumed CATraceRec.consumeCAVector fuel
  let newDataStart ← read (·.traceQIn)
  let blockRecNum ← read (·.blockRecNum)
  checked (addQ packQ record (cycles + BitVec.ofNat 32 (blockRecNum * 5 * 32)))
  modify ({ · with status := .ok })
  return newDataStart

def searchQ {α : Type} (visit : CATraceQItem → CATraceQItem × Option α) :
    ℕ → ℕ → CATrace → Option α × ℕ × CATrace
  | 0, QStart, s => (none, QStart, s)
  | n + 1, QStart, s =>
    if QStart = s.traceQIn then (none, QStart, s)
    else
      let s' :=
        { s with caTraceQ := Function.update s.caTraceQ QStart (visit (s.caTraceQ QStart)).1 }
      match (visit (s.caTraceQ QStart)).2 with
      | some a => (some a, QStart, s')
      | none => searchQ visit n (s.next QStart) s'

/-- Searches the queue and, while nothing is found, the words that are read behind it. Every turn
reads a word. -/
def searchTrace {α : Type} (visit : CATraceQItem → CATraceQItem × Option α) : ℕ → ℕ → CAM (α × ℕ)
  | 0, _ => throw .err
  | n + 1, QStart => fun s =>
    match searchQ visit s.traceQSize QStart s with
    | (some a, QStart, s) => .ok (a, QStart) s
    | (none, _, s) => (checked (parseNextVectorRecord packQ) >>= searchTrace visit n) s

def searchFuel (s : CATrace) : ℕ := s.caBuffer.length + 34

def consumeCAPipe (QStart : ℕ) : CAM ((BitVec 32 × BitVec 32) × ℕ) := do
  let size ← read (·.traceQSize)
  onlyIf (size = 0) (throw .err)
  let fuel ← read searchFuel
  searchTrace packQ CATraceQItem.visitPipe fuel QStart

/-- The cycle, the counts of the first entry and the entry behind the one that was found. -/
def consumeCAVector (QStart : ℕ) (type : CAVectorTraceFlags) : CAM (BitVec 32 × CAInfos × ℕ) := do
  let size ← read (·.traceQSize)
  onlyIf (size = 0) (throw .err)
  let traceQIn ← read (·.traceQIn)
  let QStart ← if QStart = traceQIn then checked (parseNextVectorRecord packQ) else pure QStart
  let infos ← read fun s => (s.caTraceQ QStart).infos
  let fuel ← read searchFuel
  let (cycles, found) ← searchTrace packQ (CATraceQItem.visitVector type) fuel QStart
  let next ← read (·.next found)
  return (cycles, infos.count type, next)

def finishTypes : InstType → List CAVectorTraceFlags
  | .vectArith => [.arith]
  | .vectLoad | .vectAmo => [.load]
  | .vectStore => [.store]
  | .vectAmoWW => [.load, .store]
  | _ => []

def vectorFlags : InstType → BitVec 32
  | .vectArith => CAFLAG_VSTART ||| CAFLAG_VARITH
  | .vectLoad | .vectAmo => CAFLAG_VSTART ||| CAFLAG_VLOAD
  | .vectStore => CAFLAG_VSTART ||| CAFLAG_VSTORE
  | .vectAmoWW => CAFLAG_VSTART ||| CAFLAG_VLOAD ||| CAFLAG_VSTORE
  | _ => 0

def consumeFinishes (qStart : ℕ) (viFinishCycles : BitVec 32) :
    List CAVectorTraceFlags → CAM (BitVec 32)
  | [] => pure viFinishCycles
  | type :: types => do
    let (viFinishCycles, _, qStart) ← checked (consumeCAVector packQ qStart type)
    consumeFinishes qStart viFinishCycles types

/-- The events of a vector instruction. The counts come from the first finish event, the finish
cycle from the last. -/
def consumeEvents (qStart : ℕ) (iType : InstType) (info : CAInfo) : CAM CAInfo :=
  match finishTypes iType with
  | [] => return info
  | type :: types => do
    let (viStartCycles, started, qStart) ← checked (consumeCAVector packQ qStart .start)
    let (viFinishCycles, finished, qStart) ← checked (consumeCAVector packQ qStart type)
    let viFinishCycles ← consumeFinishes packQ qStart viFinishCycles types
    return { info with
      caFlags := info.caFlags ||| vectorFlags iType
      viStartCycles := viStartCycles
      viFinishCycles := viFinishCycles
      qDepth := started.qInfo
      arithInProcess := finished.arithInfo
      loadInProcess := finished.loadInfo
      storeInProcess := finished.storeInfo }

def dropEmpty (s : CATrace) : CATrace :=
  { s with traceQOut := s.seek (fun item => item.record = 0) s.traceQSize s.traceQOut }

/-- `consume`, for a way to pack the queue. The parameters that are not set keep
their values in `info`. -/
def consumeWith (iType : InstType) (info : CAInfo) : CAM CAInfo := do
  let status ← read (·.status)
  onlyIf (status ≠ .ok) (throw status)
  let caType ← read (·.caType)
  match caType with
  | .none => throw .err
  | .instruction => do
    let (caFlags, pipeCycles) ← checked consumeCAInstruction
    return { info with
      caFlags := caFlags, pipeCycles := pipeCycles, qDepth := 0, arithInProcess :=
        0, loadInProcess := 0, storeInProcess := 0 }
  | .vector => do
    let qStart ← read (·.traceQOut)
    let ((caFlags, pipeCycles), qStart) ← checked (consumeCAPipe packQ qStart)
    let info ← consumeEvents packQ qStart iType
      { info with caFlags := caFlags, pipeCycles := pipeCycles }
    modify dropEmpty
    return info

end

def consume (iType : InstType) (info : CAInfo) : CAM CAInfo := consumeWith packQ iType info

end CATrace

end TraceDecoder
