import TraceDecoder.PerfConverter

/-!
# Writing performance traces

The functions of the traced program that write to the instrumentation channel of a core:
`perfEmitMarker` and `write_trace_record_raw`, `_delta` and `_deltaXOR`. A `Write` is what the trace
shows of a write, the lowest bits of its address and its data.
-/

namespace TraceDecoder

open SetBits

structure Write where
  size : BitVec 32
  data : BitVec 32
  deriving DecidableEq, Repr

namespace Write

/-- `*stimulus = data`. -/
def word (data : BitVec 32) : Write := ⟨0, data⟩

/-- `((uint16_t*)stimulus)[1] = data`. -/
def half (data : BitVec 16) : Write := ⟨2, data.setWidth 32⟩

/-- `((uint8_t*)stimulus)[3] = data`. -/
def byte (data : BitVec 8) : Write := ⟨3, data.setWidth 32⟩

end Write

inductive PerfRecordType
  | funcEnter | funcExit | manual | isr
  deriving DecidableEq, Repr

namespace PerfRecordType

def code : PerfRecordType → BitVec 8
  | .funcEnter => 0
  | .funcExit => 1
  | .manual => 2
  | .isr => 3

def IsCall (t : PerfRecordType) : Prop := t = .funcEnter ∨ t = .funcExit

instance (t : PerfRecordType) : Decidable t.IsCall := inferInstanceAs (Decidable (_ ∨ _))

end PerfRecordType

/-- An entry of `perfCntrLst`. -/
structure PerfCounter where
  type : BitVec 32
  code : BitVec 32
  event_data : BitVec 64
  ctrInfo : BitVec 64

/-- The variables of the traced program for one core. `perfSetChannel`
takes the channels 0 to 31. -/
structure PerfTracer where
  itcChannel : Fin 32
  perfMarkerVal : BitVec 32
  perfCountType : PerfCount
  perfCntrMask : BitVec 32
  perfCntrLst : ℕ → PerfCounter
  masterTsControl : BitVec 32
  cntrWrapVal : ℕ → BitVec 64

/-- The arguments of a call that writes a record, and what the counters read at that time. -/
structure PerfRecord where
  recType : PerfRecordType
  this_fn : ADDRESS
  call_site : ADDRESS
  perfReadTsCounter : BitVec 64
  hpm_read_counter : ℕ → BitVec 64

namespace PerfRecord

def newCntrVal (r : PerfRecord) (perfCntrIndex : ℕ) : BitVec 64 :=
  if perfCntrIndex = 1 then r.perfReadTsCounter else r.hpm_read_counter perfCntrIndex

end PerfRecord

def low32 (x : BitVec 64) : BitVec 32 := x.setWidth 32

def high32 (x : BitVec 64) : BitVec 32 := (x >>> 32).setWidth 32

namespace PerfTracer

variable (t : PerfTracer)

def counterWrites (counter : ℕ) : List Write :=
  let c := t.perfCntrLst counter
  if c.type = 0 ∨ c.type = 1 then [.word c.type, .word c.code, .word (low32 c.ctrInfo)]
  else if c.type = 2 then
    [.word c.type, .word (low32 c.event_data), .word (high32 c.event_data),
      .word (if counter = 1 then ((t.masterTsControl >>> 24) - 1) <<< 12 else low32 c.ctrInfo)]
  else []

def perfEmitMarker : List Write :=
  .word t.perfMarkerVal :: .byte (t.perfCountType.code.setWidth 8) :: .word t.perfCntrMask ::
    (forBits (fun counter s => (t.counterWrites counter, s)) 32 t.perfCntrMask 0 ()).1

def addressWrites (a : ADDRESS) : List Write :=
  if high32 a ≠ 0 then [.word (low32 a ||| 1), .word (high32 a)] else [.word (low32 a)]

def countWrites (count : BitVec 64) : List Write :=
  .word (low32 count) :: if count >>> 32 ≠ 0 then [.half ((count >>> 32).setWidth 16)] else []

def headWrites (r : PerfRecord) : List Write :=
  .byte r.recType.code :: (addressWrites r.this_fn ++ if r.recType.IsCall
    then addressWrites r.call_site else [])

/-- A function that writes a record. `count` gives what is sent of a counter, and the new values of
`prevCntrVal`. -/
def write_trace_record (count : PerfRecord → ℕ → (ℕ → BitVec 64) → BitVec 64 × (ℕ → BitVec 64))
    (prevCntrVal : Option (ℕ → BitVec 64)) (r : PerfRecord) : List Write × Option (ℕ → BitVec 64) :=
  match prevCntrVal with
  | none => (headWrites r, none)
  | some prev =>
    let (counters, prev) := forBits (fun perfCntrIndex prev =>
      let (sent, prev) := count r perfCntrIndex prev
      (countWrites sent, prev)) 32 t.perfCntrMask 0 prev
    (headWrites r ++ counters, some prev)

def write_trace_record_raw :=
  t.write_trace_record fun r perfCntrIndex prev => (r.newCntrVal perfCntrIndex, prev)

def write_trace_record_delta := t.write_trace_record fun r perfCntrIndex prev =>
  let newCntrVal := r.newCntrVal perfCntrIndex
  let oldCntrVal := prev perfCntrIndex
  let delta := if oldCntrVal ≤ newCntrVal then newCntrVal - oldCntrVal
    else newCntrVal + t.cntrWrapVal perfCntrIndex - oldCntrVal
  (delta, Function.update prev perfCntrIndex newCntrVal)

def write_trace_record_deltaXOR := t.write_trace_record fun r perfCntrIndex prev =>
  let newCntrVal := r.newCntrVal perfCntrIndex
  let oldCntrVal := prev perfCntrIndex
  let delta := if oldCntrVal ≤ newCntrVal then newCntrVal ^^^ oldCntrVal
    else (newCntrVal + t.cntrWrapVal perfCntrIndex) ^^^ oldCntrVal
  (delta, Function.update prev perfCntrIndex newCntrVal)

def write_trace_record_fn : Option (ℕ → BitVec 64) → PerfRecord → List Write × Option
    (ℕ → BitVec 64) :=
  match t.perfCountType with
  | .raw => t.write_trace_record_raw
  | .delta => t.write_trace_record_delta
  | .deltaXOR => t.write_trace_record_deltaXOR

def records : Option (ℕ → BitVec 64) → List PerfRecord → List Write
  | _, [] => []
  | prevCntrVal, r :: rs =>
    let (writes, prevCntrVal) := t.write_trace_record_fn prevCntrVal r
    writes ++ records prevCntrVal rs

end PerfTracer

end TraceDecoder
