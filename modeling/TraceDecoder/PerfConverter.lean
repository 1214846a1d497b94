import TraceDecoder.Basic
import TraceDecoder.Lib.SetBits

/-!
# The performance trace converter

`PerfConverter::processITCPerf`, a state machine for each core that reads the writes to one
instrumentation channel. Its events are its calls of the `emitPerf` functions; what these write to
the files is not modelled.
-/

namespace TraceDecoder

open SetBits

inductive PerfState
  | sync | getCntType | getCntrMask | getCntrRecord | getCntrDef | getCntrCode | getCntrEventData | getCntrInfo
  | getAddr | getCallSite | getCnts | error
  deriving DecidableEq, Repr

inductive PerfCount
  | raw | delta | deltaXOR
  deriving DecidableEq, Repr

inductive PerfEvent
  | cntType (cntType : PerfCount)
  | cntrMask (mask : BitVec 32)
  | cntrDef (index : ℕ) (type code : BitVec 32) (eventData : BitVec 64) (info : BitVec 32)
  | addr (pc : ADDRESS)
  | fnEntry (fnAddr callSite : ADDRESS)
  | fnExit (fnAddr callSite : ADDRESS)
  | cntr (pc : ADDRESS) (index : ℕ) (val : BitVec 64)
  deriving DecidableEq, Repr

def perfRecord_FuncEnter : BitVec 8 := 0
def perfRecord_FuncExit : BitVec 8 := 1

structure PerfCore where
  state : PerfState
  cntrMaskIndex : ℕ
  cntrMask : BitVec 32
  valuePending : Bool
  cntType : PerfCount
  cntrType : BitVec 32
  cntrCode : BitVec 32
  cntrEventData : BitVec 64
  recordType : BitVec 8
  savedLow32 : BitVec 32
  lastAddress : ADDRESS
  cntrAddress : ADDRESS
  lastCount : Option (ℕ → BitVec 64)

/-- What the constructor sets; the other members have no value yet. -/
structure PerfCore.Constructed (c : PerfCore) : Prop where
  state : c.state = .sync
  cntrMaskIndex : c.cntrMaskIndex = 0
  cntrMask : c.cntrMask = 0
  valuePending : c.valuePending = false
  cntrCode : c.cntrCode = 0
  cntrEventData : c.cntrEventData = 0
  lastCount : c.lastCount = none

/-- What one pass of the loop comes to: the word is consumed or the loop goes on, the function
fails, or it uses a counter or an array that is not there. -/
inductive PerfPass
  | consumed | again | failed | fault
  deriving DecidableEq, Repr

namespace PerfCount

def ofData (data : BitVec 32) : Option PerfCount :=
  if data = 0 then some .raw else if data = 1 then some .delta else if data = 2 then some .deltaXOR
    else none

def code : PerfCount → BitVec 32
  | .raw => 0
  | .delta => 1
  | .deltaXOR => 2

end PerfCount

namespace PerfCore

def wide (high low : BitVec 32) : BitVec 64 := high ++ low

def firstCounter (mask : BitVec 32) : ℕ := seek mask 32 0

def nextCounter (mask : BitVec 32) (index : ℕ) : ℕ := seek mask (32 - (index + 1)) (index + 1)

variable (c : PerfCore)

def toCounts : PerfCore :=
  if c.cntrMask ≠ 0 then { c with cntrMaskIndex := firstCounter c.cntrMask, state := .getCnts }
  else { c with state := .getCntrRecord }

def IsCall : Prop := c.recordType = perfRecord_FuncEnter ∨ c.recordType = perfRecord_FuncExit

instance : Decidable c.IsCall := inferInstanceAs (Decidable (_ ∨ _))

def gotAddress (value : BitVec 64) : PerfCore × List PerfEvent :=
  let lastAddress := if c.cntType = .deltaXOR then c.lastAddress ^^^ value else value
  let c := { c with lastAddress := lastAddress, valuePending := false }
  if c.IsCall then ({ c with state := .getCallSite }, [])
  else ({ c with cntrAddress := lastAddress }.toCounts, [.addr lastAddress])

def gotCallSite (value : BitVec 64) : PerfCore × List PerfEvent :=
  let nextAddr := if c.cntType = .deltaXOR then c.lastAddress ^^^ value else value
  let next := { c with lastAddress := nextAddr, valuePending := false }
  if c.recordType = perfRecord_FuncEnter then
    ({ next with cntrAddress := c.lastAddress }.toCounts, [.fnEntry c.lastAddress nextAddr])
  else ({ next with cntrAddress := nextAddr }.toCounts, [.fnExit c.lastAddress nextAddr])

/-- The counter at the current index is emitted; `none` where there is no
such counter or no array. -/
def emitCount (value : BitVec 64) : Option (PerfCore × PerfEvent) :=
  if 32 ≤ c.cntrMaskIndex then none
  else if c.cntType = .deltaXOR then
    match c.lastCount with
    | none => none
    | some counts =>
      let count := counts c.cntrMaskIndex ^^^ value
      some ({ c with lastCount := some (Function.update counts c.cntrMaskIndex count) },
        .cntr c.cntrAddress c.cntrMaskIndex count)
  else some (c, .cntr c.cntrAddress c.cntrMaskIndex value)

def gotHalf (got : PerfCore → BitVec 64 → PerfCore × List PerfEvent) (data : BitVec 32) :
    PerfPass × PerfCore × List PerfEvent :=
  if c.valuePending = true then (.consumed, got c (wide data c.savedLow32))
  else if data.getLsbD 0 = true then
    (.consumed, { c with savedLow32 := data &&& ~~~1, valuePending := true }, [])
  else (.consumed, got c (data.setWidth 64))

/-- A write while counters are read; `size` is the lowest bits of its address. -/
def gotCount (size data : BitVec 32) : PerfPass × PerfCore × List PerfEvent :=
  if size = 0 then
    if c.valuePending = true then
      match c.emitCount (c.savedLow32.setWidth 64) with
      | none => (.fault, c, [])
      | some (c, e) =>
        let index := nextCounter c.cntrMask c.cntrMaskIndex
        if 32 ≤ index then
          (.again,
            { c with cntrMaskIndex := index, valuePending := false, state := .getCntrRecord }, [e])
        else (.consumed,
          { c with cntrMaskIndex := index, valuePending := true, savedLow32 := data }, [e])
    else (.consumed, { c with valuePending := true, savedLow32 := data }, [])
  else if size = 2 then
    if c.valuePending = false then (.consumed, { c with state := .error }, [])
    else
      match c.emitCount (wide data c.savedLow32) with
      | none => (.fault, c, [])
      | some (c, e) =>
        let index := nextCounter c.cntrMask c.cntrMaskIndex
        (.consumed, { c with
          cntrMaskIndex := index
          valuePending := false
          state := if 32 ≤ index then .getCntrRecord else c.state }, [e])
  else if size = 3 then
    if c.valuePending = true then
      match c.emitCount (c.savedLow32.setWidth 64) with
      | none => (.fault, c, [])
      | some (c, e) => (.again, { c with valuePending := false, state := .getCntrRecord }, [e])
    else (.again, { c with state := .getCntrRecord }, [])
  else (.again, { c with state := .error }, [])

def onePass (markerValue size data : BitVec 32) : PerfPass × PerfCore × List PerfEvent :=
  match c.state with
  | .sync =>
    if data = markerValue then
      (.consumed, { c with lastAddress := 0, cntrAddress := 0, state := .getCntType }, [])
    else (.consumed, c, [])
  | .getCntType =>
    if size = 3 then
      match PerfCount.ofData data with
      | some cntType =>
        (.consumed, { c with cntType := cntType, state := .getCntrMask }, [.cntType cntType])
      | none => (.again, { c with state := .sync }, [])
    else (.again, { c with state := .sync }, [])
  | .getCntrMask =>
    if size = 0 then
      if data = 0 then (.consumed, { c with cntrMask := data, state := .getCntrRecord },
        [.cntrMask data])
      else
        (.consumed, { c with
          cntrMask := data
          -- the array is allocated, with zeros, when there is none yet
          lastCount :=
            if c.cntType = .deltaXOR then some (c.lastCount.getD fun _ => 0) else c.lastCount
          cntrMaskIndex := firstCounter data
          state := .getCntrDef }, [.cntrMask data])
    else (.again, { c with state := .sync }, [])
  | .getCntrDef =>
    if data = 0 ∨ data = 1 then
      (.consumed, { c with cntrType := data, cntrEventData := 0, state := .getCntrCode }, [])
    else if data = 2 then (.consumed,
      { c with cntrType := data, cntrCode := 0, state := .getCntrEventData }, [])
    else (.consumed, { c with cntrType := data, state := .error }, [])
  | .getCntrCode => (.consumed, { c with cntrCode := data, state := .getCntrInfo }, [])
  | .getCntrEventData =>
    if c.valuePending = true then
      (.consumed, { c with
        cntrEventData := wide data c.savedLow32
        valuePending := false
        state := .getCntrInfo }, [])
    else (.consumed, { c with savedLow32 := data, valuePending := true }, [])
  | .getCntrInfo =>
    if 32 ≤ c.cntrMaskIndex then (.fault, c, [])
    else
      let index := nextCounter c.cntrMask c.cntrMaskIndex
      (.consumed, { c with
        cntrMaskIndex := index
        state := if 32 ≤ index then .getCntrRecord else .getCntrDef },
        [.cntrDef c.cntrMaskIndex c.cntrType c.cntrCode c.cntrEventData data])
  | .getCntrRecord =>
    if size = 3 then
      (.consumed,
        { c with recordType := data.setWidth 8, valuePending := false, state := .getAddr }, [])
    else (.consumed, { c with state := .error }, [])
  | .getAddr => c.gotHalf gotAddress data
  | .getCallSite => c.gotHalf gotCallSite data
  | .getCnts => c.gotCount size data
  | .error => (.failed, c, [])

end PerfCore

/-- What a call returns: the code and `consumed`. -/
inductive PerfResult
  | returned (rc : DQErr) (consumed : Bool)
  | fault
  | outOfFuel
  deriving DecidableEq, Repr

open PerfCore in
def PerfCore.passes (markerValue size data : BitVec 32) :
    ℕ → PerfCore → PerfResult × PerfCore × List PerfEvent
  | 0, c => (.outOfFuel, c, [])
  | n + 1, c =>
    match onePass c markerValue size data with
    | (.consumed, c, es) => (.returned .ok true, c, es)
    | (.failed, c, es) => (.returned .err false, c, es)
    | (.fault, c, es) => (.fault, c, es)
    | (.again, c, es) =>
      let (result, c, es') := passes markerValue size data n c
      (result, c, es ++ es')

structure PerfEmitted where
  core : ℕ
  ts : TIMESTAMP
  event : PerfEvent
  deriving DecidableEq, Repr

structure PerfReceived where
  ts : TIMESTAMP
  addr : BitVec 32
  data : BitVec 32

structure PerfConverter where
  perfChannel : BitVec 32
  markerValue : BitVec 32
  cores : ℕ → PerfCore

namespace PerfConverter

def processITCPerf (p : PerfConverter) (coreId : ℕ) (ts : TIMESTAMP) (addr data : BitVec 32) :
    PerfResult × PerfConverter × List PerfEmitted :=
  if addr < p.perfChannel * 4 ∨ (p.perfChannel + 1) * 4 ≤ addr then (.returned .ok false, p, [])
  else
    -- no state is left without the word consumed but for one that consumes it or fails
    let (result, c, es) := (p.cores coreId).passes p.markerValue (addr &&& 3) data 2
    (result, { p with cores := Function.update p.cores coreId c }, es.map (⟨coreId, ts, ·⟩))

/-- The calls for a sequence of writes of a core, as long as each is consumed without an error. -/
def run (coreId : ℕ) : PerfConverter → List PerfReceived → Option (PerfConverter × List PerfEmitted)
  | p, [] => some (p, [])
  | p, m :: ms =>
    match p.processITCPerf coreId m.ts m.addr m.data with
    | (.returned .ok true, p, es) => (run coreId p ms).map fun (p, es') => (p, es ++ es')
    | _ => none

end PerfConverter

end TraceDecoder
