import TraceDecoder.Lib.Program
import TraceDecoder.Trace

/-!
# Processing a trace message

`Trace::processTraceMessage` works on the message in `nm`. Its parameters `pc`, `faddr` and `ts` are
always the entries of the current core in `currentAddress`, `lastFaddr` and `lastTime`; the other
arrays are indexed with the core of the message. An error is the return code.
-/

namespace TraceDecoder

open EStateM

def processTS (tsSize : ℕ) (tstype : TsType) (lastTs newTs : TIMESTAMP) : TIMESTAMP :=
  let ts :=
    match tstype with
    | .full => newTs + (lastTs &&& ~~~(shl64 1 tsSize - 1))
    | .rel => if lastTs ≠ 0 then lastTs ^^^ newTs else 0
  if ts.toNat < lastTs.toNat then ts + shl64 1 tsSize else ts

variable {E : Env}

def Decoder.modifyHere (d : Decoder E) (f : CoreState → CoreState) : Decoder E :=
  d.modifyCore d.currentCore f

@[simp] theorem Decoder.here_modifyHere (d : Decoder E) (f : CoreState → CoreState) :
    (d.modifyHere f).here = f d.here := Decoder.core_modifyCore_self _ _ _

/-- `currentProcessIndex[nm.coreId]`. -/
def Decoder.pIndex (d : Decoder E) : Option ℕ := (d.core d.nm.core).currentProcessIndex

abbrev DecoderM (E : Env) := EStateM DQErr (Decoder E)

namespace DecoderM

def pc : DecoderM E ADDRESS := read (·.here.currentAddress)

def faddr : DecoderM E ADDRESS := read (·.here.lastFaddr)

def setStatus (rc : DQErr) : DecoderM E Unit := modify ({ · with status := rc })

def setPc (a : ADDRESS) : DecoderM E Unit := modify (·.modifyHere ({ · with currentAddress := a }))

def setFaddr (a : ADDRESS) : DecoderM E Unit := modify (·.modifyHere ({ · with lastFaddr := a }))

/-- `faddr` changes only once a full address is known. -/
def xorFaddr (u_addr : ADDRESS) : DecoderM E Unit := do
  let faddr ← faddr
  onlyIf (faddr ≠ 0) (setFaddr (faddr ^^^ (u_addr <<< 1)))

def setPcToFaddr : DecoderM E Unit := do setPc (← faddr)

/-- The source and the destination of a call, each relative to the address before it. -/
def xorPcFaddr (source dest : ADDRESS) : DecoderM E Unit := do
  let faddr ← faddr
  if faddr ≠ 0 then do
    setPc (faddr ^^^ (source <<< 1))
    setFaddr ((← pc) ^^^ (dest <<< 1))
  else setPc 0

def updateTime (tstype : TsType) : DecoderM E Unit := do
  let haveTimestamp ← read (·.nm.haveTimestamp)
  let timestamp ← read (·.nm.timestamp)
  onlyIf haveTimestamp (modify (·.modifyHere fun k =>
    { k with lastTime := processTS E.tsSize tstype k.lastTime timestamp }))

def setPrevMsgWasSync (b : Bool) : DecoderM E Unit :=
  modify fun d => d.modifyCore d.nm.core ({ · with prevMsgWasSync := b })

def setCurrentPrv (prv : BitVec 8) : DecoderM E Unit :=
  modify fun d => d.modifyCore d.nm.core ({ · with currentPrv := prv })

def findProcess (E : Env) (pid : BitVec 32) : Option ℕ :=
  if E.pidList ≠ [] ∧ pid ∉ E.pidList then none
  else if (E.processes 0).pid = -1 then some 0
  else (List.range E.numProcesses).find? fun i => (E.processes i).pid = pid

def processPidPriv (pid : BitVec 32) (v prv : BitVec 8) : DecoderM E (Option ℕ) := do
  let processIndex := findProcess E pid
  modify fun d => d.modifyCore d.nm.core ({ · with
    currentPid := pid
    currentPrv := v <<< 4 ||| prv
    currentProcessIndex := processIndex
    currentElfReader := processIndex })
  return processIndex

/-- `enableEventConverter`; its callers return `DQERR_ERR` whatever its error is. -/
def enableEventConverter (p : ℕ) : DecoderM E DQErr := do
  modify fun d => { d with eventConverter := Function.update d.eventConverter p false }
  if (E.processes p).hasElfName then do
    modify fun d => { d with
      eventConverter := Function.update d.eventConverter p true
      status := E.newEventConverter p }
    return E.newEventConverter p
  else return .err

def emit (p : ℕ) (call : ConverterCall) : DecoderM E Unit :=
  modify fun d => { d with emitted := d.emitted ++ [⟨p, d.nm.core, d.here.lastTime, call⟩] }

def openEventConverter (p : ℕ) : DecoderM E Unit := do
  let isOpen ← read (·.eventConverter p)
  onlyIf (isOpen = false) do
    let rc ← enableEventConverter p
    onlyIf (rc ≠ .ok) (throw .err)

def convertEvent (pIndex : Option ℕ) (call : ConverterCall) : DecoderM E Unit :=
  match pIndex with
  | some p => onlyIf E.eventConvert do
      openEventConverter p
      emit p call
  | none => return

/-- The target and call/return flag of an instruction an inferable-call message can be about;
indirect jumps have target 0. -/
def callTarget (d : DecodedInst) (addr : ADDRESS) : Option (ADDRESS × CRFlag) :=
  let target := addr + d.immediate.signExtend 64
  match d.inst_type with
  | .jalr => some (0,
      if isLink d.rd then
        if ¬ isLink d.rs1 then CRFlag.isCall
        else if d.rd ≠ d.rs1 then CRFlag.isSwap
        else CRFlag.isCall
      else if isLink d.rs1 then CRFlag.isReturn
      else CRFlag.isNone)
  | .jal | .cJal => some (target, if isLink d.rd then CRFlag.isCall else CRFlag.isNone)
  | .cJr => some (0, if isLink d.rs1 then CRFlag.isReturn else CRFlag.isNone)
  | .cJalr => some (0, if d.rs1 = REG_5 then CRFlag.isSwap else CRFlag.isCall)
  | .ebreak | .ecall => some (0, CRFlag.isException)
  | .mret | .sret | .uret => some (0, CRFlag.isExceptionReturn)
  | _ => none

def callFrom (E : Env) (k : CoreState) (addr : ADDRESS) : Option (ADDRESS × CRFlag) := do
  let inst ← (k.memory E).word addr
  let decoded ← Disassembler.decodeInstruction inst E.archSize
  callTarget decoded addr

/-- `nextAddr(addr,nextAddr,crFlag)`. -/
def nextAddr (addr : ADDRESS) : DecoderM E (ADDRESS × CRFlag) := do
  match ← read (callFrom E ·.here addr) with
  | some result => return result
  | none => do
    setStatus .err
    throw .err

def setCkdata1 (a : ADDRESS) : DecoderM E Unit :=
  modify fun d => { d with nm.body := d.nm.body.setCkdata1 a }

def convertCtf (p : ℕ) (crFlags : CRFlag) (pc faddr : ADDRESS) : DecoderM E Unit :=
  if crFlags &&& CRFlag.isCall ≠ 0 then emit p (.addCall pc faddr)
  else if crFlags &&& CRFlag.isReturn ≠ 0 ∨ crFlags &&& CRFlag.isExceptionReturn ≠ 0 then
    emit p (.addRet pc faddr)
  else throw .err

/-- The context switch of an in-circuit trace message, with the process it leads to. -/
def switchContext (pIndex : Option ℕ) (newPid : BitVec 32) (tag : BitVec 8) :
    DecoderM E (Option ℕ) :=
  if tag = 2 then processPidPriv newPid 0xf 0xf
  else do
    onlyIf (tag = 0 ∨ tag = 3) (setCurrentPrv (-1))
    return pIndex

section
variable (pIndex : Option ℕ) (pid : BitVec 32) (m : ICT)

/-- `TCODE_INCIRCUITTRACE` by the source of the event. -/
def processICT : DecoderM E Unit :=
  match ICTReason.ofCode m.cksrc with
  | some .extTrig =>
    if m.ckdf = 0 then do
      -- `pc` is left alone because this is an HTM trace
      xorFaddr m.ckdata0
      convertEvent pIndex (.emitExtTrigEvent pid m.ckdf (← faddr) 0)
    else if m.ckdf = 1 then do
      xorFaddr m.ckdata0
      setPcToFaddr
      convertEvent pIndex (.emitExtTrigEvent pid m.ckdf (← faddr) (m.ckdata1.setWidth 32))
    else throw .err
  | some .watchpoint =>
    if m.ckdf = 0 then do
      xorFaddr m.ckdata0
      convertEvent pIndex (.emitWatchpoint pid m.ckdf (← faddr) 0)
    else if m.ckdf = 1 then do
      xorFaddr m.ckdata0
      setPcToFaddr
      convertEvent pIndex (.emitWatchpoint pid m.ckdf (← faddr) 0)
    else throw .err
  | some .inferableCall =>
    if m.ckdf = 0 then do
      xorFaddr m.ckdata0
      setPcToFaddr
      match pIndex with
      | some p => onlyIf (E.eventConvert ∨ (E.processes p).hasCtf) do
          let pc ← pc
          let (nextPC, _) ← nextAddr pc
          setCkdata1 nextPC
          onlyIf (E.processes p).hasCtf (emit p (.addCall pc nextPC))
          onlyIf E.eventConvert do
            openEventConverter p
            emit p (.emitCallRet pid m.ckdf pc nextPC CRFlag.isCall)
      | none => return
    else if m.ckdf = 1 then do
      xorPcFaddr m.ckdata0 m.ckdata1
      match pIndex with
      | some p => onlyIf (E.eventConvert ∨ (E.processes p).hasCtf) do
          let pc ← pc
          let faddr ← faddr
          let (_, crFlags) ← nextAddr pc
          onlyIf (E.processes p).hasCtf (convertCtf p crFlags pc faddr)
          openEventConverter p
          emit p (.emitCallRet pid m.ckdf pc faddr crFlags)
      | none => return
    else throw .err
  | some .exception =>
    if m.ckdf = 1 then do
      xorFaddr m.ckdata0
      setPcToFaddr
      convertEvent pIndex (.emitException pid m.ckdf (← pc) (m.ckdata1.setWidth 32))
    else throw .err
  | some .interrupt =>
    if m.ckdf = 1 then do
      xorFaddr m.ckdata0
      setPcToFaddr
      convertEvent pIndex (.emitInterrupt pid m.ckdf (← pc) (m.ckdata1.setWidth 32))
    else throw .err
  | some .context =>
    if m.ckdf = 1 then do
      xorFaddr m.ckdata0
      setPcToFaddr
      let tag := m.ckdata1.setWidth 8 &&& 0x3
      let newPid := (m.ckdata1 >>> 2).setWidth 32
      let pIndex ← switchContext pIndex newPid tag
      convertEvent pIndex (.emitContext pid m.ckdf (← pc) newPid tag)
    else throw .err
  | some .pcSample =>
    if m.ckdf = 0 then do
      xorFaddr m.ckdata0
      setPcToFaddr
      convertEvent pIndex (.emitPeriodic pid m.ckdf (← pc))
    else throw .err
  | some .control =>
    if m.ckdf = 0 then
      -- no address; the event goes only to a converter that exists already
      match pIndex with
      | some p => do
        let isOpen ← read (·.eventConverter p)
        onlyIf isOpen (emit p (.emitControl pid m.ckdf (m.ckdata0.setWidth 32) 0))
      | none => return
    else if m.ckdf = 1 then do
      xorFaddr m.ckdata0
      setPcToFaddr
      convertEvent pIndex (.emitControl pid m.ckdf (m.ckdata1.setWidth 32) (← pc))
    else throw .err
  | none => throw .err

/-- `TCODE_INCIRCUITTRACE_WS` by the source of the event. -/
def processICTWS : DecoderM E Unit :=
  match ICTReason.ofCode m.cksrc with
  | some .extTrig =>
    if m.ckdf = 0 then do
      setFaddr (m.ckdata0 <<< 1)
      convertEvent pIndex (.emitExtTrigEvent pid m.ckdf (← faddr) 0)
    else if m.ckdf = 1 then do
      setFaddr (m.ckdata0 <<< 1)
      setPcToFaddr
      convertEvent pIndex (.emitExtTrigEvent pid m.ckdf (← faddr) (m.ckdata1.setWidth 32))
    else throw .err
  | some .watchpoint =>
    if m.ckdf = 0 then do
      setFaddr (m.ckdata0 <<< 1)
      convertEvent pIndex (.emitWatchpoint pid m.ckdf (← faddr) 0)
    else if m.ckdf ≤ 1 then do
      setFaddr (m.ckdata0 <<< 1)
      setPcToFaddr
      convertEvent pIndex (.emitWatchpoint pid m.ckdf (← faddr) (m.ckdata1.setWidth 32))
    else throw .err
  | some .inferableCall =>
    if m.ckdf = 0 then do
      setFaddr (m.ckdata0 <<< 1)
      setPcToFaddr
      match pIndex with
      | some p => onlyIf (E.eventConvert ∨ (E.processes p).hasCtf) do
          let pc ← pc
          let (nextPC, _) ← nextAddr pc
          setCkdata1 nextPC
          onlyIf (E.processes p).hasCtf (emit p (.addCall pc nextPC))
          onlyIf E.eventConvert do
            let faddr ← faddr
            openEventConverter p
            emit p (.emitCallRet pid m.ckdf pc faddr CRFlag.isCall)
      | none => return
    else if m.ckdf = 1 then do
      setPc (m.ckdata0 <<< 1)
      setFaddr ((← pc) ^^^ (m.ckdata1 <<< 1))
      match pIndex with
      | some p => onlyIf (E.eventConvert ∨ (E.processes p).hasCtf) do
          let pc ← pc
          let faddr ← faddr
          let (_, crFlags) ← nextAddr pc
          onlyIf (E.processes p).hasCtf do
            convertCtf p crFlags pc faddr
            onlyIf E.eventConvert do
              openEventConverter p
              emit p (.emitCallRet pid m.ckdf pc faddr crFlags)
      | none => return
    else throw .err
  | some .exception =>
    if m.ckdf = 1 then do
      setFaddr (m.ckdata0 <<< 1)
      setPcToFaddr
      convertEvent pIndex (.emitException pid m.ckdf (← pc) (m.ckdata1.setWidth 32))
    else throw .err
  | some .interrupt =>
    if m.ckdf = 1 then do
      setFaddr (m.ckdata0 <<< 1)
      setPcToFaddr
      convertEvent pIndex (.emitInterrupt pid m.ckdf (← pc) (m.ckdata1.setWidth 32))
    else throw .err
  | some .context =>
    if m.ckdf = 1 then do
      setFaddr (m.ckdata0 <<< 1)
      setPcToFaddr
      let tag := m.ckdata1.setWidth 8 &&& 0x3
      let newPid := (m.ckdata1 >>> 2).setWidth 32
      let pIndex ← switchContext pIndex newPid tag
      convertEvent pIndex (.emitContext pid m.ckdf (← pc) newPid tag)
    else throw .err
  | some .pcSample =>
    if m.ckdf = 0 then do
      setFaddr (m.ckdata0 <<< 1)
      setPcToFaddr
      convertEvent pIndex (.emitPeriodic pid m.ckdf (← pc))
    else throw .err
  | some .control =>
    if m.ckdf = 0 then
      convertEvent pIndex (.emitControl pid m.ckdf (m.ckdata0.setWidth 32) 0)
    else if m.ckdf = 1 then do
      setFaddr (m.ckdata0 <<< 1)
      setPcToFaddr
      convertEvent pIndex (.emitControl pid m.ckdf (m.ckdata1.setWidth 32) (← pc))
    else throw .err
  | none => throw .err

def convertPerf (idTag data : BitVec 32) : DecoderM E Unit :=
  match pIndex with
  | some p => onlyIf (E.processes p).hasPerfConverter do
    let (rc, consumed, state) ← read fun d =>
      E.processITCPerf d.nm.core d.here.lastTime idTag data (d.perfConverter p d.nm.core)
    modify fun d => { d with
      perfConverter :=
        Function.update d.perfConverter p (Function.update (d.perfConverter p) d.nm.core state)
      consumed := consumed }
    onlyIf (rc ≠ .ok) (throw rc)
  | none => return

end

/-- Messages with branch outcomes of their own wait until the ones before are used up. -/
def requireNoBranchCounts : DecoderM E Unit := do
  let count ← read (·.here.counts.getCurrentCountType)
  onlyIf (count ≠ .i_cnt ∧ count ≠ .none) (throw .err)

def requireNoCounts : DecoderM E Unit := do
  let count ← read (·.here.counts.getCurrentCountType)
  onlyIf (count ≠ .none) (throw .err)

/-- `TCODE_SYNC`, `TCODE_DIRECT_BRANCH_WS`, `TCODE_INDIRECT_BRANCH_WS` and
`TCODE_INDIRECTBRANCHHISTORY_WS`. -/
def processSync (f_addr : ADDRESS) : DecoderM E Unit := do
  requireNoCounts
  updateTime .full
  setFaddr (f_addr <<< 1)
  setPcToFaddr
  modify fun d => d.modifyCore d.nm.core
    fun k => { k with counts := k.counts.resetStack.resetCounts }
  setPrevMsgWasSync true

/-- `TCODE_INDIRECT_BRANCH` and the end of `TCODE_INDIRECTBRANCHHISTORY`. -/
def processUAddr (u_addr : ADDRESS) : DecoderM E Unit := do
  updateTime .rel
  xorFaddr u_addr
  setPcToFaddr
  setPrevMsgWasSync false

/-- The `switch (nm.tcode)`. -/
def processTCode (pIndex : Option ℕ) (pid : BitVec 32) : MessageBody → DecoderM E Unit
  | .error _ => do
    updateTime .rel
    -- messages have been dropped
    setFaddr 0
    setPc 0
    setPrevMsgWasSync false
  | .dataAcquisition idTag data => do
    updateTime .rel
    convertPerf pIndex idTag data
  | .ownership newPid v prv tag => do
    updateTime .rel
    if tag = 0 ∨ tag = 3 then setCurrentPrv (v.setWidth 8 <<< 4 ||| prv.setWidth 8)
    else if tag = 2 then do
      let _ ← processPidPriv (BitVec.ofInt 32 newPid) (v.setWidth 8) (prv.setWidth 8)
      return
    else throw .err
  | .resourceFull rdata => do
    onlyIf (rdata.rCode ≠ 0) requireNoBranchCounts
    updateTime .rel
    setPrevMsgWasSync false
  | .directBranch _ | .correlation .. => do
    updateTime .rel
    setPrevMsgWasSync false
  | .indirectBranch _ _ u_addr => processUAddr u_addr
  | .indirectHistory _ _ u_addr _ => do
    requireNoBranchCounts
    processUAddr u_addr
  | .sync _ _ f_addr | .directBranchWS _ _ f_addr | .indirectBranchWS _ _ _ f_addr
  | .indirectHistoryWS _ _ _ f_addr _ => processSync f_addr
  | .ict m => do
    updateTime .rel
    setPrevMsgWasSync false
    processICT pIndex pid m
  | .ictWS m => do
    updateTime .full
    setPrevMsgWasSync true
    processICTWS pIndex pid m
  | .auxAccessWrite .. | .other _ => throw .err

def processTraceMessage : DecoderM E Unit := do
  modify ({ · with consumed := false })
  let d ← get
  processTCode d.pIndex ((d.pIndex.map fun p => (E.processes p).pid).getD (-1)) d.nm.body

theorem processTraceMessage_eq (d : Decoder E) :
    processTraceMessage d = processTCode d.pIndex
      ((d.pIndex.map fun p => (E.processes p).pid).getD (-1))
      d.nm.body { d with consumed := false } := rfl

end DecoderM

end TraceDecoder
