import TraceDecoder.TraceSteps

/-!
# The states

What `Trace::NextInstruction` does in each state of the core whose message is at work. A state ends
the call or leaves the core in another state.
-/

namespace TraceDecoder

open EStateM

variable {E : Env}

namespace TraceM

/-! ### The states before the first sync message -/

def retire : TraceM E Unit := do
  setReadNewTraceMessage true
  setStatus .ok
  ret .ok

def nextCAAddrOf (d : DecodedInst) (addr savedAddr : ADDRESS) : ADDRESS × ADDRESS :=
  let next := addr + BitVec.ofNat 64 (d.inst_size / 8)
  let target := addr + d.immediate.signExtend 64
  match d.inst_type with
  | .jal | .cJal => (target, if isLink d.rd then next else savedAddr)
  | .jalr =>
    if isLink d.rd then
      if ¬ isLink d.rs1 then (-1, next)
      else if d.rd ≠ d.rs1 then (savedAddr, -1)
      else (-1, next)
    else if isLink d.rs1 then (savedAddr, -1)
    else (-1, savedAddr)
  | .beq | .bne | .blt | .bge | .bltu | .bgeu | .cBeqz | .cBnez =>
    (if next = target then target else -1, savedAddr)
  | .cJ => (target, savedAddr)
  | .cJr => if isLink d.rs1 then (savedAddr, -1) else (-1, savedAddr)
  | .cJalr => if d.rs1 = REG_5 then (savedAddr, addr) else (-1, next)
  | .ebreak | .ecall | .mret | .sret | .uret => (-1, savedAddr)
  | _ => (next, savedAddr)

/-- Runs one instruction of the cycle-accurate trace from `caSyncAddr`, with
a stack of one address. -/
def nextCAAddr (savedAddr : ADDRESS) : TraceM E (Bool × ADDRESS) := do
  let addr ← readD (·.caSyncAddr)
  let word ← readD fun d => (d.here.elfReader E).word addr
  setStatus (if word.isSome then .ok else .err)
  match word.bind fun w => Disassembler.decodeInstruction w E.archSize with
  | some d => do
    let (addr, savedAddr) := nextCAAddrOf d addr savedAddr
    modifyD ({ · with caSyncAddr := addr })
    return (addr ≠ -1, savedAddr)
  | none => do
    setStatus .err
    return (false, savedAddr)

def endCATrace (rc : DQErr) : TraceM E Unit := do
  onlyIf (rc = .eof) do
    setState .done
    setStatus rc
    ret rc
  onlyIf (rc ≠ .ok) do
    setState .error
    setStatus rc
    ret rc

/-- Runs the cycle-accurate trace up to the address the trace starts at, for `n` instructions. -/
def syncCATrace (teAddr : ADDRESS) : ℕ → ADDRESS → E.CATrace → TraceM E Unit
  | 0, _, _ => return
  | n + 1, savedAddr, ca => do
    let caSyncAddr ← readD (·.caSyncAddr)
    onlyIf (teAddr ≠ caSyncAddr) do
      let (found, savedAddr) ← nextCAAddr savedAddr
      onlyIf found do
        let (rc, _, ca) := E.caConsume ca .scaler
        modifyD ({ · with caTrace := some ca })
        endCATrace rc
        syncCATrace teAddr n savedAddr ca

/-- The trace may get in step with the start of the cycle-accurate trace later on. -/
def rewindCATrace (d : Decoder E) : Decoder E :=
  { d with
    syncCount := 16
    caTrace := d.caTrace.map E.caRewind
    caSyncAddr := (d.caTrace.map fun ca => E.caStartAddr (E.caRewind ca)).getD d.caSyncAddr }

def alignCATrace (teAddr : ADDRESS) (ca : E.CATrace) : TraceM E Unit := do
  modifyD ({ · with caSyncAddr := E.caStartAddr ca })
  syncCATrace teAddr 30 (-1) ca
  let caSyncAddr ← readD (·.caSyncAddr)
  onlyIf (teAddr ≠ caSyncAddr) (modifyD rewindCATrace)

def skipMessage (want : Want) (message : Decoder E → NexusMessage) : TraceM E Unit := do
  let rc ← attempt DecoderM.processTraceMessage
  onlyIf (rc ≠ .ok) fail
  reportMessage want message
  retire

def messageAtFAddr (d : Decoder E) : NexusMessage :=
  { d.nm with currentAddress := d.nm.body.getF_Addr <<< 1 }

def messageNoPid (d : Decoder E) : NexusMessage :=
  { d.nm with currentAddress := d.here.currentAddress, time := d.here.lastTime }

/-- Whether a message says where tracing starts; `none` if it cannot say so. -/
def startsTrace (body : MessageBody) : Option Bool :=
  match body with
  | .ictWS m =>
    match ICTReason.ofCode m.cksrc with
    | some .control =>
      some (m.ckdf = 1 ∧ (m.ckdata1 = ICT_CONTROL_TRACE_ON ∨ m.ckdata1 = ICT_CONTROL_EXIT_DEBUG))
    | some _ => some false
    | none => none
  | _ =>
    match body.getSyncReason with
    | some .exitDebug | some .traceEnable => some true
    | some _ => some false
    | none => none

def syncCATE (want : Want) : TraceM E Unit := do
  let caTrace ← readD (·.caTrace)
  let body ← readD (·.nm.body)
  let lastFaddr ← readD (·.here.lastFaddr)
  match caTrace with
  | none => fail
  | some ca =>
    match body.tcode with
    | .error => do
      let _ ← attempt (DecoderM.updateTime .rel)
      reportMessage want messageNoPid
      modifyD Decoder.resetTraceAll
      retire
    | .ownershipTrace | .directBranch | .indirectBranch | .dataAcquisition | .inCircuitTrace | .correlation
    | .resourceFull | .indirectBranchHistory | .repeatBranch | .repeatInstruction | .repeatInstructionWS
    | .auxAccessReadNext | .auxAccessWriteNext | .auxAccessResponse | .outputPortReplacement
    | .inputPortReplacement | .auxAccessRead | .auxAccessWrite =>
      -- the address may be known from a sync message that did not start the trace
      if lastFaddr ≠ 0 then skipMessage want messageNoPid
      else do
        reportMessage want messageNoPid
        retire
    | .sync | .directBranchWS | .indirectBranchWS | .indirectBranchHistoryWS | .inCircuitTraceWS =>
      match startsTrace body with
      | none => fail
      | some false => skipMessage want messageAtFAddr
      | some true => do
        alignCATrace (body.getF_Addr <<< 1) ca
        setState .getFirstSyncMsg
    | _ => fail

def startDecoding : TraceM E Unit := do
  modifyHere fun k => { k with counts := k.counts.resetCounts }
  setState .getNextMsg

def lookForSync (want : Want) (body : MessageBody) : TraceM E Unit :=
  match body.tcode with
  | .sync | .directBranchWS | .indirectBranchWS | .indirectBranchHistoryWS => do
    processMessage want
    onlyIf want.src (modify reportSourceHere)
    startDecoding
  | .inCircuitTraceWS => do
    processMessage want
    -- some events set `faddr` only
    modifyHere fun k => if k.currentAddress = 0 then { k with currentAddress := k.lastFaddr } else k
    onlyIf (¬ (body.getCKSRC = some .control ∧ body.getCKDF = 0)) do
      onlyIf (¬ ((body.getCKSRC = some .extTrig ∨ body.getCKSRC = some .watchpoint) ∧ body.getCKDF =
        0)) (modify (reportEvent want body.getCKSRC))
      startDecoding
  | .dataAcquisition | .ownershipTrace | .inCircuitTrace | .directBranch | .indirectBranch
  | .indirectBranchHistory | .resourceFull | .correlation => processMessage want
  | .error => do
    let _ ← processAndReport want messageHere
    modifyD Decoder.resetTraceAll
    ret .ok
  | _ => do
    reportMessage want (messageAt 0)
    failTolerantly

def getFirstSyncMsg (want : Want) : TraceM E Unit := do
  let body ← readD (·.nm.body)
  lookForSync want body
  setReadNewTraceMessage true
  reportMessage want messageHere
  setStatus .ok
  ret .ok

/-! ### The states of decoding -/

def bType : MessageBody → BType
  | .indirectBranchWS _ b_type .. | .indirectBranch b_type .. | .indirectHistory b_type ..
  | .indirectHistoryWS _ b_type .. => BType.ofCode b_type
  | _ => .undefined

/-- Tracing stops `i_cnt` half-words behind the last address. -/
def messageAtStop (d : Decoder E) : NexusMessage :=
  match d.nm.body with
  | .correlation _ _ i_cnt _ => messageAt (d.here.lastFaddr + BitVec.ofInt 64 (i_cnt * 2)) d
  | _ => messageHere d

def retireCounts (want : Want) (body : MessageBody) : TraceM E Unit :=
  match body.tcode with
  | .sync | .directBranchWS | .indirectBranchWS | .indirectBranchHistoryWS | .directBranch | .indirectBranch
  | .indirectBranchHistory | .resourceFull => do
    processMessage want
    reportMessage want messageHere
    onlyIf want.src (modify fun t => if t.srcSet then t else reportSourceHere t)
    onlyIf (bType body = .exception) (modifyHere ({ · with enterISR := CRFlag.isInterrupt }))
    setReadNewTraceMessage true
    setState .getNextMsg
  | .correlation => do
    let _ ← processAndReport want messageAtStop
    modifyD fun d => d.resetTrace d.currentCore
    ret .ok
  | _ => fail

def retireMessage (want : Want) : TraceM E Unit := do
  let body ← readD (·.nm.body)
  retireCounts want body
  setStatus .ok
  ret .ok

def setCounts : TraceM E DQErr := do
  let (rc, counts) ← readD fun d => d.here.counts.setCounts d.nm.body
  modifyHere ({ · with counts := counts })
  return rc

def retStatus : TraceM E Unit := do
  let status ← readD (·.status)
  ret status

/-- After a new pid a core waits for a sync message if it has not been
decoding the process before. -/
def switchProcess (prevWasSync : Bool) (prevProcessIndex : Option ℕ) (tag : BitVec 2) :
    TraceM E Unit := do
  let processIndex ← readD (·.here.currentProcessIndex)
  if tag = 2 then
    match prevProcessIndex, processIndex with
    | some _, none => do
      modifyHere fun k => { k with counts := k.counts.resetCounts.resetStack }
      setState .getFirstSyncMsg
    | some _, some _ => return
    | none, some _ => onlyIf (prevWasSync = false) (setState .getFirstSyncMsg)
    | none, none => setState .getFirstSyncMsg
  else onlyIf (tag = 1) (ret .err)

def eventAddress (want : Want) (locals : Locals) (body : MessageBody) : TraceM E ADDRESS :=
  if body.getCKSRC = some .control ∧ body.getCKDF = 0 then readD (·.here.currentAddress)
  else if (body.getCKSRC = some .extTrig ∨ body.getCKSRC = some .watchpoint) ∧ body.getCKDF = 0 then
    readD (·.here.lastFaddr)
  else if want.inst ∨ want.src then do
    let addr ← readD (·.here.currentAddress)
    modify (reportEvent want body.getCKSRC)
    return addr
  else return locals.addr

def tagOf : MessageBody → BitVec 2
  | .ownership _ _ _ tag => tag
  | _ => 0

def getNextMsg (want : Want) (locals : Locals) : TraceM E Unit := do
  let body ← readD (·.nm.body)
  let k ← readD (·.here)
  match body.tcode with
  | .directBranch | .indirectBranch | .sync | .directBranchWS | .indirectBranchWS | .correlation
  | .indirectBranchHistory | .indirectBranchHistoryWS | .resourceFull =>
    if k.currentProcessIndex.isSome then do
      let rc ← setCounts
      onlyIf (rc ≠ .ok) (reportFailure want)
      setState .getNextInstruction
    else do
      let rc ← processAndReport want messageHere
      onlyIf (rc ≠ .ok) (modifyD fun d => d.resetTrace d.currentCore)
      setReadNewTraceMessage true
      ret .ok
  | .inCircuitTrace | .inCircuitTraceWS => do
    processMessage want
    let addr ← eventAddress want locals body
    reportMessage want (messageAt addr)
    setReadNewTraceMessage true
    retStatus
  | .error => do
    let _ ← attempt (DecoderM.updateTime .rel)
    reportMessage want messageHere
    modifyD Decoder.resetTraceAll
    setReadNewTraceMessage true
    retStatus
  | .dataAcquisition => do
    processMessage want
    reportMessage want messageHere
    setReadNewTraceMessage true
    retStatus
  | .ownershipTrace => do
    processMessage want
    switchProcess k.prevMsgWasSync k.currentProcessIndex (tagOf body)
    reportMessage want messageHere
    setReadNewTraceMessage true
    retStatus
  | _ => fail

/-- Gives up the attempt to get in step with the cycle-accurate trace when `syncCount` runs out. -/
def trySync : TraceM E Unit := do
  let syncCount ← readD (·.syncCount)
  onlyIf (0 < syncCount) do
    let address ← read (·.instructionInfo.address)
    let caSyncAddr ← readD (·.caSyncAddr)
    if caSyncAddr = address then modifyD ({ · with syncCount := 0 })
    else do
      modifyD ({ · with syncCount := syncCount - 1 })
      onlyIf (syncCount - 1 = 0) fail

/-- The cycle-accurate record of an instruction, with the cycle before it, once
the traces are in step. -/
def consumeCATrace (inst_type : InstType) : TraceM E (Option (CAInfo × BitVec 32)) := do
  let caTrace ← readD (·.caTrace)
  match caTrace with
  | none => return none
  | some ca => do
    trySync
    let syncCount ← readD (·.syncCount)
    if syncCount = 0 then do
      let (rc, info, ca) := E.caConsume ca inst_type
      modifyD ({ · with caTrace := some ca })
      endCATrace rc
      setStatus .ok
      let prevCycle ← readD fun d => d.here.lastCycle.setWidth 32
      modifyHere ({ · with
        eCycleCount := info.pipeCycles - prevCycle
        lastCycle := info.pipeCycles.setWidth 64 })
      return some (info, prevCycle)
    else return none

def instructionAt (locals : Locals) (s : Stepped) (ca : Option (CAInfo × BitVec 32)) (core : ℕ)
    (k : CoreState) (info : Instruction) : Instruction :=
  let record := ca.map Prod.fst
  let info := { info with
    qDepth := (record.map CAInfo.qDepth).getD locals.qDepth
    arithInProcess := (record.map CAInfo.arithInProcess).getD locals.arithInProcess
    loadInProcess := (record.map CAInfo.loadInProcess).getD locals.loadInProcess
    storeInProcess := (record.map CAInfo.storeInProcess).getD locals.storeInProcess
    coreId := core
    pid := k.currentPid
    prv := k.currentPrv
    CRFlag := s.crFlag ||| k.enterISR
    brFlags := s.brFlag }
  match ca with
  | some (record, prevCycle) => { info with
      timestamp := record.pipeCycles.setWidth 64
      pipeCycles := k.eCycleCount
      VIStartCycles := record.viStartCycles - prevCycle
      VIFinishCycles := record.viFinishCycles - prevCycle - 1
      caFlags := record.caFlags }
  | none => { info with timestamp := k.lastTime }

def reportInstruction (locals : Locals) (s : Stepped) (ca : Option (CAInfo × BitVec 32))
    (t : Trace E) : Trace E :=
  { t with
    toDecoder := t.toDecoder.modifyHere ({ · with enterISR := CRFlag.isNone })
    instructionInfo := instructionAt locals s ca t.currentCore t.here t.instructionInfo
    instSet := true }

/-- An instruction whose next address is known, or told by the message at work. -/
def retireInstruction (want : Want) (locals : Locals) (d : DecodedInst) (s : Stepped) :
    TraceM E Unit := do
  modifyHere ({ · with currentAddress := s.pc })
  let ca ← consumeCATrace d.inst_type
  onlyIf want.inst (modify (reportInstruction locals s ca))
  onlyIf want.src (modify reportSource)
  modifyD fun t => { t with
    analytics := t.analytics.updateInstructionInfo t.currentCore d.inst_size s.crFlag s.brFlag }
  let status ← readD (·.analytics.status)
  setStatus status
  onlyIf (status ≠ .ok) do
    setState .error
    ret status
  let count ← readD (·.here.counts.getCurrentCountType)
  if count ≠ .none then ret status else setState .retireMessage

def getNextInstruction (want : Want) (locals : Locals) : TraceM E Unit := do
  let k ← readD (·.here)
  if k.counts.getCurrentCountType = .none then setState .retireMessage
  else if k.currentProcessIndex.isNone then do
    setState .error
    ret .err
  else
    match (k.memory E).word k.currentAddress with
    | none => do
      setStatus .err
      reportFailure want
    | some inst => do
      setStatus .ok
      match Disassembler.decodeInstruction inst E.archSize with
      | none => reportFailure want
      | some d => do
        modify (disassemble k.currentAddress)
        let result ← readD fun d => nextAddr (k.memory E) E.archSize d.traceType k.counts d.nm
          k.currentAddress
        match result with
        | .error _ => do
          setStatus .err
          reportFailure want
        | .ok s => do
          modifyD ({ · with traceType := s.traceType })
          modifyHere ({ · with counts := s.count })
          if s.pc = -1 ∧ s.brFlag = .unknown then
            -- the next message may have the outcome of the branch
            setState .retireMessage
          else do
            onlyIf (s.pc = -1 ∧ s.count.getCurrentCountType ≠ .none) (reportFailure want)
            retireInstruction want locals d s

end TraceM

end TraceDecoder
