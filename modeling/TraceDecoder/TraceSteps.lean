import TraceDecoder.ProcessTraceMessage

/-!
# Steps of the state machine

What the states of `Trace::NextInstruction` share. A step may end the call with its return code; the
pointers the caller gave decide which objects are reported.
-/

namespace TraceDecoder

open EStateM

structure Want where
  inst : Bool
  msg : Bool
  src : Bool
  deriving DecidableEq, Repr

/-- The values of local variables of `NextInstruction` that may be used before they are set. -/
structure Locals where
  addr : ADDRESS
  qDepth : BitVec 8
  arithInProcess : BitVec 8
  loadInProcess : BitVec 8
  storeInProcess : BitVec 8
  deriving DecidableEq, Repr

inductive Exit
  | ret (rc : DQErr)
  | outOfFuel
  deriving DecidableEq, Repr

abbrev TraceM (E : Env) := EStateM Exit (Trace E)

variable {E : Env} {α : Type}

namespace TraceM

def readD (g : Decoder E → α) : TraceM E α := read fun t => g t.toDecoder

def modifyD (u : Decoder E → Decoder E) : TraceM E Unit :=
  modify fun t => { t with toDecoder := u t.toDecoder }

def modifyHere (f : CoreState → CoreState) : TraceM E Unit := modifyD (·.modifyHere f)

def ret (rc : DQErr) : TraceM E Unit := throw (.ret rc)

def setStatus (rc : DQErr) : TraceM E Unit := modifyD ({ · with status := rc })

def setState (s : State) : TraceM E Unit := modifyHere ({ · with state := s })

def setReadNewTraceMessage (b : Bool) : TraceM E Unit :=
  modifyD ({ · with readNewTraceMessage := b })

def setTolerantError : TraceM E Unit := modifyD ({ · with tolerantError := true })

def fail : TraceM E Unit := do
  setStatus .err
  setState .error
  ret .err

def attempt (p : DecoderM E Unit) : TraceM E DQErr := fun t =>
  match p t.toDecoder with
  | .ok _ d => .ok .ok { t with toDecoder := d }
  | .error rc d => .ok rc { t with toDecoder := d }

/-! ### Reporting -/

def itcData : MessageBody → Option (BitVec 32 × BitVec 32)
  | .dataAcquisition idTag data => some (idTag, data)
  | .auxAccessWrite addr data => some (addr, data)
  | _ => none

def processITCPrintData (m : NexusMessage) (queues : ℕ → E.ItcQueue) : Bool × (ℕ → E.ItcQueue) :=
  match if E.haveITCPrint then itcData m.body else none with
  | some (channel, data) =>
    let (printed, queue) := E.print m.core channel data m.time (queues m.core)
    (printed, Function.update queues m.core queue)
  | none => (false, queues)

def report (m : NexusMessage) (t : Trace E) : Trace E :=
  if t.consumed then { t with messageInfo := m }
  else
    let (printed, queues) := processITCPrintData m t.itcPrint
    { t with messageInfo := m, itcPrint := queues, msgSet := t.msgSet || !printed }

def reportMessage (want : Want) (message : Decoder E → NexusMessage) : TraceM E Unit :=
  onlyIf want.msg (modify fun t => report (message t.toDecoder) t)

def messageAt (addr : ADDRESS) (d : Decoder E) : NexusMessage :=
  { d.nm with pid := d.here.currentPid, prv := d.here.currentPrv, currentAddress := addr, time :=
    d.here.lastTime }

def messageHere (d : Decoder E) : NexusMessage := messageAt d.here.currentAddress d

def disassembler (E : Env) (k : CoreState) (addr : ADDRESS) : Option Program :=
  let process := k.currentElfReader.map fun p => (E.processes p).program
  match E.kMem with
  | some (kStart, kernel) => if kStart.toNat ≤ addr.toNat then some kernel else process
  | none => process

/-- `Disassemble`; the objects stay as they are if it fails. -/
def disassemble (addr : ADDRESS) (t : Trace E) : Trace E :=
  match (disassembler E t.here addr).bind (·.disassemble addr) with
  | some (instruction, source) => { t with instructionInfo := instruction, sourceInfo := source }
  | none => t

@[simp] theorem disassemble_toDecoder (addr : ADDRESS) (t : Trace E) :
    (disassemble addr t).toDecoder = t.toDecoder := by
  unfold disassemble
  split <;> rfl

def disassembles (addr : ADDRESS) (t : Trace E) : Bool :=
  ((disassembler E t.here addr).bind (·.disassemble addr)).isSome

def reportSource (t : Trace E) : Trace E :=
  { t with
    sourceInfo := { t.sourceInfo with coreId := t.currentCore, pid := t.here.currentPid, prv := t.here.currentPrv }
    srcSet := true }

/-- The source line at the current address, if the process is one to decode. -/
def reportSourceHere (t : Trace E) : Trace E :=
  if t.here.currentProcessIndex.isSome && disassembles t.here.currentAddress t then
    reportSource (disassemble t.here.currentAddress t)
  else t

@[simp] theorem reportSourceHere_toDecoder (t : Trace E) : (reportSourceHere t).toDecoder =
    t.toDecoder := by
  unfold reportSourceHere
  split
  · exact disassemble_toDecoder _ _
  · rfl

/-- The flags of an instruction at which an inferable-call event has occurred. -/
def callFlags (d : DecodedInst) : CRFlag × BranchFlags :=
  match d.inst_type with
  | .jalr =>
    if isLink d.rd then
      if ¬ isLink d.rs1 then (CRFlag.isCall, .none)
      else if d.rd ≠ d.rs1 then (CRFlag.isSwap, .none)
      else (CRFlag.isCall, .none)
    else if isLink d.rs1 then (CRFlag.isReturn, .none)
    else (CRFlag.isNone, .none)
  | .jal | .cJal => (if isLink d.rd then CRFlag.isCall else CRFlag.isNone, .none)
  | .cJr => (if isLink d.rs1 then CRFlag.isReturn else CRFlag.isNone, .none)
  | .ebreak | .ecall => (CRFlag.isException, .none)
  | .mret | .sret | .uret => (CRFlag.isExceptionReturn, .none)
  | .beq | .bne | .blt | .bge | .bltu | .bgeu | .cBeqz | .cBnez => (CRFlag.isNone, .taken)
  | _ => (CRFlag.isNone, .none)

/-- The flags of an event, `none` for an error, at which the flags are cleared. -/
def getCRBRFlags (E : Env) (k : CoreState) (cksrc : Option ICTReason) :
    Option (CRFlag × BranchFlags) :=
  match cksrc with
  | some .control | some .extTrig | some .watchpoint | some .pcSample => some (CRFlag.isNone, .none)
  | some .inferableCall =>
    ((k.memory E).word k.currentAddress).bind
      fun w => (Disassembler.decodeInstruction w E.archSize).map callFlags
  | some .exception => some (CRFlag.isException, .none)
  | some .interrupt => some (CRFlag.isInterrupt, .none)
  | some .context => some (CRFlag.isSwap, .none)
  | none => none

/-- The instruction of an in-circuit trace event; an error of `getCRBRFlags` stays in the status. -/
def reportEventInstruction (cksrc : Option ICTReason) (t : Trace E) : Trace E :=
  let flags := getCRBRFlags E t.here cksrc
  { t with
    instructionInfo := { t.instructionInfo with
      qDepth := 0
      arithInProcess := 0
      loadInProcess := 0
      storeInProcess := 0
      coreId := t.currentCore
      pid := t.here.currentPid
      prv := t.here.currentPrv
      CRFlag := (flags.map Prod.fst).getD CRFlag.isNone
      brFlags := (flags.map Prod.snd).getD .none
      timestamp := t.here.lastTime }
    instSet := true
    status := if flags.isSome then t.status else .err }

def reportEvent (want : Want) (cksrc : Option ICTReason) (t : Trace E) : Trace E :=
  if (want.inst || want.src) && t.here.currentProcessIndex.isSome && disassembles
      t.here.currentAddress t then
    let t := disassemble t.here.currentAddress t
    let t := if want.inst then reportEventInstruction cksrc t else t
    if want.src then reportSource t else t
  else t

def eventStatus (want : Want) (cksrc : Option ICTReason) (t : Trace E) : DQErr :=
  if want.inst && t.here.currentProcessIndex.isSome && disassembles t.here.currentAddress t
      && (getCRBRFlags E t.here cksrc).isNone then .err
  else t.status

theorem reportEvent_toDecoder (want : Want) (cksrc : Option ICTReason) (t : Trace E) :
    (reportEvent want cksrc t).toDecoder =
    { t.toDecoder with status := eventStatus want cksrc t } := by
  unfold reportEvent eventStatus
  cases want.inst <;> cases want.src <;> cases t.here.currentProcessIndex.isSome <;>
    cases disassembles t.here.currentAddress t <;> cases h : getCRBRFlags E t.here cksrc <;>
    simp [reportEventInstruction, reportSource, h]

/-! ### Errors -/

/-- The end of an error that `tolerateErrors` forgives: the core waits for the next sync message. -/
def failTolerantly : TraceM E Unit := do
  setTolerantError
  onlyIf (E.tolerateErrors = false) fail
  modifyD fun d => d.resetTrace d.currentCore
  ret .ok

def reportFailure (want : Want) : TraceM E Unit := do
  reportMessage want messageHere
  failTolerantly

/-- `processTraceMessage` where an error ends the call. -/
def processMessage (want : Want) : TraceM E Unit := do
  let rc ← attempt DecoderM.processTraceMessage
  onlyIf (rc ≠ .ok) (reportFailure want)

/-- `processTraceMessage` where the message is reported before an error is looked at. -/
def processAndReport (want : Want) (message : Decoder E → NexusMessage) : TraceM E DQErr := do
  let rc ← attempt DecoderM.processTraceMessage
  reportMessage want message
  onlyIf (rc ≠ .ok) do
    setTolerantError
    onlyIf (E.tolerateErrors = false) fail
  return rc

end TraceM

end TraceDecoder
