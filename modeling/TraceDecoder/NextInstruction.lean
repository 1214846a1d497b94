import TraceDecoder.States
import TraceDecoder.TraceSteps

/-!
# Calls

`Trace::NextInstruction`: each iteration of its loop reads a message if the last one is used up,
makes it ready for the core it comes from, and does the work of the state of that core, which may
end the call.
-/

namespace TraceDecoder

open EStateM

variable {E : Env}

namespace TraceM

/-! ### Reading a message -/

def readNextTraceMsg : TraceM E (DQErr × Bool) := do
  let r ← readD fun d => d.sfp.readNextTraceMsg d.analytics d.nm
  modifyD fun d => { d with sfp := r.parser, analytics := r.analytics, nm := r.nm }
  return (r.rc, r.haveMsg)

/-- Ends the call after an error of `readNextTraceMsg` unless it is tolerated. -/
def checkRead : DQErr → TraceM E Unit
  | .ok => return
  | .eof => do
    setState .done
    setStatus .eof
    ret .eof
  | .bm => do
    setTolerantError
    if E.tolerateErrors then modifyD Decoder.resetTraceAll
    else do
      setState .error
      ret .err
  | _ => fail

/-- The loop around `readNextTraceMsg`. -/
def readMessages : ℕ → TraceM E Unit
  | 0 => throw .outOfFuel
  | n + 1 => do
    let (rc, haveMsg) ← readNextTraceMsg
    checkRead rc
    onlyIf (haveMsg = false) (readMessages n)

def signExtendAddr (bitsPerAddress : ℕ) (addr : ADDRESS) : ADDRESS :=
  if addr &&& shl64 1 (bitsPerAddress - 1) ≠ 0 then addr ||| shl64 (-1) (bitsPerAddress - 1)
    else addr

def signExtendICT (bitsPerAddress : ℕ) (m : ICT) : ICT :=
  match ICTReason.ofCode m.cksrc with
  | some .inferableCall =>
    { m with
      ckdata0 := signExtendAddr bitsPerAddress m.ckdata0
      ckdata1 := if m.ckdf = 1 then signExtendAddr bitsPerAddress m.ckdata1 else m.ckdata1 }
  | some .control | none => m
  | some _ => { m with ckdata0 := signExtendAddr bitsPerAddress m.ckdata0 }

/-- The message with virtual addresses sign-extended; `none` for message codes that are refused. -/
def signExtendBody (bitsPerAddress : ℕ) : MessageBody → Option MessageBody
  | .indirectBranch b_type i_cnt a =>
    some (.indirectBranch b_type i_cnt (signExtendAddr bitsPerAddress a))
  | .sync s i_cnt a => some (.sync s i_cnt (signExtendAddr bitsPerAddress a))
  | .directBranchWS s i_cnt a => some (.directBranchWS s i_cnt (signExtendAddr bitsPerAddress a))
  | .indirectBranchWS s b_type i_cnt a =>
    some (.indirectBranchWS s b_type i_cnt (signExtendAddr bitsPerAddress a))
  | .indirectHistory b_type i_cnt a h =>
    some (.indirectHistory b_type i_cnt (signExtendAddr bitsPerAddress a) h)
  | .indirectHistoryWS s b_type i_cnt a h =>
    some (.indirectHistoryWS s b_type i_cnt (signExtendAddr bitsPerAddress a) h)
  | .ict m => some (.ict (signExtendICT bitsPerAddress m))
  | .ictWS m => some (.ictWS (signExtendICT bitsPerAddress m))
  | .auxAccessWrite .. | .other _ => none
  | body => some body

def signExtendAddrs : TraceM E Unit := onlyIf E.linuxTrace do
  let body ← readD (·.nm.body)
  match signExtendBody E.bitsPerAddress body with
  | some body => modifyD fun d => { d with nm.body := body }
  | none => fail

/-- The trace type after a message in a branch trace; `none` for message codes that are refused. -/
def traceTypeAfter : MessageBody → Option TraceType
  | .correlation _ cdf _ _ => some (if cdf = 1 then .htm else .btm)
  | .ownership .. | .resourceFull _ | .indirectHistory .. | .indirectHistoryWS .. => some .htm
  | .auxAccessWrite .. | .other _ => none
  | _ => some .btm

/-- A branch trace becomes a history trace with the first message that only history traces have. -/
def switchTraceType : TraceM E Unit := do
  let traceType ← readD (·.traceType)
  onlyIf (traceType = .btm) do
    let body ← readD (·.nm.body)
    match traceTypeAfter body with
    | some t => modifyD ({ · with traceType := t })
    | none => fail

def filterWant (E : Env) (want : Want) (body : MessageBody) : Want :=
  if body.getCKSRC = some .control ∧ E.filterControl then ⟨false, false, false⟩ else want

def receiveMessage (fuel : ℕ) (want : Want) : TraceM E Want := do
  readMessages fuel
  modifyD fun d => { d with readNewTraceMessage := false, currentCore := d.nm.core }
  signExtendAddrs
  switchTraceType
  let body ← readD (·.nm.body)
  return filterWant E want body

def receive (fuel : ℕ) (want : Want) : TraceM E Want := do
  let readNew ← readD (·.readNewTraceMessage)
  if readNew then receiveMessage fuel want else return want

/-! ### The loop -/

def work (want : Want) (locals : Locals) : TraceM E Unit := do
  let state ← readD (·.here.state)
  match state with
  | .syncCATE => syncCATE want
  | .getFirstSyncMsg => getFirstSyncMsg want
  | .retireMessage => retireMessage want
  | .getNextMsg => getNextMsg want locals
  | .getNextInstruction => getNextInstruction want locals
  | .done => do
    setStatus .done
    ret .done
  | .error => do
    setStatus .err
    ret .err

def step (fuel : ℕ) (want : Want) (locals : Locals) : TraceM E Unit := do
  let want ← receive fuel want
  work want locals

def loop (fuel : ℕ) (want : Want) (locals : Locals) : ℕ → TraceM E Unit
  | 0 => throw .outOfFuel
  | n + 1 => do
    step fuel want locals
    loop fuel want locals n

end TraceM

def Trace.start (t : Trace E) : Trace E :=
  { t with consumed := false, tolerantError := false, instSet := false, msgSet := false, srcSet :=
    false }

/-- One call; `none` if its loops take more than `fuel` turns. -/
def Trace.NextInstruction (fuel : ℕ) (want : Want) (locals : Locals) (t : Trace E) :
    Option (DQErr × Trace E) :=
  if t.status ≠ .ok then some
    (t.status, { t with instSet := false, msgSet := false, srcSet := false })
  else
    match TraceM.loop fuel want locals fuel t.start with
    | .error (.ret rc) t => some (rc, t)
    | .error .outOfFuel _ | .ok _ _ => none

structure Result where
  rc : DQErr
  instInfo : Option Instruction
  msgInfo : Option NexusMessage
  srcInfo : Option Source
  error : Bool
  haveITCPrintInfo : Bool
  deriving DecidableEq

def reported {α : Type} (wanted set : Bool) (info : α) : Option α :=
  if wanted && set then some info else none

def Trace.result (want : Want) (rc : DQErr) (t : Trace E) : Result where
  rc := rc
  instInfo := reported want.inst t.instSet t.instructionInfo
  msgInfo := reported want.msg t.msgSet t.messageInfo
  srcInfo := reported want.src t.srcSet t.sourceInfo
  error := t.tolerantError
  haveITCPrintInfo :=
    E.haveITCPrint && (List.range E.numCores).any fun c => E.hasMsgs (t.itcPrint c)

end TraceDecoder
