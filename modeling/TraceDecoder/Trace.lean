import TraceDecoder.NextAddr
import TraceDecoder.SliceFileParser

/-!
# The state of a trace

The members of `Trace`. What does not change once a trace is set up is in `Env`; so are the parts of
the decoder that are known here by their answers only: the print queues of `ITCPrint`, the states of
the performance converters (both kept for each core), the cycle-accurate trace and the disassembler.
-/

namespace TraceDecoder

structure Instruction where
  coreId : ℕ := 0
  prv : BitVec 8 := 0
  pid : BitVec 32 := 0
  CRFlag : CRFlag := CRFlag.isNone
  brFlags : BranchFlags := .none
  address : ADDRESS := 0
  instSize : ℕ := 0
  instruction : RV_INST := 0
  instructionText : String := ""
  addressLabel : Option String := none
  addressLabelOffset : ℤ := 0
  timestamp : TIMESTAMP := 0
  caFlags : BitVec 32 := 0
  pipeCycles : BitVec 32 := 0
  VIStartCycles : BitVec 32 := 0
  VIFinishCycles : BitVec 32 := 0
  qDepth : BitVec 8 := 0
  arithInProcess : BitVec 8 := 0
  loadInProcess : BitVec 8 := 0
  storeInProcess : BitVec 8 := 0
  deriving DecidableEq, Repr

structure Source where
  coreId : ℕ := 0
  prv : BitVec 8 := 0
  pid : BitVec 32 := 0
  sourceFile : Option String := none
  cutPathIndex : ℤ := 0
  sourceFunction : Option String := none
  sourceLine : Option String := none
  sourceLineNum : ℕ := 0
  deriving DecidableEq, Repr

/-- A program image with its disassembly, for a process (`ElfReader`, `Disassembler`) or the kernel
(`KMem`). Both look an address up in the same sections. -/
structure Program where
  image : Image
  disassemble : ADDRESS → Option (Instruction × Source)
  disassembles : ∀ a, (disassemble a).isSome = (image.word a).isSome

def Program.empty : Program := ⟨Image.empty, fun _ => none, fun _ => rfl⟩

def Program.ofWords (words : ADDRESS → Option RV_INST) : Program where
  image := Image.ofWords words
  disassemble a := ((Image.ofWords words).word a).map fun _ => ({}, {})
  disassembles _ := Option.isSome_map

structure Process where
  pid : BitVec 32
  hasElfName : Bool
  program : Program
  hasPerfConverter : Bool
  hasCtf : Bool

/-- What `CATrace::consume` reports through its reference parameters. -/
structure CAInfo where
  caFlags : BitVec 32
  pipeCycles : BitVec 32
  viStartCycles : BitVec 32
  viFinishCycles : BitVec 32
  qDepth : BitVec 8
  arithInProcess : BitVec 8
  loadInProcess : BitVec 8
  storeInProcess : BitVec 8
  deriving DecidableEq, Repr

structure Env where
  tolerateErrors : Bool
  linuxTrace : Bool
  bitsPerAddress : ℕ
  tsSize : ℕ
  archSize : ℕ
  eventConvert : Bool
  /-- `eventFilterMask & (1 << CTF::et_controlIndex)` -/
  filterControl : Bool
  pidList : List (BitVec 32)
  numProcesses : ℕ
  processes : ℕ → Process
  /-- The start of kernel memory and what is in it. -/
  kMem : Option (ADDRESS × Program)
  /-- The status of a new event converter for a process. -/
  newEventConverter : ℕ → DQErr
  PerfState : Type
  newPerfState : PerfState
  processITCPerf : ℕ → TIMESTAMP → BitVec 32 → BitVec 32 → PerfState → DQErr × Bool × PerfState
  haveITCPrint : Bool
  ItcQueue : Type
  newItcQueue : ItcQueue
  /-- `ITCPrint::print` on the queue of a core. -/
  print : ℕ → BitVec 32 → BitVec 32 → TIMESTAMP → ItcQueue → Bool × ItcQueue
  numCores : ℕ
  hasMsgs : ItcQueue → Bool
  CATrace : Type
  caStartAddr : CATrace → ADDRESS
  caConsume : CATrace → InstType → DQErr × CAInfo × CATrace
  caRewind : CATrace → CATrace

def Env.isBareMetal (E : Env) : Bool := (E.processes 0).pid = -1

/-- A trace of one program without an operating system, with no converters, no print channel and no
kernel memory. -/
def Env.bareMetal (tolerateErrors : Bool) (program : Program) : Env where
  tolerateErrors := tolerateErrors
  linuxTrace := false
  bitsPerAddress := 64
  tsSize := 40
  archSize := 64
  eventConvert := false
  filterControl := false
  pidList := []
  numProcesses := 1
  processes := fun _ => ⟨-1, true, program, false, false⟩
  kMem := none
  newEventConverter := fun _ => .ok
  PerfState := Unit
  newPerfState := ()
  processITCPerf := fun _ _ _ _ s => (.ok, false, s)
  haveITCPrint := false
  ItcQueue := Unit
  newItcQueue := ()
  print := fun _ _ _ _ q => (false, q)
  numCores := 16
  hasMsgs := fun _ => false
  CATrace := Unit
  caStartAddr := fun _ => 0
  caConsume := fun s _ => (.eof, ⟨0, 0, 0, 0, 0, 0, 0, 0⟩, s)
  caRewind := fun s => s

/-- `enum state`. -/
inductive State
  | syncCATE | getFirstSyncMsg | retireMessage | getNextMsg | getNextInstruction | done | error
  deriving DecidableEq, Repr

/-- The entries of a core in the arrays of `Trace` and `Count`. -/
structure CoreState where
  currentAddress : ADDRESS
  lastFaddr : ADDRESS
  lastTime : TIMESTAMP
  counts : Count
  state : State
  prevMsgWasSync : Bool
  currentPid : BitVec 32
  currentPrv : BitVec 8
  currentProcessIndex : Option ℕ
  /-- The process of `currentElfReader` and `currentDisassembler`, which are always set together. -/
  currentElfReader : Option ℕ
  enterISR : CRFlag
  lastCycle : BitVec 64
  eCycleCount : BitVec 32
  deriving DecidableEq

inductive ConverterCall
  | emitExtTrigEvent (pid : BitVec 32) (ckdf : BitVec 2) (pc : ADDRESS) (id : BitVec 32)
  | emitWatchpoint (pid : BitVec 32) (ckdf : BitVec 2) (pc : ADDRESS) (id : BitVec 32)
  | emitCallRet (pid : BitVec 32) (ckdf : BitVec 2) (pc pcDest : ADDRESS) (crFlags : CRFlag)
  | emitException (pid : BitVec 32) (ckdf : BitVec 2) (pc : ADDRESS) (cause : BitVec 32)
  | emitInterrupt (pid : BitVec 32) (ckdf : BitVec 2) (pc : ADDRESS) (cause : BitVec 32)
  | emitContext (prevPid : BitVec 32) (ckdf : BitVec 2) (pc : ADDRESS) (pid : BitVec 32)
    (tag : BitVec 8)
  | emitPeriodic (pid : BitVec 32) (ckdf : BitVec 2) (pc : ADDRESS)
  | emitControl (pid : BitVec 32) (ckdf : BitVec 2) (control : BitVec 32) (pc : ADDRESS)
  | addCall (srcAddr dstAddr : ADDRESS)
  | addRet (srcAddr dstAddr : ADDRESS)
  deriving DecidableEq, Repr

/-- A converter call with the process whose converter it is, the core and the time. -/
structure Emitted where
  process : ℕ
  core : ℕ
  ts : TIMESTAMP
  call : ConverterCall
  deriving DecidableEq, Repr

structure Decoder (E : Env) where
  status : DQErr
  traceType : TraceType
  sfp : SliceFileParser
  analytics : Analytics
  nm : NexusMessage
  readNewTraceMessage : Bool
  currentCore : ℕ
  core : ℕ → CoreState
  itcPrint : ℕ → E.ItcQueue
  perfConverter : ℕ → ℕ → E.PerfState
  eventConverter : ℕ → Bool
  emitted : List Emitted
  caTrace : Option E.CATrace
  caSyncAddr : ADDRESS
  syncCount : ℕ
  /-- The local variable of `NextInstruction` that `processTraceMessage` sets. -/
  consumed : Bool
  tolerantError : Bool

/-- The members that are reported, and whether the pointers of the caller have been set to them. -/
structure Trace (E : Env) extends Decoder E where
  instructionInfo : Instruction
  messageInfo : NexusMessage
  sourceInfo : Source
  instSet : Bool
  msgSet : Bool
  srcSet : Bool

namespace CoreState

/-- A core as `configure` and `resetTrace` leave it; a trace of one program has no pids. -/
def reset (k : CoreState) (bareMetal : Bool) : CoreState :=
  { k with
    lastTime := 0
    lastFaddr := 0
    currentAddress := 0
    counts := k.counts.resetCounts
    state := .getFirstSyncMsg
    prevMsgWasSync := false
    currentPrv := if bareMetal then k.currentPrv else 0xff
    currentPid := if bareMetal then 0 else -1
    currentProcessIndex := if bareMetal then some 0 else none
    currentElfReader := some 0 }

def elfReader (E : Env) (k : CoreState) : Image :=
  match k.currentElfReader with
  | some p => (E.processes p).program.image
  | none => Image.empty

/-- The memory `getInstructionByAddress` fetches from. -/
def memory (E : Env) (k : CoreState) : Image :=
  match E.kMem with
  | some (kStart, kernel) => Image.above kStart kernel.image (k.elfReader E)
  | none => k.elfReader E

end CoreState

namespace Decoder

variable {E : Env}

def modifyCore (d : Decoder E) (c : ℕ) (f : CoreState → CoreState) : Decoder E :=
  { d with core := Function.update d.core c (f (d.core c)) }

@[simp] theorem core_modifyCore_self (d : Decoder E) (c : ℕ) (f : CoreState → CoreState) :
    (d.modifyCore c f).core c = f (d.core c) := Function.update_self c _ _

@[simp] theorem core_modifyCore_of_ne (d : Decoder E) {c i : ℕ} (f : CoreState → CoreState)
    (h : i ≠ c) : (d.modifyCore c f).core i = d.core i := Function.update_of_ne h _ _

def here (d : Decoder E) : CoreState := d.core d.currentCore

/-- `resetTrace(core)`. -/
def resetTrace (d : Decoder E) (c : ℕ) : Decoder E :=
  { d.modifyCore c fun k => { k.reset E.isBareMetal with counts := k.counts.resetCounts.resetStack } with
    status := .ok
    readNewTraceMessage := true }

/-- `resetTrace(-1)`, which keeps the return-address stacks. -/
def resetTraceAll (d : Decoder E) : Decoder E :=
  { d with
    core := fun c => (d.core c).reset E.isBareMetal
    currentCore := 0
    status := .ok
    readNewTraceMessage := true }

end Decoder

/-- A core after `configure`, or after `setCATraceFile`. -/
def CoreState.init (bareMetal haveCATrace : Bool) : CoreState where
  currentAddress := 0
  lastFaddr := 0
  lastTime := 0
  counts := Count.init
  state := if haveCATrace then .syncCATE else .getFirstSyncMsg
  prevMsgWasSync := false
  currentPid := if bareMetal then 0 else -1
  currentPrv := 0xff
  currentProcessIndex := if bareMetal then some 0 else none
  currentElfReader := some 0
  enterISR := CRFlag.isNone
  lastCycle := 0
  eCycleCount := 0

def Trace.init (E : Env) (traceType : TraceType) (sfp : SliceFileParser)
    (caTrace : Option E.CATrace) :
    Trace E where
  status := .ok
  traceType := traceType
  sfp := sfp
  analytics := {}
  nm := NexusMessage.init
  readNewTraceMessage := true
  currentCore := 0
  core := fun _ => CoreState.init E.isBareMetal caTrace.isSome
  itcPrint := fun _ => E.newItcQueue
  perfConverter := fun _ _ => E.newPerfState
  eventConverter := fun _ => false
  emitted := []
  caTrace := caTrace
  caSyncAddr := -1
  syncCount := 0
  consumed := false
  tolerantError := false
  instructionInfo := {}
  messageInfo := NexusMessage.init
  sourceInfo := {}
  instSet := false
  msgSet := false
  srcSet := false

end TraceDecoder
