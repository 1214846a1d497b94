import TraceDecoder.Lib.Scanning
import TraceDecoder.Trace

/-!
# Simulator logs

The class `Simulator`, which replays the log of a simulator: each line of one core's run is a record
with the address and the word of an instruction. A record is reported when the next one of the same
core has been looked up, since only that tells where a branch went. Operand values are read and left
alone.
-/

namespace TraceDecoder

structure SRec where
  validLine : Bool := false
  line : ℕ := 0
  coreId : BitVec 8 := 0
  cycles : BitVec 32 := 0
  valid : Bool := false
  haveFRF : Bool := false
  haveVRF : Bool := false
  frfAddr : ADDRESS := 0
  pc : ADDRESS := 0
  wvf : Bool := false
  wReg : BitVec 32 := 0
  wVal : BitVec 32 := 0
  r1Reg : BitVec 32 := 0
  r2Reg : BitVec 32 := 0
  r1Val : BitVec 32 := 0
  r2Val : BitVec 32 := 0
  inst : RV_INST := 0
  dasm : RV_INST := 0
  deriving DecidableEq, Repr

/-! ### Lines -/

namespace SRec

open Scanner CString

variable {m : Type → Type} [Monad m] [Scanner m]

/-- `vrf[reg]=[value][...]`; the value does not fit anywhere. -/
def vrf (srec : SRec) : m SRec := do
  keyword "vrf".toList
  expect '['
  let wReg ← number 16
  expect ']'
  skipSpaces
  expect '='
  skipSpaces
  expect '['
  skipTo ']'
  expect ']'
  expect '['
  skipTo ']'
  expect ']'
  skipSpaces
  pure { srec with wReg := wReg.setWidth 32, haveVRF := true, validLine := true }

/-- `frf[reg]=[address]` -/
def frf (srec : SRec) : m SRec := do
  keyword "frf".toList
  expect '['
  let wReg ← number 16
  expect ']'
  skipSpaces
  expect '='
  skipSpaces
  expect '['
  let frfAddr ← number 16
  expect ']'
  skipSpaces
  pure { srec with wReg := wReg.setWidth 32, frfAddr, haveFRF := true, validLine := true }

/-- `[rnumber=value]` -/
def register : m (BitVec 32 × BitVec 32) := do
  expect '['
  expect 'r'
  let regNum ← number 10
  expect '='
  let regVal ← number 16
  expect ']'
  pure (regNum.setWidth 32, regVal.setWidth 32)

def operand (srec : SRec) (numReads : ℕ) : m (SRec × ℕ) := do
  skipSpaces
  let c ← look
  if c = 'W' then
    expect 'W'
    let (regNum, regVal) ← register
    expect '['
    let wvf ← flag
    expect ']'
    pure ({ srec with wReg := regNum, wVal := regVal, wvf }, numReads)
  else if c = 'R' then
    expect 'R'
    let (regNum, regVal) ← register
    pure (if numReads = 0 then { srec with r1Reg := regNum, r1Val := regVal }
      else { srec with r2Reg := regNum, r2Val := regVal }, numReads + 1)
  else fail

def operands : ℕ → SRec → ℕ → m SRec
  | 0, srec, _ => pure srec
  | n + 1, srec, numReads => do
    let (srec, numReads) ← operand srec numReads
    operands n srec numReads

/-- The rest of the line of an instruction, from the valid flag to the third operand. -/
def fields (srec : SRec) : m SRec := do
  expect '['
  let valid ← flag
  expect ']'
  skipSpaces
  keyword "pc=[".toList
  let pc ← number 16
  expect ']'
  operands 3 { srec with valid, pc } 0

def encoding (srec : SRec) : m SRec := do
  skipSpaces
  keyword "inst=[".toList
  let inst ← number 16
  expect ']'
  skipSpaces
  keyword "DASM(".toList
  let dasm ← number 16
  expect ')'
  skipSpaces
  pure { srec with inst := inst.setWidth 32, dasm := dasm.setWidth 32, validLine := true }

def instruction (srec : SRec) : m SRec := do
  let srec ← fields srec
  -- one character is passed unseen
  pass
  encoding srec

def counter (srec : SRec) : m SRec := do
  skipSpaces
  expect ':'
  let cycles ← number 10
  skipSpaces
  pure { srec with cycles := cycles.setWidth 32 }

def record (srec : SRec) : m SRec := do
  if ← startsWith "vrf".toList then vrf srec
  else if ← startsWith "frf".toList then frf srec
  else instruction srec

def body (srec : SRec) : m SRec := do
  let srec ← counter srec
  record srec

/-- Lines that do not begin with `C` and a number are comments. -/
def core : m (Option (BitVec 8)) := do
  skipSpaces
  let c ← look
  if c = 'C' then
    expect 'C'
    skipSpaces
    let d ← look
    if IsDigit 10 d then
      let coreId ← number 10
      pure (some (coreId.setWidth 8))
    else pure none
  else pure none

/-- `Simulator::parseLine` for the line `l`; `core` is -1 for any core. -/
def scanLine (l : ℕ) (core : ℤ) (srec : SRec) : m SRec := do
  let srec :=
    { srec with validLine := false, valid := false, line := l, haveFRF := false, haveVRF := false }
  match ← SRec.core with
  | none => pure srec
  | some coreId =>
    let srec := { srec with coreId }
    if core ≠ -1 ∧ core ≠ coreId.toNat then pure srec else body srec

def coreArg (only : Option (BitVec 8)) : ℤ := (only.map fun c => (c.toNat : ℤ)).getD (-1)

def parseLine (l : ℕ) (only : Option (BitVec 8)) (srec : SRec) : Scan SRec :=
  scanLine l (coreArg only) srec

end SRec

/-! ### The file -/

def strip (c : Char) : Char := if c = '\r' ∨ c = '\n' then '\x00' else c

/-- The loop of `Simulator::readFile` over the file from a character on; `s` is
set where a line starts. -/
def lineStarts (s : Bool) : List Char → List (List Char)
  | [] => []
  | c :: f => (if s then [(c :: f).map strip] else []) ++ lineStarts (c = '\n') f

/-- `lines`, as pointers into the buffer. The loop begins at the second character. -/
def readFile (f : List Char) : Option (List (List Char)) :=
  let lc := f.count '\n' + 1
  let lines := lineStarts true f.tail
  if lines.length ≥ lc then none else some lines

/-! ### Instructions -/

structure Simulator where
  status : DQErr
  program : Program
  archSize : ℕ
  lines : List (List Char)
  nextLine : ℕ
  haveLookaheadSrec : Bool
  lookaheadSrec : SRec
  instructionInfo : Instruction
  sourceInfo : Source
  currentTime : BitVec 8 → BitVec 64
  enterISR : BitVec 8 → CRFlag

namespace Simulator

/-- What a new object is made of, and what was in its memory before: the constructor sets neither of
the look-ahead's members. -/
structure Setup where
  program : Program
  archSize : ℕ
  haveLookaheadSrec : Bool
  lookaheadSrec : SRec

/-- The constructor; `none` if it reports an error. -/
def init (setup : Setup) (f : List Char) : Option Simulator :=
  (readFile f).map fun lines =>
    { status := .ok
      program := setup.program
      archSize := setup.archSize
      lines
      nextLine := 0
      haveLookaheadSrec := setup.haveLookaheadSrec
      lookaheadSrec := setup.lookaheadSrec
      instructionInfo := {}
      sourceInfo := {}
      currentTime := fun _ => 0
      enterISR := fun _ => 0 }

/-- `getNextSrec` from the line `l` on, at the front of the list. -/
def getNextSrec (only : Option (BitVec 8)) : ℕ → List (List Char) → SRec → Except DQErr SRec
  | _, [], _ => .error .eof
  | l, lp :: lines, srec =>
    match SRec.parseLine l only srec lp with
    | none => .error .err
    | some (srec, _) =>
      if srec.validLine = false ∨ srec.valid = false then getNextSrec only (l + 1) lines srec
        else .ok srec

/-- The loops of `NextInstruction` around `getNextSrec`, which take up to `n` turns. -/
def readSrec (lines : List (List Char)) (only : Option (BitVec 8)) :
    ℕ → ℕ → SRec → Except DQErr SRec
  | 0, _, _ => .error .err
  | n + 1, l, srec =>
    match getNextSrec only l (lines.drop l) srec with
    | .error rc => .error rc
    | .ok srec =>
      if srec.validLine = false ∨ srec.valid = false ∨ srec.haveFRF ∨ srec.haveVRF
        then readSrec lines only n (srec.line + 1) srec
      else .ok srec

/-- What `computeBranchFlags` finds for the instruction `d` at `currentAddr`: the flags and whether
an interrupt comes next. -/
def branchFlags (d : DecodedInst) (currentAddr nextAddr : ADDRESS) : CRFlag × BranchFlags × Bool :=
  let next := currentAddr + BitVec.ofNat 64 (d.inst_size / 8)
  let target := currentAddr + d.immediate.signExtend 64
  match d.inst_type with
  | .jal | .cJal =>
    (if isLink d.rd then CRFlag.isCall else 0, .none, nextAddr ≠ 0 ∧ target ≠ nextAddr)
  | .jalr =>
    (if isLink d.rd then
      if ¬ isLink d.rs1 then CRFlag.isCall else if d.rd ≠ d.rs1 then CRFlag.isSwap
        else CRFlag.isCall
    else if isLink d.rs1 then CRFlag.isReturn else 0, .none, false)
  | .beq | .bne | .blt | .bge | .bltu | .bgeu | .cBeqz | .cBnez =>
    if nextAddr = 0 then (0, .none, false)
    else if nextAddr = next then (0, .notTaken, false)
    else if nextAddr = target then (0, .taken, false)
    else (0, .none, true)
  | .cJ => (0, .none, nextAddr ≠ 0 ∧ target ≠ nextAddr)
  | .cJr => (if isLink d.rs1 then CRFlag.isReturn else 0, .none, false)
  | .cJalr => (if d.rs1 = REG_5 then CRFlag.isSwap else CRFlag.isCall, .none, false)
  | .ebreak | .ecall => (CRFlag.isException, .none, false)
  | .mret | .sret | .uret => (CRFlag.isExceptionReturn, .none, false)
  | _ => (0, .none, nextAddr ≠ 0 ∧ next ≠ nextAddr)

/-- The flags, and the object with `enterISR` as it is left. -/
def computeBranchFlags (s : Simulator) (core : BitVec 8) (currentAddr : ADDRESS)
    (currentInst : RV_INST) (nextAddr : ADDRESS) :
    Option (CRFlag × BranchFlags) × Simulator :=
  match Disassembler.decodeInstruction currentInst s.archSize with
  | none => (none, { s with status := .err, enterISR := Function.update s.enterISR core 0 })
  | some d =>
    let (crFlag, brFlag, interrupt) := branchFlags d currentAddr nextAddr
    (some (s.enterISR core ||| crFlag, brFlag),
      { s with enterISR :=
        Function.update s.enterISR core (if interrupt then CRFlag.isInterrupt else 0) })

/-- `buildInstructionFromSrec`; the other members stay as they are where the disassembler fails. -/
def buildInstructionFromSrec (s : Simulator) (srec : SRec) (brFlags : BranchFlags)
    (crFlag : CRFlag) : Simulator :=
  match s.program.disassemble srec.pc with
  | none => { s with status := .err }
  | some (instruction, source) =>
    let time := s.currentTime srec.coreId
    { s with
      instructionInfo := { instruction with
        address := srec.pc
        coreId := srec.coreId.toNat
        caFlags := 0
        brFlags := brFlags
        CRFlag := crFlag
        timestamp := srec.cycles.setWidth 64
        pipeCycles := if time = 0 then 0 else srec.cycles - time.setWidth 32 }
      sourceInfo := { source with coreId := srec.coreId.toNat }
      currentTime := Function.update s.currentTime srec.coreId (srec.cycles.setWidth 64) }

/-- What a call returns: the code, and the instruction and the source line
where they are reported. -/
structure Result where
  rc : DQErr
  instInfo : Option Instruction := none
  srcInfo : Option Source := none
  deriving DecidableEq

/-- The record a call begins with: the one that was looked up, if it is the next line, or the next
one of any core. -/
def current (nextSrec : SRec) (s : Simulator) : Except DQErr SRec :=
  if s.haveLookaheadSrec ∧ s.nextLine = s.lookaheadSrec.line then .ok s.lookaheadSrec
  else readSrec s.lines none (s.lines.length + 1) s.nextLine nextSrec

/-- The next record of the same core. The object's record is not looked at
while the flag is cleared. -/
def lookUp (s : Simulator) (srec : SRec) : Simulator :=
  let nextLine := srec.line + 1
  match readSrec s.lines (some srec.coreId) (s.lines.length + 1) nextLine s.lookaheadSrec with
  | .error _ => { s with nextLine, haveLookaheadSrec := false }
  | .ok lookaheadSrec => { s with nextLine, haveLookaheadSrec := true, lookaheadSrec }

/-- `NextInstruction`; `nextSrec` is what is on the stack in the place of the local record. -/
def NextInstruction (nextSrec : SRec) (s : Simulator) : Result × Simulator :=
  if s.lines.length ≤ s.nextLine then ({ rc := .eof }, s)
  else
    match current nextSrec s with
    | .error rc => ({ rc }, s)
    | .ok srec =>
      let s := lookUp s srec
      let lookaheadPC := if s.haveLookaheadSrec then s.lookaheadSrec.pc else 0
      match computeBranchFlags s srec.coreId srec.pc srec.inst lookaheadPC with
      | (none, s) => ({ rc := .err }, s)
      | (some (crFlag, brFlags), s) =>
        let s := buildInstructionFromSrec s srec brFlags crFlag
        (⟨.ok, some s.instructionInfo, some s.sourceInfo⟩, s)

def calls : List SRec → Simulator → List Result
  | [], _ => []
  | nextSrec :: stack, s =>
    let (r, s) := NextInstruction nextSrec s
    r :: calls stack s

end Simulator

end TraceDecoder
