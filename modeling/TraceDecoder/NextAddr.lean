import TraceDecoder.Count
import TraceDecoder.Disassembler

/-!
# One step of the walk

`Trace::nextAddr(core,...)`: run the instruction at an address and find the next address from the
program, the pending counts and the return-address stack of the core. An address of -1 means that
the program alone does not tell.
-/

namespace TraceDecoder

/-- The words `getInstructionByAddress` fetches: 16-bit instructions are zero-extended and longer
ones than 32 bits are refused. -/
def Fetchable (w : RV_INST) : Prop :=
  (w &&& 3 ≠ 3 → w.toNat < 2 ^ 16) ∧ (w &&& 3 = 3 → w &&& 0x1f ≠ 0x1f)

instance : DecidablePred Fetchable := fun w =>
  inferInstanceAs (Decidable ((w &&& 3 ≠ 3 → w.toNat < 2 ^ 16) ∧ (w &&& 3 = 3 → w &&& 0x1f ≠ 0x1f)))

structure Image where
  word : ADDRESS → Option RV_INST
  fetched : ∀ a w, word a = some w → Fetchable w

def Image.ofWords (words : ADDRESS → Option RV_INST) : Image where
  word a := (words a).filter fun w => Fetchable w
  fetched _ _ hw := of_decide_eq_true (Option.filter_eq_some_iff.mp hw).2

def Image.empty : Image := ⟨fun _ => none, nofun⟩

/-- `high` from `start` on, `low` below it. -/
def Image.above (start : ADDRESS) (high low : Image) : Image where
  word a := if start.toNat ≤ a.toNat then high.word a else low.word a
  fetched a w hw := by
    split_ifs at hw
    · exact high.fetched a w hw
    · exact low.fetched a w hw

/-- Reference parameters of a call that succeeds, with the trace type and counts it leaves. -/
structure Stepped where
  pc : ADDRESS
  crFlag : CRFlag
  brFlag : BranchFlags
  traceType : TraceType
  count : Count
  deriving DecidableEq

def isLink (r : Reg) : Bool := r = REG_1 ∨ r = REG_5

namespace Stepped

/-- The end of `JALR`, `C_JR` and `C_JALR`: a return or swap that does not use up the instruction
count can only come from a history trace. -/
def indirectJump (mask crFlag : CRFlag) (traceType : TraceType) (c : Count) (halfWords : ℤ)
    (next pc : ADDRESS) : Stepped :=
  let traceType :=
    if traceType = .btm ∧ crFlag &&& mask ≠ 0 ∧ halfWords < c.i_cnt then .htm else traceType
  let pc :=
    match traceType with
    | .htmNoOpt => -1
    | .btm => if halfWords < c.i_cnt then next else -1
    | _ => pc
  ⟨pc, crFlag, .none, traceType, c⟩

/-- `JAL` and `C_JAL`. -/
def jal (d : DecodedInst) (traceType : TraceType) (c : Count) (next target : ADDRESS) : Stepped :=
  if isLink d.rd then ⟨target, CRFlag.isCall, .none, traceType, c.push next⟩
  else ⟨target, CRFlag.isNone, .none, traceType, c⟩

def jalr (d : DecodedInst) (traceType : TraceType) (c : Count) (halfWords : ℤ) (next : ADDRESS) :
    Stepped :=
  let mask := CRFlag.isReturn ||| CRFlag.isSwap
  if isLink d.rd then
    if ¬ isLink d.rs1 then indirectJump mask CRFlag.isCall traceType (c.push next) halfWords
      next (-1)
    else if d.rd ≠ d.rs1 then
      indirectJump mask CRFlag.isSwap traceType (c.pop.2.push next) halfWords next c.pop.1
    else indirectJump mask CRFlag.isCall traceType (c.push next) halfWords next (-1)
  else if isLink d.rs1 then
    indirectJump mask CRFlag.isReturn traceType c.pop.2 halfWords next c.pop.1
  else indirectJump mask CRFlag.isNone traceType c halfWords next (-1)

def cJr (d : DecodedInst) (traceType : TraceType) (c : Count) (halfWords : ℤ) (next : ADDRESS) :
    Stepped :=
  if isLink d.rs1 then
    indirectJump CRFlag.isReturn CRFlag.isReturn traceType c.pop.2 halfWords next c.pop.1
  else indirectJump CRFlag.isReturn CRFlag.isNone traceType c halfWords next (-1)

def cJalr (d : DecodedInst) (traceType : TraceType) (c : Count) (halfWords : ℤ) (next : ADDRESS) :
    Stepped :=
  if d.rs1 = REG_5 then
    indirectJump CRFlag.isSwap CRFlag.isSwap traceType (c.pop.2.push next) halfWords next c.pop.1
  else indirectJump CRFlag.isSwap CRFlag.isCall traceType (c.push next) halfWords next (-1)

/-- A conditional branch with no branch outcomes left. When it uses up the instruction count, a
history message with a full address tells where it went; otherwise the branch is tried again after
the next message. -/
def undecided (nm : NexusMessage) (c : Count) (halfWords : ℤ) (next target : ADDRESS) :
    ADDRESS × BranchFlags :=
  match nm.body with
  | .indirectHistoryWS _ _ _ f_addr _ =>
    if c.i_cnt = halfWords then
      if target = next then (next, .notTaken)
      else if f_addr <<< 1 = target then (f_addr <<< 1, .taken)
      else if f_addr <<< 1 = next then (f_addr <<< 1, .notTaken)
      else (f_addr <<< 1, .unknown)
    else (-1, .unknown)
  | _ => (-1, .unknown)

/-- A conditional branch of a history trace; `none` when there are no counts at all. -/
def branchHtm (nm : NexusMessage) (traceType : TraceType) (c : Count) (halfWords : ℤ)
    (next target : ADDRESS) : Option Stepped :=
  match c.getCurrentCountType with
  | .none => none
  | .i_cnt =>
    let (pc, brFlag) := undecided nm c halfWords next target
    some ⟨pc, CRFlag.isNone, brFlag, traceType, c⟩
  | .history =>
    match c.consumeHistory with
    | none => none
    | some (true, c) => some ⟨target, CRFlag.isNone, .taken, traceType, c⟩
    | some (false, c) => some ⟨next, CRFlag.isNone, .notTaken, traceType, c⟩
  | .taken => c.consumeTakenCount.map fun c => ⟨target, CRFlag.isNone, .taken, traceType, c⟩
  | .notTaken => c.consumeNotTakenCount.map fun c => ⟨next, CRFlag.isNone, .notTaken, traceType, c⟩

/-- A conditional branch of a branch trace is taken when it uses up the instruction count and the
message is a direct branch. -/
def branchBtm (nm : NexusMessage) (traceType : TraceType) (c : Count) (halfWords : ℤ)
    (next target : ADDRESS) : Stepped :=
  if halfWords < c.i_cnt then ⟨next, CRFlag.isNone, .notTaken, traceType, c⟩
  else if nm.tcode = .directBranch ∨ nm.tcode = .directBranchWS then
    ⟨target, CRFlag.isNone, .taken, traceType, c⟩
  else ⟨next, CRFlag.isNone, .notTaken, traceType, c⟩

def branch (nm : NexusMessage) (traceType : TraceType) (c : Count) (halfWords : ℤ)
    (next target : ADDRESS) : Option Stepped :=
  match traceType with
  | .htm | .htmNoOpt | .event => branchHtm nm traceType c halfWords next target
  | .btm => some (branchBtm nm traceType c halfWords next target)
  | _ => none

/-- The `switch (inst_type)`. -/
def ofInst (d : DecodedInst) (nm : NexusMessage) (traceType : TraceType) (c : Count) (halfWords : ℤ)
    (next target : ADDRESS) : Option Stepped :=
  match d.inst_type with
  | .jal | .cJal => some (jal d traceType c next target)
  | .jalr => some (jalr d traceType c halfWords next)
  | .beq | .bne | .blt | .bge | .bltu | .bgeu | .cBeqz | .cBnez =>
    branch nm traceType c halfWords next target
  | .cJ => some ⟨target, CRFlag.isNone, .none, traceType, c⟩
  | .cJr => some (cJr d traceType c halfWords next)
  | .cJalr => some (cJalr d traceType c halfWords next)
  | .ebreak | .ecall => some ⟨-1, CRFlag.isException, .none, traceType, c⟩
  | .mret | .sret | .uret => some ⟨-1, CRFlag.isExceptionReturn, .none, traceType, c⟩
  | _ => some ⟨next, CRFlag.isNone, .none, traceType, c⟩

/-- The instruction count is consumed unless the branch has to be tried again. -/
def consume (s : Stepped) (halfWords : ℤ) : Stepped :=
  if s.brFlag = .unknown then s else { s with count := s.count.consumeICnt halfWords }

end Stepped

/-- A failure returns `DQERR_ERR` with the counts as they were; the error is the trace status it
leaves. A fetch that succeeds sets the status to `DQERR_OK`, which the last two failures keep. -/
def nextAddr (img : Image) (archSize : ℕ) (traceType : TraceType) (c : Count) (nm : NexusMessage)
    (addr : ADDRESS) : Except DQErr Stepped :=
  match img.word addr with
  | none => .error .err
  | some inst =>
    match Disassembler.decodeInstruction inst archSize with
    | none => .error .err
    | some d =>
      let halfWords : ℤ := d.inst_size / 16
      let next := addr + BitVec.ofNat 64 (d.inst_size / 8)
      let target := addr + d.immediate.signExtend 64
      match Stepped.ofInst d nm traceType c halfWords next target with
      | none => .error .ok
      | some s => .ok (s.consume halfWords)

end TraceDecoder
