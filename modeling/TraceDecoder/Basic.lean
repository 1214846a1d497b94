import Mathlib.Tactic.Common
import Mathlib.Data.Nat.Bitwise

/-!
# Types shared by the whole decoder

The enumerations and integer types of `dqr.hpp`. Fields that travel on the wire keep their raw code
(a `BitVec` of the field's width); `ofCode` gives the enumerator the code stands for, if there is
one.
-/

namespace TraceDecoder

abbrev Byte := BitVec 8
abbrev ADDRESS := BitVec 64
abbrev TIMESTAMP := BitVec 64
abbrev RV_INST := BitVec 32

def DQR_MAXCORES : ℕ := 16

inductive DQErr
  | ok | open | eof | eom | bm | err | done
  deriving DecidableEq, Repr

def MSEO_NORMAL : Byte := 0x00
def MSEO_VAR_END : Byte := 0x01
def MSEO_END : Byte := 0x03

/-- Message codes that have no parse function are kept only as far as a switch names them. -/
inductive TCode
  | debugStatus | deviceId | ownershipTrace | directBranch | indirectBranch | dataWrite | dataRead
  | dataAcquisition | error | sync | correction | directBranchWS | indirectBranchWS | dataWriteWS
  | dataReadWS | watchpoint | outputPortReplacement | inputPortReplacement | auxAccessRead
  | auxAccessWrite | auxAccessReadNext | auxAccessWriteNext | auxAccessResponse | resourceFull
  | indirectBranchHistory | indirectBranchHistoryWS | repeatBranch | repeatInstruction
  | repeatInstructionWS | correlation | inCircuitTrace | inCircuitTraceWS | undefined
  deriving DecidableEq, Repr

def TCode.toNat : TCode → ℕ
  | debugStatus => 0 | deviceId => 1 | ownershipTrace => 2 | directBranch => 3 | indirectBranch => 4
  | dataWrite => 5 | dataRead => 6 | dataAcquisition => 7 | error => 8 | sync => 9
  | correction => 10 | directBranchWS => 11 | indirectBranchWS => 12 | dataWriteWS => 13
  | dataReadWS => 14 | watchpoint => 15 | outputPortReplacement => 20 | inputPortReplacement => 21
  | auxAccessRead => 22 | auxAccessWrite => 23 | auxAccessReadNext => 24 | auxAccessWriteNext => 25
  | auxAccessResponse => 26 | resourceFull => 27 | indirectBranchHistory => 28
  | indirectBranchHistoryWS => 29 | repeatBranch => 30 | repeatInstruction => 31
  | repeatInstructionWS => 32 | correlation => 33 | inCircuitTrace => 34 | inCircuitTraceWS => 35
  | undefined => 36

def TCode.ofCode : ℕ → TCode
  | 0 => debugStatus | 1 => deviceId | 2 => ownershipTrace | 3 => directBranch | 4 => indirectBranch
  | 5 => dataWrite | 6 => dataRead | 7 => dataAcquisition | 8 => error | 9 => sync
  | 10 => correction | 11 => directBranchWS | 12 => indirectBranchWS | 13 => dataWriteWS
  | 14 => dataReadWS | 15 => watchpoint | 20 => outputPortReplacement | 21 => inputPortReplacement
  | 22 => auxAccessRead | 23 => auxAccessWrite | 24 => auxAccessReadNext | 25 => auxAccessWriteNext
  | 26 => auxAccessResponse | 27 => resourceFull | 28 => indirectBranchHistory
  | 29 => indirectBranchHistoryWS | 30 => repeatBranch | 31 => repeatInstruction
  | 32 => repeatInstructionWS | 33 => correlation | 34 => inCircuitTrace | 35 => inCircuitTraceWS
  | _ => undefined

@[simp] theorem TCode.ofCode_toNat (t : TCode) : ofCode t.toNat = t := by
  cases t <;> rfl

theorem TCode.toNat_lt (t : TCode) : t.toNat < 2 ^ 6 := by
  cases t <;> decide

inductive BType
  | indirect | exception | hardware | undefined
  deriving DecidableEq, Repr

def BType.ofCode (c : BitVec 2) : BType :=
  if c = 0 then indirect else if c = 1 then exception else if c = 2 then hardware else undefined

inductive SyncReason
  | evti | exitReset | tCnt | exitDebug | iCntOverflow | traceEnable | watchpoint | fifoOverrun
  | exitPowerdown | messageContention | pcSample
  deriving DecidableEq, Repr

def SyncReason.ofCode (c : BitVec 4) : Option SyncReason :=
  match c.toNat with
  | 0 => some evti | 1 => some exitReset | 2 => some tCnt | 3 => some exitDebug
  | 4 => some iCntOverflow | 5 => some traceEnable | 6 => some watchpoint | 7 => some fifoOverrun
  | 9 => some exitPowerdown | 11 => some messageContention | 15 => some pcSample
  | _ => none

inductive ICTReason
  | control | extTrig | inferableCall | exception | interrupt | context | watchpoint | pcSample
  deriving DecidableEq, Repr

def ICTReason.ofCode (c : BitVec 4) : Option ICTReason :=
  match c.toNat with
  | 0 => some control | 8 => some extTrig | 9 => some inferableCall | 10 => some exception
  | 11 => some interrupt | 13 => some context | 14 => some watchpoint | 15 => some pcSample
  | _ => none

/-- Values of the second data field of an in-circuit trace control message. -/
def ICT_CONTROL_TRACE_ON : ADDRESS := 2
def ICT_CONTROL_EXIT_DEBUG : ADDRESS := 4

inductive InstType
  | unknown | jal | jalr | beq | bne | blt | bge | bltu | bgeu | cJ | cJal | cJr | cJalr | cBeqz
  | cBnez | ebreak | cEbreak | ecall | mret | sret | uret | scaler | vectArith | vectLoad
  | vectStore | vectAmo | vectAmoWW | vectConfig
  deriving DecidableEq, Repr

inductive CountType
  | none | i_cnt | history | taken | notTaken
  deriving DecidableEq, Repr

inductive TraceType
  | unknown | btm | htm | htmNoOpt | event | path | vcd
  deriving DecidableEq, Repr

/-- Call/return flags are or-ed together, so they stay a bit set (`int` in the source). -/
abbrev CRFlag := BitVec 32

namespace CRFlag
def isNone : CRFlag := 0
def isCall : CRFlag := 1
def isReturn : CRFlag := 2
def isSwap : CRFlag := 4
def isInterrupt : CRFlag := 8
def isException : CRFlag := 16
def isExceptionReturn : CRFlag := 32
end CRFlag

inductive BranchFlags
  | none | unknown | taken | notTaken
  deriving DecidableEq, Repr

inductive TsType
  | full | rel
  deriving DecidableEq, Repr

/-- `(int)x` of a 64-bit value: the low 32 bits, read as two's complement. -/
def toInt32 (x : BitVec 64) : ℤ := (x.setWidth 32).toInt

/-- `x << n` of `uint64_t`: the shift count is taken modulo 64, as on the supported hosts. -/
def shl64 (x : BitVec 64) (n : ℕ) : BitVec 64 := x <<< (n % 64)

/-- `1 << n` of `int`: the shift count is taken modulo 32, as on the supported hosts. -/
def intBit (n : ℕ) : BitVec 32 := 1#32 <<< (n % 32)

end TraceDecoder
