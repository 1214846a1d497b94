import TraceDecoder.Basic

/-!
# Nexus messages

`NexusMessage` with its union of per-code fields as an inductive type. A field the message does not
carry (the history of a correlation message with `cdf = 0`, the second data field of an in-circuit
trace message with `ckdf = 0`) is zero.
-/

namespace TraceDecoder

/-- The `rdata` union of a resource-full message, selected by its `rCode`. -/
inductive ResourceFull
  | i_cnt (n : ℤ)
  | history (h : BitVec 64)
  | notTakenCount (n : BitVec 32)
  | takenCount (n : BitVec 32)
  | other (rCode : BitVec 4)
  deriving DecidableEq, Repr

def ResourceFull.rCode : ResourceFull → BitVec 4
  | i_cnt _ => 0
  | history _ => 1
  | notTakenCount _ => 8
  | takenCount _ => 9
  | other c => c

structure ICT where
  cksrc : BitVec 4
  ckdf : BitVec 2
  ckdata0 : ADDRESS
  ckdata1 : ADDRESS
  deriving DecidableEq, Repr

inductive MessageBody
  | directBranch (i_cnt : ℤ)
  | indirectBranch (b_type : BitVec 2) (i_cnt : ℤ) (u_addr : ADDRESS)
  | directBranchWS (sync : BitVec 4) (i_cnt : ℤ) (f_addr : ADDRESS)
  | indirectBranchWS (sync : BitVec 4) (b_type : BitVec 2) (i_cnt : ℤ) (f_addr : ADDRESS)
  | indirectHistory (b_type : BitVec 2) (i_cnt : ℤ) (u_addr : ADDRESS) (history : BitVec 64)
  | indirectHistoryWS (sync : BitVec 4) (b_type : BitVec 2) (i_cnt : ℤ) (f_addr : ADDRESS)
      (history : BitVec 64)
  | resourceFull (rdata : ResourceFull)
  | sync (sync : BitVec 4) (i_cnt : ℤ) (f_addr : ADDRESS)
  | error (etype : BitVec 4)
  | correlation (evcode : BitVec 4) (cdf : BitVec 2) (i_cnt : ℤ) (history : BitVec 64)
  | auxAccessWrite (addr data : BitVec 32)
  | dataAcquisition (idTag data : BitVec 32)
  | ownership (pid : ℤ) (v : BitVec 1) (prv : BitVec 2) (tag : BitVec 2)
  | ict (m : ICT)
  | ictWS (m : ICT)
  | other (tcode : TCode)
  deriving DecidableEq, Repr

namespace MessageBody

def tcode : MessageBody → TCode
  | directBranch .. => .directBranch
  | indirectBranch .. => .indirectBranch
  | directBranchWS .. => .directBranchWS
  | indirectBranchWS .. => .indirectBranchWS
  | indirectHistory .. => .indirectBranchHistory
  | indirectHistoryWS .. => .indirectBranchHistoryWS
  | resourceFull .. => .resourceFull
  | sync .. => .sync
  | error .. => .error
  | correlation .. => .correlation
  | auxAccessWrite .. => .auxAccessWrite
  | dataAcquisition .. => .dataAcquisition
  | ownership .. => .ownershipTrace
  | ict .. => .inCircuitTrace
  | ictWS .. => .inCircuitTraceWS
  | other t => t

def getCKSRC : MessageBody → Option ICTReason
  | ict m | ictWS m => ICTReason.ofCode m.cksrc
  | _ => none

def getCKDF : MessageBody → BitVec 8
  | ict m | ictWS m => m.ckdf.setWidth 8
  | _ => 0

/-- `ict` and `ictWS` are one place in the union of `NexusMessage`. -/
def setCkdata1 (a : ADDRESS) : MessageBody → MessageBody
  | ict m => ict { m with ckdata1 := a }
  | ictWS m => ictWS { m with ckdata1 := a }
  | body => body

def getSyncReason : MessageBody → Option SyncReason
  | directBranchWS s .. | indirectBranchWS s .. | sync s .. | indirectHistoryWS s .. =>
    SyncReason.ofCode s
  | _ => none

def getF_Addr : MessageBody → ADDRESS
  | directBranchWS _ _ a | indirectBranchWS _ _ _ a | sync _ _ a | indirectHistoryWS _ _ _ a _ => a
  | ictWS m =>
    match ICTReason.ofCode m.cksrc with
    | some .control => if m.ckdf = 1 then m.ckdata0 else -1
    | some .inferableCall => if m.ckdf = 0 ∨ m.ckdf = 1 then m.ckdata0 else -1
    | some _ => m.ckdata0
    | none => -1
  | _ => -1

end MessageBody

structure NexusMessage where
  msgNum : BitVec 32
  haveTimestamp : Bool
  timestamp : TIMESTAMP
  currentAddress : ADDRESS
  time : TIMESTAMP
  coreId : BitVec 8
  prv : BitVec 8
  pid : BitVec 32
  body : MessageBody
  offset : BitVec 32
  rawData : List Byte
  deriving DecidableEq, Repr

namespace NexusMessage

def init : NexusMessage where
  msgNum := 0
  haveTimestamp := false
  timestamp := 0
  currentAddress := 0
  time := 0
  coreId := 0
  prv := 0
  pid := 0
  body := .other .undefined
  offset := 0
  rawData := List.replicate 32 0xff

variable (nm : NexusMessage)

def tcode : TCode := nm.body.tcode

/-- The core the message comes from, as the index the decoder's per-core arrays use. -/
def core : ℕ := nm.coreId.toNat

end NexusMessage

end TraceDecoder
