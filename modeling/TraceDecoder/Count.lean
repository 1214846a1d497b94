import TraceDecoder.AddrStack
import TraceDecoder.Message

/-!
# Pending counts

One core's slice of the arrays of `Count`: what trace messages have promised and the walk over the
program has not used yet. Branch outcomes come as history bits, taken counts or not-taken counts, in
that order of priority; the instruction count is in half-words.
-/

namespace TraceDecoder

structure Count where
  i_cnt : ℤ
  history : BitVec 64
  histBit : ℤ
  takenCount : ℤ
  notTakenCount : ℤ
  stack : AddrStack
  deriving DecidableEq

namespace Count

def init : Count where
  i_cnt := 0
  history := 0
  histBit := -1
  takenCount := 0
  notTakenCount := 0
  stack := AddrStack.init

variable (c : Count)

def resetCounts : Count := { c with i_cnt := 0, histBit := -1, takenCount := 0, notTakenCount := 0 }

def resetStack : Count := { c with stack := c.stack.reset }

def getCurrentCountType : CountType :=
  if 0 ≤ c.histBit then .history
  else if 0 < c.takenCount then .taken
  else if 0 < c.notTakenCount then .notTaken
  else if 0 < c.i_cnt then .i_cnt
  else .none

def setICnt (count : ℤ) : Count := { c with i_cnt := c.i_cnt + count }

/-- Whether branch outcomes are pending, the test all of the setters below begin with. -/
def pending : Bool := decide (0 ≤ c.histBit ∨ c.takenCount ≠ 0 ∨ c.notTakenCount ≠ 0)

/-- The loop from bit `i - 1` down to the stop bit, the most significant 1. -/
def belowStopBit (hist : BitVec 64) : ℕ → ℤ
  | 0 => -1
  | i + 1 => if hist.getLsbD i then (i : ℤ) - 1 else belowStopBit hist i

def setHistory (hist : BitVec 64) : DQErr × Count :=
  if c.pending then (.err, c)
  else (.ok, { c with history := hist, histBit := belowStopBit hist 64 })

def setTakenCount (takenCnt : ℤ) : DQErr × Count :=
  if c.pending then (.err, c) else (.ok, { c with takenCount := takenCnt })

def setNotTakenCount (notTakenCnt : ℤ) : DQErr × Count :=
  if c.pending then (.err, c) else (.ok, { c with notTakenCount := notTakenCnt })

structure NewCounts where
  i_cnt : ℤ := 0
  history : BitVec 64 := 0
  taken : ℤ := 0
  notTaken : ℤ := 0
  deriving DecidableEq, Repr

/-- `none` for message codes and resource codes the switch rejects. -/
def newCounts : MessageBody → Option NewCounts
  | .ownership .. | .dataAcquisition .. | .error _ | .auxAccessWrite .. | .ict _ | .ictWS _ =>
    some {}
  | .directBranch i_cnt | .indirectBranch _ i_cnt _ | .sync _ i_cnt _ | .directBranchWS _ i_cnt _
  | .indirectBranchWS _ _ i_cnt _ => some { i_cnt := i_cnt }
  | .resourceFull (.i_cnt n) => some { i_cnt := n }
  | .resourceFull (.history h) => some { history := h }
  | .resourceFull (.notTakenCount n) => some { notTaken := n.toInt }
  | .resourceFull (.takenCount n) => some { taken := n.toInt }
  | .resourceFull (.other _) => none
  | .indirectHistory _ i_cnt _ h | .indirectHistoryWS _ _ i_cnt _ h =>
    some { i_cnt := i_cnt, history := h }
  | .correlation _ cdf i_cnt h => some { i_cnt := i_cnt, history := if cdf = 1 then h else 0 }
  | .other t =>
    match t with
    | .debugStatus | .deviceId | .ownershipTrace | .dataWrite | .dataRead | .dataAcquisition
    | .error | .correction | .auxAccessWrite | .inCircuitTrace | .inCircuitTraceWS => some {}
    | _ => none

/-- The setters at the end of `setCounts`. An error in a later one leaves
what the earlier ones did. -/
def addCounts (n : NewCounts) : DQErr × Count :=
  let c := if n.i_cnt ≠ 0 then c.setICnt n.i_cnt else c
  let (rc, c) := if n.history ≠ 0 then c.setHistory n.history else (.ok, c)
  if rc ≠ .ok then (rc, c)
  else
    let (rc, c) := if n.taken ≠ 0 then c.setTakenCount n.taken else (.ok, c)
    if rc ≠ .ok then (rc, c)
    else if n.notTaken ≠ 0 then c.setNotTakenCount n.notTaken else (.ok, c)

def setCounts (body : MessageBody) : DQErr × Count :=
  match newCounts body with
  | some n => c.addCounts n
  | none => (.err, c)

def consumeICnt (numToConsume : ℤ) : Count := { c with i_cnt := c.i_cnt - numToConsume }

/-- The mask is an `int`, sign-extended. -/
def isTaken : Bool := c.history &&& (intBit c.histBit.toNat).signExtend 64 ≠ 0

/-- `none` for the return code 1: there was nothing to consume. -/
def consumeHistory : Option (Bool × Count) :=
  if c.histBit < 0 then none else some (c.isTaken, { c with histBit := c.histBit - 1 })

def consumeTakenCount : Option Count :=
  if c.takenCount ≤ 0 then none else some { c with takenCount := c.takenCount - 1 }

def consumeNotTakenCount : Option Count :=
  if c.notTakenCount ≤ 0 then none else some { c with notTakenCount := c.notTakenCount - 1 }

def push (addr : ADDRESS) : Count := { c with stack := (c.stack.push addr).2 }

def pop : ADDRESS × Count := (c.stack.pop.1, { c with stack := c.stack.pop.2 })

end Count

end TraceDecoder
