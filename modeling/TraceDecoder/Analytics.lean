import TraceDecoder.Message

/-!
# Trace analytics

The counters that the parser and the instruction loop update as they go. Decoding reads back only
`status` and the number of messages seen so far; everything else is a report.
-/

namespace TraceDecoder

/-- The counters are `uint32_t` and wrap. -/
abbrev Counter := BitVec 32

structure CoreAnalytics where
  (num_inst num_inst16 num_inst32 : Counter := 0)
  (num_trace_msgs num_trace_syncs num_trace_dbranch num_trace_ibranch num_trace_dataacq : Counter :=
    0)
  (num_trace_dbranchws num_trace_ibranchws num_trace_ihistory num_trace_ihistoryws : Counter := 0)
  (num_trace_resourcefull num_trace_correlation num_trace_auxaccesswrite num_trace_ownership :
    Counter := 0)
  (num_trace_error num_trace_incircuittraceWS num_trace_incircuittrace : Counter := 0)
  (trace_bits trace_bits_max trace_bits_min trace_bits_mseo : Counter := 0)
  (max_hist_bits min_hist_bits max_notTakenCount min_notTakenCount max_takenCount min_takenCount :
    Counter := 0)
  (trace_bits_sync trace_bits_dbranch trace_bits_ibranch trace_bits_dataacq trace_bits_dbranchws :
    Counter := 0)
  (trace_bits_ibranchws trace_bits_ihistory trace_bits_ihistoryws trace_bits_resourcefull :
    Counter := 0)
  (trace_bits_correlation trace_bits_auxaccesswrite trace_bits_ownership trace_bits_error :
    Counter := 0)
  (trace_bits_incircuittraceWS trace_bits_incircuittrace : Counter := 0)
  (num_trace_ts num_trace_uaddr num_trace_faddr : Counter := 0)
  (num_trace_ihistory_taken_branches num_trace_ihistory_nottaken_branches : Counter := 0)
  (num_trace_resourcefull_i_cnt num_trace_resourcefull_hist num_trace_resourcefull_takenCount :
    Counter := 0)
  (num_trace_resourcefull_notTakenCount num_trace_resourcefull_taken_branches : Counter := 0)
  (num_trace_resourcefull_nottaken_branches : Counter := 0)
  (num_taken_branches num_notTaken_branches num_calls num_returns num_swaps num_exceptions :
    Counter := 0)
  (num_exception_returns num_interrupts : Counter := 0)
  (trace_bits_ts trace_bits_ts_max trace_bits_ts_min : Counter := 0)
  (trace_bits_uaddr trace_bits_uaddr_max trace_bits_uaddr_min : Counter := 0)
  (trace_bits_faddr trace_bits_faddr_max trace_bits_faddr_min : Counter := 0)
  (trace_bits_hist : Counter := 0)

/-- `core` has `DQR_MAXCORES` entries and is indexed by the message's core id as it stands.
`overrun` is no member: it says that an entry behind the last one has been written, over whatever
stands there. -/
structure Analytics where
  status : DQErr := .ok
  cores : BitVec 32 := 0
  (num_trace_msgs_all_cores num_trace_mseo_bits_all_cores num_trace_bits_all_cores : Counter := 0)
  (num_trace_bits_all_cores_max num_trace_bits_all_cores_min : Counter := 0)
  (num_inst_all_cores num_inst16_all_cores num_inst32_all_cores : Counter := 0)
  num_branches_all_cores : Counter := 0
  core : ℕ → CoreAnalytics := fun _ => {}
  overrun : Bool := false

def raiseMax (max n : Counter) : Counter := if max.toNat < n.toNat then n else max

def lowerMin (min n : Counter) : Counter := if min = 0 ∨ n.toNat < min.toNat then n else min

structure HistoryScan where
  msb : ℤ
  taken : ℤ
  nottaken : ℤ

/-- The `while (mask > 1)` loop over a history word; 64 shifts empty it. -/
def scanHistory : ℕ → BitVec 64 → HistoryScan → HistoryScan
  | 0, _, s => s
  | fuel + 1, mask, s =>
    if 1 < mask.toNat then
      scanHistory fuel (mask >>> 1)
        (if mask.getLsbD 0 then { s with msb := s.msb + 1, taken := s.taken + 1 }
         else { s with msb := s.msb + 1, nottaken := s.nottaken + 1 })
    else s

/-- `taken` starts at -1 to account for the stop bit. -/
def historyBits (history : BitVec 64) : HistoryScan := scanHistory 64 history ⟨-1, -1, 0⟩

namespace CoreAnalytics

variable (c : CoreAnalytics)

def addMessage (bits mseo_bits : Counter) : CoreAnalytics :=
  { c with
    num_trace_msgs := c.num_trace_msgs + 1
    trace_bits_mseo := c.trace_bits_mseo + mseo_bits
    trace_bits := c.trace_bits + bits
    trace_bits_max := raiseMax c.trace_bits_max bits
    trace_bits_min := lowerMin c.trace_bits_min bits }

def addTimestamp (ts_bits : Counter) : CoreAnalytics :=
  if ts_bits = 0 then c
  else
    { c with
      num_trace_ts := c.num_trace_ts + 1
      trace_bits_ts := c.trace_bits_ts + ts_bits
      trace_bits_ts_max := raiseMax c.trace_bits_ts_max ts_bits
      trace_bits_ts_min := lowerMin c.trace_bits_ts_min ts_bits }

def addUAddr (addr_bits : Counter) : CoreAnalytics :=
  { c with
    num_trace_uaddr := c.num_trace_uaddr + 1
    trace_bits_uaddr := c.trace_bits_uaddr + addr_bits
    trace_bits_uaddr_max := raiseMax c.trace_bits_uaddr_max addr_bits
    trace_bits_uaddr_min := lowerMin c.trace_bits_uaddr_min addr_bits }

def addFAddr (addr_bits : Counter) : CoreAnalytics :=
  { c with
    num_trace_faddr := c.num_trace_faddr + 1
    trace_bits_faddr := c.trace_bits_faddr + addr_bits
    trace_bits_faddr_max := raiseMax c.trace_bits_faddr_max addr_bits
    trace_bits_faddr_min := lowerMin c.trace_bits_faddr_min addr_bits }

def addHistory (h : HistoryScan) : CoreAnalytics :=
  { c with
    num_trace_ihistory_taken_branches :=
      c.num_trace_ihistory_taken_branches + BitVec.ofInt 32 h.taken
    num_trace_ihistory_nottaken_branches :=
      c.num_trace_ihistory_nottaken_branches + BitVec.ofInt 32 h.nottaken
    trace_bits_hist :=
      if 0 ≤ h.msb then c.trace_bits_hist + BitVec.ofInt 32 (h.msb + 1) else c.trace_bits_hist
    max_hist_bits :=
      if 0 ≤ h.msb ∧ c.max_hist_bits.toInt ≤ h.msb then BitVec.ofInt 32 (h.msb + 1)
      else c.max_hist_bits
    min_hist_bits :=
      if h.msb + 1 < c.min_hist_bits.toInt then BitVec.ofInt 32 (h.msb + 1)
      else c.min_hist_bits }

def addResourceFull (rdata : ResourceFull) : CoreAnalytics :=
  match rdata with
  | .i_cnt _ => { c with num_trace_resourcefull_i_cnt := c.num_trace_resourcefull_i_cnt + 1 }
  | .history h =>
    { c with num_trace_resourcefull_hist := c.num_trace_resourcefull_hist + 1 }.addHistory
      (historyBits h)
  | .notTakenCount n =>
    { c with
      num_trace_resourcefull_notTakenCount := c.num_trace_resourcefull_notTakenCount + 1
      num_trace_resourcefull_nottaken_branches := c.num_trace_resourcefull_nottaken_branches + n
      max_notTakenCount := raiseMax c.max_notTakenCount n
      min_notTakenCount := lowerMin c.min_notTakenCount n }
  | .takenCount n =>
    { c with
      num_trace_resourcefull_takenCount := c.num_trace_resourcefull_takenCount + 1
      num_trace_resourcefull_taken_branches := c.num_trace_resourcefull_taken_branches + n
      max_takenCount := raiseMax c.max_takenCount n
      min_takenCount := lowerMin c.min_takenCount n }
  | .other _ => c

/-- The `switch (nm.tcode)`. The bits of a correlation message go to `trace_bits_ibranchws`. -/
def addBody (body : MessageBody) (bits addr_bits : Counter) : CoreAnalytics :=
  match body with
  | .ownership .. =>
    { c with num_trace_ownership := c.num_trace_ownership + 1
             trace_bits_ownership := c.trace_bits_ownership + bits }
  | .directBranch .. =>
    { c with num_trace_dbranch := c.num_trace_dbranch + 1
             trace_bits_dbranch := c.trace_bits_dbranch + bits }
  | .indirectBranch .. =>
    { c with num_trace_ibranch := c.num_trace_ibranch + 1
             trace_bits_ibranch := c.trace_bits_ibranch + bits }.addUAddr addr_bits
  | .dataAcquisition .. =>
    { c with num_trace_dataacq := c.num_trace_dataacq + 1
             trace_bits_dataacq := c.trace_bits_dataacq + bits }
  | .error .. =>
    { c with num_trace_error := c.num_trace_error + 1
             trace_bits_error := c.trace_bits_error + bits }
  | .sync .. =>
    { c with num_trace_syncs := c.num_trace_syncs + 1
             trace_bits_sync := c.trace_bits_sync + bits }.addFAddr addr_bits
  | .directBranchWS .. =>
    { c with num_trace_dbranchws := c.num_trace_dbranchws + 1
             trace_bits_dbranchws := c.trace_bits_dbranchws + bits }.addFAddr addr_bits
  | .indirectBranchWS .. =>
    { c with num_trace_ibranchws := c.num_trace_ibranchws + 1
             trace_bits_ibranchws := c.trace_bits_ibranchws + bits }.addFAddr addr_bits
  | .auxAccessWrite .. =>
    { c with num_trace_auxaccesswrite := c.num_trace_auxaccesswrite + 1
             trace_bits_auxaccesswrite := c.trace_bits_auxaccesswrite + bits }
  | .correlation .. =>
    { c with num_trace_correlation := c.num_trace_correlation + 1
             trace_bits_ibranchws := c.trace_bits_ibranchws + bits }
  | .indirectHistory _ _ _ h =>
    ({ c with num_trace_ihistory := c.num_trace_ihistory + 1
              trace_bits_ihistory := c.trace_bits_ihistory + bits }.addHistory
        (historyBits h)).addUAddr addr_bits
  | .indirectHistoryWS _ _ _ _ h =>
    ({ c with num_trace_ihistoryws := c.num_trace_ihistoryws + 1
              trace_bits_ihistoryws := c.trace_bits_ihistoryws + bits }.addHistory
        (historyBits h)).addFAddr addr_bits
  | .resourceFull r =>
    { c with num_trace_resourcefull := c.num_trace_resourcefull + 1
             trace_bits_resourcefull := c.trace_bits_resourcefull + bits }.addResourceFull r
  | .ict .. =>
    { c with num_trace_incircuittrace := c.num_trace_incircuittrace + 1
             trace_bits_incircuittrace := c.trace_bits_incircuittrace + bits }.addUAddr addr_bits
  | .ictWS .. =>
    { c with num_trace_incircuittraceWS := c.num_trace_incircuittraceWS + 1
             trace_bits_incircuittraceWS := c.trace_bits_incircuittraceWS + bits }.addFAddr
               addr_bits
  | .other _ => c

def addInstruction (instSize : ℤ) (crFlags : CRFlag) (brFlags : BranchFlags) : CoreAnalytics :=
  { c with
    num_inst := c.num_inst + 1
    num_inst16 := if instSize = 16 then c.num_inst16 + 1 else c.num_inst16
    num_inst32 := if instSize = 32 then c.num_inst32 + 1 else c.num_inst32
    num_taken_branches :=
      if brFlags = .taken then c.num_taken_branches + 1 else c.num_taken_branches
    num_notTaken_branches :=
      if brFlags = .notTaken then c.num_notTaken_branches + 1 else c.num_notTaken_branches
    num_calls := if crFlags &&& CRFlag.isCall ≠ 0 then c.num_calls + 1 else c.num_calls
    num_returns := if crFlags &&& CRFlag.isReturn ≠ 0 then c.num_returns + 1 else c.num_returns
    num_swaps := if crFlags &&& CRFlag.isSwap ≠ 0 then c.num_swaps + 1 else c.num_swaps
    num_interrupts :=
      if crFlags &&& CRFlag.isInterrupt ≠ 0 then c.num_interrupts + 1 else c.num_interrupts
    num_exceptions :=
      if crFlags &&& CRFlag.isException ≠ 0 then c.num_exceptions + 1 else c.num_exceptions
    num_exception_returns :=
      if crFlags &&& CRFlag.isExceptionReturn ≠ 0 then c.num_exception_returns + 1
      else c.num_exception_returns }

end CoreAnalytics

/-- The branches a message adds to `num_branches_all_cores`. -/
def branchesOf : MessageBody → ℤ
  | .directBranch .. | .indirectBranch .. | .directBranchWS .. | .indirectBranchWS .. => 1
  | .indirectHistory _ _ _ h | .indirectHistoryWS _ _ _ _ h =>
    1 + (historyBits h).taken + (historyBits h).nottaken
  | .resourceFull (.history h) => (historyBits h).taken + (historyBits h).nottaken
  | _ => 0

/-- The cases of the `switch` that end with `status = DQERR_ERR`. -/
def unknownBody : MessageBody → Bool
  | .other _ | .resourceFull (.other _) => true
  | _ => false

namespace Analytics

variable (a : Analytics)

def currentTraceMsgNum : BitVec 32 := a.num_trace_msgs_all_cores

def updateTraceInfo (nm : NexusMessage) (bits mseo_bits ts_bits addr_bits : Counter) : Analytics :=
  { a with
    status := if unknownBody nm.body then .err else a.status
    cores := a.cores ||| intBit nm.core
    num_trace_msgs_all_cores := a.num_trace_msgs_all_cores + 1
    num_trace_bits_all_cores := a.num_trace_bits_all_cores + bits
    num_trace_mseo_bits_all_cores := a.num_trace_mseo_bits_all_cores + mseo_bits
    num_trace_bits_all_cores_max := raiseMax a.num_trace_bits_all_cores_max bits
    num_trace_bits_all_cores_min := lowerMin a.num_trace_bits_all_cores_min bits
    num_branches_all_cores := a.num_branches_all_cores + BitVec.ofInt 32 (branchesOf nm.body)
    core := Function.update a.core nm.core
      ((((a.core nm.core).addMessage bits mseo_bits).addTimestamp ts_bits).addBody nm.body bits
        addr_bits)
    overrun := a.overrun || decide (DQR_MAXCORES ≤ nm.core) }

def updateInstructionInfo (core_id : ℕ) (instSize : ℤ) (crFlags : CRFlag) (brFlags : BranchFlags) :
    Analytics :=
  { a with
    status := if instSize = 16 ∨ instSize = 32 then a.status else .err
    num_inst_all_cores := a.num_inst_all_cores + 1
    num_inst16_all_cores :=
      if instSize = 16 then a.num_inst16_all_cores + 1 else a.num_inst16_all_cores
    num_inst32_all_cores :=
      if instSize = 32 then a.num_inst32_all_cores + 1 else a.num_inst32_all_cores
    core := Function.update a.core core_id
      ((a.core core_id).addInstruction instSize crFlags brFlags)
    overrun := a.overrun || decide (DQR_MAXCORES ≤ core_id) }

@[simp] theorem updateTraceInfo_status (nm : NexusMessage)
    (bits mseo_bits ts_bits addr_bits : Counter) :
    (a.updateTraceInfo nm bits mseo_bits ts_bits addr_bits).status
      = if unknownBody nm.body then .err else a.status := rfl

@[simp] theorem updateInstructionInfo_status (core_id : ℕ) (instSize : ℤ) (crFlags : CRFlag)
    (brFlags : BranchFlags) :
    (a.updateInstructionInfo core_id instSize crFlags brFlags).status
      = if instSize = 16 ∨ instSize = 32 then a.status else .err := rfl

end Analytics

end TraceDecoder
